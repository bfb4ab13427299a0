import PgVmPool.Purge

namespace PgVmPool

open Function Transition

namespace EnsurePc

def holding : EnsurePc → Option SandboxId
  | .confirmSpare _ id => some id
  | .swapStop p id | .swapCopy p id | .swapStart p id | .swapWait p id | .swapDispose p id
  | .readyPg p id | .ensureDatabase p id | .restoring p id | .slotBudget p id | .dispose p id =>
    if p = .spare then some id else none
  | _ => none

/-- In `SparePool::take`, with an id claimed and not yet confirmed. -/
def confirming : EnsurePc → Bool
  | .confirmSpare _ _ => true
  | _ => false

end EnsurePc

/-- What the spare pool has done: a `take` that was called with `bound` returned `id`, or
`release_failed` got a confirmed kill of it. -/
inductive Handout
  | taken (id : SandboxId) (bound : List SandboxId)
  | released (id : SandboxId)
  deriving DecidableEq

def EnsurePc.handout (bound : List SandboxId) : EnsurePc → Answer → Option Handout
  | .confirmSpare _ id, .running _ | .confirmSpare _ id, .failed => some (.taken id bound)
  | .swapDispose .spare id, .ok | .dispose .spare id, .ok => some (.released id)
  | _, _ => none

def EnsurePc.yields : EnsurePc → Answer → Option SandboxId
  | .confirmSpare _ id, .stopped | .confirmSpare _ id, .notFound | .swapDispose .spare id, .ok
  | .dispose .spare id, .ok => some id
  | _, _ => none

def Task.ensuring : Task → Option (BringUp × EnsurePc)
  | .checkout _ (.bringUp _ b p) => some (b, p)
  | .offload s _ (.bringUp _ known p) => some (⟨s, known, none, none⟩, p)
  | _ => none

def Task.holding (x : Task) : Option SandboxId := x.ensuring.bind (·.2.holding)

def Task.confirming (x : Task) : Bool := x.ensuring.any (·.2.confirming)

def Task.yields (x : Task) (a : Answer) : Option SandboxId := x.ensuring.bind (·.2.yields a)

def Task.handout (x : Task) (a : Answer) : Option Handout :=
  x.ensuring.bind fun r ↦ r.2.handout (r.1.spares.getD []) a

/-- What a step of a bring-up does to the claims and the shelf. -/
inductive SpareMove (bound : List SandboxId) (a : Answer) (w w' : World) : EnsurePc → EnsurePc → Prop
  | keep {p p' : EnsurePc} (claimed : w'.claimed = w.claimed) (ready : w'.ready.Sublist w.ready)
    (holding : ∀ v, p'.holding = some v → p.holding = some v) (confirming : p.confirming = false)
    (confirming' : p'.confirming = false) (quiet : p.handout bound a = none) :
    SpareMove bound a w w' p p'
  | pop {left : ℕ} {v : SandboxId} {rest : List SandboxId}
    (h : popReady bound w.claimed w.ready = (some v, rest))
    (claimed : w'.claimed = update w.claimed v true) (ready : w'.ready = rest) :
    SpareMove bound a w w' (.takeSpare (left + 1)) (.confirmSpare left v)
  | take {left : ℕ} {v : SandboxId} {p' : EnsurePc} (claimed : w'.claimed = w.claimed)
    (ready : w'.ready = w.ready) (holding : p'.holding = some v) (confirming : p'.confirming = false)
    (taken : (EnsurePc.confirmSpare left v).handout bound a = some (.taken v bound)) :
    SpareMove bound a w w' (.confirmSpare left v) p'
  | drop {left : ℕ} {v : SandboxId} (claimed : w'.claimed = update w.claimed v false)
    (ready : w'.ready = w.ready) (stale : (EnsurePc.confirmSpare left v).yields a = some v)
    (quiet : (EnsurePc.confirmSpare left v).handout bound a = none) :
    SpareMove bound a w w' (.confirmSpare left v) (.takeSpare left)
  | release {p : EnsurePc} {v : SandboxId} (holding : p.holding = some v)
    (confirming : p.confirming = false) (claimed : w'.claimed = update w.claimed v false)
    (ready : w'.ready.Sublist w.ready) (disks : w'.disks v = none)
    (released : p.handout bound a = some (.released v)) : SpareMove bound a w w' p .err

section Steps

variable {b : BringUp} {a : Answer} {w w' : World} {p p' : EnsurePc} {v : SandboxId}

theorem popReady_sublist {bound ready rest : List SandboxId} {claimed : SandboxId → Bool}
    {v : Option SandboxId} (h : popReady bound claimed ready = (v, rest)) : rest.Sublist ready := by
  induction ready with
  | nil =>
    cases h
    exact .refl _
  | cons id ready ih =>
    simp only [popReady] at h
    split at h
    · cases h
      exact List.sublist_cons_self _ _
    · exact (ih h).cons _

theorem popReady_spec {bound ready rest : List SandboxId} {claimed : SandboxId → Bool}
    (h : popReady bound claimed ready = (some v, rest)) :
    v ∉ bound ∧ claimed v = false ∧ ∃ skipped, ready = skipped ++ v :: rest := by
  induction ready with
  | nil => cases h
  | cons id ready ih =>
    simp only [popReady] at h
    split at h
    · rename_i hfree
      cases h
      exact ⟨hfree.1, hfree.2, [], rfl⟩
    · obtain ⟨hb, hc, skipped, rfl⟩ := ih h
      exact ⟨hb, hc, id :: skipped, rfl⟩

theorem BringUp.adopt_holding (b : BringUp) (q : Provenance) (v : SandboxId) :
    (b.adopt q v).holding = if q = .spare then some v else none := by
  unfold BringUp.adopt
  split <;> rfl

theorem BringUp.adopt_confirming (b : BringUp) (q : Provenance) (v : SandboxId) :
    (b.adopt q v).confirming = false := by
  unfold BringUp.adopt
  split <;> rfl

theorem BringUp.fresh_holding (b : BringUp) : b.fresh.holding = none ∧ b.fresh.confirming = false := by
  unfold BringUp.fresh
  split <;> exact ⟨rfl, rfl⟩

theorem BringUp.first_holding (b : BringUp) : b.first.holding = none ∧ b.first.confirming = false := by
  unfold BringUp.first
  split
  · exact ⟨rfl, rfl⟩
  · split <;> exact ⟨rfl, rfl⟩

theorem BringUp.afterDatabase_holding (b : BringUp) (q : Provenance) (v : SandboxId) :
    (b.afterDatabase q v).holding = (EnsurePc.ensureDatabase q v).holding ∧
      (b.afterDatabase q v).confirming = false := by
  unfold BringUp.afterDatabase
  split <;> exact ⟨rfl, rfl⟩

theorem EnsurePc.giveUp_holding (q : Provenance) (v u : SandboxId)
    (h : (EnsurePc.giveUp q v).holding = some u) : (EnsurePc.dispose q v).holding = some u := by
  unfold EnsurePc.giveUp at h
  split at h
  · cases h
  · exact h

theorem EnsurePc.giveUp_confirming (q : Provenance) (v : SandboxId) :
    (EnsurePc.giveUp q v).confirming = false := by
  unfold EnsurePc.giveUp
  split <;> rfl

theorem SpareMove.idle {bound : List SandboxId} (claimed : w'.claimed = w.claimed)
    (ready : w'.ready = w.ready) (hp : p.confirming = false)
    (hp' : p'.holding = none ∧ p'.confirming = false) (quiet : p.handout bound a = none) :
    SpareMove bound a w w' p p' :=
  .keep claimed (ready ▸ .refl _) (by simp [hp'.1]) hp hp'.2 quiet

theorem SpareMove.congr {bound : List SandboxId} {u : World} (h : SpareMove bound a w w' p p')
    (hc : u.claimed = w'.claimed) (hr : u.ready = w'.ready) (hd : u.disks = w'.disks) :
    SpareMove bound a w u p p' := by
  cases h with
  | keep claimed ready holding confirming confirming' quiet =>
    exact .keep (hc.trans claimed) (hr ▸ ready) holding confirming confirming' quiet
  | pop h claimed ready => exact .pop h (hc.trans claimed) (hr.trans ready)
  | take claimed ready holding confirming taken =>
    exact .take (hc.trans claimed) (hr.trans ready) holding confirming taken
  | drop claimed ready stale quiet => exact .drop (hc.trans claimed) (hr.trans ready) stale quiet
  | release holding confirming claimed ready disks released =>
    exact .release holding confirming (hc.trans claimed) (hr ▸ ready) (by rw [hd, disks]) released

theorem SpareMove.dropScratch {bound : List SandboxId} (h : SpareMove bound a w w' p p') :
    SpareMove bound a w (b.dropScratch w') p p' := by
  rw [BringUp.dropScratch_frame]
  exact h.congr rfl rfl rfl

theorem SpareMove.releaseFailed {bound : List SandboxId} (hp : p.holding = some v)
    (hc : p.confirming = false) (hq : p.handout bound a = some (.released v)) :
    SpareMove bound a w (w.releaseFailed v true) p .err :=
  .release hp hc rfl List.filter_sublist (update_self _ _ _) hq

theorem ensureStep_spare (h : ensureStep b w p a = some (w', p')) :
    SpareMove (b.spares.getD []) a w w' p p' := by
  revert h
  fun_cases ensureStep b w p a <;> intro h <;> (try cases h)
  case case1 => exact .idle rfl rfl rfl b.first_holding rfl
  case case6 | case17 => exact .idle rfl rfl rfl b.fresh_holding rfl
  case case19 hpop => exact .pop hpop rfl rfl
  case case20 hpop => exact .keep rfl (popReady_sublist hpop) (fun _ h ↦ by cases h) rfl rfl rfl
  case case21 | case22 => exact .take rfl rfl (b.adopt_holding _ _) (b.adopt_confirming _ _) rfl
  case case23 | case24 => exact .drop rfl rfl rfl rfl
  case case30 => exact .idle rfl rfl rfl ⟨b.adopt_holding _ _, b.adopt_confirming _ _⟩ rfl
  case case25 | case33 | case34 | case36 | case61 =>
    refine SpareMove.dropScratch ?_
    exact .idle rfl rfl rfl ⟨rfl, rfl⟩ rfl
  case case35 =>
    obtain ⟨_, -, heq⟩ := Option.map_eq_some_iff.mp h
    cases heq
    exact .idle rfl rfl rfl b.fresh_holding rfl
  case case38 | case51 =>
    obtain ⟨_, -, heq⟩ := Option.map_eq_some_iff.mp h
    cases heq
    exact .keep rfl (.refl _) (fun _ ↦ id) rfl rfl rfl
  case case40 =>
    refine SpareMove.dropScratch ?_
    exact .keep rfl (.refl _) (fun _ ↦ id) rfl rfl rfl
  case case45 =>
    refine SpareMove.dropScratch ?_
    exact .releaseFailed rfl rfl rfl
  case case46 =>
    refine SpareMove.dropScratch ?_
    exact .keep rfl List.filter_sublist (fun _ h ↦ by cases h) rfl rfl rfl
  case case47 q _ hq | case48 q _ hq =>
    refine SpareMove.dropScratch ?_
    refine .idle rfl rfl rfl ⟨rfl, rfl⟩ ?_
    cases q <;> first | rfl | exact absurd rfl hq
  case case50 =>
    have hb := b.afterDatabase_holding
    exact .keep rfl (.refl _) (fun _ h ↦ (hb _ _).1 ▸ h) rfl (hb _ _).2 rfl
  case case52 | case53 | case54 =>
    exact .keep rfl (.refl _) (EnsurePc.giveUp_holding _ _) rfl (EnsurePc.giveUp_confirming _ _) rfl
  case case56 => exact .releaseFailed rfl rfl rfl
  case case57 => exact .keep rfl List.filter_sublist (fun _ h ↦ by cases h) rfl rfl rfl
  case case58 q _ hq | case59 q _ hq =>
    refine .idle rfl rfl rfl ⟨rfl, rfl⟩ ?_
    cases q <;> first | rfl | exact absurd rfl hq
  case case55 => exact .idle rfl rfl rfl ⟨rfl, rfl⟩ rfl
  all_goals exact .keep rfl (.refl _) (fun _ ↦ id) rfl rfl rfl

end Steps

inductive TaskSpareMove (a : Answer) (w w' : World) (x y : Task) : Prop
  | ensure {b : BringUp} {p p' : EnsurePc} (hx : x.ensuring = some (b, p))
    (hy : y.ensuring = some (b, p')) (h : SpareMove (b.spares.getD []) a w w' p p') :
    TaskSpareMove a w w' x y
  | other (claimed : w'.claimed = w.claimed) (ready : w'.ready = w.ready) (holding : y.holding = none)
    (confirming : x.confirming = false) (quiet : x.handout a = none) : TaskSpareMove a w w' x y

section Tasks

variable {cfg : Config} {t : ℕ} {a : Answer} {w w' : World} {x y : Task} {s : Schema}

theorem ckStep_spare {pc pc' : CkPc} (h : ckStep cfg t s w pc a = some (w', pc')) :
    TaskSpareMove a w w' (.checkout s pc) (.checkout s pc') := by
  revert h
  fun_cases ckStep cfg t s w pc a <;> intro h <;> (try cases h)
  case case11 => split <;> exact .other rfl rfl rfl rfl rfl
  case case24 =>
    obtain ⟨_, hp, heq⟩ := Option.map_eq_some_iff.mp h
    cases heq
    exact .ensure rfl rfl (ensureStep_spare hp)
  case case27 =>
    rw [World.dropThawed_frame]
    exact .other rfl rfl rfl rfl rfl
  all_goals (try split) <;> exact .other rfl rfl rfl rfl rfl

theorem offCore_spare {kind : OffloadKind} {pc pc' : OffPc}
    (h : offCore cfg s kind w pc a = some (w', pc')) :
    TaskSpareMove a w w' (.offload s kind pc) (.offload s kind pc') := by
  rcases offCore_ensure_or h with ⟨_, _, p, p', rfl, rfl, hp⟩ | hapart
  · exact .ensure rfl rfl (ensureStep_spare hp)
  · have hholding : (Task.offload s kind pc').holding = none := by
      cases pc' with
      | bringUp r known p =>
        obtain rfl := hapart.started r known p rfl
        rfl
      | _ => rfl
    have hquiet : (Task.offload s kind pc).confirming = false ∧
        (Task.offload s kind pc).handout a = none := by
      cases pc with
      | bringUp r known p =>
        rcases hapart.ended r known p rfl with rfl | ⟨id, n, rfl⟩ <;> exact ⟨rfl, rfl⟩
      | _ => exact ⟨rfl, rfl⟩
    exact .other hapart.claimed hapart.ready hholding hquiet.1 hquiet.2

theorem TaskSpareMove.congr {u : World} (h : TaskSpareMove a w w' x y) (hc : u.claimed = w'.claimed)
    (hr : u.ready = w'.ready) (hd : u.disks = w'.disks) : TaskSpareMove a w u x y := by
  cases h with
  | ensure hx hy h => exact .ensure hx hy (h.congr hc hr hd)
  | other claimed ready holding confirming quiet =>
    exact .other (hc.trans claimed) (hr.trans ready) holding confirming quiet

theorem taskStep_spare (h : taskStep cfg t w a x = some (w', y)) : TaskSpareMove a w w' x y := by
  cases x with
  | checkout s pc =>
    obtain ⟨_, hp, heq⟩ := Option.map_eq_some_iff.mp h
    cases heq
    exact ckStep_spare hp
  | offload s kind pc =>
    obtain ⟨_, hp, heq⟩ := Option.map_eq_some_iff.mp h
    cases heq
    obtain ⟨u, hu, arch, heq⟩ := offStep_eq hp
    exact (offCore_spare hu).congr (by rw [heq]) (by rw [heq]) (by rw [heq])
  | reapIdle pc =>
    obtain ⟨_, hp, heq⟩ := Option.map_eq_some_iff.mp h
    cases heq
    rw [idleStep_frame hp]
    exact .other rfl rfl rfl rfl rfl
  | reapUntracked pc =>
    obtain ⟨_, hp, heq⟩ := Option.map_eq_some_iff.mp h
    cases heq
    rw [untrackedStep_world hp]
    exact .other rfl rfl rfl rfl rfl
  | purge pc =>
    obtain ⟨_, hp, heq⟩ := Option.map_eq_some_iff.mp h
    cases heq
    rw [purgeStep_frame hp]
    exact .other rfl rfl rfl rfl rfl

theorem EnsurePc.yields_of_released {p : EnsurePc} {bound : List SandboxId} {v : SandboxId}
    (h : p.handout bound a = some (.released v)) : p.yields a = some v := by
  unfold EnsurePc.handout at h
  split at h <;> cases h <;> rfl

/-- A claim is lost only through the bring-up that gives it up. -/
theorem TaskSpareMove.yields {v : SandboxId} (h : TaskSpareMove a w w' x y) (hc : w.claimed v = true)
    (hc' : ¬ w'.claimed v = true) :
    x.yields a = some v ∧ (x.handout a = some (.released v) → w'.disks v = none) := by
  cases h with
  | other claimed =>
    rw [claimed] at hc'
    exact absurd hc hc'
  | @ensure b p p' hx _ hm =>
    simp only [Task.yields, Task.handout, hx, Option.bind_some]
    have hupdate {u : SandboxId} (hu : w'.claimed = update w.claimed u false) : u = v := by
      by_contra hne
      rw [hu, update_of_ne (Ne.symm hne)] at hc'
      exact hc' hc
    cases hm with
    | keep claimed | take claimed =>
      rw [claimed] at hc'
      exact absurd hc hc'
    | @pop _ u _ _ claimed _ =>
      rw [claimed, update_apply] at hc'
      split at hc'
      · exact absurd rfl hc'
      · exact absurd hc hc'
    | drop claimed _ stale quiet =>
      obtain rfl := hupdate claimed
      exact ⟨stale, fun hr ↦ by simp [quiet] at hr⟩
    | release _ _ claimed _ disks released =>
      obtain rfl := hupdate claimed
      exact ⟨EnsurePc.yields_of_released released, fun _ ↦ disks⟩

theorem TaskSpareMove.ready_subset (h : TaskSpareMove a w w' x y) : w'.ready ⊆ w.ready := by
  cases h with
  | other _ ready =>
    rw [ready]
    exact List.Subset.refl _
  | ensure _ _ hm =>
    cases hm with
    | keep _ ready | release _ _ _ ready => exact ready.subset
    | pop hpop _ ready => exact ready ▸ (popReady_sublist hpop).subset
    | take _ ready | drop _ ready =>
      rw [ready]
      exact List.Subset.refl _

theorem Task.holding_of_initial (h : x.initial = true) : x.ensuring = none := by
  obtain ⟨_, rfl⟩ | ⟨_, _, rfl⟩ | rfl | rfl | rfl := Task.initial_cases h <;> rfl

end Tasks

section Shelf

variable {cfg : Config} {t : ℕ} {a : Answer} {w w' : World} {x y : Task} {l : Label} {st st' : State}

structure World.Shelved (w : World) : Prop where
  nodup : w.ready.Nodup
  free : ∀ v ∈ w.ready, w.claimed v = false

theorem nodup_eraseDups (ids : List SandboxId) : ids.eraseDups.Nodup := by
  induction hn : ids.length using Nat.strong_induction_on generalizing ids with
  | _ n ih =>
    cases ids with
    | nil => exact List.nodup_nil
    | cons id ids =>
      rw [List.eraseDups_cons]
      refine List.nodup_cons.mpr ⟨by simp [List.mem_eraseDups], ih _ ?_ _ rfl⟩
      have hle := List.length_filter_le (fun b ↦ !b == id) ids
      simp only [List.length_cons] at hn
      omega

theorem World.shelved_publish (w : World) (ids bound : List SandboxId) :
    (w.publish ids bound).Shelved ∧ ∀ v ∈ (w.publish ids bound).ready, v ∉ bound := by
  have hmem {v : SandboxId} (hv : v ∈ (w.publish ids bound).ready) : v ∉ bound ∧ w.claimed v = false := by
    simpa using (List.mem_filter.mp (List.mem_eraseDups.mp hv)).2
  exact ⟨⟨nodup_eraseDups _, fun v hv ↦ (hmem hv).2⟩, fun v hv ↦ (hmem hv).1⟩

theorem World.Shelved.spare {bound : List SandboxId} {p p' : EnsurePc} (h : w.Shelved)
    (hm : SpareMove bound a w w' p p') : w'.Shelved := by
  cases hm with
  | keep claimed ready =>
    exact ⟨h.nodup.sublist ready, fun v hv ↦ claimed ▸ h.free v (ready.subset hv)⟩
  | @pop left v rest hpop claimed ready =>
    obtain ⟨-, -, skipped, heq⟩ := popReady_spec hpop
    have hsub : (v :: rest).Sublist w.ready := heq ▸ List.sublist_append_right _ _
    obtain ⟨hv, hrest⟩ := List.nodup_cons.mp (h.nodup.sublist hsub)
    refine ⟨ready ▸ hrest, fun u hu ↦ ?_⟩
    rw [ready] at hu
    have hne : u ≠ v := fun heq ↦ hv (heq ▸ hu)
    rw [claimed, update_of_ne hne]
    exact h.free u (hsub.subset (List.mem_cons_of_mem _ hu))
  | take claimed ready => exact ⟨ready ▸ h.nodup, fun v hv ↦ claimed ▸ h.free v (ready ▸ hv)⟩
  | drop claimed ready =>
    refine ⟨ready ▸ h.nodup, fun u hu ↦ ?_⟩
    rw [claimed, update_apply]
    split
    · rfl
    · exact h.free u (ready ▸ hu)
  | release _ _ claimed ready =>
    refine ⟨h.nodup.sublist ready, fun u hu ↦ ?_⟩
    rw [claimed, update_apply]
    split
    · rfl
    · exact h.free u (ready.subset hu)

theorem World.Shelved.congr (h : w.Shelved) (hc : w'.claimed = w.claimed) (hr : w'.ready = w.ready) :
    w'.Shelved :=
  ⟨hr ▸ h.nodup, fun v hv ↦ hc ▸ h.free v (hr ▸ hv)⟩

theorem World.Shelved.task (h : w.Shelved) (hm : TaskSpareMove a w w' x y) : w'.Shelved := by
  cases hm with
  | ensure _ _ hm => exact h.spare hm
  | other claimed ready => exact h.congr claimed ready

end Shelf

end PgVmPool
