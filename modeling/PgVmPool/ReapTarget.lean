import PgVmPool.Dashboard
import PgVmPool.Durability
import PgVmPool.OffloadSource

namespace PgVmPool

open Function Transition

namespace EnsurePc

/-- A VM that a bring-up is offered besides the recorded one: by the name cache, or by the daemon's
listing. -/
def offered (b : BringUp) (w : World) : EnsurePc → Answer → Option SandboxId
  | .lookup, .go => w.inventory (vmName b.schema)
  | .findByName, .listing infos => (infos.find? (·.name = vmName b.schema)).map (·.id)
  | _, _ => none

/-- Where a bring-up can be that has had no VM in hand but `id`, and has not made one. -/
def reattaches (id : SandboxId) : EnsurePc → Bool
  | .starting _ v | .waiting _ v | .ok v _ => v = id
  | .readyPg p v | .ensureDatabase p v | .slotBudget p v => p = .existing && v = id
  | .admission | .lookup | .findByName | .creating | .err => true
  | _ => false

def disposes : EnsurePc → Option SandboxId
  | .killHalfBuilt id | .swapDispose _ id | .dispose _ id => some id
  | _ => none

end EnsurePc

namespace OffPc

/-- Where an archive can be that was asked for `id` and works on `id` alone. -/
def reapsOnly (id : SandboxId) : OffPc → Bool
  | .imageTarget _ | .imageCheckpoint _ _ | .imageStop _ _ | .compactDisk _ => false
  | .claim r => r = .archive || r = .promoteFrozen || r = .promoteCompacted
  | .evict r | .readRecord r => r = .archive
  | .bringUp r known p => r = .archive && known = some id && p.reattaches id
  | .leak r known | .leakByName r known | .leakStop r known _ => r = .archive && known = some id
  | .dump r v | .failedCheckpoint r v | .failedStop r v => r = .archive && v = id
  | .uploadScratch v | .imageDisk v | .ensureRow v => v = id
  | .setTier tier fin | .writeTier tier _ _ fin | .finish tier _ fin =>
    tier = .archived && fin.vm.all (· = id)
  | .begin | .checkFrozen | .statDump | .uploadDump _ | .verifyDump _ | .statImage | .uploadImage _
  | .verifyImage _ | .deleteDump | .done | .failed => true

def bound : OffPc → Bool
  | .bringUp _ _ _ | .leak _ _ | .leakByName _ _ | .leakStop _ _ _ | .dump _ _ | .uploadScratch _
  | .failedCheckpoint _ _ | .failedStop _ _ | .imageDisk _ | .ensureRow _ | .statDump | .uploadDump _
  | .verifyDump _ | .uploadImage _ | .verifyImage _ | .deleteDump | .setTier _ _ | .writeTier _ _ _ _
  | .finish _ _ _ => true
  | _ => false

def archives : OffPc → Bool
  | .dump _ _ | .uploadScratch _ | .imageDisk _ | .ensureRow _ | .uploadDump _ | .verifyDump _
  | .uploadImage _ | .verifyImage _ | .deleteDump | .setTier _ _ | .writeTier _ _ _ _
  | .finish _ _ _ => true
  | _ => false

def source : OffPc → Option SandboxId
  | .dump _ id | .uploadScratch id | .imageDisk id | .ensureRow id => some id
  | .setTier _ fin | .writeTier _ _ _ fin | .finish _ _ fin => fin.vm
  | _ => none

def deletes : OffPc → Option SandboxId
  | .bringUp _ _ p => p.disposes
  | .finish _ _ fin => fin.vm
  | _ => none

end OffPc

def Act.started : Act → Option (SandboxId × ℕ)
  | .reap id (.started t) => some (id, t)
  | _ => none

/-- The registry, or the daemon, sends a reap of `id` to `id`, and its registry write goes through. -/
def Task.Aims (w : World) (id : SandboxId) (a : Answer) : Task → Prop
  | .offload s _ (.readRecord _) | .offload s _ .checkFrozen | .offload s _ .statImage =>
    w.store.idOf s = some id
  | .offload s _ (.bringUp _ known p) =>
    (∀ v ∈ p.offered ⟨s, known, none, none⟩ w a, v = id) ∧ (p = .creating → a = .failed)
  | .offload _ _ (.writeTier _ g _ _) => a = .failed → g ≤ w.store.written
  | _ => True

instance (w : World) (id : SandboxId) (a : Answer) (x : Task) : Decidable (x.Aims w id a) := by
  unfold Task.Aims
  split <;> infer_instance

def Task.relies : Task → Option Schema
  | .offload s _ pc => if pc.bound then some s else none
  | _ => none

/-- When the offload of a reap reads the registry its schema is bound to the VM that was asked for,
its bring-up is offered no other VM and makes none, and its registry write succeeds unless a newer
generation is on disk; and until the offload is over nobody binds the schema to another VM. -/
def ReapsBound (d : Dash) : DashLabel → Prop
  | .sys l => OnRun (fun t a ↦ ∀ x ∈ d.acts, ∀ r ∈ x.started, ∀ y ∈ d.sys.tasks[t]?,
      (r.2 = t → y.Aims d.sys.world r.1 a) ∧
        ∀ p ∈ y.puts d.sys.world, ∀ z ∈ d.sys.tasks[r.2]?, z.relies = some p.1 → p.2 = r.1) l
  | .act _ _ | .post _ | .refresh _ => True

instance (d : Dash) : (l : DashLabel) → Decidable (ReapsBound d l)
  | .sys l => inferInstanceAs (Decidable (OnRun _ l))
  | .act _ _ | .post _ | .refresh _ => isTrue trivial

/-- The archived row of `s` has been on disk: the file holds the generation in which its tier was set,
or a later one. -/
def Store.ArchivedDurably (st : Store) (s : Schema) : Prop :=
  ∃ g g' m m', st.Stamped g m ∧ (m.lookup s).map (·.tier) = some .archived ∧ g ≤ g' ∧
    st.Stamped g' m' ∧ ∀ now r, (parse st.file now).lookup r = m'.lookup r

/-- A reap of `id` archives a schema only while it is bound to `id`, from no other VM; and it deletes
`id` alone, after the row of the schema was archived on disk. -/
def Dash.ReapsAsked (d : Dash) : Prop :=
  ∀ (k : ℕ) (id : SandboxId) (t : ℕ) (s : Schema) (kind : OffloadKind) (pc : OffPc),
    d.acts[k]? = some (.reap id (.started t)) → d.sys.tasks[t]? = some (.offload s kind pc) →
      (pc.archives = true →
        d.sys.world.store.idOf s = some id ∧ ∀ v, pc.source = some v → v = id) ∧
      ∀ v, pc.deletes = some v → v = id ∧ d.sys.world.store.ArchivedDurably s

section Steps

variable {cfg : Config} {s : Schema} {kind : OffloadKind} {id v : SandboxId} {w w' : World} {a : Answer}
  {pc pc' : OffPc}

theorem ensureStep_reattaches {p p' : EnsurePc}
    (h : ensureStep ⟨s, some id, none, none⟩ w p a = some (w', p')) (hp : p.reattaches id = true)
    (hoffer : ∀ v ∈ p.offered ⟨s, some id, none, none⟩ w a, v = id)
    (hnew : p = .creating → a = .failed) : p'.reattaches id = true := by
  revert h
  fun_cases ensureStep ⟨s, some id, none, none⟩ w p a <;> intro h <;> (try cases h) <;>
    (try cases hp) <;> (try rfl) <;> (try exact hp)
  case case1 => exact decide_eq_true rfl
  case case13 hname => exact decide_eq_true (hoffer _ hname)
  case case16 hfind =>
    refine decide_eq_true (hoffer _ ?_)
    simp [EnsurePc.offered, hfind]
  case case26 => cases hnew rfl
  case case52 | case53 =>
    obtain rfl := of_decide_eq_true (Bool.and_eq_true_iff.mp hp).1
    rfl
  case case55 => exact (Bool.and_eq_true_iff.mp hp).2

theorem EnsurePc.disposes_of_reattaches {p : EnsurePc} (h : p.reattaches id = true) : p.disposes = none := by
  cases p <;> first | rfl | cases h

theorem imageFallback_reapsOnly (cfg : Config) (r : Route) :
    (imageFallback cfg r (some id)).reapsOnly id = true := by
  rcases imageFallback_cases cfg r (some id) with heq | ⟨v, hv, heq⟩ <;> rw [heq]
  · rfl
  · cases hv
    simp [OffPc.reapsOnly]

theorem offBegin_archive (cfg : Config) (tier : Option Tier) :
    (offBegin cfg tier .archive).reapsOnly id = true := by
  unfold offBegin
  repeat' split
  all_goals first
    | rfl
    | contradiction

theorem offCore_reapsOnly (h : offCore cfg s .archive w pc a = some (w', pc'))
    (hpc : pc.reapsOnly id = true) (haims : (Task.offload s .archive pc).Aims w id a) :
    pc'.reapsOnly id = true := by
  revert h
  fun_cases offCore cfg s .archive w pc a <;> intro h <;> (try cases h) <;> (try cases hpc) <;>
    (try rfl) <;> (try exact hpc)
  case case1 => exact offBegin_archive ..
  case case5 r _ => cases r <;> first | rfl | simp [OffPc.reapsOnly] at hpc
  case case6 r =>
    obtain rfl := of_decide_eq_true hpc
    obtain rfl : (offEvict s .archive w).2 = pc' := by rw [Option.some.inj h]
    rcases offEvict_snd (s := s) (.inl rfl) w with heq | heq <;> rw [heq] <;> rfl
  case case9 r _ =>
    have hrow : (w.store.record s).map (·.sandboxId) = some id := haims
    obtain rfl := of_decide_eq_true hpc
    rw [hrow]
    simp [OffPc.reapsOnly, EnsurePc.reattaches]
  case case10 | case11 =>
    simp only [OffPc.reapsOnly, EnsurePc.reattaches, Bool.and_eq_true] at hpc ⊢
    first
      | exact ⟨hpc.1.1, hpc.2⟩
      | exact hpc.1
  case case12 r known p _ _ =>
    obtain ⟨⟨u, p'⟩, hp, heq⟩ := Option.map_eq_some_iff.mp h
    cases heq
    simp only [OffPc.reapsOnly, Bool.and_eq_true, decide_eq_true_eq] at hpc ⊢
    obtain ⟨⟨rfl, rfl⟩, hre⟩ := hpc
    exact ⟨⟨rfl, rfl⟩, ensureStep_reattaches hp hre haims.1 haims.2⟩
  case case15 r known | case19 r known =>
    obtain ⟨-, hknown⟩ := Bool.and_eq_true_iff.mp hpc
    obtain rfl := of_decide_eq_true hknown
    exact imageFallback_reapsOnly ..
  case case27 r v | case28 r v =>
    obtain ⟨-, hv⟩ := Bool.and_eq_true_iff.mp hpc
    obtain rfl := of_decide_eq_true hv
    exact imageFallback_reapsOnly ..
  case case21 | case23 | case33 | case41 | case45 =>
    obtain ⟨_, -, heq⟩ := Option.map_eq_some_iff.mp h
    (try split at heq) <;> cases heq <;> simp_all [OffPc.reapsOnly, Final.vm]
  all_goals split <;> rfl

theorem offCore_bound (h : offCore cfg s .archive w pc a = some (w', pc'))
    (haims : (Task.offload s .archive pc).Aims w id a) (hpc : pc.reapsOnly id = true)
    (hbound : pc'.bound = true) : pc.bound = true ∨ w.store.idOf s = some id := by
  revert h
  fun_cases offCore cfg s .archive w pc a <;> intro h <;> (try cases h) <;> (try cases hpc) <;>
    (try exact .inl rfl) <;> (try exact .inr haims)
  case case1 =>
    rcases offBegin_cases cfg (w.store.tierOf s) .archive with heq | ⟨_, heq⟩ | ⟨_, heq⟩ <;>
      (rw [heq] at hbound; cases hbound)
  case case4 => cases hbound
  case case5 r _ => cases r <;> cases hbound
  case case6 r =>
    obtain rfl := of_decide_eq_true hpc
    obtain rfl : (offEvict s .archive w).2 = pc' := by rw [Option.some.inj h]
    rcases offEvict_snd (s := s) (.inl rfl) w with heq | heq <;> (rw [heq] at hbound; cases hbound)

end Steps

/-- How a reap's offload stands: it keeps to `id`, the row names `id`, and a tier it set is on disk. -/
structure Reaping (w : World) (s : Schema) (id : SandboxId) (pc : OffPc) : Prop where
  only : pc.reapsOnly id = true
  row : pc.bound = true → w.store.idOf s = some id
  landed : (Task.offload s .archive pc).Landed w

section Runs

variable {cfg : Config} {s : Schema} {id : SandboxId} {w w' : World} {a : Answer} {pc pc' : OffPc}
  {d d' : Dash} {l : DashLabel}

theorem Reaping.begin (w : World) (s : Schema) (id : SandboxId) : Reaping w s id .begin :=
  ⟨rfl, nofun, trivial⟩

theorem Reaping.step (h : Reaping w s id pc) (haims : (Task.offload s .archive pc).Aims w id a)
    (hs : offStep cfg s .archive w pc a = some (w', pc')) : Reaping w' s id pc' := by
  obtain ⟨u, hu, _, rfl⟩ := offStep_eq hs
  have hmove := offCore_move hu
  refine ⟨offCore_reapsOnly hu h.only haims, fun hbound ↦ ?_, ?_⟩
  · exact hmove.idOf ((offCore_bound hu haims h.only hbound).elim h.row fun hrow ↦ hrow)
  · refine hmove.landed ?_ ?_
    · rintro tier fin rfl
      have hrow := h.row rfl
      rw [Store.idOf] at hrow
      exact Option.isSome_of_mem (Option.map_eq_some_iff.mp hrow).choose_spec.1
    · rintro tier g c fin rfl
      exact haims

theorem Reaping.other (h : Reaping w s id pc) (hg : w.store.Grows w'.store)
    (hid : pc.bound = true → w'.store.idOf s = w.store.idOf s ∨ w'.store.idOf s = some id) :
    Reaping w' s id pc where
  only := h.only
  row hbound := (hid hbound).elim (fun heq ↦ heq.trans (h.row hbound)) fun heq ↦ heq
  landed := h.landed.grows hg

def Dash.Reaping (d : Dash) : Prop :=
  ∀ (k : ℕ) (id : SandboxId) (t : ℕ), d.acts[k]? = some (.reap id (.started t)) →
    ∃ s pc, d.sys.tasks[t]? = some (.offload s .archive pc) ∧ PgVmPool.Reaping d.sys.world s id pc

theorem Dash.Reaping.step (h : d.Reaping) (hc : d.sys.Chronicled) (hok : ReapsBound d l)
    (hs : DashStep cfg d l d') : d'.Reaping := by
  intro k id t hk
  cases hs with
  | @sys l sys hstep =>
    obtain ⟨s, pc, ht, hR⟩ := h k id t hk
    have hsound := step_sound hstep
    rcases step_task hstep ht with ⟨a, y, rfl, hmoved, ht'⟩ | ht'
    · obtain ⟨⟨w', pc'⟩, hoff, heq⟩ := Option.map_eq_some_iff.mp hmoved
      cases heq
      have haims := (hok _ (List.mem_of_getElem? hk) (id, t) rfl _ ht).1 rfl
      exact ⟨s, pc', ht', hR.step haims hoff⟩
    · refine ⟨s, pc, ht', hR.other (hc.moves hsound).2.1 fun hbound ↦ ?_⟩
      refine (hsound.idOf s).imp_right ?_
      rintro ⟨j, a, x, v, rfl, hj, hput, hid⟩
      obtain rfl : v = id := by
        refine (hok _ (List.mem_of_getElem? hk) (id, t) rfl x hj).2 (s, v) hput _ ht ?_
        exact if_pos hbound
      exact hid
  | @post x hx =>
    rcases getElem?_append_cases hk with ⟨-, rfl⟩ | hk
    · cases hx
    · exact h k id t hk
  | @stopIdle j a pc pc' c hj hb =>
    rcases getElem?_set_cases hk with ⟨-, heq⟩ | ⟨-, hk⟩
    · cases heq
    · exact h k id t hk
  | @reap j a id' pc pc' sys c hj hr =>
    rcases reapStep_sys hr with ⟨rfl, hne⟩ | ⟨s, rfl, rfl⟩
    · rcases getElem?_set_cases hk with ⟨-, heq⟩ | ⟨-, hk⟩
      · cases heq
        exact absurd rfl (hne t)
      · exact h k id t hk
    · rcases getElem?_set_cases hk with ⟨-, heq⟩ | ⟨-, hk⟩
      · cases heq
        exact ⟨s, .begin, List.getElem?_concat_length, .begin ..⟩
      · obtain ⟨r, q, ht, hR⟩ := h k id t hk
        exact ⟨r, q, List.getElem?_append_left (List.getElem?_eq_some_iff.mp ht).1 ▸ ht, hR⟩
  | refresh => exact h k id t hk

theorem OffPc.bound_of_archives (h : pc.archives = true) : pc.bound = true := by
  cases pc <;> first | rfl | cases h

theorem OffPc.source_of_reapsOnly {v : SandboxId} (h : pc.reapsOnly id = true)
    (hv : pc.source = some v) : v = id := by
  cases pc with
  | setTier | writeTier | finish =>
    rw [OffPc.source] at hv
    simp only [OffPc.reapsOnly, hv, Option.all_some, Bool.and_eq_true] at h
    exact of_decide_eq_true h.2
  | dump =>
    cases hv
    exact of_decide_eq_true (Bool.and_eq_true_iff.mp h).2
  | uploadScratch | imageDisk | ensureRow =>
    cases hv
    exact of_decide_eq_true h
  | _ => cases hv

theorem OffPc.finish_of_deletes {v : SandboxId} (h : pc.reapsOnly id = true) (hv : pc.deletes = some v) :
    ∃ tier g fin, pc = .finish tier g fin ∧ fin.vm = some v := by
  cases pc with
  | bringUp r known p =>
    cases (EnsurePc.disposes_of_reattaches (Bool.and_eq_true_iff.mp h).2).symm.trans hv
  | finish tier g fin => exact ⟨tier, g, fin, rfl, hv⟩
  | _ => cases hv

/-- In every run whose reaps find their schema bound to the VM they were asked for, are offered no other
VM and get their registry write through, a reap acts on the VM it was asked for. -/
theorem reap_acts_on_asked (h : DashReaches cfg ReapsBound w d) : d.ReapsAsked := by
  have hc (d : Dash) (hr : DashReaches cfg ReapsBound w d) : d.sys.Chronicled :=
    Reaches.chronicled (DashReaches.sys hr)
  have hR : d.Reaping := by
    refine h.invariant_of hc ?_ fun _ _ _ hI hJ _ hok hs ↦ hI.step hJ hok (dashStep_sound hs)
    intro k id t hk
    simp [Dash.boot] at hk
  intro k id t s kind pc hk ht
  obtain ⟨s', pc', ht', hreap⟩ := hR k id t hk
  cases ht.symm.trans ht'
  refine ⟨fun harch ↦ ⟨hreap.row (OffPc.bound_of_archives harch), fun v ↦ ?_⟩, fun v hv ↦ ?_⟩
  · exact OffPc.source_of_reapsOnly hreap.only
  · obtain ⟨tier, g, fin, rfl, hfin⟩ := OffPc.finish_of_deletes hreap.only hv
    obtain ⟨g₀, rfl, hle⟩ := hreap.landed
    obtain ⟨m, hm, htier⟩ := ((hc d h).tasks t _ ht).1 tier g₀ rfl
    obtain ⟨g', m', hg', hm', hfile⟩ := (hc d h).store.onDisk hm hle
    obtain rfl : tier = .archived := of_decide_eq_true (Bool.and_eq_true_iff.mp hreap.only).1
    exact ⟨OffPc.source_of_reapsOnly hreap.only hfin, g₀, g', m, m', hm, htier, hg', hm', hfile⟩

/-- A reap of `v`, the one VM the daemon reports, up to the deletion that ends its offload. -/
def reapOf (v : SandboxId) : List DashLabel :=
  .post (.reap v .enabled) ::
    onAct 0 [.go, .go, .listing [⟨v, vmName app, true⟩], .order [], .order [app], .go] ++
    onSys (goes 0 5 ++ attaches 0 ++ runs 0 [.size 600, .go, .ok])

def Dash.reaps (d : Dash) (k t : ℕ) (asked v : SandboxId) : Bool :=
  match d.acts[k]?, d.sys.tasks[t]? with
  | some (.reap id (.started j)), some (.offload _ _ (.finish _ _ (.kill x))) =>
    id = asked ∧ j = t ∧ x = v
  | _, _ => false

theorem reap_acts_on_asked_run : ∃ d, DashReaches .full ReapsBound (.recorded .live) d ∧
    d.reaps 0 0 sb1 sb1 = true ∧ d.ReapsAsked := by
  obtain ⟨d, hr, hd⟩ := Run.exists_of_exec (dashStep .full) ReapsBound (.boot (.recorded .live))
    (reapOf sb1) (fun d ↦ d.reaps 0 0 sb1 sb1) (by decide +kernel) (by decide +kernel)
  exact ⟨d, hr, hd, reap_acts_on_asked hr⟩

theorem Dash.not_reapsAsked {k t : ℕ} {asked v : SandboxId} (h : d.reaps k t asked v = true)
    (hne : v ≠ asked) : ¬ d.ReapsAsked := by
  unfold Dash.reaps at h
  split at h
  · rename_i id j s kind tier g x hk ht
    obtain ⟨rfl, rfl, rfl⟩ := of_decide_eq_true h
    exact fun hasked ↦ hne ((hasked k id j s kind _ hk ht).2 x rfl).1
  · cases h

/-- A reap of the duplicate `sb2` of `app` archives and deletes the VM that `app` is bound to. -/
theorem reap_deletes_bound : ∃ d, DashReaches .full (fun _ _ ↦ True) (.recorded .live) d ∧
    d.reaps 0 0 sb2 sb1 = true ∧ ¬ d.ReapsAsked := by
  obtain ⟨d, hr, hd⟩ := Run.exists_of_exec (dashStep .full) (fun _ _ ↦ True) (.boot (.recorded .live))
    (reapOf sb2) (fun d ↦ d.reaps 0 0 sb2 sb1) (by decide +kernel) (by decide +kernel)
  exact ⟨d, hr, hd, Dash.not_reapsAsked hd (by decide)⟩

end Runs

end PgVmPool
