import PgVmPool.Reattach
import PgVmPool.Rows

namespace PgVmPool

open Function Transition

instance : Infinite Field := by
  refine Infinite.of_injective
    (fun n : ℕ ↦ ⟨String.ofList (List.replicate (n + 1) 's'), ?_, ?_⟩) ?_
  · simp [List.replicate_succ]
  · rw [String.toList_ofList, List.all_eq_true]
    intro c hc
    rw [List.eq_of_mem_replicate hc]
    decide
  · intro m n h
    have hl := congrArg (fun f : Field ↦ f.text.toList.length) h
    simpa using hl

namespace OffPc

def ensure : OffPc → Option EnsurePc
  | .bringUp _ _ p => some p
  | _ => none

/-- The VM whose copy has replaced the schema's archive, or is about to become its data. -/
def committed : OffPc → Option SandboxId
  | .ensureRow id => some id
  | .setTier _ fin | .writeTier _ _ _ fin | .finish _ _ fin => fin.vm
  | _ => none

/-- An offload whose bring-up returned the VM `k`, or failed, works on `k` alone. -/
def worksOn (k : SandboxId) : OffPc → Bool
  | .bringUp _ known p => known = some k && p.attached k
  | .leak _ known | .leakByName _ known | .leakStop _ known _ => known = some k
  | .dump _ id | .failedCheckpoint _ id | .failedStop _ id | .uploadScratch id | .imageDisk id
  | .ensureRow id => id = k
  | .setTier _ fin | .writeTier _ _ _ fin | .finish _ _ fin => fin.vm = some k
  | .done | .failed => true
  | _ => false

end OffPc

def World.KeepsRow (s : Schema) (w w' : World) : Prop := w'.store.idOf s = w.store.idOf s

/-- An offload replaces the schema's archive, or flips its tier, with the copy of `k` only. -/
structure OffloadsFrom (cfg : Config) (s : Schema) (kind : OffloadKind) (k : SandboxId) (w : World)
    (pc : OffPc) : Prop where
  source : ∀ v, pc.committed = some v → v = k
  effect : ∀ a w' pc', offStep cfg s kind w pc a = some (w', pc') →
    w'.s3Dump s ≠ w.s3Dump s ∨ w'.s3Image s ≠ w.s3Image s ∨ w'.store.tierOf s ≠ w.store.tierOf s →
      pc.target = some k

section Steps

variable {cfg : Config} {s : Schema} {kind : OffloadKind} {k : SandboxId} {w w' : World} {a : Answer}
  {pc pc' : OffPc}

theorem imageFallback_worksOn (cfg : Config) (r : Route) :
    (imageFallback cfg r (some k)).worksOn k = true := by
  rcases imageFallback_cases cfg r (some k) with heq | ⟨v, hv, heq⟩
  · rw [heq]
    rfl
  · cases hv
    rw [heq]
    simp [OffPc.worksOn]

theorem offCore_worksOn (h : offCore cfg s kind w pc a = some (w', pc')) (hpc : pc.worksOn k = true) :
    pc'.worksOn k = true := by
  revert h
  fun_cases offCore cfg s kind w pc a <;> intro h <;> (try cases h) <;> (try cases hpc) <;>
    (try exact hpc)
  case case10 => simpa [OffPc.worksOn, EnsurePc.attached] using (Bool.and_eq_true_iff.mp hpc).2
  case case11 => exact (Bool.and_eq_true_iff.mp hpc).1
  case case12 =>
    obtain ⟨_, hx, heq⟩ := Option.map_eq_some_iff.mp h
    cases heq
    obtain ⟨hknown, hp⟩ := Bool.and_eq_true_iff.mp hpc
    exact Bool.and_eq_true_iff.mpr ⟨hknown, ensureStep_attached rfl hx hp⟩
  case case15 | case19 | case27 | case28 =>
    obtain rfl := of_decide_eq_true hpc
    exact imageFallback_worksOn ..
  case case20 | case23 | case33 =>
    obtain rfl := of_decide_eq_true hpc
    obtain ⟨_, -, heq⟩ := Option.map_eq_some_iff.mp h
    cases heq
    simp [OffPc.worksOn, Final.vm]
  case case21 =>
    obtain rfl := of_decide_eq_true hpc
    obtain ⟨_, -, heq⟩ := Option.map_eq_some_iff.mp h
    split at heq <;> cases heq <;> simp [OffPc.worksOn, Final.vm]
  case case35 =>
    obtain rfl := of_decide_eq_true hpc
    simp [OffPc.worksOn, Final.vm]
  all_goals rfl

/-- The world but for what a bring-up touches. -/
structure World.SameCopies (w w' : World) : Prop where
  store : w'.store = w.store
  s3Dump : w'.s3Dump = w.s3Dump
  s3Image : w'.s3Image = w.s3Image

theorem offCore_bringUp {r : Route} {known : Option SandboxId} {p : EnsurePc}
    (h : offCore cfg s kind w (.bringUp r known p) a = some (w', pc')) : w.SameCopies w' := by
  cases p with
  | ok | err =>
    cases a <;> cases h
    exact ⟨rfl, rfl, rfl⟩
  | _ =>
    obtain ⟨_, hx, heq⟩ := Option.map_eq_some_iff.mp h
    cases heq
    rw [ensureStep_frame hx]
    exact ⟨rfl, rfl, rfl⟩

theorem offCore_sameCopies (h : offCore cfg s kind w pc a = some (w', pc')) (hpc : pc.worksOn k = true) :
    w.SameCopies w' ∨ pc.target = some k := by
  cases pc with
  | bringUp => exact .inl (offCore_bringUp h)
  | leak r known =>
    cases a <;> try cases h
    simp only [offCore] at h
    split at h <;> (cases h; exact .inl ⟨rfl, rfl, rfl⟩)
  | leakByName r known => cases a <;> cases h <;> exact .inl ⟨rfl, rfl, rfl⟩
  | leakStop r known ids => cases ids <;> cases a <;> cases h <;> exact .inl ⟨rfl, rfl, rfl⟩
  | done | failed => cases h
  | setTier | writeTier | finish => exact .inr (of_decide_eq_true hpc)
  | _ => first | cases hpc | exact .inr (congrArg some (of_decide_eq_true hpc))

theorem OffPc.worksOn.committed (hpc : pc.worksOn k = true) {v : SandboxId}
    (hv : pc.committed = some v) : v = k := by
  cases pc with
  | ensureRow =>
    cases hv
    exact of_decide_eq_true hpc
  | setTier | writeTier | finish =>
    have hk := of_decide_eq_true hpc
    cases hv.symm.trans hk
    rfl
  | _ => cases hv

theorem OffloadsFrom.of_worksOn (hpc : pc.worksOn k = true) : OffloadsFrom cfg s kind k w pc where
  source v hv := OffPc.worksOn.committed hpc hv
  effect a w' pc' h hchange := by
    obtain ⟨u, hu, x, rfl⟩ := offStep_eq h
    rcases offCore_sameCopies hu hpc with hsame | htarget
    · simp [hsame.store, hsame.s3Dump, hsame.s3Image] at hchange
    · exact htarget

/-- How far an offload of the VM `k` has come, by what the daemon answered for `k`. -/
inductive OffProgress (r : Route) (k : SandboxId) (log : List (OffPc × Answer)) : OffPc → Prop
  | claim (hid : byId OffPc.ensure log = []) : OffProgress r k log (.claim r)
  | evict (hid : byId OffPc.ensure log = []) : OffProgress r k log (.evict r)
  | readRecord (hid : byId OffPc.ensure log = []) : OffProgress r k log (.readRecord r)
  | pending {p : EnsurePc} (hp : p = .admission ∨ p = .starting .known k)
    (hid : byId OffPc.ensure log = []) : OffProgress r k log (.bringUp r (some k) p)
  | waiting (hid : byId OffPc.ensure log = [.ok]) :
    OffProgress r k log (.bringUp r (some k) (.waiting .known k))
  | attached {pc : OffPc} (hpc : pc.worksOn k = true) : OffProgress r k log pc
  | lost {pc : OffPc} (hid : ¬ byId OffPc.ensure log <+: Reattach.attached.answers) :
    OffProgress r k log pc

variable {r : Route} {log : List (OffPc × Answer)}

theorem offEvict_snd (hr : r = .archive ∨ r = .freeze) (w : World) :
    (offEvict s r w).2 = .failed ∨ (offEvict s r w).2 = .readRecord r := by
  rcases hr with rfl | rfl <;> unfold offEvict <;> repeat' split
  all_goals simp [Route.afterEvict]

theorem byId_grows (log : List (OffPc × Answer)) (x : OffPc × Answer) :
    byId OffPc.ensure log <+: byId OffPc.ensure (log ++ [x]) := by
  rw [byId_append]
  exact List.prefix_append ..

theorem OffProgress.step (h : OffProgress r k log pc) (hr : r = .archive ∨ r = .freeze)
    (hrow : w.store.idOf s = some k) (hs : offCore cfg s kind w pc a = some (w', pc')) :
    OffProgress r k (log ++ [(pc, a)]) pc' := by
  cases h with
  | claim hid =>
    cases a <;> try cases hs
    have hid' : byId OffPc.ensure (log ++ [(OffPc.claim r, Answer.go)]) = [] := by
      simp [byId_append, hid, OffPc.ensure]
    simp only [offCore] at hs
    split at hs <;> cases hs
    · exact .attached rfl
    · rcases hr with rfl | rfl <;> exact .evict hid'
  | evict hid =>
    cases a <;> try cases hs
    have hid' : byId OffPc.ensure (log ++ [(OffPc.evict r, Answer.go)]) = [] := by
      simp [byId_append, hid, OffPc.ensure]
    obtain rfl : (offEvict s r w).2 = pc' := congrArg Prod.snd (Option.some.inj hs)
    rcases offEvict_snd hr w with heq | heq <;> rw [heq]
    · exact .attached rfl
    · exact .readRecord hid'
  | readRecord hid =>
    rw [Store.idOf] at hrow
    rcases hr with rfl | rfl
    all_goals
      cases a <;> cases hs
      rw [hrow]
      exact .pending (.inl rfl) (by simp [byId_append, hid, OffPc.ensure])
  | pending hp hid =>
    rcases hp with rfl | rfl
    · cases a <;> cases hs
      exact .pending (.inr rfl) (by simp [byId_append, hid, OffPc.ensure, EnsurePc.byId])
    · cases a <;> cases hs
      · exact .waiting (by simp [byId_append, hid, OffPc.ensure, EnsurePc.byId])
      all_goals
        exact .lost (by simp [byId_append, hid, OffPc.ensure, EnsurePc.byId, Reattach.answers])
  | waiting hid =>
    cases a <;> cases hs
    · exact .attached (by simp [OffPc.worksOn, EnsurePc.attached])
    · exact .lost (by simp [byId_append, hid, OffPc.ensure, EnsurePc.byId, Reattach.answers])
  | attached hpc => exact .attached (offCore_worksOn hs hpc)
  | lost hid => exact .lost fun h ↦ hid ((byId_grows log _).trans h)

theorem OffMove.idOf (h : OffMove a s w w' pc pc') (hrow : w.store.idOf s = some k) :
    w'.store.idOf s = some k := by
  rcases h.idOf_cases .archive with heq | ⟨id, -, hnone, -⟩
  · exact heq.trans hrow
  · simp [hnone] at hrow

theorem OffProgress.of_dialogue (hr : r = .archive ∨ r = .freeze) (hrow : w.store.idOf s = some k)
    (h : Dialogue (World.KeepsRow s) (offStep cfg s kind) w (.claim r) log w' pc') :
    OffProgress r k log pc' := by
  have hI : OffProgress r k log pc' ∧ w'.store.idOf s = some k := by
    refine h.invariant (I := fun log w pc ↦ OffProgress r k log pc ∧ w.store.idOf s = some k)
      ⟨.claim rfl, hrow⟩ ?_ ?_
    · exact fun _ _ _ _ hI hk ↦ ⟨hI.1, hk.trans hI.2⟩
    · intro log u q x v q' hI hs
      obtain ⟨v', hv, _, rfl⟩ := offStep_eq hs
      exact ⟨hI.1.step hr hI.2 hv, (offCore_move hv).idOf hI.2⟩
  exact hI.1

theorem OffloadsFrom.of_sameCopies (hc : pc.committed = none)
    (h : ∀ a w' pc', offCore cfg s kind w pc a = some (w', pc') → w.SameCopies w') :
    OffloadsFrom cfg s kind k w pc where
  source v hv := by simp [hc] at hv
  effect a w' pc' hs hchange := by
    obtain ⟨u, hu, x, rfl⟩ := offStep_eq hs
    have hsame := h a u pc' hu
    simp [hsame.store, hsame.s3Dump, hsame.s3Image] at hchange

theorem OffProgress.offloadsFrom (h : OffProgress r k log pc)
    (hid : byId OffPc.ensure log <+: Reattach.attached.answers) : OffloadsFrom cfg s kind k w pc := by
  cases h with
  | claim =>
    refine .of_sameCopies rfl fun a w' pc' h ↦ ?_
    cases a <;> try cases h
    simp only [offCore] at h
    split at h <;> cases h <;> exact ⟨rfl, rfl, rfl⟩
  | evict =>
    refine .of_sameCopies rfl fun a w' pc' h ↦ ?_
    cases a <;> try cases h
    obtain rfl : (offEvict s r w).1 = w' := congrArg Prod.fst (Option.some.inj h)
    rw [offEvict_frame]
    exact ⟨rfl, rfl, rfl⟩
  | readRecord =>
    refine .of_sameCopies rfl fun a w' pc' h ↦ ?_
    cases r with
    | compact =>
      cases a <;> try cases h
      simp only [offCore] at h
      split at h <;> cases h <;> exact ⟨rfl, rfl, rfl⟩
    | _ =>
      cases a <;> cases h
      exact ⟨rfl, rfl, rfl⟩
  | pending | waiting => exact .of_sameCopies rfl fun a w' pc' ↦ offCore_bringUp
  | attached hpc => exact .of_worksOn hpc
  | lost h => exact absurd hid h

theorem World.KeepsRow.refl (s : Schema) (w : World) : w.KeepsRow s w := rfl

/-- A dialogue goes on without another reattach by id. -/
def Continues (cfg : Config) (s : Schema) (kind : OffloadKind) (w₀ : World) (r : Route)
    (log : List (OffPc × Answer)) (w : World) (pc : OffPc) : Prop :=
  ∃ log', Dialogue (World.KeepsRow s) (offStep cfg s kind) w₀ (.claim r) log' w pc ∧
    byId OffPc.ensure log' = byId OffPc.ensure log

theorem Continues.answer {w₀ : World} (h : Continues cfg s kind w₀ r log w pc)
    (hpc : pc.ensure.any EnsurePc.byId = false) (hs : offStep cfg s kind w pc a = some (w', pc')) :
    Continues cfg s kind w₀ r log w' pc' := by
  obtain ⟨log', hd, hid⟩ := h
  refine ⟨_, hd.answer (World.KeepsRow.refl s) hs, ?_⟩
  rw [byId_append, hpc, hid]
  simp

theorem Continues.commit {w₀ : World} {v : SandboxId} {c : Content} (hr : r = .archive ∨ r = .freeze)
    (h : Continues cfg s kind w₀ r log w (.dump r v)) (hv : w.disks v = some c) :
    ∃ w' pc', Continues cfg s kind w₀ r log w' pc' ∧ pc'.committed = some v := by
  have hcopy : w.copyOf v minDumpBytes 600 = some ⟨c.writes, 600⟩ := by
    simp [World.copyOf, hv, minDumpBytes]
  let copy : Content := ⟨c.writes, 600⟩
  rcases hr with rfl | rfl
  · cases hg : cfg.viaGuest with
    | true =>
      have hs : offStep cfg s kind w (.dump .archive v) (.size 600) =
          some ({ w with s3Dump := update w.s3Dump s (some copy) }, .setTier .archived (.kill v)) := by
        simp [offStep, offCore, hcopy, hg, OffPc.holds, copy]
      exact ⟨_, _, h.answer rfl hs, rfl⟩
    | false =>
      have hs : offStep cfg s kind w (.dump .archive v) (.size 600) =
          some ({ w with dumps := update w.dumps s (some copy) }, .uploadScratch v) := by
        simp [offStep, offCore, hcopy, hg, OffPc.holds, copy]
      have hup (u : World) (hu : u.dumps s = some copy) :
          offStep cfg s kind u (.uploadScratch v) .ok =
            some ({ u with s3Dump := update u.s3Dump s (some copy), dumps := update u.dumps s none },
              .setTier .archived (.kill v)) := by
        simp [offStep, offCore, hu, OffPc.holds]
      exact ⟨_, _, (h.answer rfl hs).answer rfl (hup _ (by simp)), rfl⟩
  · have hs : offStep cfg s kind w (.dump .freeze v) (.size 600) =
        some ({ w with dumps := update w.dumps s (some copy) }, .setTier .frozen (.kill v)) := by
      simp [offStep, offCore, hcopy, OffPc.holds, copy]
    exact ⟨_, _, h.answer rfl hs, rfl⟩

theorem Continues.create {w₀ : World} {v : SandboxId}
    (h : Continues cfg s kind w₀ r log w (.bringUp r (some k) .findByName)) (hv : w.disks v = none) :
    ∃ w', Continues cfg s kind w₀ r log w' (.dump r v) ∧ w'.disks v = some ⟨[], 0⟩ := by
  let u : World := { w.absorb [] with disks := update w.disks v (some ⟨[], 0⟩) }
  have hcreated : offStep cfg s kind (w.absorb []) (.bringUp r (some k) .creating) (.created v) =
      some (u, .bringUp r (some k) (.recordPending v)) := by
    have hv' : (w.absorb []).disks v = none := hv
    simp only [offStep, offCore, ensureStep, hv', if_true]
    rfl
  have h₁ := (h.answer (a := .listing []) rfl rfl).answer rfl hcreated
  have h₂ : Continues cfg s kind w₀ r log ((u.recordPending s v).insertName (vmName s) v)
      (.bringUp r (some k) (.readyPg .created v)) :=
    ((h₁.answer (a := .go) rfl rfl).answer (a := .go) rfl rfl).answer (a := .ok) rfl rfl
  have h₃ : Continues cfg s kind w₀ r log ((u.recordPending s v).insertName (vmName s) v) (.dump r v) :=
    (((h₂.answer (a := .ok) rfl rfl).answer (a := .ok) rfl rfl).answer
      (a := .slots 1) rfl rfl).answer (a := .go) rfl rfl
  exact ⟨_, h₃, update_self v _ w.disks⟩

theorem Continues.list {w₀ : World}
    (h : Continues cfg s kind w₀ r log w (.bringUp r (some k) .lookup)) :
    ∃ w', Continues cfg s kind w₀ r log w' (.bringUp r (some k) .findByName) ∧ w'.disks = w.disks := by
  cases hi : w.inventory (vmName s) with
  | some id =>
    have hs : offStep cfg s kind w (.bringUp r (some k) .lookup) .go =
        some (w, .bringUp r (some k) (.starting .cached id)) := by
      simp [offStep, offCore, ensureStep, hi, OffPc.holds]
    exact ⟨w.removeId id, (h.answer rfl hs).answer (a := .notFound) rfl rfl, rfl⟩
  | none =>
    have hs : offStep cfg s kind w (.bringUp r (some k) .lookup) .go =
        some (w, .bringUp r (some k) .findByName) := by
      simp [offStep, offCore, ensureStep, hi, OffPc.holds]
    exact ⟨w, h.answer rfl hs, rfl⟩

theorem dialogue_admission (cfg : Config) (kind : OffloadKind) (hr : r = .archive ∨ r = .freeze)
    (hrow : w.store.idOf s = some k)
    (hclaim : w.archiving s = false)
    (hidle : ∀ c e, w.entries.lookup s = some c → w.cells c = .full e → (w.ents e).active = 0) :
    ∃ log w', Dialogue (World.KeepsRow s) (offStep cfg s kind) w (.claim r) log w'
        (.bringUp r (some k) (.starting .known k)) ∧
      byId OffPc.ensure log = [] ∧ w'.disks = w.disks := by
  let u : World := { w with archiving := update w.archiving s true }
  let u' : World := { u with entries := u.entries.erase s }
  have h₁ : offStep cfg s kind w (.claim r) .go = some (u, .evict r) := by
    rcases hr with rfl | rfl <;> simp [offStep, offCore, hclaim, Route.afterClaim, OffPc.holds, u]
  have hevict : offEvict s r u = (u', .readRecord r) := by
    have hafter (x : Option ℕ) : r.afterEvict x = .readRecord r := by
      rcases hr with rfl | rfl <;> rfl
    unfold offEvict
    split
    · rename_i e he
      obtain ⟨c, hc, hfull⟩ := Option.map_eq_some_iff.mp he
      have hactive : (u.ents e).active = 0 := hidle c e hc hfull
      rw [if_neg (by rcases hr with rfl | rfl <;> simp [hactive]), hafter]
    · rw [hafter]
  have h₂ : offStep cfg s kind u (.evict r) .go = some (u', .readRecord r) := by
    simp [offStep, offCore, hevict, OffPc.holds]
  have h₃ : offStep cfg s kind u' (.readRecord r) .go = some (u', .bringUp r (some k) .admission) := by
    have hrow' : (u'.store.record s).map (·.sandboxId) = some k := hrow
    rcases hr with rfl | rfl <;> simp [offStep, offCore, hrow', OffPc.holds]
  have hd := (((Dialogue.refl.answer (World.KeepsRow.refl s) h₁).answer (World.KeepsRow.refl s)
    h₂).answer (World.KeepsRow.refl s) h₃).answer (World.KeepsRow.refl s) (x := .go) rfl
  exact ⟨_, u', hd, rfl, rfl⟩

theorem not_offloadsFrom_of_lookup {w₀ : World} (hr : r = .archive ∨ r = .freeze)
    (h : Dialogue (World.KeepsRow s) (offStep cfg s kind) w₀ (.claim r) log w
      (.bringUp r (some k) .lookup)) (hdisks : {id | (w.disks id).isSome}.Finite) :
    ∃ log' w' pc', Dialogue (World.KeepsRow s) (offStep cfg s kind) w₀ (.claim r) log' w' pc' ∧
      byId OffPc.ensure log' = byId OffPc.ensure log ∧ ¬ OffloadsFrom cfg s kind k w' pc' := by
  obtain ⟨v, hv⟩ := (hdisks.insert k).exists_notMem
  obtain ⟨hvk, hfree⟩ : v ≠ k ∧ w.disks v = none := by simpa [not_or] using hv
  obtain ⟨w₁, h₁, hsame⟩ := Continues.list ⟨log, h, rfl⟩
  obtain ⟨w₂, h₂, hdisk⟩ := h₁.create (v := v) (by rw [hsame, hfree])
  obtain ⟨w', pc', ⟨log', hd, hid⟩, hcommit⟩ := h₂.commit hr hdisk
  exact ⟨log', w', pc', hd, hid, fun hfrom ↦ hvk (hfrom.source v hcommit)⟩

/-- An archive or a freeze, its image fallback included, offloads only the VM recorded when it
claimed the schema, for all daemon answers, exactly when the daemon brings that VM up by id. -/
theorem offloads_recorded_iff (cfg : Config) (s : Schema) (kind : OffloadKind) (k : SandboxId)
    (w : World) (r : Route) (x : Reattach) (hr : r = .archive ∨ r = .freeze)
    (hrow : w.store.idOf s = some k) (hclaim : w.archiving s = false)
    (hidle : ∀ c e, w.entries.lookup s = some c → w.cells c = .full e → (w.ents e).active = 0)
    (hdisks : {id | (w.disks id).isSome}.Finite) :
    (∀ log w' pc', Dialogue (World.KeepsRow s) (offStep cfg s kind) w (.claim r) log w' pc' →
      byId OffPc.ensure log <+: x.answers → OffloadsFrom cfg s kind k w' pc') ↔ x = .attached := by
  constructor
  · intro h
    obtain ⟨log, u, hd, hid, hsame⟩ := dialogue_admission cfg kind hr hrow hclaim hidle
    have hlost : ∀ log' , Dialogue (World.KeepsRow s) (offStep cfg s kind) w (.claim r) log' u
        (.bringUp r (some k) .lookup) → byId OffPc.ensure log' ≠ x.answers := by
      intro log' hd' hx
      obtain ⟨log'', w', pc', hd'', hid'', hn⟩ :=
        not_offloadsFrom_of_lookup hr hd' (by rwa [hsame])
      exact hn (h log'' w' pc' hd'' (hid''.trans hx ▸ List.prefix_rfl))
    have hstep := World.KeepsRow.refl s
    cases x with
    | attached => rfl
    | gone =>
      refine absurd ?_ (hlost _ (hd.answer hstep (x := .notFound) rfl))
      simp [byId_append, hid, OffPc.ensure, EnsurePc.byId, Reattach.answers]
    | failedStart =>
      refine absurd ?_ (hlost _ (hd.answer hstep (x := .failed) rfl))
      simp [byId_append, hid, OffPc.ensure, EnsurePc.byId, Reattach.answers]
    | failedReady =>
      refine absurd ?_ (hlost _ ((hd.answer hstep (x := .ok) rfl).answer hstep (x := .failed) rfl))
      simp only [byId_append, hid]
      rfl
  · rintro rfl log w' pc' hd hid
    exact (OffProgress.of_dialogue hr hrow hd).offloadsFrom hid

end Steps

section Runs

variable {cfg : Config} {st st' : State}

/-- Every run of the system that leaves the schema's row alone is a dialogue for its offload. -/
theorem dialogue_of_offload {ok : State → Label → Prop} {s : Schema} {k : SandboxId}
    (h : Run (step cfg) ok st st')
    (hk : ∀ st'', Run (step cfg) ok st st'' → st''.world.store.idOf s = some k)
    {t : ℕ} {kind : OffloadKind} {pc : OffPc} (ht : st.tasks[t]? = some (.offload s kind pc)) :
    ∃ log w pc', Dialogue (World.KeepsRow s) (offStep cfg s kind) st.world pc log w pc' ∧
      w.KeepsRow s st'.world ∧ st'.tasks[t]? = some (.offload s kind pc') := by
  induction h with
  | refl => exact ⟨[], _, pc, .refl, rfl, ht⟩
  | tail hr hok hs ih =>
    obtain ⟨log, w, q, hd, hy, hq⟩ := ih
    rcases step_task hs hq with ⟨a, y, -, hstep, hy'⟩ | hq'
    · obtain ⟨⟨w', q'⟩, hoff, heq⟩ := Option.map_eq_some_iff.mp hstep
      cases heq
      exact ⟨_, _, q', .tail hd hy hoff, rfl, hy'⟩
    · exact ⟨log, w, q, hd, ((hk _ (hr.tail hok hs)).trans (hk _ hr).symm).trans hy, hq'⟩

end Runs

theorem offloads_recorded_attached : ∃ log w pc,
    Dialogue (World.KeepsRow app) (offStep .full app .freeze) (World.recorded .live).boot
      (.claim .freeze) log w pc ∧ pc.committed = some sb1 ∧ OffloadsFrom .full app .freeze sb1 w pc := by
  obtain ⟨log, w, pc, hd, ht⟩ := Dialogue.exists_of_talk (offStep .full app .freeze)
    (World.recorded .live).boot (.claim .freeze) (World.KeepsRow.refl app)
    [.go, .go, .go, .go, .ok, .ok, .ok, .ok, .slots 10, .go, .size 600]
    (fun x ↦ byId OffPc.ensure x.1 = Reattach.attached.answers && x.2.2.committed = some sb1)
    (by decide +kernel)
  simp only [Bool.and_eq_true, decide_eq_true_eq] at ht
  refine ⟨log, w, pc, hd, ht.2, ?_⟩
  refine (offloads_recorded_iff .full app .freeze sb1 (World.recorded .live).boot .freeze .attached
    (.inr rfl) (by decide +kernel) rfl ?_ ?_).mpr rfl log w pc hd (ht.1 ▸ List.prefix_rfl)
  · intro c e hc
    simp [World.boot] at hc
  · refine (Set.finite_singleton sb1).subset fun id hid ↦ ?_
    by_contra hne
    simp [World.boot, World.recorded, World.host, show id ≠ sb1 from hne] at hid

/-- The recorded VM does not start, and the archive of `app` is replaced by an empty database. -/
theorem not_offloads_recorded : ∃ log w pc,
    Dialogue (World.KeepsRow app) (offStep .full app .archive) (World.recorded .live).boot
      (.claim .archive) log w pc ∧ pc.committed = some sb2 ∧
    w.s3Dump app = some ⟨[], 600⟩ ∧ ¬ OffloadsFrom .full app .archive sb1 w pc := by
  obtain ⟨log, w, pc, hd, ht⟩ := Dialogue.exists_of_talk (offStep .full app .archive)
    (World.recorded .live).boot (.claim .archive) (World.KeepsRow.refl app)
    [.go, .go, .go, .go, .failed, .go, .listing [], .created sb2, .go, .go, .ok, .ok, .ok, .slots 10,
      .go, .size 600]
    (fun x ↦ x.2.2.committed = some sb2 && x.2.1.s3Dump app = some ⟨[], 600⟩)
    (by decide +kernel)
  simp only [Bool.and_eq_true, decide_eq_true_eq] at ht
  refine ⟨log, w, pc, hd, ht.1, ht.2, fun hfrom ↦ ?_⟩
  exact absurd (hfrom.source sb2 ht.1) (by decide)

end PgVmPool
