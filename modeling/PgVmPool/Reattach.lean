import PgVmPool.InUse

namespace PgVmPool

open Function Transition

/-- What comes of the attempt to bring up a VM by its recorded id. -/
inductive Reattach
  | attached | gone | failedStart | failedReady
  deriving DecidableEq

namespace Reattach

/-- The daemon's answers to the start and to the wait that follows it. -/
def answers : Reattach → List Answer
  | .attached => [.ok, .ok]
  | .gone => [.notFound]
  | .failedStart => [.failed]
  | .failedReady => [.ok, .failed]

def failed : Reattach → Bool
  | .failedStart | .failedReady => true
  | .attached | .gone => false

end Reattach

namespace EnsurePc

def asks : EnsurePc → Option SandboxId
  | .starting _ id | .waiting _ id => some id
  | _ => none

def byId : EnsurePc → Bool
  | .starting .known _ | .waiting .known _ => true
  | _ => false

def attached (k : SandboxId) : EnsurePc → Bool
  | .readyPg p id | .ensureDatabase p id | .slotBudget p id => p = .existing && id = k
  | .ok id _ => id = k
  | .err => true
  | _ => false

end EnsurePc

section Logs

variable {π : Type} (ensure : π → Option EnsurePc)

/-- The answers that the reattach by id got. -/
def byId (log : List (π × Answer)) : List Answer :=
  (log.filter fun x ↦ (ensure x.1).any EnsurePc.byId).map (·.2)

def Answered (k : SandboxId) (a : Answer) (log : List (π × Answer)) : Prop :=
  ∃ x ∈ log, (ensure x.1).bind EnsurePc.asks = some k ∧ x.2 = a

instance (k : SandboxId) (a : Answer) (log : List (π × Answer)) :
    Decidable (Answered ensure k a log) := by
  unfold Answered
  infer_instance

variable {ensure}

theorem byId_append (log : List (π × Answer)) (p : π) (a : Answer) :
    byId ensure (log ++ [(p, a)]) =
      byId ensure log ++ if (ensure p).any EnsurePc.byId then [a] else [] := by
  simp only [byId, List.filter_append, List.map_append, List.filter_singleton]
  cases (ensure p).any EnsurePc.byId <;> rfl

theorem answered_append {k : SandboxId} {a x : Answer} {log : List (π × Answer)} {p : π} :
    Answered ensure k a (log ++ [(p, x)]) ↔
      Answered ensure k a log ∨ (ensure p).bind EnsurePc.asks = some k ∧ x = a := by
  simp only [Answered, List.mem_append, List.mem_singleton, or_and_right, exists_or, exists_eq_left]

end Logs

namespace CkPc

def ensure : CkPc → Option EnsurePc
  | .bringUp _ _ p => some p
  | _ => none

def result (w : World) : CkPc → Option SandboxId
  | .bringUp _ _ (.ok id _) => some id
  | pc => pc.entry.map fun e ↦ (w.ents e).sandbox

def late : CkPc → Bool
  | .bringUp _ _ p => p ≠ .admission && !p.byId
  | .recordBinding _ _ | .clearPending _ _ _ | .removeThawed _ _ _ | .clearBreaker _ | .admitCold _
  | .serving _ | .leak _ | .leakByName | .leakStop _ | .recordFailure | .done | .failed => true
  | _ => false

def errs : CkPc → Bool
  | .bringUp _ _ .err | .leak _ | .leakByName | .leakStop _ | .recordFailure | .failed => true
  | _ => false

end CkPc

/-- The rest of the system at work: entries are allocated, and keep their VM. -/
structure World.Yields (w w' : World) : Prop where
  nextEntry : w.nextEntry ≤ w'.nextEntry
  sandbox : ∀ e < w.nextEntry, (w'.ents e).sandbox = (w.ents e).sandbox

theorem World.Yields.refl (w : World) : w.Yields w := ⟨le_rfl, fun _ _ ↦ rfl⟩

theorem World.Yields.trans {u v w : World} (h : u.Yields v) (h' : v.Yields w) : u.Yields w :=
  ⟨h.nextEntry.trans h'.nextEntry,
    fun e he ↦ (h'.sandbox e (he.trans_le h.nextEntry)).trans (h.sandbox e he)⟩

/-- A checkout called with the recorded id `k` gets, and binds, another VM only after the daemon
said that `k` does not exist; any other failure of `k` fails it and leaves the row alone. -/
structure KeepsBinding (cfg : Config) (t : ℕ) (s : Schema) (k : SandboxId)
    (log : List (CkPc × Answer)) (w : World) (pc : CkPc) : Prop where
  result : ∀ v, pc.result w = some v → v = k ∨ Answered CkPc.ensure k .notFound log
  put : ∀ a w' pc', ckStep cfg t s w pc a = some (w', pc') → w'.store.idOf s = w.store.idOf s ∨
    w'.store.idOf s = some k ∨ Answered CkPc.ensure k .notFound log
  error : Answered CkPc.ensure k .failed log → pc.result w = none ∧
    ∀ a w' pc', ckStep cfg t s w pc a = some (w', pc') → w'.store.idOf s = w.store.idOf s

section Steps

variable {cfg : Config} {t : ℕ} {s : Schema} {k : SandboxId} {w w' : World} {a : Answer}
  {pc pc' : CkPc}

/-- The checkout has, or will have, the VM `k`, or has failed. -/
def CkPc.Attached (k : SandboxId) (w : World) : CkPc → Prop
  | .bringUp _ b p => b.restore = none ∧ p.attached k = true
  | pc => ∀ e, pc.entry = some e → e < w.nextEntry ∧ (w.ents e).sandbox = k

theorem ensureStep_attached {b : BringUp} {p p' : EnsurePc} (hb : b.restore = none)
    (h : ensureStep b w p a = some (w', p')) (hp : p.attached k = true) : p'.attached k = true := by
  revert h
  fun_cases ensureStep b w p a <;> intro h <;> (try cases h)
  all_goals simp_all [EnsurePc.attached, BringUp.afterDatabase, EnsurePc.giveUp]

theorem ensureStep_late {b : BringUp} {p p' : EnsurePc} (h : ensureStep b w p a = some (w', p'))
    (hp : p ≠ .admission) (hid : p.byId = false) : p' ≠ .admission ∧ p'.byId = false := by
  have hfresh : b.fresh ≠ .admission ∧ b.fresh.byId = false := by
    unfold BringUp.fresh
    split <;> exact ⟨by simp, rfl⟩
  have hadopt (q : Provenance) (id : SandboxId) :
      b.adopt q id ≠ .admission ∧ (b.adopt q id).byId = false := by
    unfold BringUp.adopt
    split <;> exact ⟨by simp, rfl⟩
  revert h
  fun_cases ensureStep b w p a <;> intro h <;> (try cases h)
  case case1 => exact absurd rfl hp
  case case2 stage _ => cases stage <;> first | exact ⟨by simp, rfl⟩ | cases hid
  case case35 | case38 | case51 =>
    obtain ⟨_, -, heq⟩ := Option.map_eq_some_iff.mp h
    cases heq
    first | exact hfresh | exact ⟨by simp, rfl⟩
  all_goals first
    | exact hfresh
    | exact hadopt ..
    | exact ⟨by simp, rfl⟩
    | (simp only [EnsurePc.giveUp, BringUp.afterDatabase]; split <;> exact ⟨by simp, rfl⟩)

theorem ensureStep_failed {b : BringUp} {p p' : EnsurePc} (h : ensureStep b w p .failed = some (w', p'))
    (hid : p.byId = false) (hk : p.asks = some k) : p' = .err := by
  cases p with
  | starting stage id | waiting stage id =>
    cases stage with
    | known => cases hid
    | cached | named =>
      cases h
      rfl
  | _ => cases hk

theorem ckStep_late (h : ckStep cfg t s w pc a = some (w', pc')) (hpc : pc.late = true) :
    pc'.late = true := by
  revert h
  fun_cases ckStep cfg t s w pc a <;> intro h <;> (try cases h) <;> (try cases hpc) <;> (try rfl)
  case case24 =>
    obtain ⟨⟨u, p'⟩, hx, heq⟩ := Option.map_eq_some_iff.mp h
    cases heq
    simp only [CkPc.late, Bool.and_eq_true, decide_eq_true_eq, Bool.not_eq_true'] at hpc ⊢
    exact ensureStep_late hx hpc.1 hpc.2

theorem ckStep_errs (h : ckStep cfg t s w pc a = some (w', pc')) (hpc : pc.errs = true) :
    pc'.errs = true := by
  revert h
  fun_cases ckStep cfg t s w pc a <;> intro h <;> (try cases h) <;> (try cases hpc) <;> (try rfl)
  case case24 c b p _ _ =>
    obtain ⟨_, hx, -⟩ := Option.map_eq_some_iff.mp h
    cases p with
    | err => simp [ensureStep] at hx
    | _ => cases hpc

theorem CkPc.result_of_errs (hpc : pc.errs = true) : pc.result w = none := by
  cases pc with
  | bringUp c b p => cases p <;> first | rfl | cases hpc
  | _ => first | rfl | cases hpc

theorem CkPc.Attached.yields (hpc : pc.Attached k w) (hw : w.Yields w') : pc.Attached k w' := by
  cases pc with
  | bringUp => exact hpc
  | _ =>
    intro e he
    obtain ⟨hlt, hk⟩ := hpc e he
    exact ⟨hlt.trans_le hw.nextEntry, (hw.sandbox e hlt).trans hk⟩

theorem ckStep_yields (h : ckStep cfg t s w pc a = some (w', pc')) : w.Yields w' :=
  ⟨(ckStep_move h).extends.nextEntry, fun _ he ↦ (ckStep_move h).sandbox he⟩

theorem ckStep_attached (h : ckStep cfg t s w pc a = some (w', pc')) (hl : pc.late = true)
    (hpc : pc.Attached k w) : pc'.Attached k w' := by
  have hy := hpc.yields (ckStep_yields h)
  revert h
  fun_cases ckStep cfg t s w pc a <;> intro h <;> (try cases h) <;> (try cases hl) <;>
    (try exact hy)
  case case22 =>
    intro e he
    cases he
    simpa [World.openEntry, SchemaEntry.new, EnsurePc.attached] using hpc.2
  case case24 =>
    obtain ⟨_, hx, heq⟩ := Option.map_eq_some_iff.mp h
    cases heq
    exact ⟨hpc.1, ensureStep_attached hpc.1 hx hpc.2⟩
  all_goals
    intro _ he
    cases he

/-- How far the reattach by id has come, by what was answered. -/
inductive Progress (c : ℕ) (b : BringUp) (k : SandboxId) (log : List (CkPc × Answer)) (w : World) :
    CkPc → Prop
  | pending {p : EnsurePc} (hp : p = .admission ∨ p = .starting .known k)
    (hid : byId CkPc.ensure log = []) (hf : ¬ Answered CkPc.ensure k .failed log) :
    Progress c b k log w (.bringUp c b p)
  | waiting (hid : byId CkPc.ensure log = [.ok]) (hf : ¬ Answered CkPc.ensure k .failed log) :
    Progress c b k log w (.bringUp c b (.waiting .known k))
  | attached {pc : CkPc} (hid : byId CkPc.ensure log = Reattach.attached.answers)
    (hf : ¬ Answered CkPc.ensure k .failed log) (late : pc.late = true) (hpc : pc.Attached k w) :
    Progress c b k log w pc
  | gone {pc : CkPc} (hid : byId CkPc.ensure log = Reattach.gone.answers)
    (hn : Answered CkPc.ensure k .notFound log) (late : pc.late = true)
    (hpc : Answered CkPc.ensure k .failed log → pc.errs = true) : Progress c b k log w pc
  | failed {pc : CkPc} {r : Reattach} (hr : r.failed = true)
    (hid : byId CkPc.ensure log = r.answers) (late : pc.late = true) : Progress c b k log w pc

theorem byId_append_of_late {log : List (CkPc × Answer)} (h : pc.late = true) :
    byId CkPc.ensure (log ++ [(pc, a)]) = byId CkPc.ensure log := by
  have hid : (CkPc.ensure pc).any EnsurePc.byId = false := by
    cases pc <;> simp_all [CkPc.ensure, CkPc.late]
  rw [byId_append, hid]
  simp

theorem CkPc.Attached.asks (h : pc.Attached k w) : pc.ensure.bind EnsurePc.asks = none := by
  cases pc with
  | bringUp c b p => cases p <;> first | rfl | cases h.2
  | _ => rfl

theorem ckStep_failed (h : ckStep cfg t s w pc .failed = some (w', pc')) (hl : pc.late = true)
    (hk : pc.ensure.bind EnsurePc.asks = some k) : pc'.errs = true := by
  cases pc with
  | bringUp c b p =>
    obtain ⟨⟨u, p'⟩, hx, heq⟩ : ∃ r, ensureStep b w p .failed = some r ∧
        (r.1, CkPc.bringUp c b r.2) = (w', pc') := by
      cases p <;> exact Option.map_eq_some_iff.mp h
    cases heq
    simp only [CkPc.late, Bool.and_eq_true, Bool.not_eq_true'] at hl
    obtain rfl := ensureStep_failed hx hl.2 hk
    rfl
  | _ => cases hk

variable {c : ℕ} {b : BringUp} {log : List (CkPc × Answer)}

theorem Progress.yields (h : Progress c b k log w pc) (hw : w.Yields w') : Progress c b k log w' pc := by
  cases h with
  | pending hp hid hf => exact .pending hp hid hf
  | waiting hid hf => exact .waiting hid hf
  | attached hid hf late hpc => exact .attached hid hf late (hpc.yields hw)
  | gone hid hn late hpc => exact .gone hid hn late hpc
  | failed hr hid late => exact .failed hr hid late

theorem BringUp.first_of_known (hk : b.known = some k) (hb : b.restore = none) :
    b.first = .starting .known k := by
  simp [BringUp.first, BringUp.image, BringUp.reattach, hk, hb]

theorem Progress.step (h : Progress c b k log w pc) (hk : b.known = some k) (hb : b.restore = none)
    (hs : ckStep cfg t s w pc a = some (w', pc')) : Progress c b k (log ++ [(pc, a)]) w' pc' := by
  cases h with
  | pending hp hid hf =>
    rcases hp with rfl | rfl
    · cases a <;> cases hs
      refine .pending (.inr (BringUp.first_of_known hk hb)) ?_ ?_
      · simp [byId_append, hid, CkPc.ensure, EnsurePc.byId]
      · simp [answered_append, hf]
    · cases a <;> cases hs
      · refine .waiting ?_ ?_
        · simp [byId_append, hid, CkPc.ensure, EnsurePc.byId]
        · simp [answered_append, hf]
      · refine .gone ?_ ?_ rfl ?_
        · simp [byId_append, hid, CkPc.ensure, EnsurePc.byId, Reattach.answers]
        · simp [answered_append, CkPc.ensure, EnsurePc.asks]
        · simp [answered_append, hf]
      · refine .failed (r := .failedStart) rfl ?_ rfl
        simp [byId_append, hid, CkPc.ensure, EnsurePc.byId, Reattach.answers]
  | waiting hid hf =>
    cases a <;> cases hs
    · refine .attached ?_ ?_ rfl ⟨hb, by simp [EnsurePc.attached]⟩
      · simp [byId_append, hid, CkPc.ensure, EnsurePc.byId, Reattach.answers]
      · simp [answered_append, hf]
    · refine .failed (r := .failedReady) rfl ?_ rfl
      simp [byId_append, hid, CkPc.ensure, EnsurePc.byId, Reattach.answers]
  | attached hid hf late hpc =>
    refine .attached ?_ ?_ (ckStep_late hs late) (ckStep_attached hs late hpc)
    · rw [byId_append_of_late late, hid]
    · simp [answered_append, hf, hpc.asks]
  | gone hid hn late hpc =>
    refine .gone ?_ (answered_append.mpr (.inl hn)) (ckStep_late hs late) fun hf ↦ ?_
    · rw [byId_append_of_late late, hid]
    · rcases answered_append.mp hf with hf | ⟨hask, rfl⟩
      · exact ckStep_errs hs (hpc hf)
      · exact ckStep_failed hs late hask
  | failed hr hid late =>
    refine .failed hr ?_ (ckStep_late hs late)
    rw [byId_append_of_late late, hid]

theorem CkPc.Attached.result (h : pc.Attached k w) {v : SandboxId} (hv : pc.result w = some v) :
    v = k := by
  cases pc with
  | bringUp c b p =>
    cases p with
    | ok id n =>
      cases hv
      simpa [EnsurePc.attached] using h.2
    | _ => cases hv
  | _ => cases hv <;> exact (h _ rfl).2

theorem ckStep_idOf (h : ckStep cfg t s w pc a = some (w', pc')) :
    w'.store.idOf s = w.store.idOf s ∨ ∃ v, pc.result w = some v ∧ w'.store.idOf s = some v := by
  rcases ckStep_store h with hst | hst | ⟨e, r, rfl, hst⟩
  · exact .inl (by rw [hst])
  · exact .inl (by rw [hst, Store.idOf_touch])
  · exact .inr ⟨_, rfl, by rw [hst, Store.idOf_put]⟩

theorem KeepsBinding.of_result
    (hres : ∀ v, pc.result w = some v → v = k ∨ Answered CkPc.ensure k .notFound log)
    (herr : Answered CkPc.ensure k .failed log → pc.result w = none) :
    KeepsBinding cfg t s k log w pc where
  result := hres
  put a w' pc' h := by
    rcases ckStep_idOf h with heq | ⟨v, hv, heq⟩
    · exact .inl heq
    · rcases hres v hv with rfl | hn
      · exact .inr (.inl heq)
      · exact .inr (.inr hn)
  error hf := by
    refine ⟨herr hf, fun a w' pc' h ↦ ?_⟩
    rcases ckStep_idOf h with heq | ⟨v, hv, -⟩
    · exact heq
    · simp [herr hf] at hv

theorem Progress.keepsBinding (h : Progress c b k log w pc) {r : Reattach}
    (hr : byId CkPc.ensure log <+: r.answers) (hfail : r.failed = false) :
    KeepsBinding cfg t s k log w pc := by
  cases h with
  | pending hp _ hf =>
    refine .of_result (fun v hv ↦ ?_) fun h ↦ absurd h hf
    rcases hp with rfl | rfl <;> cases hv
  | waiting _ hf =>
    refine .of_result (fun v hv ↦ ?_) fun h ↦ absurd h hf
    cases hv
  | attached _ hf _ hpc => exact .of_result (fun v hv ↦ .inl (hpc.result hv)) fun h ↦ absurd h hf
  | gone _ hn _ hpc => exact .of_result (fun _ _ ↦ .inr hn) fun hf ↦ CkPc.result_of_errs (hpc hf)
  | @failed _ r' hr' hid =>
    rw [hid] at hr
    cases r <;> cases r' <;> simp_all [Reattach.answers, Reattach.failed]

theorem not_keepsBinding_of_starting {w₀ : World} {pc₀ : CkPc} {stage : Stage} {id : SandboxId}
    (hb : b.restore = none) (hstage : stage ≠ .known)
    (h : Dialogue World.Yields (ckStep cfg t s) w₀ pc₀ log w (.bringUp c b (.starting stage id)))
    (hf : Answered CkPc.ensure k .failed log) :
    ∃ log' w' pc', Dialogue World.Yields (ckStep cfg t s) w₀ pc₀ log' w' pc' ∧
      byId CkPc.ensure log' = byId CkPc.ensure log ∧ ¬ KeepsBinding cfg t s k log' w' pc' := by
  have hdb : b.afterDatabase .existing id = .slotBudget .existing id := by
    simp [BringUp.afterDatabase, hb]
  have h₁ := h.of_talk World.Yields.refl [.ok, .ok, .ok] rfl
  have h₂ := h₁.answer World.Yields.refl (x := .ok) rfl
  rw [hdb] at h₂
  have h₃ := h₂.answer World.Yields.refl (x := .slots 1) rfl
  refine ⟨_, _, _, h₃, ?_, fun hkeep ↦ ?_⟩
  · cases stage with
    | known => exact absurd rfl hstage
    | cached | named =>
      simp only [byId_append]
      simp [CkPc.ensure, EnsurePc.byId]
  · have hf' := hkeep.error (by simp only [answered_append, hf, true_or])
    cases hf'.1

theorem not_keepsBinding_of_lookup {w₀ : World} {pc₀ : CkPc} (hb : b.restore = none)
    (h : Dialogue World.Yields (ckStep cfg t s) w₀ pc₀ log w (.bringUp c b .lookup))
    (hf : Answered CkPc.ensure k .failed log) :
    ∃ log' w' pc', Dialogue World.Yields (ckStep cfg t s) w₀ pc₀ log' w' pc' ∧
      byId CkPc.ensure log' = byId CkPc.ensure log ∧ ¬ KeepsBinding cfg t s k log' w' pc' := by
  have hpush {pc : CkPc} {a : Answer} : Answered CkPc.ensure k .failed (log ++ [(pc, a)]) :=
    answered_append.mpr (.inl hf)
  cases hi : w.inventory (vmName b.schema) with
  | some id =>
    have hs : ckStep cfg t s w (.bringUp c b .lookup) .go =
        some (w, .bringUp c b (.starting .cached id)) := by
      simp [ckStep, ensureStep, hi]
    obtain ⟨log', w', pc', hd, hid, hn⟩ := not_keepsBinding_of_starting hb (by simp)
      (h.answer World.Yields.refl hs) hpush
    refine ⟨log', w', pc', hd, ?_, hn⟩
    simp only [hid, byId_append]
    simp [CkPc.ensure, EnsurePc.byId]
  | none =>
    let found : Info := ⟨k, vmName b.schema, true⟩
    have hs : ckStep cfg t s w (.bringUp c b .lookup) .go = some (w, .bringUp c b .findByName) := by
      simp [ckStep, ensureStep, hi]
    have hs' : ckStep cfg t s w (.bringUp c b .findByName) (.listing [found]) =
        some ((w.absorb [found]).insertName (vmName b.schema) k,
          .bringUp c b (.starting .named k)) := by
      simp [ckStep, ensureStep, found]
    obtain ⟨log', w', pc', hd, hid, hn⟩ := not_keepsBinding_of_starting hb (by simp)
      ((h.answer World.Yields.refl hs).answer World.Yields.refl hs')
      (answered_append.mpr (.inl hpush))
    refine ⟨log', w', pc', hd, ?_, hn⟩
    simp only [hid, byId_append]
    simp [CkPc.ensure, EnsurePc.byId]

/-- A checkout keeps its schema's binding, for all daemon answers and whatever the rest of the system
does, exactly when the reattach by id succeeds or the daemon says that the VM is gone. -/
theorem keeps_binding_iff (cfg : Config) (t c : ℕ) (s : Schema) (k : SandboxId)
    (spares : Option (List SandboxId)) (w : World) (r : Reattach) :
    (∀ log w' pc', Dialogue World.Yields (ckStep cfg t s) w
        (.bringUp c ⟨s, some k, none, spares⟩ .admission) log w' pc' →
      byId CkPc.ensure log <+: r.answers → KeepsBinding cfg t s k log w' pc') ↔
      r = .attached ∨ r = .gone := by
  constructor
  · intro h
    have hfails : ∀ log w', Dialogue World.Yields (ckStep cfg t s) w
        (.bringUp c ⟨s, some k, none, spares⟩ .admission) log w'
        (.bringUp c ⟨s, some k, none, spares⟩ .lookup) → byId CkPc.ensure log = r.answers →
        ¬ Answered CkPc.ensure k .failed log := by
      intro log w' hd hr hf
      obtain ⟨log', u, pc', hd', hid, hn⟩ := not_keepsBinding_of_lookup rfl hd hf
      exact hn (h log' u pc' hd' (hid.trans hr ▸ List.prefix_rfl))
    cases r with
    | attached => exact .inl rfl
    | gone => exact .inr rfl
    | failedStart =>
      refine absurd ?_ (hfails _ _ (Dialogue.refl.of_talk World.Yields.refl
        [.go, .failed] rfl) rfl)
      simp [Answered, CkPc.ensure, BringUp.first, BringUp.image, BringUp.reattach, EnsurePc.asks]
    | failedReady =>
      refine absurd ?_ (hfails _ _ (Dialogue.refl.of_talk World.Yields.refl
        [.go, .ok, .failed] rfl) rfl)
      simp [Answered, CkPc.ensure, BringUp.first, BringUp.image, BringUp.reattach, EnsurePc.asks]
  · intro hr log w' pc' h hid
    have hp : Progress c ⟨s, some k, none, spares⟩ k log w' pc' := by
      refine h.invariant (.pending (.inl rfl) rfl (by simp [Answered])) ?_ ?_
      · exact fun _ _ _ _ hI hy ↦ hI.yields hy
      · exact fun _ _ _ _ _ _ hI hs ↦ hI.step rfl rfl hs
    refine hp.keepsBinding hid ?_
    rcases hr with rfl | rfl <;> rfl

end Steps

section Runs

variable {cfg : Config} {st st' : State} {l : Label}

theorem World.Shrinks.yields {w w' : World} (h : w.Shrinks w') : w.Yields w' :=
  ⟨h.nextEntry.ge, fun _ _ ↦ by rw [h.ents]⟩

theorem Step.yields (h : Step cfg st l st') : st.world.Yields st'.world := by
  cases h with
  | spawn => exact .refl _
  | checkout _ h => exact ckStep_yields h
  | offload _ h => exact (offStep_shrinks h).yields
  | reapIdle _ h => exact (idleStep_shrinks h).yields
  | reapUntracked _ h => exact (untrackedStep_shrinks h).yields
  | purge _ h => exact (purgeStep_shrinks h).yields
  | outside h => exact (worldStep_shrinks h).yields

/-- Every run of the system is a dialogue for each of its checkouts. -/
theorem dialogue_of_run {ok : State → Label → Prop} (h : Run (step cfg) ok st st') {t : ℕ} {s : Schema}
    {pc : CkPc} (ht : st.tasks[t]? = some (.checkout s pc)) :
    ∃ log w pc', Dialogue World.Yields (ckStep cfg t s) st.world pc log w pc' ∧
      w.Yields st'.world ∧ st'.tasks[t]? = some (.checkout s pc') := by
  induction h with
  | refl => exact ⟨[], _, pc, .refl, .refl _, ht⟩
  | tail _ _ hs ih =>
    obtain ⟨log, w, q, hd, hy, hq⟩ := ih
    rcases step_task hs hq with ⟨a, y, -, hstep, hy'⟩ | hq'
    · obtain ⟨⟨w', q'⟩, hck, heq⟩ := Option.map_eq_some_iff.mp hstep
      cases heq
      exact ⟨_, _, q', .tail hd hy hck, .refl _, hy'⟩
    · exact ⟨log, w, q, hd, hy.trans (step_sound hs).yields, hq'⟩

/-- A failed start of `sb-1` by id leads to a fresh, empty VM, which takes over the row. -/
theorem not_keeps_binding : ∃ log w pc, Dialogue World.Yields (ckStep .full 0 app)
      (World.recorded .live).boot (.bringUp 0 ⟨app, some sb1, none, none⟩ .admission) log w pc ∧
    w.store.record app = some ⟨sb2, 0, .live⟩ ∧ w.disks sb2 = some ⟨[], 0⟩ ∧
    ¬ Answered CkPc.ensure sb1 .notFound log ∧ ¬ KeepsBinding .full 0 app sb1 log w pc := by
  obtain ⟨log, w, pc, hd, ht⟩ := Dialogue.exists_of_talk (ckStep .full 0 app)
    (World.recorded .live).boot (.bringUp 0 ⟨app, some sb1, none, none⟩ .admission) World.Yields.refl
    [.go, .failed, .go, .listing [], .created sb2, .go, .go, .ok, .ok, .ok, .slots 10, .go, .go]
    (fun x ↦ x.2.1.store.record app = some ⟨sb2, 0, .live⟩ && x.2.1.disks sb2 = some ⟨[], 0⟩ &&
      !decide (Answered CkPc.ensure sb1 .notFound x.1) && x.2.2.result x.2.1 = some sb2)
    (by decide +kernel)
  simp only [Bool.and_eq_true, decide_eq_true_eq, Bool.not_eq_true', decide_eq_false_iff_not] at ht
  obtain ⟨⟨⟨hrow, hdisk⟩, hn⟩, hres⟩ := ht
  refine ⟨log, w, pc, hd, hrow, hdisk, hn, fun hkeep ↦ ?_⟩
  rcases hkeep.result sb2 hres with heq | h
  · exact absurd heq (by decide)
  · exact hn h

end Runs

end PgVmPool
