import PgVmPool.BootSystem

namespace PgVmPool.Boots

open Function Transition FairLock

def Task.admissionUse (x : Task) : Use :=
  match x.stage with
  | .admission | .ended => .idle
  | .admissionQueued => .waiting
  | .next | .permit _ _ | .slot _ | .slotQueued _ | .daemon _ _ =>
    if x.kind = .ensureVm then .holding else .idle

def Task.slotUse (x : Task) : Use :=
  match x.stage with
  | .slotQueued _ => .waiting
  | .daemon _ true => .holding
  | _ => .idle

def Task.gateUse (x : Task) : Use :=
  match x.stage with
  | .permit _ .queued => .waiting
  | .slot (some .gate) | .slotQueued (some .gate) | .daemon (some .gate) _ => .holding
  | _ => .idle

/-- A `WaitingGuard` of this task is alive. -/
def Task.guarded (x : Task) : Bool :=
  match x.stage with
  | .permit _ pc => pc.registered
  | _ => false

def passUse : Option PassPc → Use
  | none => .idle
  | some .queued => .waiting
  | some (.counting _) | some (.watching _ _) | some (.woken _) => .holding

def useAt (f : Task → Use) (tasks : List Task) (t : ℕ) : Use := tasks[t]?.elim .idle f

def State.gateUse (st : State) : Party → Use
  | .boot t => useAt Task.gateUse st.tasks t
  | .pass => passUse st.pass
  | .script _ => .idle

/-- The writer takes the gate as a whole, a reader one place in it. -/
def Config.need (cfg : Config) : Party → ℕ
  | .pass => cfg.readers
  | .boot _ | .script _ => 1

theorem useAt_set {f : Task → Use} {tasks : List Task} {t : ℕ} (ht : t < tasks.length) (x : Task) :
    useAt f (tasks.set t x) = update (useAt f tasks) t (f x) := by
  funext j
  unfold useAt
  by_cases hj : j = t
  · subst hj
    simp [ht]
  · rw [update_of_ne hj, List.getElem?_set_ne (Ne.symm hj)]

theorem useAt_append {f : Task → Use} (tasks : List Task) {x : Task} (hx : f x = .idle) :
    useAt f (tasks ++ [x]) = useAt f tasks := by
  funext j
  unfold useAt
  by_cases hj : j < tasks.length
  · rw [List.getElem?_append_left hj]
  · rw [List.getElem?_eq_none (by omega : tasks.length ≤ j)]
    by_cases hj' : j = tasks.length
    · subst hj'
      simp [hx]
    · rw [List.getElem?_eq_none (by simp; omega)]

theorem useAt_of_getElem? {f : Task → Use} {tasks : List Task} {t : ℕ} {x : Task}
    (h : tasks[t]? = some x) : useAt f tasks t = f x := by
  simp [useAt, h]

/-- The stage of a task fits its call site. -/
def Task.Fits (x : Task) : Prop :=
  match x.stage with
  | .admission | .admissionQueued => x.kind = .ensureVm
  | .daemon _ slot => slot = true ∨ x.kind = .grow
  | _ => True

theorem Task.fits_start (kind : Kind) : Task.Fits ⟨kind, kind.start⟩ := by
  cases kind <;> trivial

/-- What one step of a task does to the accounts, the counters included. -/
structure Booked (kind : Kind) (t : ℕ) (w : Shared) (stage : Stage) (w' : Shared)
    (stage' : Stage) : Prop where
  fits : Task.Fits ⟨kind, stage'⟩
  admission : Move w.admission 1 t (Task.admissionUse ⟨kind, stage⟩) w'.admission
    (Task.admissionUse ⟨kind, stage'⟩)
  slots : Move w.slots 1 t (Task.slotUse ⟨kind, stage⟩) w'.slots (Task.slotUse ⟨kind, stage'⟩)
  gate : Move w.gates.gate 1 (.boot t) (Task.gateUse ⟨kind, stage⟩) w'.gates.gate
    (Task.gateUse ⟨kind, stage'⟩)
  bringups : w'.bringupsWaiting =
    w.bringupsWaiting - (if stage.counted then 1 else 0) + (if stage'.counted then 1 else 0)
  boots : (Task.guarded ⟨kind, stage⟩ = true → 0 < w.gates.bootsWaiting) →
    w'.gates.bootsWaiting = w.gates.bootsWaiting - (if Task.guarded ⟨kind, stage⟩ then 1 else 0) +
      (if Task.guarded ⟨kind, stage'⟩ then 1 else 0)

def PermitPc.gateUse : PermitPc → Use
  | .queued => .waiting
  | .latch | .openLock | .poll | .tryRead => .idle

def Acquire.gateUse : Acquire → Use
  | .waits pc => pc.gateUse
  | .done (some .gate) => .holding
  | .done (some (.disk _)) | .done none => .idle

def Acquire.registered : Acquire → Bool
  | .waits pc => pc.registered
  | .done _ => false

section Permit

variable {cfg : Config} {t : ℕ} {id : String} {limited : Bool} {g g' : Gates} {pc : PermitPc}
  {acq : Acquire}

theorem PermitMove.gate (h : PermitMove cfg t id limited g pc g' acq) :
    Move g.gate 1 (.boot t) pc.gateUse g'.gate acq.gateUse := by
  cases h with
  | latch => cases g.perDisk && cfg.hasLock id <;> exact .keep _
  | lock | meet | skip | lockLate | again | skipLate | expire => exact .keep _
  | read take => exact .take take
  | queue => exact .request
  | enter granted => exact .resume granted
  | quit => exact .drop _

theorem PermitMove.boots (h : PermitMove cfg t id limited g pc g' acq)
    (hpos : pc.registered = true → 0 < g.bootsWaiting) :
    g'.bootsWaiting = g.bootsWaiting - (if pc.registered then 1 else 0) +
      (if acq.registered then 1 else 0) := by
  cases h with
  | latch => cases g.perDisk && cfg.hasLock id <;> rfl
  | again => exact (Nat.sub_add_cancel (hpos rfl)).symm
  | lock | meet | skip | lockLate | skipLate | expire | read | queue | enter | quit => rfl

theorem PermitMove.refused (h : PermitMove cfg t id limited g pc g' (.done none)) : limited = true := by
  cases h with
  | expire hl | quit hl => exact hl

end Permit

theorem Acquire.gateUse_stage (kind : Kind) (id : String) (acq : Acquire) :
    Task.gateUse ⟨kind, acq.stage kind id⟩ = acq.gateUse := by
  cases acq with
  | waits pc => cases pc <;> rfl
  | done permit =>
    rcases permit with _ | _ | _
    · rfl
    · cases kind <;> rfl
    · cases kind <;> rfl

theorem Acquire.guarded_stage (kind : Kind) (id : String) (acq : Acquire) :
    Task.guarded ⟨kind, acq.stage kind id⟩ = acq.registered := by
  cases acq with
  | waits pc => rfl
  | done permit =>
    cases permit with
    | none => rfl
    | some permit => cases kind <;> rfl

theorem Gates.releaseAll_move (g : Gates) (t : ℕ) (kind : Kind) (permit : Option Permit) {stage : Stage}
    (hs : stage = .slot permit ∨ stage = .slotQueued permit ∨ ∃ slot, stage = .daemon permit slot) :
    Move g.gate 1 (.boot t) (Task.gateUse ⟨kind, stage⟩) (g.releaseAll t permit).gate .idle ∧
      (g.releaseAll t permit).bootsWaiting = g.bootsWaiting := by
  rcases permit with _ | _ | _ <;> rcases hs with rfl | rfl | ⟨slot, rfl⟩ <;>
    first | exact ⟨.keep _, rfl⟩ | exact ⟨.drop _, rfl⟩

section Task

variable {cfg : Config} {t : ℕ} {kind : Kind} {w w' : Shared} {stage stage' : Stage} {a : Answer}

theorem TaskMove.booked (hf : Task.Fits ⟨kind, stage⟩) (h : TaskMove cfg t w kind stage w' stage') :
    Booked kind t w stage w' stage' := by
  cases h with
  | enter take =>
    obtain rfl : kind = .ensureVm := hf
    exact ⟨trivial, .take take, .keep _, .keep _, rfl, fun _ ↦ rfl⟩
  | wait =>
    obtain rfl : kind = .ensureVm := hf
    exact ⟨rfl, .request, .keep _, .keep _, rfl, fun _ ↦ rfl⟩
  | entered granted =>
    obtain rfl : kind = .ensureVm := hf
    exact ⟨trivial, .resume granted, .keep _, .keep _, rfl, fun _ ↦ rfl⟩
  | boot => exact ⟨trivial, .keep _, .keep _, .keep _, rfl, fun _ ↦ rfl⟩
  | create hk =>
    subst hk
    exact ⟨trivial, .keep _, .keep _, .keep _, rfl, fun _ ↦ rfl⟩
  | finish => exact ⟨trivial, .drop _, .keep _, .keep _, rfl, fun _ ↦ rfl⟩
  | @permit id pc g' acq hp =>
    have hgate := hp.gate
    have hboots := hp.boots
    rw [← Acquire.gateUse_stage kind id acq] at hgate
    rw [← Acquire.guarded_stage kind id acq] at hboots
    have hpc : Task.gateUse ⟨kind, .permit id pc⟩ = pc.gateUse := by cases pc <;> rfl
    have huses : Task.admissionUse ⟨kind, acq.stage kind id⟩ = Task.admissionUse ⟨kind, .permit id pc⟩ ∧
        Task.slotUse ⟨kind, acq.stage kind id⟩ = .idle ∧ (acq.stage kind id).counted = false ∧
        Task.Fits ⟨kind, acq.stage kind id⟩ := by
      cases acq with
      | waits => exact ⟨rfl, rfl, rfl, trivial⟩
      | done permit =>
        cases permit with
        | some permit =>
          cases kind
          case grow => exact ⟨rfl, rfl, rfl, .inr rfl⟩
          all_goals exact ⟨rfl, rfl, rfl, trivial⟩
        | none =>
          have hlimited := hp.refused
          cases kind
          case restartSpare => exact ⟨rfl, rfl, rfl, trivial⟩
          all_goals cases hlimited
    refine ⟨huses.2.2.2, huses.1 ▸ .keep _, ?_, hpc ▸ hgate, ?_, hboots⟩
    · rw [huses.2.1]
      exact .keep _
    · have hcount : (Stage.permit id pc).counted = false := rfl
      simp [hcount, huses.2.2.1]
  | @slot permit slots take =>
    have hgate : Task.gateUse ⟨kind, .daemon permit true⟩ = Task.gateUse ⟨kind, .slot permit⟩ := by
      rcases permit with _ | _ | _ <;> rfl
    exact ⟨.inl rfl, .keep _, .take take, hgate ▸ .keep _, rfl, fun _ ↦ rfl⟩
  | @slotWait permit =>
    have hgate : Task.gateUse ⟨kind, .slotQueued permit⟩ = Task.gateUse ⟨kind, .slot permit⟩ := by
      rcases permit with _ | _ | _ <;> rfl
    exact ⟨trivial, .keep _, .request, hgate ▸ .keep _, rfl, fun _ ↦ rfl⟩
  | @slotted permit granted =>
    have hgate : Task.gateUse ⟨kind, .daemon permit true⟩ = Task.gateUse ⟨kind, .slotQueued permit⟩ := by
      rcases permit with _ | _ | _ <;> rfl
    exact ⟨.inl rfl, .keep _, .resume granted, hgate ▸ .keep _, rfl, fun _ ↦ rfl⟩
  | @booted permit slot =>
    obtain ⟨hgate, hboots⟩ := w.gates.releaseAll_move t kind permit (.inr (.inr ⟨slot, rfl⟩))
    have huses : Task.admissionUse ⟨kind, kind.returned⟩ = Task.admissionUse ⟨kind, .daemon permit slot⟩ ∧
        Task.slotUse ⟨kind, kind.returned⟩ = .idle ∧ Task.gateUse ⟨kind, kind.returned⟩ = .idle ∧
        kind.returned.counted = false ∧ Task.guarded ⟨kind, kind.returned⟩ = false ∧
        Task.Fits ⟨kind, kind.returned⟩ := by
      cases kind <;> exact ⟨rfl, rfl, rfl, rfl, rfl, trivial⟩
    obtain ⟨hadm, hslot, hg, hcount, hguard, hfits⟩ := huses
    refine ⟨hfits, hadm ▸ .keep _, hslot ▸ .drop _, hg ▸ hgate, ?_, fun _ ↦ ?_⟩
    · have hdaemon : (Stage.daemon permit slot).counted = false := rfl
      simp [hdaemon, hcount]
    · have hdaemon : Task.guarded ⟨kind, .daemon permit slot⟩ = false := rfl
      simpa [hdaemon, hguard] using hboots

theorem abandon_booked (kind : Kind) (t : ℕ) (w : Shared) (stage : Stage) :
    Booked kind t w stage (w.abandon t stage) .ended := by
  refine ⟨trivial, .drop _, .drop _, ?_, ?_, fun _ ↦ ?_⟩
  · cases stage with
    | permit id pc => cases pc <;> first | exact .keep _ | exact .drop _
    | slot permit => exact (w.gates.releaseAll_move t kind permit (.inl rfl)).1
    | slotQueued permit => exact (w.gates.releaseAll_move t kind permit (.inr (.inl rfl))).1
    | daemon permit slot => exact (w.gates.releaseAll_move t kind permit (.inr (.inr ⟨slot, rfl⟩))).1
    | admission | admissionQueued | next | ended => exact .keep _
  · cases stage <;> rfl
  · cases stage with
    | permit id pc => cases pc <;> rfl
    | slot permit => exact (w.gates.releaseAll_move t kind permit (.inl rfl)).2
    | slotQueued permit => exact (w.gates.releaseAll_move t kind permit (.inr (.inl rfl))).2
    | daemon permit slot => exact (w.gates.releaseAll_move t kind permit (.inr (.inr ⟨slot, rfl⟩))).2
    | admission | admissionQueued | next | ended => rfl

end Task

/-- The books are right: the locks stand as the tasks and the pass say, and each counter is the
number of guards that live. -/
structure State.Booked (cfg : Config) (st : State) : Prop where
  fits : ∀ (t : ℕ) (x : Task), st.tasks[t]? = some x → x.Fits
  admission : Tracks st.shared.admission (fun _ ↦ 1) (useAt Task.admissionUse st.tasks)
  slots : Tracks st.shared.slots (fun _ ↦ 1) (useAt Task.slotUse st.tasks)
  gate : Tracks st.gates.gate cfg.need st.gateUse
  admissionCap : st.shared.admission.capacity = cfg.admission
  slotsCap : st.shared.slots.capacity = cfg.slots
  gateCap : st.gates.gate.capacity = cfg.readers
  bringups : st.shared.bringupsWaiting = st.tasks.countP fun x ↦ x.stage.counted
  boots : st.gates.bootsWaiting = st.tasks.countP Task.guarded

theorem State.gateUse_set {st : State} {t : ℕ} (ht : t < st.tasks.length) (x : Task) :
    State.gateUse { st with tasks := st.tasks.set t x } = update st.gateUse (.boot t) x.gateUse := by
  funext p
  cases p with
  | boot j =>
    by_cases hj : j = t
    · subst hj
      simp [State.gateUse, useAt_set ht]
    · have hne : Party.boot j ≠ .boot t := fun h ↦ hj (Party.boot.inj h)
      simp [State.gateUse, useAt_set ht, update_of_ne hj, update_of_ne hne]
  | pass | script => simp [State.gateUse]

theorem State.Booked.task {cfg : Config} {st : State} (hb : st.Booked cfg) {t : ℕ} {x : Task}
    (hx : st.tasks[t]? = some x) {w' : Shared} {stage' : Stage}
    (h : Boots.Booked x.kind t st.shared x.stage w' stage') :
    State.Booked cfg { st with shared := w', tasks := st.tasks.set t ⟨x.kind, stage'⟩ } := by
  obtain ⟨ht, rfl⟩ := List.getElem?_eq_some_iff.mp hx
  have hguard : Task.guarded st.tasks[t] = true → 0 < st.gates.bootsWaiting := fun hg ↦ by
    rw [hb.boots]
    exact List.countP_pos_iff.mpr ⟨_, List.getElem_mem ht, hg⟩
  refine ⟨?_, ?_, ?_, ?_, ?_, ?_, ?_, ?_, ?_⟩
  · exact forall_set (P := fun _ (y : Task) ↦ y.Fits) h.fits fun j y _ hy ↦ hb.fits j y hy
  · rw [useAt_set ht]
    exact hb.admission.move rfl (useAt_of_getElem? hx ▸ h.admission)
  · rw [useAt_set ht]
    exact hb.slots.move rfl (useAt_of_getElem? hx ▸ h.slots)
  · have huse : State.gateUse { st with shared := w', tasks := st.tasks.set t ⟨st.tasks[t].kind, stage'⟩ } =
        update st.gateUse (.boot t) (Task.gateUse ⟨st.tasks[t].kind, stage'⟩) := State.gateUse_set ht _
    rw [huse]
    have hmove : Move st.gates.gate 1 (.boot t) (st.gateUse (.boot t)) w'.gates.gate
        (Task.gateUse ⟨st.tasks[t].kind, stage'⟩) := by
      rw [State.gateUse, useAt_of_getElem? hx]
      exact h.gate
    exact hb.gate.move rfl hmove
  · exact h.admission.capacity.trans hb.admissionCap
  · exact h.slots.capacity.trans hb.slotsCap
  · exact h.gate.capacity.trans hb.gateCap
  · rw [List.countP_set ht, ← hb.bringups]
    exact h.bringups
  · rw [List.countP_set ht, ← hb.boots]
    exact h.boots hguard

/-- What neither the pass nor a script touches. -/
structure State.SameBoots (st st' : State) : Prop where
  tasks : st'.tasks = st.tasks
  admission : st'.shared.admission = st.shared.admission
  slots : st'.shared.slots = st.shared.slots
  bringups : st'.shared.bringupsWaiting = st.shared.bringupsWaiting
  boots : st'.gates.bootsWaiting = st.gates.bootsWaiting

theorem State.Booked.passes {cfg : Config} {st st' : State} (hb : st.Booked cfg)
    (hs : st.SameBoots st')
    (hg : Move st.gates.gate cfg.readers .pass (passUse st.pass) st'.gates.gate (passUse st'.pass)) :
    st'.Booked cfg := by
  have huse : st'.gateUse = update st.gateUse .pass (passUse st'.pass) := by
    funext p
    cases p <;> simp [State.gateUse, hs.tasks]
  refine ⟨?_, ?_, ?_, ?_, ?_, ?_, ?_, ?_, ?_⟩
  · rw [hs.tasks]
    exact hb.fits
  · rw [hs.tasks, hs.admission]
    exact hb.admission
  · rw [hs.tasks, hs.slots]
    exact hb.slots
  · rw [huse]
    exact hb.gate.move rfl hg
  · rw [hs.admission]
    exact hb.admissionCap
  · rw [hs.slots]
    exact hb.slotsCap
  · exact hg.capacity.trans hb.gateCap
  · rw [hs.tasks, hs.bringups]
    exact hb.bringups
  · rw [hs.tasks, hs.boots]
    exact hb.boots

theorem State.consult_same (cfg : Config) (st : State) (child : Option ℕ) :
    st.SameBoots (st.consult cfg child) ∧ (st.consult cfg child).gates.gate = st.gates.gate ∧
      passUse (st.consult cfg child).pass = .holding := by
  unfold State.consult
  split <;> exact ⟨⟨rfl, rfl, rfl, rfl, rfl⟩, rfl, rfl⟩

theorem Gates.clearMarker_frame (cfg : Config) (g : Gates) (removed : Bool) :
    (g.clearMarker cfg removed).gate = g.gate ∧
      (g.clearMarker cfg removed).bootsWaiting = g.bootsWaiting := by
  unfold Gates.clearMarker
  split <;> exact ⟨rfl, rfl⟩

theorem Gates.relatch_frame (cfg : Config) (g : Gates) :
    (g.relatch cfg).gate = g.gate ∧ (g.relatch cfg).bootsWaiting = g.bootsWaiting := by
  unfold Gates.relatch
  split <;> exact ⟨rfl, rfl⟩

theorem begun_frame (cfg : Config) (st : State) (removed : Bool) :
    (begun cfg st removed).gates.gate = st.gates.gate ∧ st.SameBoots (begun cfg st removed) := by
  obtain ⟨hgate, hboots⟩ := st.gates.clearStop.clearMarker_frame cfg removed
  exact ⟨hgate, ⟨rfl, rfl, rfl, rfl, hboots⟩⟩

theorem passMove_booked {cfg : Config} {st st' : State} {pc : PassPc} {x : PassMove}
    (hpc : st.pass = some pc) (h : passMove cfg st pc x = some st') :
    st.SameBoots st' ∧
      Move st.gates.gate cfg.readers .pass (passUse st.pass) st'.gates.gate (passUse st'.pass) := by
  have hends (f : Gates → Gates) (hf : (f st.gates).gate = st.gates.gate)
      (hboots : (f st.gates).bootsWaiting = st.gates.bootsWaiting) :
      st.SameBoots (st.passEnds f) ∧
        Move st.gates.gate cfg.readers .pass (passUse st.pass) (st.passEnds f).gates.gate
          (passUse (st.passEnds f).pass) := by
    refine ⟨⟨rfl, rfl, rfl, rfl, hboots⟩, ?_⟩
    have hdrop : (st.passEnds f).gates.gate = st.gates.gate.drop .pass := by
      rw [← hf]
      rfl
    rw [hdrop]
    exact .drop _
  have hconsult (child : Option ℕ) (huse : passUse st.pass = .holding) :
      st.SameBoots (st.consult cfg child) ∧ Move st.gates.gate cfg.readers .pass (passUse st.pass)
        (st.consult cfg child).gates.gate (passUse (st.consult cfg child).pass) := by
    obtain ⟨hsame, hgate, hpass⟩ := st.consult_same cfg child
    rw [huse, hgate, hpass]
    exact ⟨hsame, .keep _⟩
  unfold passMove at h
  split at h
  · rename_i removed launch
    simp only [Option.ite_none_right_eq_some] at h
    obtain ⟨hgranted, h⟩ := h
    obtain ⟨hgate, hsame⟩ := begun_frame cfg st removed
    have hmove : Move st.gates.gate cfg.readers .pass (passUse st.pass) st.gates.gate .holding := by
      rw [hpc]
      exact .resume hgranted
    cases launch <;> cases h
    · exact ⟨⟨rfl, rfl, rfl, rfl, hsame.boots⟩, hgate ▸ hmove⟩
    · exact ⟨⟨rfl, rfl, rfl, rfl, hsame.boots⟩, hgate ▸ hmove⟩
  · cases h
    exact hconsult _ (by rw [hpc]; rfl)
  · simp only [Option.ite_none_right_eq_some, Option.some.injEq] at h
    obtain ⟨-, rfl⟩ := h
    refine ⟨⟨rfl, rfl, rfl, rfl, rfl⟩, ?_⟩
    rw [hpc]
    exact .keep _
  · cases h
    exact hconsult _ (by rw [hpc]; rfl)
  · cases h
    exact hends _ rfl rfl
  · cases h
    obtain ⟨hgate, hboots⟩ := st.gates.clearStop.relatch_frame cfg
    exact hends _ hgate hboots
  · cases h
    exact hends _ rfl rfl
  · cases h
    exact hends _ rfl rfl
  · cases h

theorem Script.unlocks_frame (g : Gates) (s : Script) :
    (s.unlocks g).gate = g.gate ∧ (s.unlocks g).bootsWaiting = g.bootsWaiting := by
  unfold Script.unlocks
  split
  · split <;> exact ⟨rfl, rfl⟩
  · exact ⟨rfl, rfl⟩

theorem scriptMove_frame {k : ℕ} {g g' : Gates} {s s' : Script} {x : ScriptMove}
    (h : scriptMove k g s x = some (g', s')) :
    g'.gate = g.gate ∧ g'.bootsWaiting = g.bootsWaiting := by
  cases x with
  | mark =>
    simp only [scriptMove, Option.ite_none_right_eq_some, Option.some.injEq, Prod.mk.injEq] at h
    obtain ⟨-, rfl, -⟩ := h
    exact ⟨rfl, rfl⟩
  | take id =>
    simp only [scriptMove] at h
    split at h
    · cases h
    · split at h
      · simp only [Option.ite_none_right_eq_some, Option.some.injEq, Prod.mk.injEq] at h
        obtain ⟨-, rfl, -⟩ := h
        exact ⟨rfl, rfl⟩
      · cases h
        exact ⟨rfl, rfl⟩
  | leave | exit =>
    simp only [scriptMove, Option.ite_none_right_eq_some, Option.some.injEq, Prod.mk.injEq] at h
    obtain ⟨-, rfl, -⟩ := h
    exact s.unlocks_frame g

theorem State.Booked.congr {cfg : Config} {st st' : State} (hb : st.Booked cfg)
    (hshared : st'.shared = st.shared) (htasks : st'.tasks = st.tasks) (hpass : st'.pass = st.pass) :
    st'.Booked cfg := by
  refine hb.passes ⟨htasks, ?_, ?_, ?_, ?_⟩ ?_ <;> simp only [State.gates, hshared, hpass]
  exact .keep _

theorem useAt_ended {f : Task → Use} {tasks : List Task} (htasks : ∀ x ∈ tasks, x.stage = .ended)
    (hf : ∀ kind, f ⟨kind, .ended⟩ = .idle) (t : ℕ) : useAt f tasks t = .idle := by
  unfold useAt
  cases hx : tasks[t]? with
  | none => rfl
  | some x =>
    obtain ⟨kind, stage⟩ := x
    obtain rfl : stage = .ended := htasks _ (List.mem_of_getElem? hx)
    exact hf kind

theorem State.gateUse_ended {st : State} (htasks : ∀ x ∈ st.tasks, x.stage = .ended)
    (hpass : st.pass = none) (p : Party) : st.gateUse p = .idle := by
  cases p with
  | boot t => exact useAt_ended htasks (fun _ ↦ rfl) t
  | pass => simp [State.gateUse, hpass, passUse]
  | script => rfl

theorem State.booked_fresh {cfg : Config} {st : State} {g : Gates}
    (hs : st.shared = .fresh cfg g) (hg : g.gate = .free cfg.readers) (hboots : g.bootsWaiting = 0)
    (htasks : ∀ x ∈ st.tasks, x.stage = .ended) (hpass : st.pass = none) : st.Booked cfg := by
  refine ⟨fun t x hx ↦ ?_, ?_, ?_, ?_, ?_, ?_, ?_, ?_, ?_⟩
  · have hstage := htasks x (List.mem_of_getElem? hx)
    simp [Task.Fits, hstage]
  · rw [hs]
    exact .free _ (useAt_ended htasks fun _ ↦ rfl)
  · rw [hs]
    exact .free _ (useAt_ended htasks fun _ ↦ rfl)
  · simp only [State.gates, hs, Shared.fresh, hg]
    exact .free _ (State.gateUse_ended htasks hpass)
  · rw [hs]
    rfl
  · rw [hs]
    rfl
  · simp only [State.gates, hs, Shared.fresh, hg]
    rfl
  · rw [hs, eq_comm]
    exact List.countP_eq_zero.mpr fun x hx ↦ by simp [htasks x hx, Stage.counted]
  · simp only [State.gates, hs, Shared.fresh, hboots]
    rw [eq_comm]
    exact List.countP_eq_zero.mpr fun x hx ↦ by simp [htasks x hx, Task.guarded]

theorem State.Booked.spawn {cfg : Config} {st : State} (hb : st.Booked cfg) (kind : Kind) :
    State.Booked cfg { st with tasks := st.tasks ++ [⟨kind, kind.start⟩] } := by
  have hidle : Task.admissionUse ⟨kind, kind.start⟩ = .idle ∧ Task.slotUse ⟨kind, kind.start⟩ = .idle ∧
      Task.gateUse ⟨kind, kind.start⟩ = .idle ∧ kind.start.counted = false ∧
      Task.guarded ⟨kind, kind.start⟩ = false := by
    cases kind <;> exact ⟨rfl, rfl, rfl, rfl, rfl⟩
  obtain ⟨hadm, hslot, hgate, hcount, hguard⟩ := hidle
  have huse : State.gateUse { st with tasks := st.tasks ++ [⟨kind, kind.start⟩] } = st.gateUse := by
    funext p
    cases p <;> simp [State.gateUse, useAt_append st.tasks hgate]
  refine ⟨?_, ?_, ?_, ?_, hb.admissionCap, hb.slotsCap, hb.gateCap, ?_, ?_⟩
  · exact forall_append (P := fun _ (y : Task) ↦ y.Fits) (Task.fits_start kind) hb.fits
  · rw [useAt_append st.tasks hadm]
    exact hb.admission
  · rw [useAt_append st.tasks hslot]
    exact hb.slots
  · rw [huse]
    exact hb.gate
  · simpa [List.countP_append, hcount] using hb.bringups
  · simpa [List.countP_append, hguard, State.gates] using hb.boots

theorem State.Booked.move {cfg : Config} {l : Label} {st st' : State} (hb : st.Booked cfg)
    (h : Boots.move cfg st l = some st') : st'.Booked cfg := by
  cases l with
  | spawn kind =>
    cases h
    exact hb.spawn kind
  | run t a =>
    obtain ⟨x, hx, h⟩ := Option.bind_eq_some_iff.mp h
    obtain ⟨⟨w', stage'⟩, hr, rfl⟩ := Option.map_eq_some_iff.mp h
    exact hb.task hx ((taskStep_move hr).booked (hb.fits t x hx))
  | cancel t =>
    obtain ⟨x, hx, rfl⟩ := Option.map_eq_some_iff.mp h
    exact hb.task hx (abandon_booked x.kind t st.shared x.stage)
  | runOnce =>
    simp only [Boots.move] at h
    split at h
    · cases h
      exact hb
    · rename_i hpass
      cases h
      refine hb.passes ⟨rfl, rfl, rfl, rfl, rfl⟩ ?_
      rw [Option.not_isSome_iff_eq_none.mp hpass]
      exact .request
  | pass x =>
    obtain ⟨pc, hpc, h⟩ := Option.bind_eq_some_iff.mp h
    obtain ⟨hsame, hmove⟩ := passMove_booked hpc h
    exact hb.passes hsame hmove
  | script k x =>
    obtain ⟨s, -, h⟩ := Option.bind_eq_some_iff.mp h
    obtain ⟨⟨g', s'⟩, hr, rfl⟩ := Option.map_eq_some_iff.mp h
    obtain ⟨hgate, hboots⟩ := scriptMove_frame hr
    refine hb.passes ⟨rfl, rfl, rfl, rfl, hboots⟩ ?_
    have hsame : (State.gates { st.modGates fun _ ↦ g' with scripts := st.scripts.set k s' }).gate =
        st.gates.gate := hgate
    rw [hsame]
    exact .keep _
  | restart =>
    simp only [Boots.move, Option.ite_none_left_eq_some, Option.some.injEq] at h
    obtain ⟨hpass, rfl⟩ := h
    obtain ⟨hgate, hboots⟩ := Gates.relatch_frame cfg _
    refine State.booked_fresh rfl hgate hboots ?_ (Option.not_isSome_iff_eq_none.mp hpass)
    intro x hx
    obtain ⟨y, -, rfl⟩ := List.mem_map.mp hx
    rfl

theorem State.Booked.step {cfg : Config} {l : Label} {st st' : State} (hb : st.Booked cfg)
    (h : Boots.step cfg l st = some st') : st'.Booked cfg := by
  obtain ⟨sm, hm, rfl⟩ := Option.map_eq_some_iff.mp h
  exact (hb.move hm).congr rfl rfl rfl

theorem Reaches.booked {cfg : Config} {ok : State → Label → Prop} {marker : Option (List Char)}
    {st : State} (h : Reaches cfg ok marker st) : st.Booked cfg := by
  refine h.invariant (I := State.Booked cfg) ?_ fun s l s' hI _ hs ↦ hI.step hs
  obtain ⟨hgate, hboots⟩ := Gates.relatch_frame cfg
    ⟨.free cfg.readers, false, marker, fun _ ↦ none, 0, false, false⟩
  exact State.booked_fresh rfl hgate hboots (by simp [State.boot]) rfl

end PgVmPool.Boots
