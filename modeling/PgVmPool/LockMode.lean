import PgVmPool.GateHeld

namespace PgVmPool.Boots

open Function Transition FairLock

def State.Unlocking (st : State) : Prop := ∃ s ∈ st.scripts, s.alive = true ∧ s.locks = false

instance (st : State) : Decidable st.Unlocking :=
  inferInstanceAs (Decidable (∃ s ∈ st.scripts, s.alive = true ∧ s.locks = false))

/-- While such a script runs, no step gets a boot a disk lock. -/
def State.NeverTrusts (cfg : Config) (st : State) : Prop :=
  st.Unlocking → ∀ l st', step cfg l st = some st' →
    ∀ t id, st'.locks (.boot t) id → st.locks (.boot t) id

/-- The call has read the latch and is on its way to a disk lock. -/
def PermitPc.bound : PermitPc → Bool
  | .openLock | .poll => true
  | .latch | .tryRead | .queued => false

def Task.bound (x : Task) : Bool :=
  match x.stage with
  | .permit _ pc => pc.bound
  | _ => false

def State.launched (st : State) : Bool := (st.pass.bind PassPc.child).isSome

/-- A script without locks is launched only when the latch is down and no boot is on its way to a
disk lock, and the latch is not set while such a script runs. -/
def Negotiated (cfg : Config) (st : State) : Label → Prop
  | .pass (.begin _ (some false)) => st.gates.perDisk = false ∧ ∀ x ∈ st.tasks, x.bound = false
  | .pass .finish => st.launched = true → (st.gates.relatch cfg).perDisk = true → ¬st.Unlocking
  | .restart => (st.gates.reboot cfg).perDisk = true → ¬st.Unlocking
  | _ => True

instance (cfg : Config) (st : State) : DecidablePred (Negotiated cfg st)
  | .pass (.begin _ (some false)) =>
    inferInstanceAs (Decidable (st.gates.perDisk = false ∧ ∀ x ∈ st.tasks, x.bound = false))
  | .pass .finish => inferInstanceAs (Decidable
      (st.launched = true → (st.gates.relatch cfg).perDisk = true → ¬st.Unlocking))
  | .restart => inferInstanceAs (Decidable ((st.gates.reboot cfg).perDisk = true → ¬st.Unlocking))
  | .pass (.begin _ none) | .pass (.begin _ (some true)) | .pass .count | .pass .wake
  | .pass .recount | .pass .timeout | .pass .cancel => isTrue trivial
  | .spawn _ | .run _ _ | .cancel _ | .runOnce | .script _ _ => isTrue trivial

/-- While a script without locks runs, the latch is down and no boot is on its way to a disk lock. -/
def State.Guarded (st : State) : Prop :=
  st.Unlocking → st.gates.perDisk = false ∧ ∀ x ∈ st.tasks, x.bound = false

section Task

variable {cfg : Config} {t : ℕ} {id : String} {limited : Bool} {g g' : Gates} {pc : PermitPc}
  {acq : Acquire}

theorem PermitMove.latched (h : PermitMove cfg t id limited g pc g' acq) :
    g'.perDisk = g.perDisk ∧
      (g.perDisk = false → pc.bound = false → (∀ pc', acq = .waits pc' → pc'.bound = false) ∧
        ∀ id', acq ≠ .done (some (.disk id'))) := by
  cases h with
  | latch =>
    refine ⟨rfl, fun hdown _ ↦ ⟨fun pc' hpc ↦ ?_, fun id' ↦ by simp⟩⟩
    cases hpc
    simp [hdown, PermitPc.bound]
  | lock | meet | skip | lockLate | again | skipLate | expire =>
    exact ⟨rfl, fun _ ↦ by simp [PermitPc.bound]⟩
  | read | queue | enter | quit => exact ⟨rfl, fun _ _ ↦ ⟨by simp [PermitPc.bound], by simp⟩⟩

theorem Gates.releaseAll_perDisk (g : Gates) (t : ℕ) (permit : Option Permit) :
    (g.releaseAll t permit).perDisk = g.perDisk := by
  rcases permit with _ | _ | _ <;> rfl

/-- With the latch down a task that is not yet on its way to a disk lock does not get there. -/
theorem TaskMove.latched {kind : Kind} {w w' : Shared} {stage stage' : Stage}
    (h : TaskMove cfg t w kind stage w' stage') :
    w'.gates.perDisk = w.gates.perDisk ∧
      (w.gates.perDisk = false → Task.bound ⟨kind, stage⟩ = false → Task.bound ⟨kind, stage'⟩ = false ∧
        ∀ id, Task.locks ⟨kind, stage'⟩ id → Task.locks ⟨kind, stage⟩ id) := by
  cases h with
  | @permit id pc g' acq hp =>
    obtain ⟨hlatch, hfree⟩ := hp.latched
    refine ⟨hlatch, fun hdown hbound ↦ ?_⟩
    obtain ⟨hwaits, hdone⟩ := hfree hdown hbound
    refine ⟨?_, fun id' hl ↦ ?_⟩
    · cases acq with
      | waits pc' => exact hwaits pc' rfl
      | done permit =>
        cases permit with
        | none => rfl
        | some permit => cases kind <;> rfl
    · rw [Task.locks, Acquire.held_stage] at hl
      cases acq with
      | waits => cases hl
      | done permit => exact absurd (congrArg Acquire.done hl) (hdone id')
  | @booted permit =>
    refine ⟨w.gates.releaseAll_perDisk t permit, fun _ _ ↦ ?_⟩
    cases kind <;> exact ⟨rfl, fun id hl ↦ by cases hl⟩
  | slot | slotWait | slotted => exact ⟨rfl, fun _ _ ↦ ⟨rfl, fun id hl ↦ hl⟩⟩
  | enter | wait | entered | boot | create | finish =>
    exact ⟨rfl, fun _ _ ↦ ⟨rfl, fun id hl ↦ by cases hl⟩⟩

end Task

theorem abandon_perDisk (t : ℕ) (w : Shared) (stage : Stage) :
    (w.abandon t stage).gates.perDisk = w.gates.perDisk := by
  cases stage with
  | permit id pc => cases pc <;> rfl
  | slot permit | slotQueued permit | daemon permit => exact w.gates.releaseAll_perDisk t permit
  | admission | admissionQueued | next | ended => rfl

theorem State.consult_perDisk (cfg : Config) (st : State) (child : Option ℕ) :
    (st.consult cfg child).gates.perDisk = st.gates.perDisk := by
  unfold State.consult
  split <;> rfl

theorem Gates.clearMarker_perDisk (cfg : Config) (g : Gates) (removed : Bool) :
    (g.clearMarker cfg removed).perDisk = g.perDisk := by
  unfold Gates.clearMarker
  split <;> rfl

theorem State.Guarded.congr {st st' : State} (hg : st.Guarded) (hscripts : st'.scripts = st.scripts)
    (hlatch : st'.gates.perDisk = st.gates.perDisk) (htasks : st'.tasks = st.tasks) : st'.Guarded := by
  intro hun
  rw [State.Unlocking, hscripts] at hun
  rw [hlatch, htasks]
  exact hg hun

theorem passMove_guarded {cfg : Config} {st st' : State} {pc : PassPc} {x : PassMove} (hg : st.Guarded)
    (hok : Negotiated cfg st (.pass x)) (hpc : st.pass = some pc) (h : passMove cfg st pc x = some st') :
    st'.Guarded := by
  unfold passMove at h
  split at h
  · rename_i removed launch
    simp only [Option.ite_none_right_eq_some] at h
    obtain ⟨-, h⟩ := h
    have hlatch := st.gates.clearStop.clearMarker_perDisk cfg removed
    cases launch with
    | none =>
      cases h
      exact hg.congr rfl hlatch rfl
    | some locks =>
      cases h
      rintro ⟨s, hs, halive, hlocks⟩
      have hdown : st.gates.perDisk = false ∧ ∀ x ∈ st.tasks, x.bound = false := by
        rcases List.mem_append.mp hs with hs | hs
        · exact hg ⟨s, hs, halive, hlocks⟩
        · rw [List.mem_singleton.mp hs] at hlocks
          cases hlocks
          exact hok
      exact ⟨hlatch.trans hdown.1, hdown.2⟩
  · cases h
    exact hg.congr (st.consult_flocks cfg _).2 (st.consult_perDisk cfg _) (st.consult_same cfg _).1.tasks
  · simp only [Option.ite_none_right_eq_some, Option.some.injEq] at h
    obtain ⟨-, rfl⟩ := h
    exact hg.congr rfl rfl rfl
  · cases h
    exact hg.congr (st.consult_flocks cfg _).2 (st.consult_perDisk cfg _) (st.consult_same cfg _).1.tasks
  · cases h
    exact hg.congr rfl rfl rfl
  · cases h
    intro hun
    refine ⟨?_, (hg hun).2⟩
    have hlaunched : st.launched = true := by simp [State.launched, hpc, PassPc.child]
    have hlatch : (st.gates.clearStop.relatch cfg).perDisk = (st.gates.relatch cfg).perDisk := by
      unfold Gates.relatch
      split <;> rfl
    by_contra hset
    exact hok hlaunched (hlatch ▸ Bool.not_eq_false _ ▸ hset) hun
  · cases h
    exact hg.congr rfl rfl rfl
  · cases h
    exact hg.congr rfl rfl rfl
  · cases h

theorem ScriptMoved.perDisk {k : ℕ} {g g' : Gates} {s s' : Script} (h : ScriptMoved k g s g' s') :
    g'.perDisk = g.perDisk := by
  cases h with
  | mark | take | use => rfl
  | leave | exit =>
    unfold Script.unlocks
    split
    · split <;> rfl
    · rfl

theorem State.Guarded.step {cfg : Config} {l : Label} {st st' : State} (hg : st.Guarded)
    (hok : Negotiated cfg st l) (h : Boots.step cfg l st = some st') : st'.Guarded := by
  obtain ⟨sm, hm, rfl⟩ := Option.map_eq_some_iff.mp h
  suffices hsm : sm.Guarded from hsm.congr rfl rfl rfl
  cases l with
  | spawn kind =>
    cases hm
    intro hun
    obtain ⟨hdown, hbound⟩ := hg hun
    refine ⟨hdown, fun x hx ↦ ?_⟩
    rcases List.mem_append.mp hx with hx | hx
    · exact hbound x hx
    · rw [List.mem_singleton.mp hx]
      cases kind <;> rfl
  | run t a =>
    obtain ⟨x, hx, hm⟩ := Option.bind_eq_some_iff.mp hm
    obtain ⟨⟨w', stage'⟩, hr, rfl⟩ := Option.map_eq_some_iff.mp hm
    intro hun
    obtain ⟨hdown, hbound⟩ := hg hun
    obtain ⟨hlatch, hfree⟩ := (taskStep_move hr).latched
    refine ⟨hlatch.trans hdown, fun y hy ↦ ?_⟩
    rcases List.mem_or_eq_of_mem_set hy with hy | rfl
    · exact hbound y hy
    · exact (hfree hdown (hbound x (List.mem_of_getElem? hx))).1
  | cancel t =>
    obtain ⟨x, -, rfl⟩ := Option.map_eq_some_iff.mp hm
    intro hun
    obtain ⟨hdown, hbound⟩ := hg hun
    refine ⟨(abandon_perDisk t st.shared x.stage).trans hdown, fun y hy ↦ ?_⟩
    rcases List.mem_or_eq_of_mem_set hy with hy | rfl
    · exact hbound y hy
    · rfl
  | runOnce =>
    simp only [Boots.move] at hm
    split at hm <;> cases hm <;> exact hg
  | pass x =>
    obtain ⟨pc, hpc, hm⟩ := Option.bind_eq_some_iff.mp hm
    exact passMove_guarded hg hok hpc hm
  | script k x =>
    obtain ⟨s, hs, hm⟩ := Option.bind_eq_some_iff.mp hm
    obtain ⟨⟨g', s'⟩, hr, rfl⟩ := Option.map_eq_some_iff.mp hm
    rintro ⟨r, hr', halive, hlocks⟩
    have hun : st.Unlocking := by
      rcases List.mem_or_eq_of_mem_set hr' with hr' | rfl
      · exact ⟨r, hr', halive, hlocks⟩
      · obtain ⟨hwas, hmoved⟩ := scriptMove_moved hr
        exact ⟨s, List.mem_of_getElem? hs, hwas, hmoved.locks.symm.trans hlocks⟩
    obtain ⟨hdown, hbound⟩ := hg hun
    exact ⟨(scriptMove_moved hr).2.perDisk.trans hdown, hbound⟩
  | restart =>
    simp only [Boots.move, Option.ite_none_left_eq_some, Option.some.injEq] at hm
    obtain ⟨-, rfl⟩ := hm
    intro hun
    refine ⟨?_, fun x hx ↦ ?_⟩
    · by_contra hset
      exact hok (Bool.not_eq_false _ ▸ hset) hun
    · obtain ⟨y, -, rfl⟩ := List.mem_map.mp hx
      rfl

theorem State.locks_of_set {st : State} {t j : ℕ} {x y : Task} {w : Shared} {id : String}
    (hx : st.tasks[t]? = some x) (hy : y.locks id → x.locks id)
    (h : State.locks { st with shared := w, tasks := st.tasks.set t y } (.boot j) id) :
    st.locks (.boot j) id := by
  obtain ⟨z, hz, hl⟩ := h
  rcases getElem?_set_cases hz with ⟨rfl, rfl⟩ | ⟨-, hz⟩
  · exact ⟨x, hx, hy hl⟩
  · exact ⟨z, hz, hl⟩

theorem State.Guarded.neverTrusts {st : State} (cfg : Config) (hg : st.Guarded) : st.NeverTrusts cfg := by
  intro hun l st' h t id hl
  obtain ⟨hdown, hbound⟩ := hg hun
  obtain ⟨sm, hm, rfl⟩ := Option.map_eq_some_iff.mp h
  cases l with
  | spawn kind =>
    cases hm
    obtain ⟨x, hx, hl⟩ := hl
    rcases getElem?_append_cases hx with ⟨-, rfl⟩ | hx
    · cases kind <;> cases hl
    · exact ⟨x, hx, hl⟩
  | run j a =>
    obtain ⟨x, hx, hm⟩ := Option.bind_eq_some_iff.mp hm
    obtain ⟨⟨w', stage'⟩, hr, rfl⟩ := Option.map_eq_some_iff.mp hm
    exact State.locks_of_set (w := w') hx
      (((taskStep_move hr).latched.2 hdown (hbound x (List.mem_of_getElem? hx))).2 id) hl
  | cancel j =>
    obtain ⟨x, hx, rfl⟩ := Option.map_eq_some_iff.mp hm
    exact State.locks_of_set (w := st.shared.abandon j x.stage) hx (fun hnone ↦ by cases hnone) hl
  | runOnce =>
    simp only [Boots.move] at hm
    split at hm <;> cases hm <;> exact hl
  | pass x =>
    obtain ⟨pc, hpc, hm⟩ := Option.bind_eq_some_iff.mp hm
    obtain ⟨y, hy, hl⟩ := hl
    change sm.tasks[t]? = some y at hy
    rw [(passMove_booked hpc hm).1.tasks] at hy
    exact ⟨y, hy, hl⟩
  | script k y =>
    obtain ⟨s, hs, hm⟩ := Option.bind_eq_some_iff.mp hm
    obtain ⟨r, hr, rfl⟩ := Option.map_eq_some_iff.mp hm
    exact hl
  | restart =>
    simp only [Boots.move, Option.ite_none_left_eq_some, Option.some.injEq] at hm
    obtain ⟨-, rfl⟩ := hm
    obtain ⟨x, hx, hl⟩ := hl
    obtain ⟨y, -, rfl⟩ := List.mem_map.mp (List.mem_of_getElem? hx)
    cases hl

/-- In every run in which no script without locks is launched against a raised latch, or a boot that
has read it raised, and no marker is believed while one runs, no boot gets a disk lock meanwhile. -/
theorem lock_mode_never_trusts {cfg : Config} {marker : Option (List Char)} {st : State}
    (h : Reaches cfg (Negotiated cfg) marker st) : st.NeverTrusts cfg := by
  refine State.Guarded.neverTrusts cfg ?_
  refine h.invariant (I := State.Guarded) ?_ fun s l s' hI hok hs ↦ hI.step hok hs
  rintro ⟨s, hs, -⟩
  simp [State.boot] at hs

/-- A rollback that the pooler has learnt of: the first pass without locks runs behind the gate. -/
theorem lock_mode_never_trusts_run : ∃ st, Reaches oneSlot (Negotiated oneSlot) none st ∧ st.Unlocking ∧
    st.gates.bootsWaiting = 1 ∧ st.NeverTrusts oneSlot := by
  let labels : List Label := [.runOnce, .pass (.begin true (some false)), .script 0 (.take "sb-1"),
    .pass .count, .spawn (.lifecycle "sb-1")] ++ goes 0 2
  obtain ⟨st, hr, hst⟩ := Run.exists_of_exec (step oneSlot) (Negotiated oneSlot) (State.boot oneSlot none)
    labels (fun st ↦ decide st.Unlocking && st.gates.bootsWaiting == 1) (by decide) (by decide)
  simp only [Bool.and_eq_true, beq_iff_eq, decide_eq_true_eq] at hst
  exact ⟨st, hr, hst.1, hst.2, lock_mode_never_trusts hr⟩

/-- The pass of a script with locks raises the latch; the next one, of a script without them, works
on a disk whose lock a boot then gets. -/
theorem lock_mode_trusts : ∃ st, Reaches oneSlot Always none st ∧
    st.scripts.getLast? = some ⟨false, false, some "sb-1", true⟩ ∧ ¬st.NeverTrusts oneSlot := by
  let labels : List Label := [.runOnce, .pass (.begin true (some true)), .script 0 .mark, .pass .count,
    .script 0 .exit, .pass .finish, .runOnce, .pass (.begin true (some false)),
    .script 1 (.take "sb-1"), .pass .count, .spawn (.lifecycle "sb-1")] ++ goes 0 1
  obtain ⟨st, hr, hst⟩ := Run.exists_of_exec (step oneSlot) Always (State.boot oneSlot none) labels
    (fun st ↦ st.scripts.getLast? == some ⟨false, false, some "sb-1", true⟩ && decide st.Unlocking &&
      st.tasks == [⟨.lifecycle "sb-1", .permit "sb-1" .openLock⟩] &&
      (step oneSlot (.run 0 .go) st).any fun st' ↦
        st'.tasks == [⟨.lifecycle "sb-1", .slot (some (.disk "sb-1"))⟩]) (by decide) (by decide)
  simp only [Bool.and_eq_true, beq_iff_eq, decide_eq_true_eq, Option.any_eq_true] at hst
  obtain ⟨⟨⟨hscripts, hun⟩, htasks⟩, st', hstep, htasks'⟩ := hst
  refine ⟨st, hr, hscripts, fun hnever ↦ ?_⟩
  have hlocks : st'.locks (.boot 0) "sb-1" :=
    ⟨⟨.lifecycle "sb-1", .slot (some (.disk "sb-1"))⟩, by rw [htasks']; rfl, rfl⟩
  obtain ⟨x, hx, hl⟩ := hnever hun _ st' hstep 0 "sb-1" hlocks
  rw [htasks] at hx
  cases hx
  cases hl

end PgVmPool.Boots
