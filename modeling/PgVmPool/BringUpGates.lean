import PgVmPool.DiskLocks

namespace PgVmPool.Boots

open Function Transition FairLock

inductive Resource
  | admission
  | gate
  | disk (id : String)
  | slot
  deriving DecidableEq

/-- The order in which a task takes its resources. -/
def Resource.rank : Resource → ℕ
  | .admission => 0
  | .gate | .disk _ => 1
  | .slot => 2

/-- What a task waits for at its stage, as long as it is not granted. -/
def Stage.awaits : Stage → Option Resource
  | .admissionQueued => some .admission
  | .permit _ .queued => some .gate
  | .permit id .poll => some (.disk id)
  | .slotQueued _ => some .slot
  | _ => none

def State.holds (st : State) : Party → Resource → Prop
  | .boot t, .admission => st.shared.admission.granted t = true
  | .boot t, .slot => st.shared.slots.granted t = true
  | p, .gate => st.gates.gate.granted p = true
  | p, .disk id => st.gates.flocks id = some p
  | .pass, .admission | .pass, .slot | .script _, .admission | .script _, .slot => False

def State.wants (st : State) : Party → Resource → Prop
  | .boot t, r => ¬st.holds (.boot t) r ∧ ∃ x, st.tasks[t]? = some x ∧ x.stage.awaits = some r
  | .pass, r => ¬st.holds .pass r ∧ st.pass = some .queued ∧ r = .gate
  | .script _, _ => False

def State.waits (st : State) : Waits Party Resource := ⟨st.holds, st.wants⟩

/-- Nothing is left of the bring-ups: the semaphores have all their permits, the gate is free, no
boot locks a disk and no counter is up. -/
structure State.Clean (cfg : Config) (st : State) : Prop where
  admission : st.shared.admission = .free cfg.admission
  slots : st.shared.slots = .free cfg.slots
  gate : st.gates.gate = .free cfg.readers
  disks : ∀ id t, st.gates.flocks id ≠ some (.boot t)
  bringups : st.shared.bringupsWaiting = 0
  boots : st.gates.bootsWaiting = 0

def State.Over (st : State) : Prop := (∀ x ∈ st.tasks, x.stage = .ended) ∧ st.pass = none

section Order

variable {cfg : Config} {st : State}

theorem State.Booked.use_of_granted {l : FairLock ℕ} {f : Task → Use} {need : ℕ → ℕ} {t : ℕ} {x : Task}
    (h : Tracks l need (useAt f st.tasks)) (hx : st.tasks[t]? = some x) (hg : l.granted t = true) :
    f x ≠ .idle := by
  obtain ⟨n, hn⟩ := granted_iff.mp hg
  have hmem : t ∈ l.users := List.mem_map_of_mem (List.mem_append_left _ hn)
  have huse := (h.users t).mp hmem
  rwa [useAt_of_getElem? hx] at huse

/-- What a waiting task holds comes before what it waits for. -/
theorem State.rank_lt (hb : st.Booked cfg) (hf : st.Flocked) {p : Party} {r r' : Resource}
    (hh : st.holds p r) (hw : st.wants p r') : r.rank < r'.rank := by
  cases p with
  | script k => exact hw.elim
  | pass =>
    obtain ⟨hnot, hpass, rfl⟩ := hw
    cases r with
    | admission | slot => exact hh.elim
    | gate => exact absurd hh hnot
    | disk id => exact ((hf id .pass).mp hh).elim
  | boot t =>
    obtain ⟨hnot, x, hx, haw⟩ := hw
    obtain ⟨kind, stage⟩ := x
    have hgate (hg : st.gates.gate.granted (.boot t) = true) : Task.gateUse ⟨kind, stage⟩ ≠ .idle := by
      obtain ⟨n, hn⟩ := granted_iff.mp hg
      have huse := (hb.gate.users _).mp (List.mem_map_of_mem (List.mem_append_left _ hn))
      rwa [State.gateUse, useAt_of_getElem? hx] at huse
    have hdisk (id : String) (hd : st.gates.flocks id = some (.boot t)) : stage.held = some (.disk id) := by
      obtain ⟨y, hy, hl⟩ := (hf id (.boot t)).mp hd
      cases hx.symm.trans hy
      exact hl
    have hslot (hs : st.shared.slots.granted t = true) : Task.slotUse ⟨kind, stage⟩ ≠ .idle :=
      State.Booked.use_of_granted hb.slots hx hs
    cases stage with
    | admissionQueued =>
      cases haw
      cases r with
      | admission => exact absurd hh hnot
      | gate => exact absurd rfl (hgate hh)
      | disk id => cases hdisk id hh
      | slot => exact absurd rfl (hslot hh)
    | permit id pc =>
      cases pc with
      | latch | openLock | tryRead => cases haw
      | poll =>
        cases haw
        cases r with
        | admission => simp [Resource.rank]
        | gate => exact absurd rfl (hgate hh)
        | disk id => cases hdisk id hh
        | slot => exact absurd rfl (hslot hh)
      | queued =>
        cases haw
        cases r with
        | admission => decide
        | gate => exact absurd hh hnot
        | disk id => cases hdisk id hh
        | slot => exact absurd rfl (hslot hh)
    | slotQueued permit =>
      cases haw
      cases r with
      | admission | gate | disk => simp [Resource.rank]
      | slot => exact absurd hh hnot
    | admission | next | slot | daemon | ended => cases haw

end Order

theorem State.clean_of_over {cfg : Config} {st : State} (hb : st.Booked cfg) (hf : st.Flocked)
    (ho : st.Over) : st.Clean cfg := by
  obtain ⟨htasks, hpass⟩ := ho
  refine ⟨?_, ?_, ?_, fun id t hd ↦ ?_, ?_, ?_⟩
  · rw [hb.admission.eq_free (useAt_ended htasks fun _ ↦ rfl), hb.admissionCap]
  · rw [hb.slots.eq_free (useAt_ended htasks fun _ ↦ rfl), hb.slotsCap]
  · rw [hb.gate.eq_free (State.gateUse_ended htasks hpass), hb.gateCap]
  · obtain ⟨x, hx, hl⟩ := (hf id (.boot t)).mp hd
    rw [Task.locks, htasks x (List.mem_of_getElem? hx)] at hl
    cases hl
  · rw [hb.bringups]
    exact List.countP_eq_zero.mpr fun x hx ↦ by simp [htasks x hx, Stage.counted]
  · rw [hb.boots]
    exact List.countP_eq_zero.mpr fun x hx ↦ by simp [htasks x hx, Task.guarded]

/-- In every run no bring-ups and passes wait for each other in a circle, and when all of them have
ended nothing is left taken. -/
theorem gates_never_deadlock_nor_leak {cfg : Config} {marker : Option (List Char)} {st : State}
    (h : Reaches cfg Always marker st) : ¬st.waits.Deadlocked ∧ (st.Over → st.Clean cfg) := by
  have hb := Reaches.booked h
  have hf := Reaches.flocked h
  refine ⟨?_, State.clean_of_over hb hf⟩
  apply Waits.not_deadlocked Resource.rank
  · refine ⟨2, ?_⟩
    rintro - ⟨r, rfl⟩
    cases r <;> simp [Resource.rank]
  · intro p r r' hh hw
    exact State.rank_lt hb hf hh hw

def oneSlot : Config where
  admission := 1
  slots := 1
  readers := 2
  runDir := true
  admission_pos := by decide
  slots_pos := by decide
  readers_pos := by decide

/-- The task moves `n` times with nothing to wait for. -/
def goes (t n : ℕ) : List Label := List.replicate n (.run t .go)

theorem gates_never_deadlock_nor_leak_run : ∃ st, Reaches oneSlot Always none st ∧
    st.tasks.length = 2 ∧ ¬st.waits.Deadlocked ∧ st.Clean oneSlot := by
  let labels : List Label := [.spawn .ensureVm, .spawn .ensureVm] ++ goes 0 1 ++ goes 1 1 ++
    [.runOnce, .run 0 (.boot "sb-1")] ++ goes 0 2 ++ [.pass (.begin true (some false)), .pass .count,
    .script 0 .exit, .pass .finish] ++ goes 0 3 ++ [.run 0 .finish] ++ goes 1 1 ++ [.cancel 1]
  obtain ⟨st, hr, hst⟩ := Run.exists_of_exec (step oneSlot) Always (State.boot oneSlot none) labels
    (fun st ↦ st.tasks.length == 2 && st.tasks.all (fun x ↦ x.stage = .ended) && st.pass.isNone)
    (by decide) (by decide)
  simp only [Bool.and_eq_true, beq_iff_eq, List.all_eq_true, decide_eq_true_eq,
    Option.isNone_iff_eq_none] at hst
  obtain ⟨⟨hlen, hended⟩, hpass⟩ := hst
  obtain ⟨hdead, hclean⟩ := gates_never_deadlock_nor_leak hr
  exact ⟨st, hr, hlen, hdead, hclean ⟨hended, hpass⟩⟩

end PgVmPool.Boots
