import PgVmPool.OffloadPicker

namespace PgVmPool

/-- What a job came to; a panic is reported by the join instead. -/
inductive JobOutcome
  | done | skipped | failed
  deriving DecidableEq

inductive DrainEnd
  | stoodDown | dry | aborted
  deriving DecidableEq

inductive DrainPc
  | top | fill | wait
  | finishing (e : DrainEnd)
  | done (e : DrainEnd)
  deriving DecidableEq

def sweepMaxConsecutiveFailures : ℕ := 3

/-- The locals of `offload_drain_loop`. -/
structure Drain where
  policy : OffloadPolicy
  standDown : Bool
  inFlight : List (ℕ × OffloadJob)
  archived : ℕ
  failures : ℕ
  pc : DrainPc

inductive DrainEvent
  | usage (below : Bool)
  | picked (id : ℕ) (job : Option OffloadJob)
  | full
  | joined (id : ℕ) (r : Option JobOutcome)
  | recheck
  | close

namespace Drain

def start (policy : OffloadPolicy) (standDown : Bool) : Drain := ⟨policy, standDown, [], 0, 0, .top⟩

/-- The policy of a pick: no boot while a job that boots is in flight. -/
def pickPolicy (d : Drain) : OffloadPolicy :=
  { d.policy with noBoot := d.inFlight.any fun x ↦ x.2.kind.boots }

def excludes (d : Drain) (s : Schema) : Bool := d.inFlight.any fun x ↦ x.2.schema = s

def remove (d : Drain) (id : ℕ) : List (ℕ × OffloadJob) := d.inFlight.filter fun x ↦ x.1 ≠ id

def failuresAfter (failures : ℕ) : Option JobOutcome → ℕ
  | some .done => 0
  | some .skipped => failures
  | some .failed | none => failures + 1

def step (workers : ℕ) (d : Drain) : DrainEvent → Option Drain
  | .usage below =>
    match d.pc with
    | .top => some { d with pc :=
        if below && d.standDown then .finishing .stoodDown
        else if sweepMaxConsecutiveFailures ≤ d.failures then .finishing .aborted else .fill }
    | _ => none
  | .picked id job =>
    match d.pc, job with
    | .fill, some job =>
      if d.inFlight.length < workers then some { d with inFlight := d.inFlight ++ [(id, job)] } else none
    | .fill, none =>
      if d.inFlight.length < workers then
        some { d with pc := if d.inFlight = [] then .finishing .dry else .wait }
      else none
    | _, _ => none
  | .full =>
    match d.pc with
    | .fill => if d.inFlight.length < workers then none else some { d with pc := .wait }
    | _ => none
  | .joined id r =>
    match d.pc with
    | .wait => some { d with
        pc := .top
        inFlight := d.remove id
        archived := if r = some .done then d.archived + 1 else d.archived
        failures := failuresAfter d.failures r }
    | .finishing _ => some { d with
        inFlight := d.remove id
        archived := if r = some .done then d.archived + 1 else d.archived }
    | _ => none
  | .recheck => if d.pc = .wait ∧ d.standDown = true then some { d with pc := .top } else none
  | .close =>
    match d.pc with
    | .finishing e => if d.inFlight = [] then some { d with pc := .done e } else none
    | _ => none

def aborted (d : Drain) : Bool := d.pc = .finishing .aborted || d.pc = .done .aborted

variable {workers : ℕ} {d d' : Drain}

theorem step_picked {id : ℕ} {job : Option OffloadJob} (h : d.step workers (.picked id job) = some d') :
    d'.inFlight = d.inFlight ++ (job.map fun j ↦ (id, j)).toList ∧ d'.failures = d.failures ∧
      d'.aborted = false := by
  unfold step at h
  dsimp only at h
  split at h
  · split at h
    · cases h
      exact ⟨rfl, rfl, by simp_all [aborted]⟩
    · cases h
  · split at h
    · cases h
      refine ⟨by simp, rfl, ?_⟩
      unfold aborted
      dsimp only
      split <;> rfl
    · cases h
  · cases h

/-- Steps that neither start nor join a job. -/
theorem step_quiet {e : DrainEvent} (h : d.step workers e = some d') (hp : ∀ id job, e ≠ .picked id job)
    (hj : ∀ id r, e ≠ .joined id r) : d'.inFlight = d.inFlight ∧ d'.failures = d.failures ∧
      (d'.aborted = true → d.aborted = true ∨ sweepMaxConsecutiveFailures ≤ d.failures) ∧
        ∀ x, d'.pc = .done x → d'.inFlight = [] := by
  cases e with
  | picked id job => exact absurd rfl (hp id job)
  | joined id r => exact absurd rfl (hj id r)
  | usage below =>
    simp only [step] at h
    split at h
    · cases h
      refine ⟨rfl, rfl, fun ha ↦ ?_, fun x hx ↦ ?_⟩
      · simp only [aborted] at ha
        split_ifs at ha with h1 h2
        · simp at ha
        · exact .inr h2
        · simp at ha
      · dsimp only at hx
        split_ifs at hx
    · cases h
  | full =>
    simp only [step] at h
    split at h
    · split at h
      · cases h
      · cases h
        exact ⟨rfl, rfl, fun ha ↦ by simp [aborted] at ha, fun x hx ↦ by cases hx⟩
    · cases h
  | recheck =>
    simp only [step, Option.ite_none_right_eq_some, Option.some_inj] at h
    obtain ⟨-, rfl⟩ := h
    exact ⟨rfl, rfl, fun ha ↦ by simp [aborted] at ha, fun x hx ↦ by cases hx⟩
  | close =>
    simp only [step] at h
    split at h
    · rename_i e hpc
      split at h
      · rename_i hempty
        cases h
        refine ⟨rfl, rfl, fun ha ↦ .inl ?_, fun x _ ↦ hempty⟩
        simpa [aborted, hpc] using ha
      · cases h
    · cases h

theorem step_joined {id : ℕ} {r : Option JobOutcome} (h : d.step workers (.joined id r) = some d') :
    d'.inFlight = d.remove id ∧ (d.pc = .wait ∧ d'.aborted = false ∧
      d'.failures = failuresAfter d.failures r ∨
        d.pc ≠ .wait ∧ d'.failures = d.failures ∧ d'.aborted = d.aborted) := by
  simp only [step] at h
  split at h
  · cases h
    exact ⟨rfl, .inl ⟨‹_›, rfl, rfl⟩⟩
  · rename_i e hpc
    cases h
    exact ⟨rfl, .inr ⟨by simp [hpc], rfl, rfl⟩⟩
  · cases h

theorem mem_remove {id : ℕ} {x : ℕ × OffloadJob} : x ∈ d.remove id ↔ x ∈ d.inFlight ∧ x.1 ≠ id := by
  simp [remove]

theorem excludes_iff {s : Schema} : d.excludes s = true ↔ ∃ x ∈ d.inFlight, x.2.schema = s := by
  simp [excludes]

end Drain

end PgVmPool
