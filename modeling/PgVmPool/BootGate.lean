import PgVmPool.Credentials
import PgVmPool.FairLock
import PgVmPool.Transition

namespace PgVmPool.Boots

open Function
open Dedicated (trim)

/-- Who takes part in the exclusion of boots and disk work. -/
inductive Party
  | boot (t : ℕ)
  | pass
  | script (k : ℕ)
  deriving DecidableEq

/-- The capacities of the semaphores, the readers the gate has room for, and whether there is a
run dir to put lock files in. -/
structure Config where
  admission : ℕ
  slots : ℕ
  readers : ℕ
  runDir : Bool
  admission_pos : 0 < admission
  slots_pos : 0 < slots
  readers_pos : 0 < readers

inductive Permit
  | disk (id : String)
  | gate
  deriving DecidableEq

def lockProtocol : List Char := "perdisk-1".toList

/-- The process-wide state of the exclusion, and the files it goes by. -/
structure Gates where
  gate : FairLock Party
  perDisk : Bool
  marker : Option (List Char)
  flocks : String → Option Party
  bootsWaiting : ℕ
  preempt : Bool
  stopFile : Bool

/-- `lock_path`: the id must be fit for a file name. -/
def Config.hasLock (cfg : Config) (id : String) : Bool :=
  cfg.runDir && !(id.toList.isEmpty || id.toList.contains '/' || decide (['.', '.'] <:+: id.toList))

namespace Gates

variable (g : Gates)

/-- `WaitingGuard::new`. -/
def register : Gates := { g with bootsWaiting := g.bootsWaiting + 1, preempt := true }

def unregister : Gates := { g with bootsWaiting := g.bootsWaiting - 1 }

def flock (id : String) (p : Party) : Gates := { g with flocks := update g.flocks id (some p) }

def unlock (id : String) : Gates := { g with flocks := update g.flocks id none }

def leave (p : Party) : Gates := { g with gate := g.gate.drop p }

def release (t : ℕ) : Permit → Gates
  | .disk id => g.unlock id
  | .gate => g.leave (.boot t)

def refreshPerDisk : Gates := { g with perDisk := g.marker.any fun s ↦ trim s = lockProtocol }

end Gates

/-- Where a call of `boot_permit` stands: at the latch, at `open_lock` and `try_flock`, asleep
between two tries, at `try_read`, or queued on the gate. The second and the last but one are
passed without waiting. -/
inductive PermitPc
  | latch
  | openLock
  | poll
  | tryRead
  | queued
  deriving DecidableEq

def PermitPc.registered : PermitPc → Bool
  | .poll | .queued => true
  | .latch | .openLock | .tryRead => false

/-- What a task's surroundings decide when it moves: a lock file is unusable, a limit expires, a
bring-up goes on with a boot or a create or is over. -/
inductive Answer
  | go
  | unusable
  | expire
  | boot (id : String)
  | create
  | finish
  deriving DecidableEq

inductive Acquire
  | waits (pc : PermitPc)
  | done (permit : Option Permit)
  deriving DecidableEq

section Permit

variable (cfg : Config) (t : ℕ) (id : String) (limited : Bool) (g : Gates)

def openLock : Answer → Option (Gates × Acquire)
  | .go => some <| match g.flocks id with
    | none => (g.flock id (.boot t), .done (some (.disk id)))
    | some _ => (g.register, .waits .poll)
  | .unusable => some (g, .waits .tryRead)
  | _ => none

def pollLock : Answer → Option (Gates × Acquire)
  | .go => some <| match g.flocks id with
    | none => (g.unregister.flock id (.boot t), .done (some (.disk id)))
    | some _ => (g, .waits .poll)
  | .unusable => some (g.unregister, .waits .tryRead)
  | .expire => if limited then some (g.unregister, .done none) else none
  | _ => none

def tryRead : Gates × Acquire :=
  match g.gate.tryTake (.boot t) 1 with
  | some gate => ({ g with gate }, .done (some .gate))
  | none => ({ g.register with gate := g.gate.request (.boot t) 1 }, .waits .queued)

def awaitRead : Answer → Option (Gates × Acquire)
  | .go => if g.gate.granted (.boot t) then some (g.unregister, .done (some .gate)) else none
  | .expire => if limited then some (g.unregister.leave (.boot t), .done none) else none
  | _ => none

/-- One step of `acquire(id, limit)`; `limited` when there is a limit that can expire. -/
def permitStep (a : Answer) : PermitPc → Option (Gates × Acquire)
  | .latch => some (g, .waits (if g.perDisk && cfg.hasLock id then .openLock else .tryRead))
  | .openLock => openLock t id g a
  | .poll => pollLock t id limited g a
  | .tryRead => some (tryRead t g)
  | .queued => awaitRead t limited g a

inductive PermitMove : PermitPc → Gates → Acquire → Prop
  | latch : PermitMove .latch g (.waits (if g.perDisk && cfg.hasLock id then .openLock else .tryRead))
  | lock (free : g.flocks id = none) :
    PermitMove .openLock (g.flock id (.boot t)) (.done (some (.disk id)))
  | meet : PermitMove .openLock g.register (.waits .poll)
  | skip : PermitMove .openLock g (.waits .tryRead)
  | lockLate (free : g.flocks id = none) :
    PermitMove .poll (g.unregister.flock id (.boot t)) (.done (some (.disk id)))
  | again : PermitMove .poll g (.waits .poll)
  | skipLate : PermitMove .poll g.unregister (.waits .tryRead)
  | expire (hl : limited = true) : PermitMove .poll g.unregister (.done none)
  | read {gate : FairLock Party} (take : g.gate.tryTake (.boot t) 1 = some gate) :
    PermitMove .tryRead { g with gate } (.done (some .gate))
  | queue : PermitMove .tryRead { g.register with gate := g.gate.request (.boot t) 1 } (.waits .queued)
  | enter (granted : g.gate.granted (.boot t) = true) : PermitMove .queued g.unregister (.done (some .gate))
  | quit (hl : limited = true) : PermitMove .queued (g.unregister.leave (.boot t)) (.done none)

variable {cfg t id limited g}

theorem permitStep_move {a : Answer} {pc : PermitPc} {g' : Gates} {acq : Acquire}
    (h : permitStep cfg t id limited g a pc = some (g', acq)) :
    PermitMove cfg t id limited g pc g' acq := by
  cases pc with
  | latch =>
    cases h
    exact .latch
  | openLock =>
    cases a <;> simp only [permitStep, openLock, Option.some.injEq, reduceCtorEq] at h
    · split at h
      · next free =>
        cases h
        exact .lock free
      · cases h
        exact .meet
    · cases h
      exact .skip
  | poll =>
    cases a <;> simp only [permitStep, pollLock, Option.some.injEq, reduceCtorEq,
      Option.ite_none_right_eq_some] at h
    · split at h
      · next free =>
        cases h
        exact .lockLate free
      · cases h
        exact .again
    · cases h
      exact .skipLate
    · obtain ⟨hl, h⟩ := h
      cases h
      exact .expire hl
  | tryRead =>
    simp only [permitStep, tryRead, Option.some.injEq] at h
    split at h
    · next take =>
      cases h
      exact .read take
    · cases h
      exact .queue
  | queued =>
    cases a <;> simp only [permitStep, awaitRead, Option.some.injEq, reduceCtorEq,
      Option.ite_none_right_eq_some] at h
    · obtain ⟨granted, h⟩ := h
      cases h
      exact .enter granted
    · obtain ⟨hl, h⟩ := h
      cases h
      exact .quit hl

end Permit

/-- What an abandoned call leaves: its guard and its place in the queue go with it. -/
def Gates.abandon (g : Gates) (t : ℕ) : PermitPc → Gates
  | .poll => g.unregister
  | .queued => g.unregister.leave (.boot t)
  | .latch | .openLock | .tryRead => g

end PgVmPool.Boots
