import PgVmPool.BootGate

namespace PgVmPool.Boots

open Function Transition

/-- Why a task boots or builds VMs, by call site. -/
inductive Kind
  | ensureVm
  | createSpare
  | restartSpare (id : String)
  | lifecycle (id : String)
  | grow
  deriving DecidableEq

/-- Where a task stands. `next` lies between two calls of `ensure_vm`, or of the grow loop; the
order of these calls is left open. -/
inductive Stage
  | admission
  | admissionQueued
  | next
  | permit (id : String) (pc : PermitPc)
  | slot (permit : Option Permit)
  | slotQueued (permit : Option Permit)
  | daemon (permit : Option Permit) (slot : Bool)
  | ended
  deriving DecidableEq

structure Task where
  kind : Kind
  stage : Stage
  deriving DecidableEq

def Kind.start : Kind → Stage
  | .ensureVm => .admission
  | .createSpare => .slot none
  | .restartSpare id | .lifecycle id => .permit id .latch
  | .grow => .next

/-- Only the restart of a spare bounds its wait. -/
def Kind.limited : Kind → Bool
  | .restartSpare _ => true
  | .ensureVm | .createSpare | .lifecycle _ | .grow => false

/-- The device grow works under its permit alone, without a bring-up slot. -/
def Kind.permitted (permit : Permit) : Kind → Stage
  | .grow => .daemon (some permit) false
  | .ensureVm | .createSpare | .restartSpare _ | .lifecycle _ => .slot (some permit)

def Kind.returned : Kind → Stage
  | .ensureVm | .grow => .next
  | .createSpare | .restartSpare _ | .lifecycle _ => .ended

structure Shared where
  gates : Gates
  admission : FairLock ℕ
  slots : FairLock ℕ
  bringupsWaiting : ℕ

def Gates.releaseAll (g : Gates) (t : ℕ) : Option Permit → Gates
  | some p => g.release t p
  | none => g

section Task

variable (cfg : Config) (t : ℕ) (w : Shared)

def admissionSlot : Shared × Stage :=
  match w.admission.tryTake t 1 with
  | some admission => ({ w with admission }, .next)
  | none =>
    ({ w with
        admission := w.admission.request t 1
        bringupsWaiting := w.bringupsWaiting + 1 }, .admissionQueued)

def bringupSlot (permit : Option Permit) : Shared × Stage :=
  match w.slots.tryTake t 1 with
  | some slots => ({ w with slots }, .daemon permit true)
  | none =>
    ({ w with
        slots := w.slots.request t 1
        bringupsWaiting := w.bringupsWaiting + 1 }, .slotQueued permit)

def Acquire.stage (kind : Kind) (id : String) : Acquire → Stage
  | .waits pc => .permit id pc
  | .done (some permit) => kind.permitted permit
  | .done none => .ended

def taskStep (kind : Kind) : Stage → Answer → Option (Shared × Stage)
  | .admission, .go => some (admissionSlot t w)
  | .admissionQueued, .go =>
    if w.admission.granted t then some ({ w with bringupsWaiting := w.bringupsWaiting - 1 }, .next)
    else none
  | .next, .boot id => some (w, .permit id .latch)
  | .next, .create => if kind = .ensureVm then some (w, .slot none) else none
  | .next, .finish => some ({ w with admission := w.admission.drop t }, .ended)
  | .permit id pc, a => (permitStep cfg t id kind.limited w.gates a pc).map fun r ↦
      ({ w with gates := r.1 }, r.2.stage kind id)
  | .slot permit, .go => some (bringupSlot t w permit)
  | .slotQueued permit, .go =>
    if w.slots.granted t then
      some ({ w with bringupsWaiting := w.bringupsWaiting - 1 }, .daemon permit true)
    else none
  | .daemon permit _, .go =>
    some ({ w with slots := w.slots.drop t, gates := w.gates.releaseAll t permit }, kind.returned)
  | _, _ => none

/-- What one step of a task can do. -/
inductive TaskMove (kind : Kind) : Stage → Shared → Stage → Prop
  | enter {admission : FairLock ℕ} (take : w.admission.tryTake t 1 = some admission) :
    TaskMove kind .admission { w with admission } .next
  | wait : TaskMove kind .admission
      { w with admission := w.admission.request t 1, bringupsWaiting := w.bringupsWaiting + 1 } .admissionQueued
  | entered (granted : w.admission.granted t = true) :
    TaskMove kind .admissionQueued { w with bringupsWaiting := w.bringupsWaiting - 1 } .next
  | boot (id : String) : TaskMove kind .next w (.permit id .latch)
  | create (hk : kind = .ensureVm) : TaskMove kind .next w (.slot none)
  | finish : TaskMove kind .next { w with admission := w.admission.drop t } .ended
  | permit {id : String} {pc : PermitPc} {g' : Gates} {acq : Acquire}
    (h : PermitMove cfg t id kind.limited w.gates pc g' acq) :
    TaskMove kind (.permit id pc) { w with gates := g' } (acq.stage kind id)
  | slot {permit : Option Permit} {slots : FairLock ℕ} (take : w.slots.tryTake t 1 = some slots) :
    TaskMove kind (.slot permit) { w with slots } (.daemon permit true)
  | slotWait {permit : Option Permit} : TaskMove kind (.slot permit)
      { w with slots := w.slots.request t 1, bringupsWaiting := w.bringupsWaiting + 1 } (.slotQueued permit)
  | slotted {permit : Option Permit} (granted : w.slots.granted t = true) :
    TaskMove kind (.slotQueued permit) { w with bringupsWaiting := w.bringupsWaiting - 1 }
      (.daemon permit true)
  | booted {permit : Option Permit} {slot : Bool} : TaskMove kind (.daemon permit slot)
      { w with slots := w.slots.drop t, gates := w.gates.releaseAll t permit } kind.returned

variable {cfg t w} in
theorem taskStep_move {kind : Kind} {stage stage' : Stage} {a : Answer} {w' : Shared}
    (h : taskStep cfg t w kind stage a = some (w', stage')) : TaskMove cfg t w kind stage w' stage' := by
  cases stage with
  | admission =>
    cases a <;> simp only [taskStep, Option.some.injEq, reduceCtorEq] at h
    unfold admissionSlot at h
    split at h
    · next take =>
      cases h
      exact .enter take
    · cases h
      exact .wait
  | admissionQueued =>
    cases a <;> simp only [taskStep, Option.ite_none_right_eq_some, Option.some.injEq, reduceCtorEq] at h
    obtain ⟨granted, h⟩ := h
    cases h
    exact .entered granted
  | next =>
    cases a <;> simp only [taskStep, Option.ite_none_right_eq_some, Option.some.injEq, reduceCtorEq] at h
    · cases h
      exact .boot _
    · obtain ⟨hk, h⟩ := h
      cases h
      exact .create hk
    · cases h
      exact .finish
  | permit id pc =>
    obtain ⟨r, hp, h⟩ := Option.map_eq_some_iff.mp h
    cases h
    exact .permit (permitStep_move hp)
  | slot permit =>
    cases a <;> simp only [taskStep, Option.some.injEq, reduceCtorEq] at h
    unfold bringupSlot at h
    split at h
    · next take =>
      cases h
      exact .slot take
    · cases h
      exact .slotWait
  | slotQueued permit =>
    cases a <;> simp only [taskStep, Option.ite_none_right_eq_some, Option.some.injEq, reduceCtorEq] at h
    obtain ⟨granted, h⟩ := h
    cases h
    exact .slotted granted
  | daemon permit slot =>
    cases a <;> simp only [taskStep, Option.some.injEq, reduceCtorEq] at h
    cases h
    exact .booted
  | ended => cases a <;> cases h

def Stage.counted : Stage → Bool
  | .admissionQueued | .slotQueued _ => true
  | _ => false

def Stage.held : Stage → Option Permit
  | .slot p | .slotQueued p | .daemon p _ => p
  | _ => none

/-- A cancelled task: whatever it holds or waits for is dropped. A drop is nothing to a semaphore
the task does not use. -/
def Shared.abandon (stage : Stage) : Shared :=
  { w with
    gates := match stage with
      | .permit _ pc => w.gates.abandon t pc
      | _ => w.gates.releaseAll t stage.held
    admission := w.admission.drop t
    slots := w.slots.drop t
    bringupsWaiting := if stage.counted then w.bringupsWaiting - 1 else w.bringupsWaiting }

end Task

/-- A run of the reclaim script: whether it honours the per-disk protocol, whether it has said so,
the disk it works on. Its processes may outlive the pass that launched them. -/
structure Script where
  locks : Bool
  marked : Bool
  disk : Option String
  alive : Bool
  deriving DecidableEq

/-- Where `run_once` stands: queued on the gate, before its look at `BOOTS_WAITING`, in the select
loop, in its notified branch. `child` is the script it has launched, if the launch worked. -/
inductive PassPc
  | queued
  | counting (child : Option ℕ)
  | watching (child : Option ℕ) (yielding : Bool)
  | woken (child : Option ℕ)
  deriving DecidableEq

/-- The whole system. `asked` and `crowded` only record, for the pass that runs, how often its
script was asked to stop and whether a boot ever waited. -/
structure State where
  shared : Shared
  tasks : List Task
  pass : Option PassPc
  scripts : List Script
  asked : ℕ
  crowded : Bool

inductive PassMove
  | begin (removed : Bool) (launch : Option Bool)
  | count
  | wake
  | recount
  | finish
  | timeout
  | cancel
  deriving DecidableEq

inductive ScriptMove
  | mark
  | take (id : String)
  | leave
  | exit
  deriving DecidableEq

inductive Label
  | spawn (kind : Kind)
  | run (t : ℕ) (a : Answer)
  | cancel (t : ℕ)
  | runOnce
  | pass (x : PassMove)
  | script (k : ℕ) (x : ScriptMove)
  | restart
  deriving DecidableEq

def State.modGates (st : State) (f : Gates → Gates) : State :=
  { st with shared := { st.shared with gates := f st.shared.gates } }

def State.gates (st : State) : Gates := st.shared.gates

section Pass

variable (cfg : Config) (st : State)

/-- `request_stop`; without a run dir there is nowhere to put the file. -/
def State.requestStop : State :=
  { st.modGates fun g ↦ { g with stopFile := cfg.runDir } with asked := st.asked + 1 }

/-- `boots_waiting`, and what follows from it. -/
def State.consult (child : Option ℕ) : State :=
  if 0 < st.gates.bootsWaiting then { st.requestStop cfg with pass := some (.watching child true) }
  else { st with pass := some (.watching child false) }

def Gates.clearStop (g : Gates) : Gates := { g with stopFile := false }

def State.passEnds (f : Gates → Gates) : State := { st.modGates fun g ↦ (f g).leave .pass with pass := none }

def Gates.clearMarker (g : Gates) (removed : Bool) : Gates :=
  if cfg.runDir && removed then { g with marker := none } else g

def Gates.relatch (g : Gates) : Gates := if cfg.runDir then g.refreshPerDisk else g

def begun (removed : Bool) : State :=
  { st.modGates fun g ↦ g.clearStop.clearMarker cfg removed with asked := 0, crowded := false }

def passMove : PassPc → PassMove → Option State
  | .queued, .begin removed launch =>
    if st.gates.gate.granted .pass then
      some <| match launch with
        | some locks =>
          { begun cfg st removed with
            scripts := st.scripts ++ [⟨locks, false, none, true⟩]
            pass := some (.counting (some st.scripts.length)) }
        | none => { begun cfg st removed with pass := some (.counting none) }
    else none
  | .counting child, .count => some (st.consult cfg child)
  | .watching child false, .wake =>
    if st.gates.preempt then
      some { st.modGates fun g ↦ { g with preempt := false } with pass := some (.woken child) }
    else none
  | .woken child, .recount => some (st.consult cfg child)
  | .watching none _, .finish => some (st.passEnds Gates.clearStop)
  -- `output` is over with the shell and its pipes, whatever processes of the script live on
  | .watching (some _) _, .finish => some (st.passEnds fun g ↦ g.clearStop.relatch cfg)
  | .watching (some _) _, .timeout => some (st.passEnds Gates.clearStop)
  | _, .cancel => some (st.passEnds id)
  | _, _ => none

end Pass

section Script

variable (k : ℕ) (g : Gates)

def Script.unlocks (s : Script) : Gates :=
  match s.disk with
  | some id => if s.locks then g.unlock id else g
  | none => g

def scriptMove (s : Script) : ScriptMove → Option (Gates × Script)
  | .mark =>
    if s.alive && s.locks then
      some ({ g with marker := some (lockProtocol ++ ['\n']) }, { s with marked := true })
    else none
  | .take id =>
    if s.alive = false ∨ s.disk.isSome = true then none
    else if s.locks then
      if s.marked = true ∧ g.flocks id = none then
        some (g.flock id (.script k), { s with disk := some id })
      else none
    else some (g, { s with disk := some id })
  | .leave => if s.alive then some (s.unlocks g, { s with disk := none }) else none
  | .exit => if s.alive then some (s.unlocks g, { s with disk := none, alive := false }) else none

/-- What one move of a script can do. -/
inductive ScriptMoved (s : Script) : Gates → Script → Prop
  | mark (hlocks : s.locks = true) :
    ScriptMoved s { g with marker := some (lockProtocol ++ ['\n']) } { s with marked := true }
  | take {id : String} (hlocks : s.locks = true) (hdisk : s.disk = none) (free : g.flocks id = none) :
    ScriptMoved s (g.flock id (.script k)) { s with disk := some id }
  | use {id : String} (hlocks : s.locks = false) : ScriptMoved s g { s with disk := some id }
  | leave : ScriptMoved s (s.unlocks g) { s with disk := none }
  | exit : ScriptMoved s (s.unlocks g) { s with disk := none, alive := false }

variable {k g} in
theorem scriptMove_moved {s s' : Script} {x : ScriptMove} {g' : Gates}
    (h : scriptMove k g s x = some (g', s')) : s.alive = true ∧ ScriptMoved k g s g' s' := by
  cases x with
  | mark =>
    simp only [scriptMove, Option.ite_none_right_eq_some, Option.some.injEq, Prod.mk.injEq,
      Bool.and_eq_true] at h
    obtain ⟨⟨halive, hlocks⟩, rfl, rfl⟩ := h
    exact ⟨halive, .mark hlocks⟩
  | take id =>
    simp only [scriptMove] at h
    split at h
    · cases h
    · next hfit =>
      obtain ⟨halive, hdisk⟩ := not_or.mp hfit
      have halive : s.alive = true := by simpa using halive
      split at h
      · next hlocks =>
        simp only [Option.ite_none_right_eq_some, Option.some.injEq, Prod.mk.injEq] at h
        obtain ⟨⟨-, free⟩, rfl, rfl⟩ := h
        exact ⟨halive, .take hlocks (by simpa using hdisk) free⟩
      · next hlocks =>
        cases h
        exact ⟨halive, .use (by simpa using hlocks)⟩
  | leave =>
    simp only [scriptMove, Option.ite_none_right_eq_some, Option.some.injEq, Prod.mk.injEq] at h
    obtain ⟨halive, rfl, rfl⟩ := h
    exact ⟨halive, .leave⟩
  | exit =>
    simp only [scriptMove, Option.ite_none_right_eq_some, Option.some.injEq, Prod.mk.injEq] at h
    obtain ⟨halive, rfl, rfl⟩ := h
    exact ⟨halive, .exit⟩

end Script

/-- What a new process of the pooler starts from: the files and the scripts that still run. -/
def Gates.reboot (cfg : Config) (g : Gates) : Gates :=
  Gates.relatch cfg
    { gate := .free cfg.readers
      perDisk := false
      marker := g.marker
      flocks := fun id ↦ (g.flocks id).bind fun p ↦ match p with
        | .script k => some (.script k)
        | .boot _ | .pass => none
      bootsWaiting := 0
      preempt := false
      stopFile := g.stopFile }

def Shared.fresh (cfg : Config) (gates : Gates) : Shared :=
  ⟨gates, .free cfg.admission, .free cfg.slots, 0⟩

def move (cfg : Config) (st : State) : Label → Option State
  | .spawn kind => some { st with tasks := st.tasks ++ [⟨kind, kind.start⟩] }
  | .run t a => st.tasks[t]?.bind fun x ↦
      (taskStep cfg t st.shared x.kind x.stage a).map fun r ↦
        { st with shared := r.1, tasks := st.tasks.set t ⟨x.kind, r.2⟩ }
  | .cancel t => st.tasks[t]?.map fun x ↦
      { st with shared := st.shared.abandon t x.stage, tasks := st.tasks.set t ⟨x.kind, .ended⟩ }
  | .runOnce =>
    if st.pass.isSome then some st
    else some { st.modGates fun g ↦ { g with gate := g.gate.request .pass cfg.readers } with
      pass := some .queued }
  | .pass x => st.pass.bind fun pc ↦ passMove cfg st pc x
  | .script k x => st.scripts[k]?.bind fun s ↦ (scriptMove k st.gates s x).map fun r ↦
      { st.modGates fun _ ↦ r.1 with scripts := st.scripts.set k r.2 }
  | .restart =>
    if st.pass.isSome then none
    else some { st with
      shared := .fresh cfg (st.gates.reboot cfg)
      tasks := st.tasks.map fun x ↦ ⟨x.kind, .ended⟩ }

def PassPc.running : PassPc → Bool
  | .queued => false
  | .counting _ | .watching _ _ | .woken _ => true

/-- The record of the running pass follows every move. -/
def State.noteCrowd (st : State) : State :=
  { st with crowded := st.crowded || st.pass.any PassPc.running && decide (0 < st.gates.bootsWaiting) }

def step (cfg : Config) (l : Label) (st : State) : Option State := (move cfg st l).map State.noteCrowd

/-- The pooler starts on a host with this marker, or none. -/
def State.boot (cfg : Config) (marker : Option (List Char)) : State where
  shared := .fresh cfg (Gates.relatch cfg ⟨.free cfg.readers, false, marker, fun _ ↦ none, 0, false, false⟩)
  tasks := []
  pass := none
  scripts := []
  asked := 0
  crowded := false

abbrev Reaches (cfg : Config) (ok : State → Label → Prop) (marker : Option (List Char))
    (st : State) : Prop :=
  Run (step cfg) ok (State.boot cfg marker) st

abbrev Always (_ : State) (_ : Label) : Prop := True

end PgVmPool.Boots
