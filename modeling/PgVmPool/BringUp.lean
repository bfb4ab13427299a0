import PgVmPool.World

namespace PgVmPool

open Function

inductive Source
  | s3 | s3Image | localImage | localDump
  deriving DecidableEq

def Source.isImage : Source → Bool
  | .s3Image | .localImage => true
  | .s3 | .localDump => false

inductive Provenance
  | existing | spare | created
  deriving DecidableEq

/-- Which lookup led to a `bring_up_existing`. -/
inductive Stage
  | known | cached | named
  deriving DecidableEq

/-- The arguments of one `ensure_vm` call. `spares` carries the ids bound when it was made. -/
structure BringUp where
  schema : Schema
  known : Option SandboxId
  restore : Option Source
  spares : Option (List SandboxId)

def takeMaxAttempts : ℕ := 3

/-- The awaits of `ensure_vm`, `resolve_sandbox`, `create_vm_within`, `SparePool::take` and
`adopt_zst_image`, each with the sandbox it works on. -/
inductive EnsurePc
  | admission
  | starting (stage : Stage) (id : SandboxId)
  | waiting (stage : Stage) (id : SandboxId)
  | lookup
  | findByName
  | takeSpare (left : ℕ)
  | confirmSpare (left : ℕ) (id : SandboxId)
  | creating
  | recordPending (id : SandboxId)
  | indexCreated (id : SandboxId)
  | waitCreated (id : SandboxId)
  | killHalfBuilt (id : SandboxId)
  | clearHalfBuilt
  | materialize
  | swapStop (p : Provenance) (id : SandboxId)
  | swapCopy (p : Provenance) (id : SandboxId)
  | swapStart (p : Provenance) (id : SandboxId)
  | swapWait (p : Provenance) (id : SandboxId)
  | swapDispose (p : Provenance) (id : SandboxId)
  | readyPg (p : Provenance) (id : SandboxId)
  | ensureDatabase (p : Provenance) (id : SandboxId)
  | restoring (p : Provenance) (id : SandboxId)
  | slotBudget (p : Provenance) (id : SandboxId)
  | dispose (p : Provenance) (id : SandboxId)
  | disposeClear (id : SandboxId)
  | ok (id : SandboxId) (slots : ℕ)
  | err
  deriving DecidableEq

def EnsurePc.vm : EnsurePc → Option SandboxId
  | .starting _ id | .waiting _ id | .confirmSpare _ id | .recordPending id | .indexCreated id
  | .waitCreated id | .killHalfBuilt id | .swapStop _ id | .swapCopy _ id | .swapStart _ id
  | .swapWait _ id | .swapDispose _ id | .readyPg _ id | .ensureDatabase _ id | .restoring _ id
  | .slotBudget _ id | .dispose _ id | .disposeClear id | .ok id _ => some id
  | .admission | .lookup | .findByName | .takeSpare _ | .creating | .clearHalfBuilt | .materialize
  | .err => none

/-- After a failure an existing VM is left alone: its disk is the schema's data. -/
def EnsurePc.giveUp (p : Provenance) (id : SandboxId) : EnsurePc :=
  if p = .existing then .err else .dispose p id

namespace BringUp

variable (b : BringUp)

def image : Bool := b.restore.any Source.isImage

/-- An offloaded schema's recorded id is dead and never reattached. -/
def reattach : Option SandboxId := if b.restore.isSome then none else b.known

def first : EnsurePc :=
  if b.image then .materialize
  else match b.reattach with
    | some id => .starting .known id
    | none => .lookup

def fresh : EnsurePc := if b.spares.isSome then .takeSpare takeMaxAttempts else .creating

def adopt (p : Provenance) (id : SandboxId) : EnsurePc :=
  if b.image then .swapStop p id else .readyPg p id

def afterDatabase (p : Provenance) (id : SandboxId) : EnsurePc :=
  if b.restore.isSome && !b.image then .restoring p id else .slotBudget p id

def imageSource (w : World) : Option Content :=
  match b.restore with
  | some .s3Image => w.s3Image b.schema
  | some .localImage => w.images b.schema
  | _ => none

def dumpSource (w : World) : Option Content :=
  match b.restore with
  | some .s3 => w.s3Dump b.schema
  | some .localDump => w.dumps b.schema
  | _ => none

def dropScratch (w : World) : World :=
  if b.image then { w with scratch := update w.scratch b.schema none } else w

end BringUp

/-- `SparePool::release_failed`: the claim goes only with a confirmed kill. -/
def World.releaseFailed (w : World) (id : SandboxId) (killed : Bool) : World :=
  let w' := { w with ready := w.ready.filter (· ≠ id) }
  if killed then (w'.kill id).unclaim id else w'

def ensureStep (b : BringUp) (w : World) : EnsurePc → Answer → Option (World × EnsurePc)
  | .admission, .go => some (w, b.first)
  | .starting stage id, .ok => some (w, .waiting stage id)
  | .starting .known _, .notFound | .starting .known _, .failed => some (w, .lookup)
  | .starting .cached id, .notFound => some (w.removeId id, .findByName)
  | .starting .named id, .notFound => some (w.removeId id, b.fresh)
  | .starting .cached _, .failed | .starting .named _, .failed => some (w, .err)
  | .waiting _ id, .ok => some (w.insertName (vmName b.schema) id, .readyPg .existing id)
  | .waiting .known _, .failed => some (w, .lookup)
  | .waiting .cached _, .failed | .waiting .named _, .failed => some (w, .err)
  | .lookup, .go =>
    match w.inventory (vmName b.schema) with
    | some id => some (w, .starting .cached id)
    | none => some (w, .findByName)
  | .findByName, .failed => some (w, .err)
  | .findByName, .listing infos =>
    match infos.find? (·.name = vmName b.schema) with
    | some i => some ((w.absorb infos).insertName (vmName b.schema) i.id, .starting .named i.id)
    | none => some (w.absorb infos, b.fresh)
  | .takeSpare 0, .go => some (w, .creating)
  | .takeSpare (left + 1), .go =>
    match popReady (b.spares.getD []) w.claimed w.ready with
    | (some id, rest) =>
      some ({ w with ready := rest, claimed := update w.claimed id true }, .confirmSpare left id)
    | (none, rest) => some ({ w with ready := rest }, .creating)
  | .confirmSpare _ id, .running name => some (w.insertName name id, b.adopt .spare id)
  | .confirmSpare _ id, .failed => some (w, b.adopt .spare id)
  | .confirmSpare left id, .stopped | .confirmSpare left id, .notFound =>
    some (w.unclaim id, .takeSpare left)
  | .creating, .failed => some (b.dropScratch w, .err)
  | .creating, .created id =>
    if w.disks id = none then
      some ({ w with disks := update w.disks id (some ⟨[], 0⟩) }, .recordPending id)
    else none
  | .recordPending id, .go => some (w.recordPending b.schema id, .indexCreated id)
  | .indexCreated id, .go => some (w.insertName (vmName b.schema) id, .waitCreated id)
  | .waitCreated id, .ok => some (w, b.adopt .created id)
  | .waitCreated id, .failed => some (w, .killHalfBuilt id)
  | .killHalfBuilt id, .ok => some ((w.kill id).removeId id, .clearHalfBuilt)
  | .killHalfBuilt _, .failed => some (b.dropScratch w, .err)
  | .clearHalfBuilt, .go => some (b.dropScratch (w.clearPending b.schema), .err)
  | .materialize, .ok =>
    (b.imageSource w).map fun c ↦ ({ w with scratch := update w.scratch b.schema (some c) }, b.fresh)
  | .materialize, .failed => some (b.dropScratch w, .err)
  | .swapStop p id, .ok => some (w, .swapCopy p id)
  | .swapCopy p id, .ok =>
    (w.scratch b.schema).map fun c ↦ ({ w with disks := update w.disks id (some c) }, .swapStart p id)
  | .swapStart p id, .ok => some (w, .swapWait p id)
  | .swapWait p id, .ok => some (b.dropScratch w, .readyPg p id)
  | .swapStop p id, .failed | .swapCopy p id, .failed | .swapStart p id, .failed
  | .swapWait p id, .failed => some (w, .swapDispose p id)
  | .swapDispose .spare id, .ok => some (b.dropScratch (w.releaseFailed id true), .err)
  | .swapDispose .spare id, .failed => some (b.dropScratch (w.releaseFailed id false), .err)
  | .swapDispose _ id, .ok => some (b.dropScratch (w.kill id), .err)
  | .swapDispose _ _, .failed => some (b.dropScratch w, .err)
  | .readyPg p id, .ok => some (w, .ensureDatabase p id)
  | .ensureDatabase p id, .ok => some (w, b.afterDatabase p id)
  | .restoring p id, .ok =>
    (b.dumpSource w).map fun c ↦ ({ w with disks := update w.disks id (some c) }, .slotBudget p id)
  | .readyPg p id, .failed | .ensureDatabase p id, .failed | .restoring p id, .failed =>
    some (w, .giveUp p id)
  | .slotBudget _ id, .slots n => some (w, .ok id (max n 1))
  | .dispose .spare id, .ok => some (w.releaseFailed id true, .err)
  | .dispose .spare id, .failed => some (w.releaseFailed id false, .err)
  | .dispose _ id, .ok => some (w.kill id, .disposeClear id)
  | .dispose _ id, .failed => some (w, .disposeClear id)
  | .disposeClear id, .go => some ((w.clearPending b.schema).removeId id, .err)
  -- the deploy timed out at the client: what its build leaves is known to nobody
  | .creating, .late id =>
    if w.disks id = none then some (b.dropScratch { w with disks := update w.disks id (some ⟨[], 0⟩) }, .err)
    else none
  | _, _ => none

end PgVmPool
