import PgVmPool.StoreFile

namespace PgVmPool

open Function

/-- A database copy: the client writes it holds and its size where it is stored. -/
structure Content where
  writes : List ℕ
  bytes : ℕ
  deriving DecidableEq

/-- A tokio `OnceCell`: nobody initializes it, one task does, or it is set for good. -/
inductive Cell
  | empty
  | busy (task : ℕ)
  | full (entry : ℕ)
  deriving DecidableEq

/-- A warm VM. `guards` names the tasks that hold a `ConnGuard` on it; the code keeps only
their number, in `active`. -/
structure SchemaEntry where
  sandbox : SandboxId
  keepalive : Bool
  slotLimit : ℕ
  free : ℕ
  active : ℕ
  lastActive : ℕ
  guards : List ℕ
  deriving DecidableEq

namespace SchemaEntry

def new (sandbox : SandboxId) (keepalive : Bool) (slots now : ℕ) : SchemaEntry :=
  ⟨sandbox, keepalive, slots, slots, 0, now, []⟩

def touch (e : SchemaEntry) (now : ℕ) : SchemaEntry := { e with lastActive := now }

def acquire (e : SchemaEntry) (task now : ℕ) : SchemaEntry :=
  { e with free := e.free - 1, active := e.active + 1, lastActive := now, guards := task :: e.guards }

def release (e : SchemaEntry) (task now : ℕ) : SchemaEntry :=
  { e with free := e.free + 1, active := e.active - 1, lastActive := now, guards := e.guards.erase task }

def isIdle (e : SchemaEntry) (timeout now : ℕ) : Bool :=
  !e.keepalive && e.active = 0 && timeout ≤ now - e.lastActive

end SchemaEntry

structure Info where
  id : SandboxId
  name : String
  running : Bool
  deriving DecidableEq

def vmName (schema : Schema) : String := "pg-" ++ schema.text

def isSpareName (name : String) : Bool := "spare-pg-".toList.isPrefixOf name.toList

/-- `name.strip_prefix("pg-")`, as a registry key. -/
def schemaOfName (name : String) : Option Schema :=
  ("pg-".toList.isPrefixOf? name.toList).bind fun cs ↦ Field.ofString? (String.ofList cs)

/-- Everything the tasks share: the pooler's memory, the host's disks and the S3 bucket. -/
structure World where
  now : ℕ
  store : Store
  entries : AList (fun _ : Schema ↦ ℕ)
  cells : ℕ → Cell
  nextCell : ℕ
  ents : ℕ → SchemaEntry
  nextEntry : ℕ
  archiving : Schema → Bool
  breaker : Schema → Option (ℕ × ℕ)
  pending : Schema → Option (SandboxId × ℕ)
  inventory : String → Option SandboxId
  claimed : SandboxId → Bool
  ready : List SandboxId
  disks : SandboxId → Option Content
  dumps : Schema → Option Content
  images : Schema → Option Content
  scratch : Schema → Option Content
  s3Dump : Schema → Option Content
  s3Image : Schema → Option Content
  acked : Schema → List ℕ

structure Config where
  archive : Bool
  freeze : Bool
  compact : Bool
  imageArchive : Bool
  spares : Bool
  viaGuest : Bool
  idleTimeout : ℕ
  jitter : Schema → ℕ → ℕ
  keepalive : Schema → Bool

def Config.dumpServer (cfg : Config) : Bool := cfg.freeze || cfg.archive

def minDumpBytes : ℕ := 512

def minImageBytes : ℕ := 1024

inductive RestoreKind
  | dump | image
  deriving DecidableEq

def chooseRestore (dump image : Option ℕ) : RestoreKind :=
  if dump.any (minDumpBytes ≤ ·) then .dump
  else if image.any (minImageBytes ≤ ·) then .image else .dump

/-- `pick_restore`: a HEAD that does not get through counts as a missing object. -/
def pickRestore (w : World) (schema : Schema) (dumpHead imageHead : Bool) : RestoreKind :=
  let len (head : Bool) (o : Option Content) := if head then o.map (·.bytes) else none
  chooseRestore (len dumpHead (w.s3Dump schema)) (len imageHead (w.s3Image schema))

def World.archived (w : World) (schema : Schema) : Option Content :=
  match pickRestore w schema true true with
  | .dump => w.s3Dump schema
  | .image => w.s3Image schema

namespace World

variable (w : World)

def unix : UInt64 := UInt64.ofNat w.now

def modEntry (e : ℕ) (f : SchemaEntry → SchemaEntry) : World :=
  { w with ents := update w.ents e (f (w.ents e)) }

def insertName (name : String) (id : SandboxId) : World :=
  { w with inventory := update w.inventory name (some id) }

def removeId (id : SandboxId) : World :=
  { w with inventory := fun n ↦ if w.inventory n = some id then none else w.inventory n }

def absorb (infos : List Info) : World :=
  let upsert (c : String → Option SandboxId) (i : Info) :=
    if i.name = "" then c else update c i.name (some i.id)
  { w with inventory := infos.foldl upsert w.inventory }

def recordPending (schema : Schema) (id : SandboxId) : World :=
  { w with pending := update w.pending schema (some (id, w.now)) }

def clearPending (schema : Schema) : World :=
  { w with pending := update w.pending schema none }

def unclaim (id : SandboxId) : World := { w with claimed := update w.claimed id false }

def kill (id : SandboxId) : World := { w with disks := update w.disks id none }

/-- Publish the spare shelf, minus what is bound or claimed. -/
def publish (ids bound : List SandboxId) : World :=
  { w with ready := (ids.filter fun id ↦ id ∉ bound ∧ w.claimed id = false).eraseDups }

end World

/-- The pop-and-claim loop of `SparePool::take`: the first shelved id that is free, and the rest. -/
def popReady (bound : List SandboxId) (claimed : SandboxId → Bool) :
    List SandboxId → Option SandboxId × List SandboxId
  | [] => (none, [])
  | id :: rest => if id ∉ bound ∧ claimed id = false then (some id, rest) else popReady bound claimed rest

def breakerBase : ℕ := 60

def breakerCap : ℕ := 15 * 60

def holdFor (failures : ℕ) : ℕ := min (breakerBase * 2 ^ min (failures - 1) 10) breakerCap

def World.holding (w : World) (schema : Schema) : Bool :=
  match w.breaker schema with
  | some (failures, last) => w.now - last < holdFor failures
  | none => false

def World.recordFailure (w : World) (schema : Schema) : World :=
  let failures := ((w.breaker schema).map (·.1)).getD 0 + 1
  { w with breaker := update w.breaker schema (some (failures, w.now)) }

def World.clearBreaker (w : World) (schema : Schema) : World :=
  { w with breaker := update w.breaker schema none }

/-- What a task's environment answers when it resumes: the daemon, S3, Postgres, the file
system or a client; `go` resumes a task that waits for no answer, `order` one that walks a
hash map, whose order is not fixed. `late` is a create that the client gave up on and the daemon
finishes all the same. -/
inductive Answer
  | go
  | ok
  | notFound
  | failed
  | stopped
  | running (name : String)
  | listing (infos : List Info)
  | created (id : SandboxId)
  | late (id : SandboxId)
  | slots (n : ℕ)
  | heads (dump image : Bool)
  | size (n : ℕ)
  | wrote (n : ℕ)
  | order (keys : List Schema)
  deriving DecidableEq

end PgVmPool
