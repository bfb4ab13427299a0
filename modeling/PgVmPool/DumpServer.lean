import PgVmPool.HostFiles
import PgVmPool.SchemaPaths
import PgVmPool.Transition

namespace PgVmPool.Dumps

open Function HostFiles HostPath Transition

inductive Mode
  | put | get
  deriving DecidableEq

structure Grant where
  schema : ClientSchema
  mode : Mode
  issued : ℕ
  completed : Option ℕ
  pending : Option ℕ
  deriving DecidableEq

def tokenTtl : ℕ := 3600

def maxDumpBytes : ℕ := 5 * 1024 * 1024 * 1024

/-- A request body: the declared `Content-Length`, if any, and the bytes of it that came. -/
structure Upload where
  token : ℕ
  declared : Option ℕ
  received : List UInt8
  whole : Bool
  deriving DecidableEq

/-- Where `handle_put` is, with the open temp file. -/
inductive PutPc
  | authorize
  | create (schema : ClientSchema)
  | stream (schema : ClientSchema) (file : ℕ)
  | sync (schema : ClientSchema) (file : ℕ)
  | rename (schema : ClientSchema) (file : ℕ)
  | record (schema : ClientSchema) (file : ℕ)
  | cleanup (schema : ClientSchema)
  | done
  deriving DecidableEq

inductive CommitPc
  | authorize
  | read (schema : ClientSchema)
  | rename (schema : ClientSchema) (bytes : ℕ)
  | record (schema : ClientSchema) (bytes : ℕ)
  | done
  deriving DecidableEq

inductive AbortPc
  | authorize
  | clear (schema : ClientSchema)
  | remove (schema : ClientSchema)
  | done
  deriving DecidableEq

inductive Request
  | put (u : Upload) (pc : PutPc)
  | commit (token : ℕ) (pc : CommitPc)
  | abort (token : ℕ) (pc : AbortPc)
  deriving DecidableEq

structure Server where
  now : ℕ
  tokens : List (Option Grant)
  files : Files (List Char) UInt8
  requests : List Request

/-- What a request meets next: an operation that works or fails, or its body. -/
inductive Event
  | ok | fail | chunk (bytes : List UInt8) | ended

inductive Action
  | tick
  | issue (schema : ClientSchema) (mode : Mode) (removed : Bool)
  | arrive (r : Request)
  | act (i : ℕ) (e : Event)
  | cancel (i : ℕ)

namespace Server

def grant (srv : Server) (token : ℕ) : Option Grant := (srv.tokens[token]?).join

def modGrant (srv : Server) (token : ℕ) (f : Grant → Grant) : Server :=
  { srv with tokens := srv.tokens.modify token (Option.map f) }

def uploadCompleted (srv : Server) (token : ℕ) : Option ℕ := (srv.grant token).bind (·.completed)

def live (srv : Server) (g : Grant) : Bool := srv.now - g.issued < tokenTtl

def authorize (srv : Server) (token : ℕ) (mode : Mode) : Option ClientSchema :=
  (srv.grant token).bind fun g ↦ if g.mode = mode ∧ srv.live g = true then some g.schema else none

variable (d : HostDirs)

/-- The temp files that go with the expired grants. -/
def expiredTmp (srv : Server) : List (List Char) :=
  srv.tokens.filterMap fun g ↦ g.bind fun g ↦
    if srv.live g = false ∧ g.pending.isSome then some (d.tmpPath g.schema) else none

def issue (srv : Server) (schema : ClientSchema) (mode : Mode) (removed : Bool) : Option Server :=
  if issueAccepts schema then
    some { srv with
      tokens := srv.tokens.map (Option.filter srv.live) ++ [some ⟨schema, mode, srv.now, none, none⟩]
      files := if removed then (srv.expiredTmp d).foldl Files.remove srv.files else srv.files }
  else none

end Server

/-- A body with a declared length ends there: one that falls short or outgrows it is an error. -/
def putStep (d : HostDirs) (srv : Server) (u : Upload) : PutPc → Event → Option (Server × Upload × PutPc)
  | .authorize, .ok =>
    match srv.authorize u.token .put with
    | some schema => some (srv, u, .create schema)
    | none => some (srv, u, .done)
  | .create schema, .ok =>
    let made := srv.files.create (d.tmpPath schema)
    some ({ srv with files := made.2 }, u, .stream schema made.1)
  | .create schema, .fail => some (srv, u, .cleanup schema)
  | .stream schema file, .chunk bytes =>
    let written := u.received.length + bytes.length
    if u.declared.all (written ≤ ·) then
      if written ≤ maxDumpBytes then
        some ({ srv with files := srv.files.write file u.received.length bytes },
          { u with received := u.received ++ bytes }, .stream schema file)
      else some (srv, u, .cleanup schema)
    else none
  | .stream schema file, .ended =>
    if u.declared.all (u.received.length = ·) then some (srv, { u with whole := true }, .sync schema file)
    else none
  | .stream schema _, .fail => some (srv, u, .cleanup schema)
  | .sync schema file, .ok =>
    some (srv, u, if u.declared.isSome then .rename schema file else .record schema file)
  | .sync schema _, .fail => some (srv, u, .cleanup schema)
  | .rename schema file, .ok =>
    match srv.files.rename (d.tmpPath schema) (d.dumpPath schema) with
    | some files => some ({ srv with files := files }, u, .record schema file)
    | none => some (srv, u, .cleanup schema)
  | .rename schema _, .fail => some (srv, u, .cleanup schema)
  | .record _ _, .ok =>
    let bytes := some u.received.length
    some (srv.modGrant u.token fun g ↦
      if u.declared.isSome then { g with completed := bytes } else { g with pending := bytes }, u, .done)
  | .cleanup schema, .ok => some ({ srv with files := srv.files.remove (d.tmpPath schema) }, u, .done)
  | .cleanup _, .fail => some (srv, u, .done)
  | _, _ => none

def commitStep (d : HostDirs) (srv : Server) (token : ℕ) : CommitPc → Event → Option (Server × CommitPc)
  | .authorize, .ok =>
    match srv.authorize token .put with
    | some schema => some (srv, .read schema)
    | none => some (srv, .done)
  | .read schema, .ok =>
    match (srv.grant token).bind (·.pending) with
    | some bytes => some (srv, .rename schema bytes)
    | none => some (srv, .done)
  | .rename schema bytes, .ok =>
    match srv.files.rename (d.tmpPath schema) (d.dumpPath schema) with
    | some files => some ({ srv with files := files }, .record schema bytes)
    | none => some (srv, .done)
  | .rename _ _, .fail => some (srv, .done)
  | .record _ bytes, .ok =>
    some (srv.modGrant token fun g ↦ { g with pending := none, completed := some bytes }, .done)
  | _, _ => none

def abortStep (d : HostDirs) (srv : Server) (token : ℕ) : AbortPc → Event → Option (Server × AbortPc)
  | .authorize, .ok =>
    match srv.authorize token .put with
    | some schema => some (srv, .clear schema)
    | none => some (srv, .done)
  | .clear schema, .ok =>
    some (srv.modGrant token fun g ↦ { g with pending := none }, .remove schema)
  | .remove schema, .ok => some ({ srv with files := srv.files.remove (d.tmpPath schema) }, .done)
  | .remove _, .fail => some (srv, .done)
  | _, _ => none

namespace Request

def token : Request → ℕ
  | .put u _ => u.token
  | .commit token _ | .abort token _ => token

def arriving : Request → Bool
  | .put u pc => pc = .authorize && u.received = [] && !u.whole
  | .commit _ pc => pc = .authorize
  | .abort _ pc => pc = .authorize

/-- `handle_abort` has no await to be dropped at. -/
def cancelled : Request → Option Request
  | .put u _ => some (.put u .done)
  | .commit token _ => some (.commit token .done)
  | .abort _ _ => none

def step (d : HostDirs) (srv : Server) : Request → Event → Option (Server × Request)
  | .put u pc, e => (putStep d srv u pc e).map fun r ↦ (r.1, .put r.2.1 r.2.2)
  | .commit token pc, e => (commitStep d srv token pc e).map fun r ↦ (r.1, .commit token r.2)
  | .abort token pc, e => (abortStep d srv token pc e).map fun r ↦ (r.1, .abort token r.2)

end Request

def dumpStep (d : HostDirs) : Action → Server → Option Server
  | .tick, srv => some { srv with now := srv.now + 1 }
  | .issue schema mode removed, srv => srv.issue d schema mode removed
  | .arrive r, srv => if r.arriving then some { srv with requests := srv.requests ++ [r] } else none
  | .act i e, srv =>
    (srv.requests[i]?).bind fun r ↦ (r.step d srv e).map fun o ↦
      { o.1 with requests := srv.requests.set i o.2 }
  | .cancel i, srv =>
    ((srv.requests[i]?).bind Request.cancelled).map fun r ↦
      { srv with requests := srv.requests.set i r }

def Server.init : Server := ⟨0, [], .empty, []⟩

namespace PutPc

/-- Between its `File::create` and its end. -/
def writing : PutPc → Option ClientSchema
  | .stream schema _ | .sync schema _ | .rename schema _ | .record schema _ | .cleanup schema => some schema
  | .authorize | .create _ | .done => none

end PutPc

namespace Request

def writing : Request → Option ClientSchema
  | .put _ pc => pc.writing
  | .commit _ _ | .abort _ _ => none

/-- Writing, or between the rename and the record of a commit. -/
def busy : Request → Option ClientSchema
  | .put _ pc => pc.writing
  | .commit _ (.record schema _) => some schema
  | .commit _ _ | .abort _ _ => none

end Request

namespace Server

def pendingOn (srv : Server) (token : ℕ) (schema : ClientSchema) : Bool :=
  (srv.grant token).any fun g ↦ g.schema = schema && g.pending.isSome

/-- No upload of the schema is being written, published or waiting for its commit. -/
structure Free (srv : Server) (schema : ClientSchema) : Prop where
  quiet : ∀ r ∈ srv.requests, r.busy ≠ some schema
  unpending : ∀ t < srv.tokens.length, srv.pendingOn t schema = false

/-- No upload of the schema with another token is being written or waiting for its commit. -/
structure Own (srv : Server) (token : ℕ) (schema : ClientSchema) : Prop where
  writing : ∀ r ∈ srv.requests, r.writing = some schema → r.token = token
  unpending : ∀ t < srv.tokens.length, t ≠ token → srv.pendingOn t schema = false

instance (srv : Server) (schema : ClientSchema) : Decidable (srv.Free schema) :=
  decidable_of_iff ((∀ r ∈ srv.requests, r.busy ≠ some schema) ∧
    ∀ t < srv.tokens.length, srv.pendingOn t schema = false)
    ⟨fun h ↦ ⟨h.1, h.2⟩, fun h ↦ ⟨h.quiet, h.unpending⟩⟩

instance (srv : Server) (token : ℕ) (schema : ClientSchema) : Decidable (srv.Own token schema) :=
  decidable_of_iff ((∀ r ∈ srv.requests, r.writing = some schema → r.token = token) ∧
    ∀ t < srv.tokens.length, t ≠ token → srv.pendingOn t schema = false)
    ⟨fun h ↦ ⟨h.1, h.2⟩, fun h ↦ ⟨h.writing, h.unpending⟩⟩

/-- An upload with the token is streaming into the schema's temp file, or pending in it. -/
def Uploading (srv : Server) (token : ℕ) (schema : ClientSchema) : Prop :=
  srv.pendingOn token schema = true ∨ ∃ r ∈ srv.requests, r.writing = some schema ∧ r.token = token

/-- `bytes` is the body of a PUT with the token that was received completely. -/
def Body (srv : Server) (token n : ℕ) (bytes : List UInt8) : Prop :=
  ∃ u pc, .put u pc ∈ srv.requests ∧ u.token = token ∧ u.whole = true ∧
    u.declared.all (· = n) = true ∧ u.received = bytes ∧ bytes.length = n

end Server

/-- Whose steps these are: the token of the request that acts, or the ones that expire. -/
def Action.concerns (srv : Server) : Action → ℕ → Prop
  | .act i _, t => ∃ r, srv.requests[i]? = some r ∧ r.token = t
  | .issue _ _ _, t => ∃ g, srv.grant t = some g ∧ srv.live g = false
  | .tick, _ | .arrive _, _ | .cancel _, _ => False

def Request.Careful (d : HostDirs) (srv : Server) : Request → Prop
  | .put _ (.create schema) => srv.Free schema
  | .commit token (.rename schema bytes) =>
    srv.files.read (d.tmpPath schema) = none ∨ (srv.grant token).bind (·.pending) = some bytes
  | .abort token (.remove schema) => srv.files.read (d.tmpPath schema) = none ∨ srv.Own token schema
  | .put _ _ | .commit _ _ | .abort _ _ => True

/-- The temp file of a schema changes hands only when nobody else's bytes are in it. -/
def Careful (d : HostDirs) (srv : Server) : Action → Prop
  | .act i _ => ∀ r ∈ srv.requests[i]?, r.Careful d srv
  | .tick | .issue _ _ _ | .arrive _ | .cancel _ => True

instance (d : HostDirs) (srv : Server) : (r : Request) → Decidable (r.Careful d srv)
  | .put _ (.create schema) => inferInstanceAs (Decidable (srv.Free schema))
  | .put _ .authorize | .put _ (.stream _ _) | .put _ (.sync _ _) | .put _ (.rename _ _)
  | .put _ (.record _ _) | .put _ (.cleanup _) | .put _ .done => isTrue trivial
  | .commit token (.rename schema bytes) => inferInstanceAs (Decidable
      (srv.files.read (d.tmpPath schema) = none ∨ (srv.grant token).bind (·.pending) = some bytes))
  | .commit _ .authorize | .commit _ (.read _) | .commit _ (.record _ _) | .commit _ .done => isTrue trivial
  | .abort token (.remove schema) => inferInstanceAs (Decidable
      (srv.files.read (d.tmpPath schema) = none ∨ srv.Own token schema))
  | .abort _ .authorize | .abort _ (.clear _) | .abort _ .done => isTrue trivial

instance (d : HostDirs) (srv : Server) : (l : Action) → Decidable (Careful d srv l)
  | .act i _ => inferInstanceAs (Decidable (∀ r ∈ srv.requests[i]?, r.Careful d srv))
  | .tick | .issue _ _ _ | .arrive _ | .cancel _ => isTrue trivial

/-- What a step of the server may do: complete a token only with a complete body of its own, and
leave the uploads of other tokens alone. -/
structure UploadSafe (d : HostDirs) (srv : Server) (l : Action) (srv' : Server) : Prop where
  complete : ∀ t n, srv'.uploadCompleted t = some n → srv.uploadCompleted t ≠ some n →
    ∃ g bytes, srv'.grant t = some g ∧ srv'.Body t n bytes ∧
      srv'.files.read (d.dumpPath g.schema) = some bytes
  others : ∀ t schema, ¬l.concerns srv t → srv.Uploading t schema →
    srv'.files.read (d.tmpPath schema) = srv.files.read (d.tmpPath schema)

end PgVmPool.Dumps
