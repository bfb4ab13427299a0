import PgVmPool.GuestTransfers
import PgVmPool.SqlText
import PgVmPool.StartupPacket

namespace PgVmPool

open S3 Sh
open Dedicated (utf8)
open Startup (Pairs StartupInfo databaseOf fromUtf8Lossy parameterBytes parseStartupMessage startupOf utf8_eq
  zero_mem_utf8_iff)

def takesValue (c : Char) : Bool := ['d', 'f', 'F', 'h', 'j', 'U'].contains c

/-- A command line as far as `getopt` has read it, with the option that waits for its value. -/
structure Options where
  pending : Option Char
  values : List (Char × Word)
  operands : List Word

namespace Options

/-- The long options of the jobs take no value. -/
def read (o : Options) (w : Word) : Options :=
  match o.pending, w.text with
  | some c, _ => { o with pending := none, values := o.values ++ [(c, w)] }
  | none, '-' :: '-' :: _ => o
  | none, ['-', c] => if takesValue c then { o with pending := some c } else o
  | none, '-' :: c :: value =>
    if takesValue c then { o with values := o.values ++ [(c, { w with text := value })] } else o
  | none, _ => { o with operands := o.operands ++ [w] }

/-- The last value of an option, where the shell has put nothing else in its place. -/
def value (o : Options) (c : Char) : Option Text :=
  ((o.values.filter fun v ↦ v.1 = c).getLast?).bind fun v ↦ if v.2.literal then some v.2.text else none

end Options

def getopt (args : Command) : Options := args.foldl Options.read ⟨none, [], []⟩

def localhost : Text := "127.0.0.1".toList

/-- Whom a client is told to connect to. -/
structure Target where
  host : Text
  role : Text
  dbname : Text

def target (c : Command) : Option Target := do
  let o := getopt c.tail
  return ⟨← o.value 'h', ← o.value 'U', ← o.value 'd'⟩

/-- libpq's `recognized_connection_string`. -/
def recognizedConnectionString (s : Text) : Bool :=
  s.contains '=' || "postgresql://".toList.isPrefixOf s || "postgres://".toList.isPrefixOf s

inductive Dbname
  | name (s : Text)
  | connection (s : Text)
  deriving DecidableEq

/-- What libpq takes the value of `-d` for. -/
def expandDbname (s : Text) : Dbname := if recognizedConnectionString s then .connection s else .name s

/-- How PostgreSQL cuts a name that is too long for it. -/
structure Server where
  clip : List UInt8 → List UInt8
  clip_short : ∀ name, name.length ≤ 63 → clip name = name

def Server.database (server : Server) (name : Text) : List UInt8 := server.clip (utf8 (String.ofList name))

/-- The database of the local server that a client opens by its plain name. -/
def Target.database (server : Server) (x : Target) : Option (List UInt8) :=
  match expandDbname x.dbname with
  | .name s => if x.host = localhost then some (server.database s) else none
  | .connection _ => none

/-- Whom the one client of a job that was launched connects to. -/
def Transfer.target (t : Transfer) (pgUser schema : Text) : Option Target :=
  match ((t.job.planted (t.launched pgUser schema)).bind commands).map (·.filter isClient) with
  | some [c] => PgVmPool.target c
  | _ => none

def createdName : List Sql.Token → Option Text
  | .word verb :: .word noun :: .ident name :: _ =>
    if verb = "create".toList ∧ noun = "database".toList then some name else none
  | _ => none

/-- The database that there is for the schema after `ensure_database`: the one that the catalog was asked
for, or the one that was created. -/
def provisioned (server : Server) (has : Sql.Catalog) (schema : Text) (owner : Option Sql.Credential) :
    Option (List UInt8) :=
  if has.database schema then some (utf8 (String.ofList schema))
  else ((Sql.ensureDatabase has schema owner).findSome? fun statement ↦
    (Sql.lex statement.text).bind createdName).map server.database

/-- The configured superuser; its name has no control characters. -/
structure PgUser where
  text : Text
  valid : text.all (fun c ↦ !isControl c) = true

/-- A dedicated database's credential, as it was validated. -/
structure Owner where
  credential : Sql.Credential
  sendable : credential.Sendable

/-- A client whose startup message the pooler has read: `pairs` stand in the message, as the VM's server
reads it. -/
structure Client (schema : ClientSchema) where
  pairs : Pairs
  wellFormed : ∀ p ∈ pairs, p.1 ≠ [] ∧ 0 ∉ p.1 ∧ 0 ∉ p.2
  lenBuf : List UInt8
  version : List UInt8
  version_length : version.length = 4
  info : StartupInfo
  read : parseStartupMessage lenBuf (version ++ parameterBytes pairs) = .ok info
  named : info.database = schema.text

/-- The dump, the restore, the bring-up and the client mean the database of the schema's name. -/
structure DumpedIsServed (bucket : DumpBucket) (c : Crypto) (pgUser : PgUser) (server : Server) (has : Sql.Catalog)
    (owner : Option Owner) (schema : ClientSchema) (client : Client schema) : Prop where
  handed : ∀ t, Launches bucket c schema t → t.target pgUser.text schema.text.toList =
    some ⟨localhost, pgUser.text, schema.text.toList⟩
  transferred : ∀ t, Launches bucket c schema t →
    (t.target pgUser.text schema.text.toList).bind (Target.database server) = some (utf8 schema.text)
  created : provisioned server has schema.text.toList (owner.map Owner.credential) = some (utf8 schema.text)
  routed : databaseOf client.pairs = utf8 schema.text
  whole : server.clip (utf8 schema.text) = utf8 schema.text

theorem target_dumpCommand (user db : Text) (file : Command)
    (hfile : file = [] ∨ file = [bare "-f", ⟨dumpPath, true, false⟩]) :
    target (dumpCommand user db ++ file) = some ⟨localhost, user, db⟩ := by
  obtain rfl | rfl := hfile
  · rfl
  · rfl

theorem target_restoreCommand (user db : Text) (keepOwnership : Bool) :
    target (restoreCommand user db keepOwnership) = some ⟨localhost, user, db⟩ := by
  cases keepOwnership
  · rfl
  · rfl

theorem Transfer.target_eq (t : Transfer) {pgUser schema : Text} (huser : Quotable pgUser)
    (hschema : Quotable schema) : t.target pgUser schema = some ⟨localhost, pgUser, schema⟩ := by
  rw [Transfer.target, t.runs huser hschema]
  cases t with
  | archive resolve url => exact target_dumpCommand pgUser schema _ (.inr rfl)
  | stream url =>
    have hwords := target_dumpCommand pgUser schema [] (.inl rfl)
    rwa [List.append_nil] at hwords
  | restore resolve url keepOwnership => exact target_restoreCommand pgUser schema keepOwnership
  | restoreLocal url keepOwnership => exact target_restoreCommand pgUser schema keepOwnership

theorem quotable_of_printable {s : Text} (h : s.all (fun c ↦ !isControl c) = true) : Quotable s := by
  rw [List.all_eq_true] at h
  exact ⟨fun hnul ↦ absurd (h _ hnul) (by decide), fun hline ↦ absurd (h _ hline) (by decide)⟩

namespace ClientSchema

variable (schema : ClientSchema)

theorem printable : schema.text.toList.all (fun c ↦ !isControl c) = true := by
  have h := schema.valid
  simp only [isValidSchema, Bool.and_eq_true] at h
  exact h.2

theorem named : Sql.Named schema.text.toList :=
  ⟨schema.toList_ne_nil, (quotable_of_printable schema.printable).1⟩

theorem length_utf8 : (utf8 schema.text).length ≤ 63 := by
  have h := schema.valid
  simp only [isValidSchema, Bool.and_eq_true, decide_eq_true_eq] at h
  exact h.1.2

end ClientSchema

theorem fromUtf8Lossy_utf8 (s : String) : fromUtf8Lossy (utf8 s) = s := by
  rw [fromUtf8Lossy, utf8_eq, LossyUtf8.decode_encoded, String.ofList_toList]

variable {bucket : DumpBucket} {c : Crypto} {pgUser : PgUser} {server : Server} {has : Sql.Catalog}
  {owner : Option Owner} {schema : ClientSchema}

theorem Server.database_schema (server : Server) (schema : ClientSchema) :
    server.database schema.text.toList = utf8 schema.text := by
  rw [Server.database, String.ofList_toList, server.clip_short _ schema.length_utf8]

/-- A name that libpq does not take for a connection string is the database of that name. -/
theorem Target.database_eq (server : Server) (role : Text) (schema : ClientSchema) :
    (⟨localhost, role, schema.text.toList⟩ : Target).database server =
      if recognizedConnectionString schema.text.toList then none else some (utf8 schema.text) := by
  cases h : recognizedConnectionString schema.text.toList with
  | true =>
    have hexpand : expandDbname schema.text.toList = .connection schema.text.toList := if_pos h
    simp only [Target.database, hexpand, if_true]
  | false =>
    have hexpand : expandDbname schema.text.toList = .name schema.text.toList := if_neg (by simp [h])
    simp only [Target.database, hexpand, if_true, server.database_schema schema, Bool.false_eq_true, if_false]

theorem created_schema {role : Option Text} (hrole : ∀ r ∈ role, Sql.Named r) (schema : ClientSchema) :
    (Sql.lex (Sql.Statement.create schema.text.toList role).text).bind createdName =
      some schema.text.toList := by
  cases role with
  | none =>
    rw [Sql.lex_create schema.named]
    rfl
  | some role =>
    rw [Sql.lex_create_owned schema.named (hrole role rfl)]
    rfl

theorem createdName_other {noun : Text} (h : noun ≠ "database".toList) (verb : Text) (rest : List Sql.Token) :
    createdName (.word verb :: .word noun :: rest) = none := by
  cases rest with
  | nil => rfl
  | cons token rest =>
    cases token with
    | word text => rfl
    | ident name => exact if_neg fun hboth ↦ h hboth.2
    | literal value => rfl

theorem created_role (has : Sql.Catalog) (owner : Owner) :
    (Sql.lex (Sql.ensureRole has owner.credential).text).bind createdName = none := by
  have hlex := Sql.lex_provision owner.sendable (has.role owner.credential.role)
  have halter : Sql.words "alter role" = [.word "alter".toList, .word "role".toList] := by decide +kernel
  have hcreate : Sql.words "create role" = [.word "create".toList, .word "role".toList] := by decide +kernel
  have hnoun : "role".toList ≠ "database".toList := by decide
  have hother := createdName_other hnoun
  have htext : (Sql.ensureRole has owner.credential).text =
      Sql.roleDdl owner.credential (has.role owner.credential.role) := rfl
  rw [htext, hlex, Option.bind_some, Sql.Statement.tokens]
  cases has.role owner.credential.role with
  | true =>
    rw [if_pos rfl, halter, List.cons_append, List.cons_append, hother]
  | false =>
    rw [if_neg Bool.false_ne_true, hcreate, List.cons_append, List.cons_append, hother]

theorem provisioned_schema (server : Server) (has : Sql.Catalog) (owner : Option Owner)
    (schema : ClientSchema) :
    provisioned server has schema.text.toList (owner.map Owner.credential) = some (utf8 schema.text) := by
  unfold provisioned
  split_ifs with hfound
  · rw [String.ofList_toList]
  · have hname := server.database_schema schema
    cases owner with
    | none =>
      have hrole : ∀ r ∈ (none : Option Text), Sql.Named r := by simp
      have hcreated := created_schema hrole schema
      simp [Sql.ensureDatabase, hfound, hcreated, hname]
    | some owner =>
      have hrole : ∀ r ∈ some owner.credential.role, Sql.Named r :=
        fun r hr ↦ Option.some.inj hr ▸ owner.sendable.1
      have hcreated := created_schema hrole schema
      have hother := created_role has owner
      simp [Sql.ensureDatabase, hfound, hcreated, hname, hother]

theorem Client.decoded (client : Client schema) : fromUtf8Lossy (databaseOf client.pairs) = schema.text := by
  have hread := client.read
  rw [Startup.parseStartupMessage_eq client.wellFormed _ client.version_length, startupOf] at hread
  split_ifs at hread
  have hinfo := Except.ok.inj hread
  rw [← client.named, ← hinfo]

theorem Client.routed_iff (client : Client schema) :
    databaseOf client.pairs = utf8 schema.text ↔ ∃ s, databaseOf client.pairs = utf8 s := by
  constructor
  · intro h
    exact ⟨schema.text, h⟩
  · rintro ⟨s, hs⟩
    have hdecoded := client.decoded
    rw [hs, fromUtf8Lossy_utf8] at hdecoded
    rw [hs, hdecoded]

theorem zero_notMem_utf8 {s : String} (h : '\x00' ∉ s.toList) : 0 ∉ utf8 s := mt zero_mem_utf8_iff.mp h

/-- What a client writes that asks for a schema by its name. -/
def asking (schema : ClientSchema) : Pairs :=
  [(utf8 "user", utf8 "postgres"), (utf8 "database", utf8 schema.text)]

theorem asking_wellFormed (schema : ClientSchema) :
    ∀ p ∈ asking schema, p.1 ≠ [] ∧ 0 ∉ p.1 ∧ 0 ∉ p.2 := by
  have hname := zero_notMem_utf8 (quotable_of_printable schema.printable).1
  have huser : utf8 "user" ≠ [] ∧ 0 ∉ utf8 "user" ∧ 0 ∉ utf8 "postgres" := by decide
  have hkey : utf8 "database" ≠ [] ∧ 0 ∉ utf8 "database" := by decide
  simp only [asking, List.forall_mem_cons]
  exact ⟨huser, ⟨hkey.1, hkey.2, hname⟩, by simp⟩

theorem databaseOf_asking (schema : ClientSchema) : databaseOf (asking schema) = utf8 schema.text := by
  have hkeys : ¬utf8 "user" = utf8 "database" := by decide
  have hnamed : Startup.namedDatabase (asking schema) = utf8 schema.text := by
    simp [Startup.namedDatabase, Startup.lastValue, asking, hkeys]
  have hne : utf8 schema.text ≠ [] := by
    intro hnil
    have hempty : schema.text = "" := by
      rw [← fromUtf8Lossy_utf8 schema.text]
      exact Startup.fromUtf8Lossy_eq_empty_iff.mpr hnil
    exact schema.toList_ne_nil (by rw [hempty]; rfl)
  rw [databaseOf, hnamed, if_neg hne]

def Client.asking (schema : ClientSchema) : Client schema where
  pairs := PgVmPool.asking schema
  wellFormed := asking_wellFormed schema
  lenBuf := []
  version := [0, 3, 0, 0]
  version_length := rfl
  info := ⟨schema.text, "postgres", [0, 3, 0, 0] ++ parameterBytes (PgVmPool.asking schema)⟩
  read := by
    have hdatabase := databaseOf_asking schema
    have hkeys : ¬utf8 "database" = utf8 "user" := by decide
    have huser : Startup.userOf (PgVmPool.asking schema) = utf8 "postgres" := by
      simp [Startup.userOf, Startup.lastValue, PgVmPool.asking, hkeys]
    have hne : utf8 "postgres" ≠ [] := by decide
    rw [Startup.parseStartupMessage_eq (asking_wellFormed schema) _ rfl, startupOf, hdatabase, huser,
      if_neg fun h ↦ hne h.2, fromUtf8Lossy_utf8, fromUtf8Lossy_utf8]
    rfl
  named := rfl

/-- The database dumped is the database served, for every name that libpq does not take for a connection
string and every client that spells it in UTF-8. -/
theorem dumped_is_served (client : Client schema) :
    DumpedIsServed bucket c pgUser server has owner schema client ↔
      recognizedConnectionString schema.text.toList = false ∧ ∃ s, databaseOf client.pairs = utf8 s := by
  have htarget : ∀ t : Transfer, t.target pgUser.text schema.text.toList =
      some ⟨localhost, pgUser.text, schema.text.toList⟩ := fun t ↦
    t.target_eq (quotable_of_printable pgUser.valid) (quotable_of_printable schema.printable)
  constructor
  · intro h
    have hdump := h.transferred _ (.dumpToS3 [] 0)
    rw [htarget, Option.bind_some, Target.database_eq] at hdump
    refine ⟨?_, client.routed_iff.mp h.routed⟩
    by_contra hconnection
    rw [if_pos (Bool.not_eq_false _ ▸ hconnection)] at hdump
    cases hdump
  · rintro ⟨hname, hutf8⟩
    refine ⟨fun t _ ↦ htarget t, fun t _ ↦ ?_, provisioned_schema server has owner schema,
      client.routed_iff.mpr hutf8, server.clip_short _ schema.length_utf8⟩
    rw [htarget, Option.bind_some, Target.database_eq, hname]
    rfl

def wb : DumpBucket where
  cfg := ⟨"wb".toList, [], "us-east-2".toList, none, none, "AK".toList, "sk".toList⟩
  plain := ⟨by decide, by decide⟩

def superuser : PgUser := ⟨"postgres".toList, by decide⟩

def orders : ClientSchema := ⟨"orders", by decide⟩

theorem dumped_is_served_orders :
    DumpedIsServed wb ⟨id, fun _ bytes ↦ bytes⟩ superuser ⟨id, fun _ _ ↦ rfl⟩
      ⟨fun _ ↦ false, fun _ ↦ false, fun _ _ ↦ false⟩ none orders (.asking orders) := by
  have hname : recognizedConnectionString orders.text.toList = false := by decide
  exact (dumped_is_served (.asking orders)).mpr ⟨hname, orders.text, databaseOf_asking orders⟩

def maintenance : ClientSchema := ⟨"dbname=postgres", by decide⟩

/-- No job opens the database of this name: libpq is told to open `postgres`. -/
theorem maintenance_dumped_instead : ¬∀ (schema : ClientSchema) (client : Client schema),
    DumpedIsServed wb ⟨id, fun _ bytes ↦ bytes⟩ superuser ⟨id, fun _ _ ↦ rfl⟩
      ⟨fun _ ↦ false, fun _ ↦ false, fun _ _ ↦ false⟩ none schema client := by
  intro h
  have hdump := (h maintenance (.asking maintenance)).transferred _ (.dumpToServer 6433 [] (by decide))
  have huser := quotable_of_printable superuser.valid
  have hconnection : recognizedConnectionString maintenance.text.toList = true := by decide
  rw [Transfer.target_eq _ huser (quotable_of_printable maintenance.printable), Option.bind_some,
    Target.database_eq, if_pos hconnection] at hdump
  cases hdump

end PgVmPool
