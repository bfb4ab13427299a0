import PgVmPool.HostFiles
import PgVmPool.HostPath
import PgVmPool.StoreFile
import PgVmPool.Transition

namespace PgVmPool.Dedicated

open Function HostFiles HostPath Transition

/-- `char::is_whitespace`: Unicode's `White_Space`. -/
def isWhitespace (c : Char) : Bool :=
  let n := c.toNat
  (0x9 ≤ n && n ≤ 0xd) || n = 0x20 || n = 0x85 || n = 0xa0 || n = 0x1680 ||
    (0x2000 ≤ n && n ≤ 0x200a) || n = 0x2028 || n = 0x2029 || n = 0x202f || n = 0x205f || n = 0x3000

def trim (s : List Char) : List Char :=
  ((s.dropWhile isWhitespace).reverse.dropWhile isWhitespace).reverse

/-- A provisioned role and its password; the database is its key. -/
structure Credential where
  role : Field
  password : Field
  createdAt : UInt64
  deriving DecidableEq

abbrev Creds := AList (fun _ : Field ↦ Credential)

inductive CredError
  | nameRequired | nameTooLong | nameStart | nameChars | nameReserved
  | databaseReserved | roleReserved | passwordShort | passwordLong | passwordChars
  | alreadyProvisioned | tooMany | roleUsed (database : Field) | persist
  deriving DecidableEq

def maxRecords : ℕ := 512
def minPasswordLen : ℕ := 12
def maxPasswordLen : ℕ := 128
def reservedDatabases : List String := ["postgres", "template0", "template1"]
def reservedRoles : List String := ["postgres", "root"]

def isAsciiLower (c : Char) : Bool := 'a' ≤ c && c ≤ 'z'

/-- An identifier that passes every check can be written to the file as it is. -/
theorem identifier_storable {s : List Char} (hne : s ≠ [])
    (hall : s.all (fun c ↦ isAsciiLower c || c.isDigit || c = '_') = true) :
    String.ofList s ≠ "" ∧ (String.ofList s).toList.all (fun c ↦ c ≠ '\t' && c ≠ '\n') = true := by
  refine ⟨fun he ↦ hne ?_, ?_⟩
  · rw [← String.toList_ofList (l := s), he]
    rfl
  · rw [String.toList_ofList, List.all_eq_true]
    intro c hc
    have hclean := List.all_eq_true.mp hall c hc
    rw [Bool.and_eq_true, decide_eq_true_eq, decide_eq_true_eq]
    constructor <;> (rintro rfl; revert hclean; decide)

theorem password_storable {p : String} (hlen : minPasswordLen ≤ p.utf8ByteSize)
    (hall : p.toList.all (fun c ↦ '!' ≤ c && c ≤ '~') = true) :
    p ≠ "" ∧ p.toList.all (fun c ↦ c ≠ '\t' && c ≠ '\n') = true := by
  refine ⟨?_, List.all_eq_true.mpr fun c hc ↦ ?_⟩
  · rintro rfl
    exact absurd hlen (by decide)
  · have hclean := List.all_eq_true.mp hall c hc
    rw [Bool.and_eq_true, decide_eq_true_eq, decide_eq_true_eq]
    constructor <;> (rintro rfl; revert hclean; decide)

def validateIdentifier (raw : String) : Except CredError Field :=
  let s := trim raw.toList
  if hne : s = [] then .error .nameRequired
  else if 63 < (String.ofList s).utf8ByteSize then .error .nameTooLong
  else if !s.head?.all isAsciiLower then .error .nameStart
  else if hchars : ¬s.all (fun c ↦ isAsciiLower c || c.isDigit || c = '_') = true then .error .nameChars
  else if "pg_".toList.isPrefixOf s || "spare".toList.isPrefixOf s then .error .nameReserved
  else .ok ⟨String.ofList s, (identifier_storable hne (not_not.mp hchars)).1,
    (identifier_storable hne (not_not.mp hchars)).2⟩

def validatePassword (p : String) : Except CredError Field :=
  if hshort : p.utf8ByteSize < minPasswordLen then .error .passwordShort
  else if maxPasswordLen < p.utf8ByteSize then .error .passwordLong
  else if hchars : ¬p.toList.all (fun c ↦ '!' ≤ c && c ≤ '~') = true then .error .passwordChars
  else .ok ⟨p, (password_storable (Nat.not_lt.mp hshort) (not_not.mp hchars)).1,
    (password_storable (Nat.not_lt.mp hshort) (not_not.mp hchars)).2⟩

namespace Creds

def byRole (m : Creds) (role : Field) : Option Field :=
  (m.entries.find? fun r ↦ r.2.role = role).map (·.1)

/-- The checks of `Credentials::create` and its insert under the lock. -/
def create (m : Creds) (database role password : String) (now : UInt64) :
    Except CredError (Field × Credential) := do
  let database ← validateIdentifier database
  let role ← validateIdentifier role
  if database.text ∈ reservedDatabases then throw .databaseReserved
  if role.text ∈ reservedRoles then throw .roleReserved
  let password ← validatePassword password
  if database ∈ m then throw .alreadyProvisioned
  if maxRecords ≤ m.entries.length then throw .tooMany
  match m.byRole role with
  | some other => throw (.roleUsed other)
  | none => pure (database, ⟨role, password, now⟩)

theorem create_ok {m : Creds} {database role password : String} {now : UInt64} {r : Field × Credential}
    (h : create m database role password now = .ok r) : r.1 ∉ m ∧ m.byRole r.2.role = none := by
  simp only [create, bind, Except.bind, pure, Except.pure, throw, throwThe, MonadExceptOf.throw] at h
  repeat' split at h
  all_goals cases h
  exact ⟨‹_›, ‹_›⟩

end Creds

def credRow (row : Σ _ : Field, Credential) : List Char :=
  row.1.text.toList ++ '\t' :: (row.2.role.text.toList ++ '\t' ::
    (row.2.password.text.toList ++ '\t' :: decimal row.2.createdAt))

def serialize (m : Creds) : List Char :=
  (m.entries.insertionSort fun a b ↦ a.1.text ≤ b.1.text).flatMap fun r ↦ credRow r ++ ['\n']

def parseLine (line : List Char) : Option (Σ _ : Field, Credential) :=
  match line.splitOn '\t' with
  | database :: role :: password :: rest =>
    match Field.ofString? (String.ofList database), Field.ofString? (String.ofList role),
      Field.ofString? (String.ofList password) with
    | some database, some role, some password =>
      some ⟨database, ⟨role, password, (rest.head?.bind parseU64).getD 0⟩⟩
    | _, _, _ => none
  | _ => none

def parse (text : List Char) : Creds :=
  (((lines text).filter fun l ↦ !l.all isWhitespace).filterMap parseLine).foldl
    (fun m r ↦ m.insert r.1 r.2) ∅

section RoundTrip

variable (row : Σ _ : Field, Credential)

theorem newline_notMem_credRow : '\n' ∉ credRow row := by
  intro h
  simp only [credRow, List.mem_append, List.mem_cons] at h
  rcases h with h | h | h | h | h | h | h
  · exact (row.1.ne_of_mem h).2 rfl
  · exact absurd h (by decide)
  · exact (row.2.role.ne_of_mem h).2 rfl
  · exact absurd h (by decide)
  · exact (row.2.password.ne_of_mem h).2 rfl
  · exact absurd h (by decide)
  · exact (decimal_clean _ _ h).2 rfl

theorem decimal_getLast?_digit (n : UInt64) : ∃ c, (decimal n).getLast? = some c ∧ c.isDigit = true := by
  have hne : decimal n ≠ [] := Nat.toDigits_ne_nil
  refine ⟨(decimal n).getLast hne, List.getLast?_eq_some_getLast hne, ?_⟩
  exact Nat.isDigit_of_mem_toDigits (by decide) (by decide) (List.getLast_mem hne)

theorem credRow_getLast? : (credRow row).getLast? = (decimal row.2.createdAt).getLast? := by
  have hb : credRow row = (row.1.text.toList ++ '\t' :: (row.2.role.text.toList ++ '\t' ::
      (row.2.password.text.toList ++ ['\t']))) ++ decimal row.2.createdAt := by simp [credRow]
  have hne : decimal row.2.createdAt ≠ [] := Nat.toDigits_ne_nil
  rw [hb, List.getLast?_append_of_ne_nil _ hne]

theorem credRow_getLast?_ne : (credRow row).getLast? ≠ some '\r' := by
  obtain ⟨c, hc, hd⟩ := decimal_getLast?_digit row.2.createdAt
  rw [credRow_getLast?, hc]
  intro h
  obtain rfl := Option.some_inj.mp h
  exact absurd hd (by decide)

theorem credRow_not_blank : (!(credRow row).all isWhitespace) = true := by
  obtain ⟨c, hc, hd⟩ := decimal_getLast?_digit row.2.createdAt
  have hmem : c ∈ credRow row := List.mem_of_getLast? ((credRow_getLast? row).trans hc)
  rw [Bool.not_eq_true', List.all_eq_false]
  refine ⟨c, hmem, ?_⟩
  simp only [Char.isDigit, Bool.and_eq_true, decide_eq_true_eq, ge_iff_le, UInt32.le_iff_toNat_le] at hd
  have hlo : 48 ≤ c.toNat := hd.1
  have hhi : c.toNat ≤ 57 := hd.2
  simp only [isWhitespace, Bool.or_eq_true, Bool.and_eq_true, decide_eq_true_eq]
  omega

theorem parseLine_credRow : parseLine (credRow row) = some row := by
  have h1 : '\t' ∉ row.1.text.toList := fun h ↦ (row.1.ne_of_mem h).1 rfl
  have h2 : '\t' ∉ row.2.role.text.toList := fun h ↦ (row.2.role.ne_of_mem h).1 rfl
  have h3 : '\t' ∉ row.2.password.text.toList := fun h ↦ (row.2.password.ne_of_mem h).1 rfl
  have h4 : '\t' ∉ decimal row.2.createdAt := fun h ↦ (decimal_clean _ _ h).1 rfl
  have hs : (credRow row).splitOn '\t' = [row.1.text.toList, row.2.role.text.toList,
      row.2.password.text.toList, decimal row.2.createdAt] := by
    simp only [credRow, List.splitOn_append_cons_self, List.splitOn_eq_singleton h1,
      List.splitOn_eq_singleton h2, List.splitOn_eq_singleton h3, List.splitOn_eq_singleton h4,
      List.singleton_append]
  simp [parseLine, hs, Field.ofString?_text, parseU64_decimal]

/-- What a restart loads is the map whose snapshot was written. -/
theorem lookup_parse_serialize (m : Creds) (database : Field) :
    (parse (serialize m)).lookup database = m.lookup database := by
  set rows := m.entries.insertionSort fun a b ↦ a.1.text ≤ b.1.text with hrows
  have hperm : rows.Perm m.entries := List.perm_insertionSort _ _
  have hlines : lines (serialize m) = rows.map credRow :=
    lines_flatMap (fun r _ ↦ newline_notMem_credRow r) fun r _ ↦ credRow_getLast?_ne r
  have hfilter : (rows.map credRow).filter (fun l ↦ !l.all isWhitespace) = rows.map credRow := by
    refine List.filter_eq_self.mpr fun l hl ↦ ?_
    obtain ⟨r, -, rfl⟩ := List.mem_map.mp hl
    exact credRow_not_blank r
  have hparse : (rows.map credRow).filterMap parseLine = rows := by
    rw [List.filterMap_map]
    have h : parseLine ∘ credRow = some := funext parseLine_credRow
    rw [h, List.filterMap_some]
  have hnodup : rows.NodupKeys := (List.perm_nodupKeys hperm).mpr m.nodupKeys
  rw [parse, hlines, hfilter, hparse, lookup_foldl_insert _ hnodup, AList.lookup_empty, Option.or_none]
  exact List.perm_dlookup _ hnodup hperm

end RoundTrip

inductive Change
  | put (database : Field) (c : Credential)
  | del (database : Field)
  deriving DecidableEq

namespace Change

def database : Change → Field
  | .put database _ | .del database => database

def apply : Change → Creds → Creds
  | .put database c, m => m.insert database c
  | .del database, m => m.erase database

def isPut : Change → Bool
  | .put _ _ => true
  | .del _ => false

end Change

inductive Call
  | create (database role password : String)
  | remove (database : String)
  deriving DecidableEq

inductive Outcome
  | created (database : Field) (c : Credential)
  | removed (was : Bool)
  | err (e : CredError)
  deriving DecidableEq

/-- What a call carries from its locked section to its end. `before` is history: the record of
its database in the map and in the file when it took the lock. -/
structure Ticket where
  change : Change
  snapshot : List Char
  before : Option Credential × Option Credential
  deriving DecidableEq

inductive Pc
  | start
  | opening (t : Ticket)
  | writing (t : Ticket) (file : ℕ) (rest : List Char)
  | syncing (t : Ticket) (file : ℕ)
  | chmodding (t : Ticket) (file : ℕ)
  | moving (t : Ticket) (file : ℕ)
  | rollback (t : Ticket)
  | done (o : Outcome)
  deriving DecidableEq

/-- `log` and `written` are history: the changes of the map in the order of the lock, and how many
of them have reached the file. -/
structure CredState where
  map : Creds
  files : Files (List Char) Char
  calls : List (Call × Pc)
  log : List (ℕ × Change)
  written : ℕ

inductive Event
  | ok (now : UInt64) | wrote (n : ℕ) | fail

inductive Action
  | call (c : Call)
  | act (i : ℕ) (e : Event)

def tmpOf (path : List Char) : List Char := withExtension path "tmp".toList

def rowsOf (path : List Char) (files : Files (List Char) Char) : Creds :=
  ((files.read path).map parse).getD ∅

def CredState.load (path : List Char) (files : Files (List Char) Char) : CredState :=
  ⟨rowsOf path files, files, [], [], 0⟩

namespace CredState

variable (path : List Char)

/-- The locked section: the change, the snapshot of the changed map. -/
def locked (st : CredState) (i : ℕ) (change : Change) : CredState × Pc :=
  let map := change.apply st.map
  let before := (st.map.lookup change.database, (rowsOf path st.files).lookup change.database)
  ({ st with map, log := st.log ++ [(i, change)] }, .opening ⟨change, serialize map, before⟩)

def start (st : CredState) (i : ℕ) (now : UInt64) : Call → CredState × Pc
  | .create database role password =>
    match Creds.create st.map database role password now with
    | .error e => (st, .done (.err e))
    | .ok (database, c) => st.locked path i (.put database c)
  | .remove database =>
    match Field.ofString? database with
    | none => (st, .done (.removed false))
    | some database =>
      if database ∈ st.map then st.locked path i (.del database) else (st, .done (.removed false))

/-- Only `create` takes its change back when the write fails. -/
def failed (t : Ticket) : Pc :=
  match t.change with
  | .put _ _ => .rollback t
  | .del _ => .done (.err .persist)

def succeeded (t : Ticket) : Pc :=
  match t.change with
  | .put database c => .done (.created database c)
  | .del _ => .done (.removed true)

/-- A call's locked section, then `write_atomic`. -/
def callStep (st : CredState) (i : ℕ) (c : Call) : Pc → Event → Option (CredState × Pc)
  | .start, .ok now => some (st.start path i now c)
  | .opening t, .ok _ =>
    let made := st.files.create (tmpOf path)
    some ({ st with files := made.2 }, .writing t made.1 t.snapshot)
  | .writing t file rest, .wrote n =>
    if 0 < n ∧ n ≤ rest.length then
      some ({ st with files := st.files.write file (t.snapshot.length - rest.length) (rest.take n) },
        .writing t file (rest.drop n))
    else none
  | .writing t file rest, .ok _ => if rest = [] then some (st, .syncing t file) else none
  | .syncing t file, .ok _ => some (st, .chmodding t file)
  | .chmodding t file, .ok _ => some (st, .moving t file)
  | .moving t _, .ok _ =>
    match st.files.rename (tmpOf path) path with
    | some files => some ({ st with files, written := st.written + 1 }, succeeded t)
    | none => some (st, failed t)
  | .opening t, .fail | .writing t _ _, .fail | .syncing t _, .fail | .chmodding t _, .fail
  | .moving t _, .fail => some (st, failed t)
  | .rollback t, .ok _ =>
    some ({ st with map := st.map.erase t.change.database, log := st.log.filter (·.1 ≠ i) },
      .done (.err .persist))
  | _, _ => none

end CredState

def credStep (path : List Char) : Action → CredState → Option CredState
  | .call c, st => some { st with calls := st.calls ++ [(c, .start)] }
  | .act i e, st =>
    (st.calls[i]?).bind fun x ↦ (st.callStep path i x.1 x.2 e).map fun r ↦
      { r.1 with calls := st.calls.set i (x.1, r.2) }

namespace Pc

def ticket : Pc → Option Ticket
  | .opening t | .writing t _ _ | .syncing t _ | .chmodding t _ | .moving t _ | .rollback t => some t
  | .start | .done _ => none

def file : Pc → Option (ℕ × List Char)
  | .writing _ f rest => some (f, rest)
  | .syncing _ f | .chmodding _ f | .moving _ f => some (f, [])
  | .start | .opening _ | .rollback _ | .done _ => none

def isRollback : Pc → Bool
  | .rollback _ => true
  | _ => false

def ended : Pc → Bool
  | .done _ => true
  | _ => false

end Pc

namespace CredState

/-- No failed `create` is still to take its change back. -/
def Settled (st : CredState) : Prop := ∀ x ∈ st.calls, x.2.isRollback = false

instance (st : CredState) : Decidable st.Settled :=
  inferInstanceAs (Decidable (∀ x ∈ st.calls, x.2.isRollback = false))

/-- The oldest change that is not in the file. -/
def next (st : CredState) : Option (ℕ × Change) := st.log[st.written]?

def pending (st : CredState) : List (ℕ × Change) := st.log.drop st.written

def LockOk (st : CredState) (now : UInt64) : Call → Prop
  | .create database role password =>
    (Creds.create st.map database role password now).isOk = true → st.Settled
  | .remove database => (Field.ofString? database).any (· ∈ st.map) = true → st.Settled

/-- The write that fails is a `create`'s, no change was made after it, and the file neither has a
record of its database nor is about to get one. -/
def FailOk (st : CredState) (i : ℕ) (t : Ticket) : Prop :=
  t.change.isPut = true ∧ t.before.2 = none ∧ st.pending.getLast? = some (i, t.change) ∧
    ∀ e ∈ st.pending.dropLast, e.2.database ≠ t.change.database

def StepOk (st : CredState) (i : ℕ) (c : Call) : Pc → Event → Prop
  | .start, .ok now => st.LockOk now c
  | .opening t, .ok _ => st.next = some (i, t.change)
  | .opening t, .fail | .writing t _ _, .fail | .syncing t _, .fail | .chmodding t _, .fail
  | .moving t _, .fail => st.FailOk i t
  | _, _ => True

instance (st : CredState) (now : UInt64) : ∀ c : Call, Decidable (st.LockOk now c)
  | .create database role password =>
    inferInstanceAs (Decidable
      ((Creds.create st.map database role password now).isOk = true → st.Settled))
  | .remove database =>
    inferInstanceAs (Decidable ((Field.ofString? database).any (· ∈ st.map) = true → st.Settled))

instance (st : CredState) (i : ℕ) (t : Ticket) : Decidable (st.FailOk i t) :=
  inferInstanceAs (Decidable (t.change.isPut = true ∧ t.before.2 = none ∧
    st.pending.getLast? = some (i, t.change) ∧
      ∀ e ∈ st.pending.dropLast, e.2.database ≠ t.change.database))

instance (st : CredState) (i : ℕ) (c : Call) : ∀ (pc : Pc) (e : Event), Decidable (st.StepOk i c pc e)
  | .start, .ok now => inferInstanceAs (Decidable (st.LockOk now c))
  | .opening t, .ok _ => inferInstanceAs (Decidable (st.next = some (i, t.change)))
  | .opening t, .fail | .writing t _ _, .fail | .syncing t _, .fail | .chmodding t _, .fail
  | .moving t _, .fail => inferInstanceAs (Decidable (st.FailOk i t))
  | .start, .wrote _ | .start, .fail | .opening _, .wrote _ | .writing _ _ _, .ok _
  | .writing _ _ _, .wrote _ | .syncing _ _, .ok _ | .syncing _ _, .wrote _ | .chmodding _ _, .ok _
  | .chmodding _ _, .wrote _ | .moving _ _, .ok _ | .moving _ _, .wrote _ | .rollback _, _
  | .done _, _ => isTrue trivial

/-- `parse(file)` is the map. -/
def Agrees (path : List Char) (st : CredState) : Prop :=
  ∀ database, (rowsOf path st.files).lookup database = st.map.lookup database

/-- A credential whose `create` returned `Ok` and that no `remove` took back is in the map and in the
file, and when no call is in flight these two agree. -/
structure Durable (path : List Char) (st : CredState) : Prop where
  kept : ∀ (i : ℕ) (call : Call) database c, st.calls[i]? = some (call, Pc.done (.created database c)) →
    ∃ before after, st.log = before ++ (i, .put database c) :: after ∧
      ((∀ e ∈ after, e.2 ≠ .del database) → st.map.lookup database = some c ∧
        (rowsOf path st.files).lookup database = some c)
  idle : (∀ x ∈ st.calls, x.2.ended = true) → st.Agrees path

end CredState

/-- The changes of the map reach the file in order and one at a time, and a write that fails leaves
no other change with the failed one in its snapshot. -/
def Orderly (st : CredState) : Action → Prop
  | .call _ => True
  | .act i e => ∀ x ∈ st.calls[i]?, st.StepOk i x.1 x.2 e

instance (st : CredState) : ∀ l : Action, Decidable (Orderly st l)
  | .call _ => isTrue trivial
  | .act i e => inferInstanceAs (Decidable (∀ x ∈ st.calls[i]?, st.StepOk i x.1 x.2 e))

/-- A call that returns `Err` leaves the record of its database as it was. -/
def Undone (path : List Char) (st st' : CredState) : Prop :=
  ∀ (i : ℕ) (call : Call) (pc : Pc) (e : CredError), st.calls[i]? = some (call, pc) → pc.ended = false →
    st'.calls[i]? = some (call, Pc.done (.err e)) →
      pc.ticket = none ∧ st'.map = st.map ∧ st'.files = st.files ∨
        ∃ t, pc.ticket = some t ∧ st'.map.lookup t.change.database = t.before.1 ∧
          (rowsOf path st'.files).lookup t.change.database = t.before.2

end PgVmPool.Dedicated
