import PgVmPool.SnapshotFile
import PgVmPool.HostPath
import PgVmPool.StoreFile

namespace PgVmPool.Pending

open HostFiles HostPath SnapshotFile Transition

/-- One column of a line: it may be empty. -/
abbrev Column := { t : List Char // '\t' ∉ t ∧ '\n' ∉ t }

def column? (t : List Char) : Option Column := if h : '\t' ∉ t ∧ '\n' ∉ t then some ⟨t, h⟩ else none

/-- The sandbox that a create was given, and when. -/
structure Entry where
  id : Column
  started : UInt64
  deriving DecidableEq

/-- By schema. A hash map has no order of its own. -/
abbrev Entries := Finmap fun _ : Column ↦ Entry

inductive Change
  | record (schema id : Column) (now : UInt64)
  | clear (schema : Column)
  deriving DecidableEq

namespace Change

def schema : Change → Column
  | .record schema _ _ | .clear schema => schema

/-- What the ledger has of the schema then. -/
def entry : Change → Option Entry
  | .record _ id now => some ⟨id, now⟩
  | .clear _ => none

/-- `clear` of what is absent writes nothing. -/
def act : Change → Entries → Option Entries
  | .record schema id now, entries => some (entries.insert schema ⟨id, now⟩)
  | .clear schema, entries => if schema ∈ entries then some (entries.erase schema) else none

end Change

def row (r : Σ _ : Column, Entry) : List Char :=
  r.1.1 ++ '\t' :: (r.2.id.1 ++ '\t' :: decimal r.2.started)

/-- The snapshot of `persist`, in the order in which the map gave its entries. -/
def snapshot (entries : Entries) (order : List (Σ _ : Column, Entry)) : Option (List Char) :=
  if (order : Multiset (Σ _ : Column, Entry)) = entries.entries then
    some (order.flatMap fun r ↦ row r ++ ['\n'])
  else none

def parseLine (line : List Char) : Option (Σ _ : Column, Entry) :=
  match line.splitOn '\t' with
  | schema :: id :: ts :: _ =>
    match column? schema, column? id, parseU64 ts with
    | some schema, some id, some ts => some ⟨schema, id, ts⟩
    | _, _, _ => none
  | _ => none

/-- What `init` reads of the file; no file is an empty ledger. -/
def init (file : Option (List Char)) : Entries :=
  ((lines (file.getD [])).filterMap parseLine).foldl (fun entries r ↦ entries.insert r.1 r.2) ∅

def get (entries : Entries) (schema : Column) : Option Column := (entries.lookup schema).map (·.id)

def stale (entries : Entries) (now minAge : ℕ) : Multiset (Column × Column) :=
  (entries.entries.filter fun r ↦ r.2.started.toNat ≤ now - minAge).map fun r ↦ (r.1, r.2.id)

section RoundTrip

variable (r : Σ _ : Column, Entry)

theorem newline_notMem_row : '\n' ∉ row r := by
  intro h
  simp only [row, List.mem_append, List.mem_cons] at h
  obtain h | h | h | h | h := h
  · exact r.1.2.2 h
  · cases h
  · exact r.2.id.2.2 h
  · cases h
  · exact (decimal_clean _ _ h).2 rfl

theorem row_getLast?_ne : (row r).getLast? ≠ some '\r' := by
  have hrow : row r = (r.1.1 ++ '\t' :: (r.2.id.1 ++ ['\t'])) ++ decimal r.2.started := by simp [row]
  have hne : decimal r.2.started ≠ [] := Nat.toDigits_ne_nil
  rw [hrow, List.getLast?_append_of_ne_nil _ hne]
  intro h
  have hdigit := Nat.isDigit_of_mem_toDigits (b := 10) (by decide) (by decide) (List.mem_of_getLast? h)
  exact absurd hdigit (by decide)

theorem parseLine_row : parseLine (row r) = some r := by
  have hts : '\t' ∉ decimal r.2.started := fun h ↦ (decimal_clean _ _ h).1 rfl
  have hsplit : (row r).splitOn '\t' = [r.1.1, r.2.id.1, decimal r.2.started] := by
    simp only [row, List.splitOn_append_cons_self, List.splitOn_eq_singleton r.1.2.1,
      List.splitOn_eq_singleton r.2.id.2.1, List.splitOn_eq_singleton hts, List.singleton_append]
  rw [parseLine, hsplit]
  dsimp only
  rw [column?, dif_pos r.1.2, column?, dif_pos r.2.id.2, parseU64_decimal]

theorem foldl_insert (rows : List (Σ _ : Column, Entry)) (entries : AList fun _ : Column ↦ Entry) :
    rows.foldl (fun entries r ↦ entries.insert r.1 r.2) entries.toFinmap =
      (rows.foldl (fun entries r ↦ entries.insert r.1 r.2) entries).toFinmap := by
  induction rows generalizing entries with
  | nil => rfl
  | cons r rows ih =>
    rw [List.foldl_cons, List.foldl_cons, Finmap.insert_toFinmap, ih]

theorem init_snapshot {entries : Entries} {order : List (Σ _ : Column, Entry)} {text : List Char}
    (h : snapshot entries order = some text) : init (some text) = entries := by
  obtain ⟨horder, rfl⟩ : (order : Multiset (Σ _ : Column, Entry)) = entries.entries ∧
      order.flatMap (fun r ↦ row r ++ ['\n']) = text := by
    unfold snapshot at h
    split at h
    · exact ⟨‹_›, Option.some_inj.mp h⟩
    · cases h
  have hnodup : order.NodupKeys := by
    rw [← Multiset.coe_nodupKeys, horder]
    exact entries.nodupKeys
  have hlines : lines (order.flatMap fun r ↦ row r ++ ['\n']) = order.map row :=
    lines_flatMap (fun r _ ↦ newline_notMem_row r) fun r _ ↦ row_getLast?_ne r
  have hparse : (order.map row).filterMap parseLine = order := by
    rw [List.filterMap_map]
    have hid : parseLine ∘ row = some := funext parseLine_row
    rw [hid, List.filterMap_some]
  have hentries : entries = (⟨order, hnodup⟩ : AList fun _ : Column ↦ Entry).toFinmap :=
    Finmap.ext horder.symm
  rw [init, Option.getD_some, hlines, hparse, hentries]
  apply Finmap.ext_lookup
  intro schema
  refine (congrArg _ (foldl_insert order ∅)).trans ?_
  rw [Finmap.lookup_toFinmap, lookup_foldl_insert order hnodup, AList.lookup_empty, Option.or_none]
  rfl

end RoundTrip

def ledger : Format Entries Change (List (Σ _ : Column, Entry)) Char := ⟨Change.act, snapshot, init, init_snapshot⟩

def ledgerFile (dir : List Char) : List Char := join dir "pending-bringups.tsv".toList

def tmpOf (path : List Char) : List Char := withExtension path "tsv.tmp".toList

abbrev Ledger := State (List Char) Entries Change Char

/-- `record`s and `clear`s as they are called, and what becomes of each `persist`; the process may end at any
point, and the next one begins with `init`. -/
def ledgerStep (dir : List Char) : Action Change (List (Σ _ : Column, Entry)) → Ledger → Option Ledger :=
  step ledger (ledgerFile dir) (tmpOf (ledgerFile dir))

def Ledger.load (dir : List Char) (files : Files (List Char) Char) : Ledger := State.init ledger (ledgerFile dir) files

/-- What the next process would begin with if this one ended now. -/
def Ledger.left (dir : List Char) (st : Ledger) : Entries := init (st.files.read (ledgerFile dir))

structure Ledger.Survives (dir : List Char) (files : Files (List Char) Char) (st : Ledger) : Prop where
  untorn : ∃ n ≤ st.log.length, st.left dir = ledger.replay (init (files.read (ledgerFile dir))) (st.log.take n)
  kept : ∀ (i : ℕ) (change : Change) (k : ℕ), st.calls[i]? = some (change, .done (.written k)) →
    st.log[k]? = some change ∧ ((∀ e ∈ st.log.drop (k + 1), e.schema ≠ change.schema) →
      (st.left dir).lookup change.schema = change.entry ∧ st.value.lookup change.schema = change.entry)
  found : ∀ (i : ℕ) (schema id : Column) (started : UInt64) (k : ℕ),
    st.calls[i]? = some (.record schema id started, .done (.written k)) →
    (∀ e ∈ st.log.drop (k + 1), e.schema ≠ schema) → get (st.left dir) schema = some id ∧
      ∀ now minAge, started.toNat ≤ now - minAge → (schema, id) ∈ stale (st.left dir) now minAge
  settled : (∀ x ∈ st.calls, x.2.ended = true) → (∀ x ∈ st.calls, x.2.outcome ≠ some .failed) →
    st.left dir = st.value

variable {dir : List Char} {files : Files (List Char) Char} {st : Ledger}

theorem ledgerFile_ne_tmpOf (dir : List Char) : ledgerFile dir ≠ tmpOf (ledgerFile dir) := by
  have hname : "pending-bringups.tsv".toList = "pending-bringups".toList ++ '.' :: "tsv".toList := by decide
  have hpath : ledgerFile dir = join dir "pending-bringups".toList ++ '.' :: "tsv".toList := by
    rw [ledgerFile, hname, join_append (by decide)]
  rw [tmpOf, hpath, withExtension_append (join_ne_nil (by decide)) ?_ (by decide) (by decide) (by decide)
    (by decide) (by decide)]
  · intro h
    have h := List.append_cancel_left h
    exact absurd h (by decide)
  · rw [getLast?_join (by decide)]
    decide

namespace Change

theorem lookup_apply (change : Change) (entries : Entries) :
    (ledger.apply entries change).lookup change.schema = change.entry := by
  cases change with
  | record schema id now => exact Finmap.lookup_insert entries
  | clear schema =>
    rw [Format.apply]
    change ((if schema ∈ entries then some (entries.erase schema) else none).getD entries).lookup schema = none
    split_ifs with h
    · exact Finmap.lookup_erase schema entries
    · exact Finmap.lookup_eq_none.mpr h

theorem lookup_apply_ne {change : Change} {schema : Column} (h : change.schema ≠ schema) (entries : Entries) :
    (ledger.apply entries change).lookup schema = entries.lookup schema := by
  cases change with
  | record schema' id now => exact Finmap.lookup_insert_of_ne entries (Ne.symm h)
  | clear schema' =>
    rw [Format.apply]
    change ((if schema' ∈ entries then some (entries.erase schema') else none).getD entries).lookup schema = _
    split_ifs with hmem
    · exact Finmap.lookup_erase_ne (Ne.symm h)
    · rfl

end Change

theorem lookup_replay {entries : Entries} {log : List Change} {k : ℕ} {change : Change}
    (hk : log[k]? = some change) (hlater : ∀ e ∈ log.drop (k + 1), e.schema ≠ change.schema) :
    (ledger.replay entries log).lookup change.schema = change.entry :=
  ledger.replay_keeps (fun entries ↦ entries.lookup change.schema) hk change.lookup_apply
    fun e he ↦ Change.lookup_apply_ne (hlater e he)

theorem mem_stale {entries : Entries} {schema : Column} {e : Entry} {now minAge : ℕ}
    (h : entries.lookup schema = some e) (hold : e.started.toNat ≤ now - minAge) :
    (schema, e.id) ∈ stale entries now minAge := by
  have hmem : (⟨schema, e⟩ : Σ _ : Column, Entry) ∈ entries.entries := by
    induction entries using Finmap.induction_on with
    | _ entries => exact List.of_mem_dlookup h
  exact Multiset.mem_map.mpr ⟨⟨schema, e⟩, Multiset.mem_filter.mpr ⟨hmem, hold⟩, rfl⟩

/-- Wherever a process ends, the next one finds every create whose record was written and is still the last
word on its schema. -/
theorem ledger_survives (h : Run (ledgerStep dir) (fun _ _ ↦ True) (.load dir files) st) :
    st.Survives dir files := by
  have hinv := Inv.of_run (ledgerFile_ne_tmpOf dir) h
  have hkept : ∀ (i : ℕ) (change : Change) (k : ℕ), st.calls[i]? = some (change, .done (.written k)) →
      st.log[k]? = some change ∧ ((∀ e ∈ st.log.drop (k + 1), e.schema ≠ change.schema) →
        (st.left dir).lookup change.schema = change.entry ∧ st.value.lookup change.schema = change.entry) := by
    intro i change k hi
    obtain ⟨hfile, hlog⟩ := hinv.file_written hi
    refine ⟨hlog, fun hlater ↦ ⟨?_, ?_⟩⟩
    · refine (congrArg _ hinv.file).trans (lookup_replay hfile fun e he ↦ hlater e ?_)
      rw [List.drop_take] at he
      exact List.mem_of_mem_take he
    · rw [hinv.value]
      exact lookup_replay hlog hlater
  refine ⟨⟨st.written, hinv.bound, hinv.file⟩, hkept, ?_, hinv.file_settled⟩
  intro i schema id started k hi hlater
  have hlast := ((hkept i _ k hi).2 hlater).1
  refine ⟨?_, fun now minAge hold ↦ mem_stale hlast hold⟩
  exact congrArg (Option.map (·.id)) hlast

def orders : Column := ⟨"orders".toList, by decide⟩

def sandbox : Column := ⟨"sb-1".toList, by decide⟩

def recorded : List (Action Change (List (Σ _ : Column, Entry))) :=
  [.call (.record orders sandbox 7), .step 0 .go, .step 0 .go, .step 0 (.render [⟨orders, sandbox, 7⟩]),
    .step 0 .go, .step 0 (.wrote 14), .step 0 .go, .step 0 .go, .restart]

theorem ledger_survives_recorded : ∃ st : Ledger,
    Run (ledgerStep ['d']) (fun _ _ ↦ True) (.load ['d'] .empty) st ∧
      st.calls = [(.record orders sandbox 7, .done (.written 0))] ∧ st.Survives ['d'] .empty := by
  have hended : (exec (ledgerStep ['d']) recorded (.load ['d'] .empty)).any (fun st ↦
      decide (st.calls = [(.record orders sandbox 7, .done (.written 0))])) = true := by rfl
  obtain ⟨st, hexec, hcalls⟩ := (Option.any_eq_true _ _).mp hended
  have hrun : Run (ledgerStep ['d']) (fun _ _ ↦ True) (.load ['d'] .empty) st :=
    .of_exec_true hexec fun _ _ ↦ trivial
  exact ⟨st, hrun, of_decide_eq_true hcalls, ledger_survives hrun⟩

end PgVmPool.Pending
