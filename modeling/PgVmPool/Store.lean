import Mathlib

namespace PgVmPool

/-- One column of the registry file: never empty, never a tab or a newline. Schema names are
checked upstream for control characters and the daemon mints `sb-…` ids. -/
structure Field where
  text : String
  nonempty : text ≠ ""
  clean : text.toList.all (fun c ↦ c ≠ '\t' && c ≠ '\n') = true
  deriving DecidableEq

instance : Inhabited Field := ⟨⟨"sb-", by decide, by decide⟩⟩

def Field.ofString? (s : String) : Option Field :=
  if h : s ≠ "" ∧ s.toList.all (fun c ↦ c ≠ '\t' && c ≠ '\n') = true then some ⟨s, h.1, h.2⟩ else none

theorem Field.ne_of_mem (f : Field) {c : Char} (hc : c ∈ f.text.toList) : c ≠ '\t' ∧ c ≠ '\n' := by
  simpa using List.all_eq_true.mp f.clean c hc

theorem Field.ofString?_text (f : Field) : Field.ofString? f.text = some f := by
  rw [Field.ofString?, dif_pos ⟨f.nonempty, f.clean⟩]

theorem Field.text_inj {f g : Field} (h : f.text = g.text) : f = g := by
  cases f
  cases g
  cases h
  rfl

abbrev Schema := Field
abbrev SandboxId := Field

inductive Tier
  | live | compacted | frozen | archived
  deriving DecidableEq, Repr

structure StoreRecord where
  sandboxId : SandboxId
  lastActive : UInt64
  tier : Tier
  deriving DecidableEq

def StoreRecord.offloaded (r : StoreRecord) : Bool := r.tier ≠ .live

abbrev Rows := AList (fun _ : Schema ↦ StoreRecord)

def Tier.asStr : Tier → String
  | .live => "live"
  | .compacted => "compacted"
  | .frozen => "frozen"
  | .archived => "archived"

def Tier.parse (s : String) : Tier :=
  if s = "archived" then .archived else if s = "frozen" then .frozen
  else if s = "compacted" then .compacted else .live

theorem Tier.parse_asStr (t : Tier) : Tier.parse t.asStr = t := by cases t <;> decide

/-- Decimal digits of a `u64`, most significant first. -/
def decimal (n : UInt64) : List Char := Nat.toDigits 10 n.toNat

def serializeRow (row : Σ _ : Schema, StoreRecord) : List Char :=
  row.1.text.toList ++ '\t' :: (row.2.sandboxId.text.toList ++ '\t' ::
    (decimal row.2.lastActive ++ '\t' :: (row.2.tier.asStr.toList ++ ['\n'])))

def serialize (map : Rows) : String := String.ofList (map.entries.flatMap serializeRow)

/-- The registry of `store.rs`. `file` is what is on disk, `queue` the writes handed to the
blocking pool and not yet run. `stamped` is history only: generation `g` is its `g`-th snapshot. -/
structure Store where
  map : Rows
  seq : ℕ
  written : ℕ
  dirty : Bool
  file : String
  queue : List (ℕ × String)
  stamped : List Rows

def adoptedId (schema : Schema) : SandboxId where
  text := "pending-restore-" ++ schema.text
  nonempty h := by simpa using congrArg String.toList h
  clean := by
    rw [String.toList_append, List.all_append, Bool.and_eq_true]
    exact ⟨by decide, schema.clean⟩

namespace Store

def record (st : Store) (schema : Schema) : Option StoreRecord := st.map.lookup schema

def tierOf (st : Store) (schema : Schema) : Option Tier := (st.record schema).map (·.tier)

def idOf (st : Store) (s : Schema) : Option SandboxId := (st.record s).map (·.sandboxId)

def records (st : Store) : List (Schema × StoreRecord) := st.map.entries.map fun r ↦ (r.1, r.2)

def boundIds (st : Store) : List SandboxId := st.records.map fun r ↦ r.2.sandboxId

/-- Replace the map and stamp its snapshot with the next generation. -/
def stamp (st : Store) (map : Rows) : Store :=
  { st with map, seq := st.seq + 1, stamped := st.stamped ++ [map] }

def writeDetached (st : Store) : Store :=
  { st with queue := st.queue ++ [(st.seq, serialize st.map)] }

def put (st : Store) (schema : Schema) (id : SandboxId) (now : UInt64) : Store :=
  match st.record schema with
  | some r =>
    if r.sandboxId = id ∧ r.tier = .live then
      { st with map := st.map.insert schema { r with lastActive := now }, dirty := true }
    else (st.stamp (st.map.insert schema ⟨id, now, .live⟩)).writeDetached
  | none => (st.stamp (st.map.insert schema ⟨id, now, .live⟩)).writeDetached

def touch (st : Store) (schema : Schema) (now : UInt64) : Store :=
  match st.record schema with
  | some r => { st with map := st.map.insert schema { r with lastActive := now }, dirty := true }
  | none => st

def flushDirty (st : Store) : Store :=
  if st.dirty then { st.stamp st.map with dirty := false }.writeDetached else st

/-- The part of `set_tier` under the map lock: `none` when there is no row to move. -/
def setTier (st : Store) (schema : Schema) (tier : Tier) : Option Store :=
  (st.record schema).map fun r ↦ st.stamp (st.map.insert schema { r with tier })

/-- The part of `adopt_archived` under the map lock: the row is repaired, or invented. -/
def adoptArchived (st : Store) (schema : Schema) (now : UInt64) : Store :=
  let prev := st.record schema
  let id := (prev.map (·.sandboxId)).getD (adoptedId schema)
  let lastActive := (prev.map (·.lastActive)).getD now
  st.stamp (st.map.insert schema ⟨id, lastActive, .archived⟩)

/-- Write generation `g` unless a newer one is on disk; `ok` is the outcome of `write_atomic`. -/
def writeLatest (st : Store) (g : ℕ) (contents : String) (ok : Bool) : Store :=
  if g ≤ st.written then st
  else if ok then { st with file := contents, written := g } else st

section Rows

variable {st st' : Store} {s r : Schema}

theorem tierOf_touch (st : Store) (s r : Schema) (now : UInt64) :
    (st.touch s now).tierOf r = st.tierOf r := by
  unfold touch
  split
  · rename_i rec hrec
    by_cases hr : r = s
    · subst hr
      simp only [tierOf, record] at hrec ⊢
      simp [hrec]
    · simp [tierOf, record, AList.lookup_insert_ne hr]
  · rfl

theorem tierOf_put (st : Store) (s : Schema) (id : SandboxId) (now : UInt64) :
    (st.put s id now).tierOf s = some .live := by
  unfold put
  split
  · split
    · rename_i h
      simp [tierOf, record, h.2]
    · simp [tierOf, record, stamp, writeDetached]
  · simp [tierOf, record, stamp, writeDetached]

theorem record_touch_ne (h : r ≠ s) (now : UInt64) : (st.touch s now).record r = st.record r := by
  unfold touch
  split
  · exact AList.lookup_insert_ne h
  · rfl

theorem record_put_ne (h : r ≠ s) (id : SandboxId) (now : UInt64) :
    (st.put s id now).record r = st.record r := by
  unfold put
  split
  · split <;> exact AList.lookup_insert_ne h
  · exact AList.lookup_insert_ne h

theorem tierOf_put_ne (h : r ≠ s) (id : SandboxId) (now : UInt64) :
    (st.put s id now).tierOf r = st.tierOf r := by
  rw [tierOf, record_put_ne h, tierOf]

theorem tierOf_setTier {tier : Tier} (h : st.setTier s tier = some st') :
    st'.tierOf s = some tier := by
  obtain ⟨rec, -, rfl⟩ := Option.map_eq_some_iff.mp h
  simp [tierOf, record, stamp]

theorem record_setTier_ne {tier : Tier} (h : st.setTier s tier = some st') (hr : r ≠ s) :
    st'.record r = st.record r := by
  obtain ⟨rec, -, rfl⟩ := Option.map_eq_some_iff.mp h
  exact AList.lookup_insert_ne hr

theorem tierOf_setTier_ne {tier : Tier} (h : st.setTier s tier = some st') (hr : r ≠ s) :
    st'.tierOf r = st.tierOf r := by
  rw [tierOf, record_setTier_ne h hr, tierOf]

theorem tierOf_of_map (h : st'.map = st.map) (s : Schema) : st'.tierOf s = st.tierOf s := by
  simp [tierOf, record, h]

theorem idOf_touch (st : Store) (s : Schema) (now : UInt64) : (st.touch s now).idOf s = st.idOf s := by
  unfold touch
  split
  · rename_i r hr
    have hrow : st.map.lookup s = some r := hr
    simp [idOf, record, hrow]
  · rfl

theorem idOf_put (st : Store) (s : Schema) (id : SandboxId) (now : UInt64) :
    (st.put s id now).idOf s = some id := by
  unfold put
  split
  · split
    · rename_i h
      simp [idOf, record, h.1]
    · simp [idOf, record, stamp, writeDetached]
  · simp [idOf, record, stamp, writeDetached]

theorem idOf_setTier {tier : Tier} (h : st.setTier s tier = some st') :
    st'.idOf s = st.idOf s := by
  obtain ⟨rec, hrec, rfl⟩ := Option.map_eq_some_iff.mp h
  have hrow : st.map.lookup s = some rec := hrec
  simp [idOf, record, stamp, hrow]

theorem mem_records {r : StoreRecord} :
    (s, r) ∈ st.records ↔ st.record s = some r := by
  simp only [records, List.mem_map, record]
  constructor
  · rintro ⟨⟨s', r'⟩, hmem, heq⟩
    cases heq
    exact AList.mem_lookup_iff.mpr hmem
  · intro h
    exact ⟨⟨s, r⟩, AList.mem_lookup_iff.mp h, rfl⟩

theorem mem_boundIds {id : SandboxId} : id ∈ st.boundIds ↔ ∃ s, st.idOf s = some id := by
  simp only [boundIds, List.mem_map, idOf, Option.map_eq_some_iff]
  constructor
  · rintro ⟨⟨s, r⟩, hr, hid⟩
    exact ⟨s, r, mem_records.mp hr, hid⟩
  · rintro ⟨s, r, hr, hid⟩
    exact ⟨(s, r), mem_records.mpr hr, hid⟩

theorem idOf_of_map (h : st'.map = st.map) (s : Schema) : st'.idOf s = st.idOf s := by
  simp [idOf, record, h]

end Rows

end Store

end PgVmPool
