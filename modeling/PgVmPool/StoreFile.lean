import PgVmPool.Store

namespace PgVmPool

/-- `str::lines`: a carriage return before the newline belongs to the line ending, and a final
newline starts no further line. -/
def lines (cs : List Char) : List (List Char) :=
  let pieces := cs.splitOn '\n'
  let stripCr (l : List Char) := if l.getLast? = some '\r' then l.dropLast else l
  pieces.dropLast.map stripCr ++ (pieces.getLast?.toList.filter (· ≠ []))

/-- `str::parse::<u64>`: an optional plus sign, at least one digit, no overflow. -/
def parseU64 (cs : List Char) : Option UInt64 :=
  let digits := if cs.head? = some '+' then cs.tail else cs
  let n := Nat.ofDigitChars 10 digits 0
  if digits ≠ [] ∧ digits.all (·.isDigit) = true ∧ n < 2 ^ 64 then some (UInt64.ofNat n) else none

def parseLine (now : UInt64) (line : List Char) : Option (Σ _ : Schema, StoreRecord) :=
  match line.splitOn '\t' with
  | schema :: id :: rest =>
    match Field.ofString? (String.ofList schema), Field.ofString? (String.ofList id) with
    | some schema, some id =>
      let lastActive := (rest.head?.bind parseU64).getD now
      let tier := Tier.parse ((rest[1]?.map String.ofList).getD "live")
      some ⟨schema, ⟨id, lastActive, tier⟩⟩
    | _, _ => none
  | _ => none

def collect (rows : List (Σ _ : Schema, StoreRecord)) (m : Rows) : Rows :=
  rows.foldl (fun m r ↦ m.insert r.1 r.2) m

def parse (s : String) (now : UInt64) : Rows :=
  collect ((lines s.toList).filterMap (parseLine now)) ∅

theorem parseU64_decimal (n : UInt64) : parseU64 (decimal n) = some n := by
  have hd : ∀ c ∈ decimal n, c.isDigit := fun c hc ↦
    Nat.isDigit_of_mem_toDigits (by decide) (by decide) hc
  have hplus : (decimal n).head? ≠ some '+' := by
    intro h
    have := hd '+' (List.mem_of_mem_head? h)
    exact absurd this (by decide)
  have hval : Nat.ofDigitChars 10 (decimal n) 0 = n.toNat := Nat.ofDigitChars_ten_toDigits
  simp only [parseU64, if_neg hplus, hval]
  rw [if_pos ⟨Nat.toDigits_ne_nil, List.all_eq_true.mpr hd, n.toNat_lt⟩, UInt64.ofNat_toNat]

theorem decimal_clean (n : UInt64) : ∀ c ∈ decimal n, c ≠ '\t' ∧ c ≠ '\n' := by
  intro c hc
  have h := Nat.isDigit_of_mem_toDigits (b := 10) (by decide) (by decide) hc
  constructor <;> (rintro rfl; exact absurd h (by decide))

theorem asStr_clean (t : Tier) : ∀ c ∈ t.asStr.toList, c ≠ '\t' ∧ c ≠ '\n' ∧ c ≠ '\r' := by
  cases t <;> simp [Tier.asStr]

def rowBody (row : Σ _ : Schema, StoreRecord) : List Char :=
  row.1.text.toList ++ '\t' :: (row.2.sandboxId.text.toList ++ '\t' ::
    (decimal row.2.lastActive ++ '\t' :: row.2.tier.asStr.toList))

theorem serializeRow_eq (row : Σ _ : Schema, StoreRecord) :
    serializeRow row = rowBody row ++ ['\n'] := by
  simp [serializeRow, rowBody]

theorem newline_notMem_rowBody (row : Σ _ : Schema, StoreRecord) : '\n' ∉ rowBody row := by
  intro h
  simp only [rowBody, List.mem_append, List.mem_cons] at h
  rcases h with h | h | h | h | h | h | h
  · exact (row.1.ne_of_mem h).2 rfl
  · exact absurd h (by decide)
  · exact (row.2.sandboxId.ne_of_mem h).2 rfl
  · exact absurd h (by decide)
  · exact (decimal_clean _ _ h).2 rfl
  · exact absurd h (by decide)
  · exact (asStr_clean _ _ h).2.1 rfl

theorem rowBody_getLast?_ne (row : Σ _ : Schema, StoreRecord) :
    (rowBody row).getLast? ≠ some '\r' := by
  have hne : row.2.tier.asStr.toList ≠ [] := by cases row.2.tier <;> decide
  have h : (rowBody row).getLast? = row.2.tier.asStr.toList.getLast? := by
    have hb : rowBody row = (row.1.text.toList ++ '\t' :: (row.2.sandboxId.text.toList ++ '\t' ::
        (decimal row.2.lastActive ++ ['\t']))) ++ row.2.tier.asStr.toList := by simp [rowBody]
    rw [hb, List.getLast?_append_of_ne_nil _ hne]
  rw [h]
  intro hr
  exact (asStr_clean _ _ (List.mem_of_getLast? hr)).2.2 rfl

section Lines

variable {α : Type}

theorem splitOn_flatMap_lines {f : α → List Char} {rows : List α} (hnl : ∀ r ∈ rows, '\n' ∉ f r) :
    (rows.flatMap fun r ↦ f r ++ ['\n']).splitOn '\n' = rows.map f ++ [[]] := by
  induction rows with
  | nil => rfl
  | cons row rows ih =>
    obtain ⟨hrow, hrows⟩ := List.forall_mem_cons.mp hnl
    rw [List.flatMap_cons, List.append_assoc, List.singleton_append, List.splitOn_append_cons_self,
      List.splitOn_eq_singleton hrow, ih hrows]
    rfl

/-- Rows without a newline in them, each ended by one, are the lines of the text. -/
theorem lines_flatMap {f : α → List Char} {rows : List α} (hnl : ∀ r ∈ rows, '\n' ∉ f r)
    (hcr : ∀ r ∈ rows, (f r).getLast? ≠ some '\r') :
    lines (rows.flatMap fun r ↦ f r ++ ['\n']) = rows.map f := by
  simp only [lines, splitOn_flatMap_lines hnl, List.dropLast_concat, List.getLast?_concat,
    Option.toList_some, List.map_map]
  rw [show List.filter (fun l : List Char ↦ decide (l ≠ [])) [[]] = [] from rfl, List.append_nil]
  apply List.map_congr_left
  intro row hrow
  simp only [Function.comp_apply, if_neg (hcr row hrow)]

/-- Rows read one after the other: with distinct keys, each key has its row. -/
theorem lookup_foldl_insert {κ β : Type} [DecidableEq κ] (rows : List (Σ _ : κ, β))
    (hrows : rows.NodupKeys) (m : AList fun _ : κ ↦ β) (k : κ) :
    (rows.foldl (fun m r ↦ m.insert r.1 r.2) m).lookup k = (rows.dlookup k).or (m.lookup k) := by
  induction rows generalizing m with
  | nil => rfl
  | cons row rows ih =>
    obtain ⟨k', r⟩ := row
    have hk := List.nodupKeys_cons.mp hrows
    rw [List.foldl_cons, ih hk.2]
    by_cases h : k = k'
    · subst h
      rw [List.dlookup_cons_eq, AList.lookup_insert, List.dlookup_eq_none.mpr hk.1]
      rfl
    · rw [List.dlookup_cons_ne _ _ h, AList.lookup_insert_ne h]

end Lines

theorem lines_flatMap_serializeRow (rows : List (Σ _ : Schema, StoreRecord)) :
    lines (rows.flatMap serializeRow) = rows.map rowBody := by
  have h := lines_flatMap (fun r (_ : r ∈ rows) ↦ newline_notMem_rowBody r)
    fun r _ ↦ rowBody_getLast?_ne r
  rwa [← funext serializeRow_eq] at h

theorem parseLine_rowBody (now : UInt64) (row : Σ _ : Schema, StoreRecord) :
    parseLine now (rowBody row) = some row := by
  have h1 : '\t' ∉ row.1.text.toList := fun h ↦ (row.1.ne_of_mem h).1 rfl
  have h2 : '\t' ∉ row.2.sandboxId.text.toList := fun h ↦ (row.2.sandboxId.ne_of_mem h).1 rfl
  have h3 : '\t' ∉ decimal row.2.lastActive := fun h ↦ (decimal_clean _ _ h).1 rfl
  have h4 : '\t' ∉ row.2.tier.asStr.toList := fun h ↦ (asStr_clean _ _ h).1 rfl
  have hs : (rowBody row).splitOn '\t' = [row.1.text.toList, row.2.sandboxId.text.toList,
      decimal row.2.lastActive, row.2.tier.asStr.toList] := by
    simp only [rowBody, List.splitOn_append_cons_self, List.splitOn_eq_singleton h1,
      List.splitOn_eq_singleton h2, List.splitOn_eq_singleton h3, List.splitOn_eq_singleton h4,
      List.singleton_append]
  simp [parseLine, hs, Field.ofString?_text, parseU64_decimal, Tier.parse_asStr]

section Columns

variable {α : Type} [DecidableEq α] {a : α} {xs piece : List α}

/-- The pieces of a split are made of what was split, without the separator. -/
theorem mem_of_mem_splitOn (h : piece ∈ xs.splitOn a) : ∀ c ∈ piece, c ∈ xs ∧ c ≠ a := by
  induction xs generalizing piece with
  | nil =>
    rw [List.splitOn_nil, List.mem_singleton] at h
    simp [h]
  | cons x xs ih =>
    rw [List.splitOn_cons_eq_if_modifyHead] at h
    split at h
    · rcases List.mem_cons.mp h with rfl | h
      · simp
      · exact fun c hc ↦ ⟨List.mem_cons_of_mem _ (ih h c hc).1, (ih h c hc).2⟩
    · rename_i hx
      obtain ⟨first, rest, hsplit⟩ := List.exists_cons_of_ne_nil (List.splitOn_ne_nil a xs)
      rw [hsplit, List.modifyHead_cons] at h
      intro c hc
      rcases List.mem_cons.mp h with rfl | h
      · rcases List.mem_cons.mp hc with rfl | hc
        · exact ⟨List.mem_cons_self, by simpa using hx⟩
        · have hfirst := ih (hsplit ▸ List.mem_cons_self) c hc
          exact ⟨List.mem_cons_of_mem _ hfirst.1, hfirst.2⟩
      · have hrest := ih (hsplit ▸ List.mem_cons_of_mem _ h) c hc
        exact ⟨List.mem_cons_of_mem _ hrest.1, hrest.2⟩

end Columns

theorem newline_notMem_of_mem_lines {cs line : List Char} (h : line ∈ lines cs) : '\n' ∉ line := by
  intro hn
  rcases List.mem_append.mp h with h | h
  · obtain ⟨piece, hpiece, rfl⟩ := List.mem_map.mp h
    have hmem : '\n' ∈ piece := by
      split at hn
      · exact List.mem_of_mem_dropLast hn
      · exact hn
    exact (mem_of_mem_splitOn (List.mem_of_mem_dropLast hpiece) _ hmem).2 rfl
  · obtain ⟨hlast, -⟩ := List.mem_filter.mp h
    have hlast := List.mem_of_getLast? (Option.mem_toList.mp hlast)
    exact (mem_of_mem_splitOn hlast _ hn).2 rfl

theorem parseLine_tier (line : List Char) (now now' : UInt64) :
    parseLine now line = none ∧ parseLine now' line = none ∨
      ∃ s r r', parseLine now line = some ⟨s, r⟩ ∧ parseLine now' line = some ⟨s, r'⟩ ∧
        r.tier = r'.tier := by
  unfold parseLine
  split
  · split
    · exact .inr ⟨_, _, _, rfl, rfl, rfl⟩
    · exact .inl ⟨rfl, rfl⟩
  · exact .inl ⟨rfl, rfl⟩

theorem parse_tier (file : String) (now now' : UInt64) (s : Schema) :
    ((parse file now).lookup s).map (·.tier) = ((parse file now').lookup s).map (·.tier) := by
  have hcollect (ls : List (List Char)) {m m' : Rows}
      (hm : (m.lookup s).map (·.tier) = (m'.lookup s).map (·.tier)) :
      ((collect (ls.filterMap (parseLine now)) m).lookup s).map (·.tier) =
        ((collect (ls.filterMap (parseLine now')) m').lookup s).map (·.tier) := by
    induction ls generalizing m m' with
    | nil => exact hm
    | cons line ls ih =>
      rcases parseLine_tier line now now' with ⟨hp, hp'⟩ | ⟨k, r, r', hp, hp', htier⟩
      · simpa only [List.filterMap_cons, hp, hp'] using ih hm
      · simp only [List.filterMap_cons, hp, hp']
        have hins : ((m.insert k r).lookup s).map (·.tier) = ((m'.insert k r').lookup s).map (·.tier) := by
          by_cases hk : s = k
          · subst hk
            simp [htier]
          · simpa only [AList.lookup_insert_ne hk] using hm
        exact ih hins
  exact hcollect _ rfl

/-- The rows of a map, written in any order, are read back as that map. -/
theorem lookup_parse_rows {map : Rows} {order : List (Σ _ : Schema, StoreRecord)}
    (horder : order.Perm map.entries) (now : UInt64) (s : Schema) :
    (parse (String.ofList (order.flatMap serializeRow)) now).lookup s = map.lookup s := by
  have hrows : (lines (order.flatMap serializeRow)).filterMap (parseLine now) = order := by
    rw [lines_flatMap_serializeRow, List.filterMap_map]
    have h : parseLine now ∘ rowBody = some := funext fun row ↦ parseLine_rowBody now row
    rw [h, List.filterMap_some]
  have hkeys : order.NodupKeys := (List.perm_nodupKeys horder).mpr map.nodupKeys
  rw [parse, String.toList_ofList, hrows, collect, lookup_foldl_insert _ hkeys, AList.lookup_empty,
    Option.or_none]
  exact List.perm_dlookup s hkeys horder

theorem lookup_parse_serialize (map : Rows) (now : UInt64) (s : Schema) :
    (parse (serialize map) now).lookup s = map.lookup s :=
  lookup_parse_rows (List.Perm.refl _) now s

/-- Whatever order a map's rows are written in, reading them gives the map; and what is read from any
text survives being written and read again. -/
theorem registry_file_round_trip :
    (∀ (map : Rows) (order : List (Σ _ : Schema, StoreRecord)), order.Perm map.entries →
      ∀ now s, (parse (String.ofList (order.flatMap serializeRow)) now).lookup s = map.lookup s) ∧
    ∀ (text : String) (now : UInt64) (order : List (Σ _ : Schema, StoreRecord)),
      order.Perm (parse text now).entries → ∀ now' s,
        (parse (String.ofList (order.flatMap serializeRow)) now').lookup s = (parse text now).lookup s := by
  constructor
  · intro map order horder now s
    exact lookup_parse_rows horder now s
  · intro text now order horder now' s
    exact lookup_parse_rows horder now' s

end PgVmPool
