import PgVmPool.LossyUtf8
import PgVmPool.Uri

namespace FormQuery

open Uri

/-- A hexadecimal digit of either case. -/
def hexAny (c : Char) : Option ℕ := hexValue c.toUpper

/-- The bytes of a text with escapes in it; what is no escape stands as it is. -/
def percentDecode : Text → List UInt8
  | '%' :: a :: b :: t =>
    match hexAny a, hexAny b with
    | some x, some y => UInt8.ofNat (16 * x + y) :: percentDecode t
    | _, _ => String.utf8EncodeChar '%' ++ percentDecode (a :: b :: t)
  | c :: t => String.utf8EncodeChar c ++ percentDecode t
  | [] => []

def plusToSpace (t : Text) : Text := t.map fun c ↦ if c = '+' then ' ' else c

def text (t : Text) : Text := LossyUtf8.decode (percentDecode (plusToSpace t))

/-- The fields of a query; those without a letter are none. -/
def pairs (query : Text) : List (Text × Text) :=
  ((query.splitOn '&').filter (· ≠ [])).map fun field ↦
    (text (field.takeWhile (· ≠ '=')), text ((field.dropWhile (· ≠ '=')).drop 1))

/-- One that reads queries: fields apart at each `&`, a name from its value at the first `=`, and what is
percent-encoded as what it encodes. -/
structure Reader where
  pairs : Text → List (Text × Text)
  text : Text → Text
  text_of_decode : ∀ {t s : Text}, decode false t = some (bytes s) → text t = s
  pairs_fields : ∀ {fields : List (Text × Text)}, (∀ f ∈ fields, '=' ∉ f.1 ∧ '&' ∉ f.1 ∧ '&' ∉ f.2) →
    pairs (['&'].intercalate (fields.map fun f ↦ f.1 ++ '=' :: f.2)) = fields.map fun f ↦ (text f.1, text f.2)

section Decode

variable {t : Text} {bs : List UInt8}

theorem hexAny_of_hexValue {c : Char} {n : ℕ} (h : hexValue c = some n) : hexAny c = some n := by
  have hmem : c ∈ hexDigits := by
    rw [← List.isSome_idxOf?, ← hexValue, h]
    rfl
  have hupper : ∀ c ∈ hexDigits, c.toUpper = c := by
    simp [hexDigits]
  rw [hexAny, hupper c hmem, h]

theorem percentDecode_plain {c : Char} (hc : plain false c = true) (t : Text) :
    percentDecode (c :: t) = UInt8.ofNat c.toNat :: percentDecode t := by
  have hbyte : String.utf8EncodeChar c = [UInt8.ofNat c.toNat] :=
    if_pos (Nat.le_of_lt_succ (toNat_lt_of_plain hc))
  rw [percentDecode, hbyte, List.singleton_append]
  rintro _ _ _ rfl
  rw [plain_percent] at hc
  cases hc

theorem percentDecode_of_decode (h : decode false t = some bs) : percentDecode t = bs := by
  induction t using decode.induct false generalizing bs with
  | case1 =>
    cases h
    rfl
  | case2 a b t ih =>
    simp only [decode, Option.bind_eq_bind, Option.bind_eq_some_iff, Option.pure_def] at h
    obtain ⟨x, hx, y, hy, rest, hrest, heq⟩ := h
    cases heq
    rw [percentDecode, hexAny_of_hexValue hx, hexAny_of_hexValue hy, ih hrest]
  | case3 c t hc hplain ih =>
    rw [decode_plain hplain] at h
    obtain ⟨rest, hrest, rfl⟩ := Option.map_eq_some_iff.mp h
    rw [percentDecode_plain hplain, ih hrest]
  | case4 c t hc hplain =>
    rw [decode, if_neg hplain] at h
    · cases h
    · exact hc

theorem text_of_decode {s : Text} (h : decode false t = some (bytes s)) : text t = s := by
  have hplus : plusToSpace t = t := by
    refine (List.map_congr_left fun c hc ↦ ?_).trans (List.map_id t)
    apply if_neg
    rintro rfl
    obtain h | h := mem_of_decode h hc
    · exact absurd h (by decide)
    · exact absurd h (by decide)
  rw [text, hplus, percentDecode_of_decode h, bytes, LossyUtf8.decode_encoded]

theorem decode_unreserved (h : ∀ c ∈ t, unreserved c = true) : decode false t = some (bytes t) := by
  induction t with
  | nil => rfl
  | cons c t ih =>
    rw [List.forall_mem_cons] at h
    have hplain : plain false c = true := by rw [plain, h.1, Bool.true_or]
    have hbyte : String.utf8EncodeChar c = [UInt8.ofNat c.toNat] :=
      if_pos (Nat.le_of_lt_succ (toNat_lt_of_plain hplain))
    have hbytes : bytes (c :: t) = UInt8.ofNat c.toNat :: bytes t := by
      rw [bytes, List.flatMap_cons, hbyte]
      rfl
    rw [decode_plain hplain, ih h.2, Option.map_some, hbytes]

theorem Reader.text_unreserved (r : Reader) (h : ∀ c ∈ t, unreserved c = true) : r.text t = t :=
  r.text_of_decode (decode_unreserved h)

/-- A query that is put together of encoded fields is read as what they encode. -/
theorem pairs_intercalate {fields : List (Text × Text)}
    (h : ∀ f ∈ fields, '=' ∉ f.1 ∧ '&' ∉ f.1 ∧ '&' ∉ f.2) :
    pairs (['&'].intercalate (fields.map fun f ↦ f.1 ++ '=' :: f.2)) =
      fields.map fun f ↦ (text f.1, text f.2) := by
  obtain rfl | hne := eq_or_ne fields []
  · rfl
  have hsplit : (['&'].intercalate (fields.map fun f ↦ f.1 ++ '=' :: f.2)).splitOn '&' =
      fields.map fun f ↦ f.1 ++ '=' :: f.2 := by
    apply List.splitOn_intercalate
    · intro field hfield
      obtain ⟨f, hf, rfl⟩ := List.mem_map.mp hfield
      simp [h f hf]
    · simpa using hne
  have hkept : (fields.map fun f ↦ f.1 ++ '=' :: f.2).filter (· ≠ []) =
      fields.map fun f ↦ f.1 ++ '=' :: f.2 := by
    rw [List.filter_eq_self]
    intro field hfield
    obtain ⟨f, -, rfl⟩ := List.mem_map.mp hfield
    simp
  rw [pairs, hsplit, hkept, List.map_map]
  apply List.map_congr_left
  intro f hf
  have hname : ∀ c ∈ f.1, decide (c ≠ '=') = true := by
    intro c hc
    apply decide_eq_true
    rintro rfl
    exact (h f hf).1 hc
  rw [Function.comp_apply, List.takeWhile_append_of_pos hname, List.dropWhile_append_of_pos hname]
  simp

def reader : Reader := ⟨pairs, text, text_of_decode, pairs_intercalate⟩

end Decode

end FormQuery
