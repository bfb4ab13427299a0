import Mathlib

namespace LossyUtf8

/-- How many bytes a character with this first byte takes; 0 where none has it. -/
def width (b : UInt8) : ℕ :=
  if b < 0x80 then 1
  else if b < 0xC2 then 0
  else if b < 0xE0 then 2
  else if b < 0xF0 then 3
  else if b < 0xF5 then 4
  else 0

def isCont (b : UInt8) : Bool := 0x80 ≤ b && b < 0xC0

/-- Which second bytes a first byte of width 3 or 4 goes with: overlong forms, surrogates and what is
past the last code point are left out. -/
def isSecond (b b₁ : UInt8) : Bool :=
  if b = 0xE0 then 0xA0 ≤ b₁ && b₁ < 0xC0
  else if b = 0xED then 0x80 ≤ b₁ && b₁ < 0xA0
  else if b = 0xF0 then 0x90 ≤ b₁ && b₁ < 0xC0
  else if b = 0xF4 then 0x80 ≤ b₁ && b₁ < 0x90
  else isCont b₁

def tail (b : UInt8) : ℕ := b.toNat % 64

def replacement : Char := '\uFFFD'

/-- The first character of `b :: rest`, and how many bytes of `rest` it takes. What cannot go on is one
replacement character for the bytes that could have begun a character. -/
def next (b : UInt8) (rest : List UInt8) : Char × ℕ :=
  let b₁ := rest.getD 0 0
  let b₂ := rest.getD 1 0
  let b₃ := rest.getD 2 0
  match width b with
  | 1 => (Char.ofNat b.toNat, 0)
  | 2 =>
    if !isCont b₁ then (replacement, 0)
    else (Char.ofNat (b.toNat % 32 * 64 + tail b₁), 1)
  | 3 =>
    if !isSecond b b₁ then (replacement, 0)
    else if !isCont b₂ then (replacement, 1)
    else (Char.ofNat (b.toNat % 16 * 4096 + tail b₁ * 64 + tail b₂), 2)
  | 4 =>
    if !isSecond b b₁ then (replacement, 0)
    else if !isCont b₂ then (replacement, 1)
    else if !isCont b₃ then (replacement, 2)
    else (Char.ofNat (b.toNat % 8 * 262144 + tail b₁ * 4096 + tail b₂ * 64 + tail b₃), 3)
  | _ => (replacement, 0)

def decode : List UInt8 → List Char
  | [] => []
  | b :: rest => (next b rest).1 :: decode (rest.drop (next b rest).2)
  termination_by bytes => bytes.length

def Ascii (c : Char) : Prop := c.toNat < 0x80

instance (c : Char) : Decidable (Ascii c) := inferInstanceAs (Decidable (c.toNat < 0x80))

theorem decode_nil : decode [] = [] := by rw [decode]

theorem decode_cons (b : UInt8) (rest : List UInt8) :
    decode (b :: rest) = (next b rest).1 :: decode (rest.drop (next b rest).2) := by rw [decode]

theorem decode_eq_nil_iff {bytes : List UInt8} : decode bytes = [] ↔ bytes = [] := by
  cases bytes with
  | nil => simp [decode_nil]
  | cons b rest => simp [decode_cons]

theorem next_ascii {b : UInt8} (hb : b < 0x80) (rest : List UInt8) :
    next b rest = (Char.ofNat b.toNat, 0) := by
  simp [next, width, hb]

theorem toNat_ofNat {n : ℕ} (hn : n < 0xD800 ∨ 0xDFFF < n ∧ n < 0x110000) : (Char.ofNat n).toNat = n := by
  rw [Char.toNat_ofNat, if_pos hn]

theorem toNat_replacement : replacement.toNat = 0xFFFD := rfl

theorem isCont_iff {b : UInt8} : isCont b = true ↔ 0x80 ≤ b.toNat ∧ b.toNat < 0xC0 := by
  simp [isCont, UInt8.le_iff_toNat_le, UInt8.lt_iff_toNat_lt]

theorem width_eq {b : UInt8} (hb : ¬b < 0x80) :
    width b = 0 ∨ width b = 2 ∧ 0xC2 ≤ b.toNat ∧ b.toNat < 0xE0 ∨
      width b = 3 ∧ 0xE0 ≤ b.toNat ∧ b.toNat < 0xF0 ∨ width b = 4 ∧ 0xF0 ≤ b.toNat ∧ b.toNat < 0xF5 := by
  unfold width
  simp only [UInt8.lt_iff_toNat_lt, UInt8.reduceToNat] at hb ⊢
  split_ifs <;> omega

theorem isSecond_bounds {b b₁ : UInt8} (h : isSecond b b₁ = true) :
    0x80 ≤ b₁.toNat ∧ b₁.toNat < 0xC0 ∧ (b.toNat = 0xE0 → 0xA0 ≤ b₁.toNat) ∧
      (b.toNat = 0xED → b₁.toNat < 0xA0) ∧ (b.toNat = 0xF0 → 0x90 ≤ b₁.toNat) ∧
      (b.toNat = 0xF4 → b₁.toNat < 0x90) := by
  unfold isSecond isCont at h
  simp only [← UInt8.toNat_inj, UInt8.le_iff_toNat_le, UInt8.lt_iff_toNat_lt, UInt8.reduceToNat] at h
  split_ifs at h <;> simp only [Bool.and_eq_true, decide_eq_true_eq] at h <;> omega

theorem not_ascii_ofNat {n : ℕ} (hle : 0x80 ≤ n) (hn : n < 0xD800 ∨ 0xDFFF < n ∧ n < 0x110000) :
    ¬Ascii (Char.ofNat n) := by
  rw [Ascii, toNat_ofNat hn]
  omega

theorem not_ascii_replacement : ¬Ascii replacement := by
  rw [Ascii, toNat_replacement]
  omega

/-- A byte that is no ASCII begins no ASCII character. -/
theorem not_ascii_next {b : UInt8} (hb : ¬b < 0x80) (rest : List UInt8) : ¬Ascii (next b rest).1 := by
  have htail : ∀ c : UInt8, tail c < 64 := fun c ↦ Nat.mod_lt _ (by omega)
  unfold next
  dsimp only
  obtain hw | ⟨hw, hlo, hhi⟩ | ⟨hw, hlo, hhi⟩ | ⟨hw, hlo, hhi⟩ := width_eq hb
  · simp only [hw]
    exact not_ascii_replacement
  · simp only [hw]
    split_ifs
    · exact not_ascii_replacement
    · have := htail (rest.getD 0 0)
      exact not_ascii_ofNat (by omega) (by omega)
  · simp only [hw]
    split_ifs with h₁
    · exact not_ascii_replacement
    · exact not_ascii_replacement
    · rw [Bool.not_eq_true, Bool.not_eq_false'] at h₁
      have hs := isSecond_bounds h₁
      have := htail (rest.getD 1 0)
      unfold tail at this ⊢
      exact not_ascii_ofNat (by omega) (by omega)
  · simp only [hw]
    split_ifs with h₁
    · exact not_ascii_replacement
    · exact not_ascii_replacement
    · exact not_ascii_replacement
    · rw [Bool.not_eq_true, Bool.not_eq_false'] at h₁
      have hs := isSecond_bounds h₁
      have := htail (rest.getD 1 0)
      have := htail (rest.getD 2 0)
      unfold tail at *
      exact not_ascii_ofNat (by omega) (by omega)

theorem decode_ascii {bytes : List UInt8} (h : ∀ b ∈ bytes, b < 0x80) :
    decode bytes = bytes.map fun b ↦ Char.ofNat b.toNat := by
  induction bytes with
  | nil => exact decode_nil
  | cons b rest ih =>
    rw [List.forall_mem_cons] at h
    rw [decode_cons, next_ascii h.1, List.drop_zero, ih h.2, List.map_cons]

theorem ascii_of_decode {bytes : List UInt8} (h : ∀ c ∈ decode bytes, Ascii c) : ∀ b ∈ bytes, b < 0x80 := by
  induction bytes with
  | nil => simp
  | cons b rest ih =>
    rw [decode_cons, List.forall_mem_cons] at h
    have hb : b < 0x80 := by
      by_contra hb
      exact not_ascii_next hb rest h.1
    rw [next_ascii hb, List.drop_zero] at h
    exact List.forall_mem_cons.mpr ⟨hb, ih h.2⟩

theorem ofNat_toNat_ascii {b : UInt8} (hb : b < 0x80) : (Char.ofNat b.toNat).toNat = b.toNat := by
  have : b.toNat < 0x80 := hb
  exact toNat_ofNat (by omega)

/-- An ASCII text is decoded from its own bytes only. -/
theorem decode_eq_iff {bytes : List UInt8} {text : List Char} (h : ∀ c ∈ text, Ascii c) :
    decode bytes = text ↔ bytes = text.map fun c ↦ UInt8.ofNat c.toNat := by
  constructor
  · rintro rfl
    have hb := ascii_of_decode h
    rw [decode_ascii hb, List.map_map, eq_comm]
    refine (List.map_congr_left fun b hmem ↦ ?_).trans (List.map_id bytes)
    rw [Function.comp_apply, ofNat_toNat_ascii (hb b hmem), UInt8.ofNat_toNat, id_eq]
  · rintro rfl
    have hto : ∀ c ∈ text, (UInt8.ofNat c.toNat).toNat = c.toNat := by
      intro c hc
      have hlt : c.toNat < 0x80 := h c hc
      rw [UInt8.toNat_ofNat', Nat.mod_eq_of_lt (by omega)]
    rw [decode_ascii, List.map_map]
    · refine (List.map_congr_left fun c hc ↦ ?_).trans (List.map_id text)
      rw [Function.comp_apply, hto c hc, Char.ofNat_toNat, id_eq]
    · intro b hb
      obtain ⟨c, hc, rfl⟩ := List.mem_map.mp hb
      rw [UInt8.lt_iff_toNat_lt, hto c hc]
      exact h c hc

theorem isCont_ascii {x : UInt8} (hx : x < 0x80) : isCont x = false := by
  rw [← Bool.not_eq_true, isCont_iff]
  have hlt : x.toNat < 0x80 := UInt8.lt_iff_toNat_lt.mp hx
  omega

theorem isSecond_ascii {x : UInt8} (hx : x < 0x80) (b : UInt8) : isSecond b x = false := by
  rw [← Bool.not_eq_true]
  intro h
  have hbounds := isSecond_bounds h
  have hlt : x.toNat < 0x80 := UInt8.lt_iff_toNat_lt.mp hx
  omega

/-- A character that has begun is over before an ASCII byte. -/
theorem next_append_ascii {x : UInt8} (hx : x < 0x80) (b : UInt8) (bytes rest : List UInt8) :
    next b (bytes ++ x :: rest) = next b bytes ∧ (next b bytes).2 ≤ bytes.length := by
  have hzero : (0 : UInt8) < 0x80 := by decide
  have hcont := isCont_ascii hx
  have hsecond := isSecond_ascii hx b
  have hcont₀ := isCont_ascii hzero
  have hsecond₀ := isSecond_ascii hzero b
  -- a byte that is missing is read as a zero, which goes no further than `x` does
  match bytes with
  | [] =>
    unfold next
    split <;> simp [hcont, hsecond, hcont₀, hsecond₀]
  | [b₁] =>
    unfold next
    simp only [List.singleton_append, List.getD_cons_zero, List.getD_cons_succ, List.getD_nil, hcont, hcont₀]
    split <;> (try split_ifs) <;> simp_all
  | [b₁, b₂] =>
    unfold next
    simp only [List.cons_append, List.nil_append, List.getD_cons_zero, List.getD_cons_succ, List.getD_nil, hcont,
      hcont₀]
    split <;> (try split_ifs) <;> simp_all
  | b₁ :: b₂ :: b₃ :: bytes =>
    unfold next
    simp only [List.cons_append, List.getD_cons_zero, List.getD_cons_succ]
    split <;> (try split_ifs) <;> simp_all

/-- What stands on either side of an ASCII byte is decoded by itself. -/
theorem decode_append_ascii {x : UInt8} (hx : x < 0x80) (bytes rest : List UInt8) :
    decode (bytes ++ x :: rest) = decode bytes ++ Char.ofNat x.toNat :: decode rest := by
  induction bytes using decode.induct with
  | case1 => rw [List.nil_append, decode_cons, next_ascii hx, decode_nil, List.drop_zero, List.nil_append]
  | case2 b bytes ih =>
    obtain ⟨heq, hle⟩ := next_append_ascii hx b bytes rest
    rw [List.cons_append, decode_cons, heq, List.drop_append_of_le_length hle, ih, decode_cons, List.cons_append]

theorem mem_decode_iff {x : UInt8} (hx : x < 0x80) {bytes : List UInt8} :
    Char.ofNat x.toNat ∈ decode bytes ↔ x ∈ bytes := by
  constructor
  · intro h
    induction bytes using decode.induct with
    | case1 => simp [decode_nil] at h
    | case2 b bytes ih =>
      rw [decode_cons, List.mem_cons] at h
      obtain h | h := h
      · have hb : b < 0x80 := by
          by_contra hb
          apply not_ascii_next hb bytes
          rw [← h, Ascii, ofNat_toNat_ascii hx]
          exact hx
        have hnat := congrArg Char.toNat h
        rw [next_ascii hb, ofNat_toNat_ascii hx, ofNat_toNat_ascii hb, UInt8.toNat_inj] at hnat
        exact hnat ▸ List.mem_cons_self
      · exact List.mem_cons_of_mem b (List.mem_of_mem_drop (ih h))
  · intro h
    obtain ⟨front, rest, rfl⟩ := List.append_of_mem h
    rw [decode_append_ascii hx]
    exact List.mem_append_right _ List.mem_cons_self

/-- An ASCII byte stands as often among the bytes as its character stands in the text. -/
theorem count_decode {x : UInt8} (hx : x < 0x80) (bytes : List UInt8) :
    (decode bytes).count (Char.ofNat x.toNat) = bytes.count x := by
  induction hn : bytes.length using Nat.strong_induction_on generalizing bytes with
  | _ n ih =>
    by_cases hmem : x ∈ bytes
    · obtain ⟨front, rest, rfl⟩ := List.append_of_mem hmem
      simp only [List.length_append, List.length_cons] at hn
      have hfront := ih front.length (by omega) front rfl
      have hrest := ih rest.length (by omega) rest rfl
      rw [decode_append_ascii hx, List.count_append, List.count_append, List.count_cons_self,
        List.count_cons_self, hfront, hrest]
    · rw [List.count_eq_zero_of_not_mem hmem]
      exact List.count_eq_zero_of_not_mem (mt (mem_decode_iff hx).mp hmem)

section Encoded

variable {b b₁ b₂ b₃ : UInt8}

theorem next_two (rest : List UInt8) (hb : 0xC2 ≤ b.toNat ∧ b.toNat < 0xE0)
    (h₁ : 0x80 ≤ b₁.toNat ∧ b₁.toNat < 0xC0) :
    next b (b₁ :: rest) = (Char.ofNat (b.toNat % 32 * 64 + tail b₁), 1) := by
  have hw : width b = 2 := by
    simp only [width, UInt8.lt_iff_toNat_lt, UInt8.reduceToNat]
    split_ifs <;> omega
  simp only [next, hw, List.getD_cons_zero, isCont_iff.mpr h₁, Bool.not_true, Bool.false_eq_true, if_false]

theorem isSecond_iff : isSecond b b₁ = true ↔
    0x80 ≤ b₁.toNat ∧ b₁.toNat < 0xC0 ∧
    (b.toNat = 0xE0 → 0xA0 ≤ b₁.toNat) ∧ (b.toNat = 0xED → b₁.toNat < 0xA0) ∧
      (b.toNat = 0xF0 → 0x90 ≤ b₁.toNat) ∧ (b.toNat = 0xF4 → b₁.toNat < 0x90) := by
  refine ⟨isSecond_bounds, fun h ↦ ?_⟩
  unfold isSecond isCont
  simp only [← UInt8.toNat_inj, UInt8.le_iff_toNat_le, UInt8.lt_iff_toNat_lt, UInt8.reduceToNat]
  split_ifs <;> simp only [Bool.and_eq_true, decide_eq_true_eq] <;> omega

theorem next_three (rest : List UInt8) (hb : 0xE0 ≤ b.toNat ∧ b.toNat < 0xF0) (h₁ : isSecond b b₁ = true)
    (h₂ : 0x80 ≤ b₂.toNat ∧ b₂.toNat < 0xC0) : next b (b₁ :: b₂ :: rest) =
      (Char.ofNat (b.toNat % 16 * 4096 + tail b₁ * 64 + tail b₂), 2) := by
  have hw : width b = 3 := by
    simp only [width, UInt8.lt_iff_toNat_lt, UInt8.reduceToNat]
    split_ifs <;> omega
  simp only [next, hw, List.getD_cons_zero, List.getD_cons_succ, h₁, isCont_iff.mpr h₂, Bool.not_true,
    Bool.false_eq_true, if_false]

theorem next_four (rest : List UInt8) (hb : 0xF0 ≤ b.toNat ∧ b.toNat < 0xF5) (h₁ : isSecond b b₁ = true)
    (h₂ : 0x80 ≤ b₂.toNat ∧ b₂.toNat < 0xC0) (h₃ : 0x80 ≤ b₃.toNat ∧ b₃.toNat < 0xC0) :
    next b (b₁ :: b₂ :: b₃ :: rest) =
      (Char.ofNat (b.toNat % 8 * 262144 + tail b₁ * 4096 + tail b₂ * 64 + tail b₃), 3) := by
  have hw : width b = 4 := by
    simp only [width, UInt8.lt_iff_toNat_lt, UInt8.reduceToNat]
    split_ifs <;> omega
  simp only [next, hw, List.getD_cons_zero, List.getD_cons_succ, h₁, isCont_iff.mpr h₂, isCont_iff.mpr h₃,
    Bool.not_true, Bool.false_eq_true, if_false]

/-- A character is read back from its own bytes, whatever follows. -/
theorem decode_utf8EncodeChar (c : Char) (rest : List UInt8) :
    decode (String.utf8EncodeChar c ++ rest) = c :: decode rest := by
  have hvalid : c.toNat < 0xD800 ∨ 0xDFFF < c.toNat ∧ c.toNat < 0x110000 := c.valid
  have hto : ∀ n < 256, (UInt8.ofNat n).toNat = n := fun n hn ↦ by rw [UInt8.toNat_ofNat', Nat.mod_eq_of_lt hn]
  have hread : ∀ n, n = c.toNat → Char.ofNat n = c := by
    rintro n rfl
    exact Char.ofNat_toNat c
  have hval : c.val.toNat = c.toNat := rfl
  simp only [String.utf8EncodeChar, hval]
  split_ifs with h₁ h₂ h₃
  · have hb : UInt8.ofNat c.toNat < 0x80 := by
      rw [UInt8.lt_iff_toNat_lt, hto _ (by omega)]
      exact Nat.lt_succ_of_le h₁
    rw [List.singleton_append, decode_cons, next_ascii hb, hto _ (by omega), Char.ofNat_toNat, List.drop_zero]
  · have hb := hto (c.toNat / 64 % 32 + 0xc0) (by omega)
    have hb₁ := hto (c.toNat % 64 + 0x80) (by omega)
    have hnext := next_two rest (by rw [hb]; omega) (by rw [hb₁]; omega)
    rw [List.cons_append, List.singleton_append, decode_cons, hnext, hread _ (by rw [tail, hb, hb₁]; omega),
      List.drop_one, List.tail_cons]
  · have hb := hto (c.toNat / 4096 % 16 + 0xe0) (by omega)
    have hb₁ := hto (c.toNat / 64 % 64 + 0x80) (by omega)
    have hb₂ := hto (c.toNat % 64 + 0x80) (by omega)
    have hsecond : isSecond (UInt8.ofNat (c.toNat / 4096 % 16 + 0xe0)) (UInt8.ofNat (c.toNat / 64 % 64 + 0x80)) =
        true := by
      rw [isSecond_iff, hb, hb₁]
      omega
    have hnext := next_three rest (by rw [hb]; omega) hsecond (by rw [hb₂]; omega)
    rw [List.cons_append, List.cons_append, List.singleton_append, decode_cons, hnext,
      hread _ (by rw [tail, tail, hb, hb₁, hb₂]; omega)]
    rfl
  · have hb := hto (c.toNat / 262144 % 8 + 0xf0) (by omega)
    have hb₁ := hto (c.toNat / 4096 % 64 + 0x80) (by omega)
    have hb₂ := hto (c.toNat / 64 % 64 + 0x80) (by omega)
    have hb₃ := hto (c.toNat % 64 + 0x80) (by omega)
    have hsecond : isSecond (UInt8.ofNat (c.toNat / 262144 % 8 + 0xf0)) (UInt8.ofNat (c.toNat / 4096 % 64 + 0x80)) =
        true := by
      rw [isSecond_iff, hb, hb₁]
      omega
    have hnext := next_four rest (by rw [hb]; omega) hsecond (by rw [hb₂]; omega) (by rw [hb₃]; omega)
    rw [List.cons_append, List.cons_append, List.cons_append, List.singleton_append, decode_cons, hnext,
      hread _ (by rw [tail, tail, tail, hb, hb₁, hb₂, hb₃]; omega)]
    rfl

theorem decode_encoded (text : List Char) : decode (text.flatMap String.utf8EncodeChar) = text := by
  induction text with
  | nil => exact decode_nil
  | cons c text ih => rw [List.flatMap_cons, decode_utf8EncodeChar, ih]

end Encoded
end LossyUtf8
