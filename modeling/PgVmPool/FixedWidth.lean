import Mathlib

namespace FixedWidth

theorem append_lt_append_of_lt {α : Type} [LT α] {l l' : List α} (hlen : l.length = l'.length) (h : l < l')
    (x y : List α) : l ++ x < l' ++ y := by
  induction h with
  | nil => cases hlen
  | cons _ ih => exact .cons (ih (Nat.succ_injective hlen))
  | rel hlt => exact .rel hlt

/-- The last `w` decimal digits of a number. -/
def numeral : ℕ → ℕ → List Char
  | 0, _ => []
  | w + 1, n => numeral w (n / 10) ++ [Nat.digitChar (n % 10)]

theorem length_numeral (w n : ℕ) : (numeral w n).length = w := by
  induction w generalizing n with
  | zero => rfl
  | succ w ih => rw [numeral, List.length_append, ih, List.length_singleton]

theorem numeral_zero (w : ℕ) : numeral w 0 = List.replicate w '0' := by
  induction w with
  | zero => rfl
  | succ w ih =>
    rw [numeral, Nat.zero_div, ih, List.replicate_succ']
    rfl

theorem leftpad_toDigits {w n : ℕ} (hw : 0 < w) (h : n < 10 ^ w) :
    (Nat.toDigits 10 n).leftpad w '0' = numeral w n := by
  induction w generalizing n with
  | zero => cases hw
  | succ w ih =>
    rcases lt_or_ge n 10 with hn | hn
    · rw [Nat.toDigits_of_lt_base hn, numeral, Nat.div_eq_of_lt hn, numeral_zero, Nat.mod_eq_of_lt hn,
        List.leftpad, List.length_singleton, Nat.add_sub_cancel]
    · have hdiv : n / 10 < 10 ^ w := Nat.div_lt_of_lt_mul (by rwa [← pow_succ'])
      have hpos : 0 < w := by
        refine Nat.pos_of_ne_zero fun hzero ↦ ?_
        rw [hzero] at hdiv
        omega
      rw [Nat.toDigits_of_base_le (by decide) hn, numeral, ← ih hpos hdiv, List.leftpad, List.leftpad,
        List.length_append, List.length_singleton, Nat.add_sub_add_right, List.append_assoc]

theorem digitChar_lt {a b : ℕ} (h : a < b) (hb : b < 10) : Nat.digitChar a < Nat.digitChar b := by
  have hall : ∀ b < 10, ∀ a < b, Nat.digitChar a < Nat.digitChar b := by decide
  exact hall b hb a h

/-- Numerals of one width are ordered as texts as the numbers are. -/
theorem numeral_lt_numeral {w m n : ℕ} (h : m < n) (hn : n < 10 ^ w) : numeral w m < numeral w n := by
  induction w generalizing m n with
  | zero => omega
  | succ w ih =>
    have hlen : (numeral w (m / 10)).length = (numeral w (n / 10)).length := by
      rw [length_numeral, length_numeral]
    have hdiv : n / 10 < 10 ^ w := Nat.div_lt_of_lt_mul (by rwa [← pow_succ'])
    rcases (Nat.div_le_div_right h.le : m / 10 ≤ n / 10).lt_or_eq with hlt | heq
    · exact append_lt_append_of_lt hlen (ih hlt hdiv) _ _
    · rw [numeral, numeral, heq]
      refine List.append_left_lt (.rel (digitChar_lt ?_ (Nat.mod_lt _ (by decide))))
      omega

end FixedWidth
