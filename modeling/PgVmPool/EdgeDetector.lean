import Mathlib

namespace EdgeDetector

inductive Edge
  | rising | falling
  deriving DecidableEq

def edge (level now : Bool) : Option Edge :=
  if now && !level then some .rising
  else if !now && level then some .falling
  else none

/-- The level behind some edges, which began low. -/
def levelAfter (edges : List Edge) : Bool := edges.getLast? = some .rising

def Alternates (edges : List Edge) : Prop :=
  edges.IsChain (· ≠ ·) ∧ ∀ e ∈ edges.head?, e = .rising

instance (edges : List Edge) : Decidable (Alternates edges) := inferInstanceAs (Decidable (_ ∧ _))

variable {edges : List Edge} {e : Edge}

theorem edge_self (level : Bool) : edge level level = none := by cases level <;> rfl

theorem alternates_nil : Alternates [] := ⟨List.isChain_nil, by simp⟩

theorem levelAfter_snoc (edges : List Edge) (e : Edge) :
    levelAfter (edges ++ [e]) = decide (e = .rising) := by
  simp [levelAfter]

theorem Alternates.snoc (h : Alternates edges) (he : e = .rising ↔ levelAfter edges = false) :
    Alternates (edges ++ [e]) := by
  constructor
  · refine h.1.append (List.isChain_singleton e) fun x hx y hy ↦ ?_
    obtain rfl : e = y := by simpa using hy
    rintro rfl
    have hx : edges.getLast? = some x := hx
    have hlevel : levelAfter edges = decide (x = .rising) := by simp [levelAfter, hx]
    rw [hlevel, decide_eq_false_iff_not] at he
    tauto
  · cases edges with
    | nil =>
      intro x hx
      obtain rfl : e = x := by simpa using hx
      exact he.mpr rfl
    | cons d edges => exact h.2

/-- A detector that compares with the level behind its own edges keeps them alternating, and the level
behind them is the one that it read last. -/
theorem Alternates.detect (h : Alternates edges) (now : Bool) :
    Alternates (edges ++ (edge (levelAfter edges) now).toList) ∧
      levelAfter (edges ++ (edge (levelAfter edges) now).toList) = now := by
  cases hlevel : levelAfter edges <;> cases now
  · simpa [edge, hlevel] using h
  · exact ⟨h.snoc (by simp [hlevel]), levelAfter_snoc edges .rising⟩
  · exact ⟨h.snoc (by simp [hlevel]), levelAfter_snoc edges .falling⟩
  · simpa [edge, hlevel] using h

end EdgeDetector
