import Mathlib

namespace Transducer

variable {σ α β γ : Type}

/-- What a machine writes while it reads a text, and the state it is left in. A machine that cannot
read a letter stops for good. -/
def run (step : σ → α → Option (List β × σ)) : σ → List α → Option (List β × σ)
  | s, [] => some ([], s)
  | s, a :: as =>
    (step s a).bind fun r ↦ (run step r.2 as).map fun q ↦ (r.1 ++ q.1, q.2)

variable {step : σ → α → Option (List β × σ)} {s t u : σ} {a : α} {as bs : List α} {out more : List β}

theorem run_nil (step : σ → α → Option (List β × σ)) (s : σ) : run step s [] = some ([], s) := rfl

theorem run_cons_silent (h : step s a = some ([], t)) : run step s (a :: as) = run step t as := by
  simp only [run, h, Option.bind_some, List.nil_append]
  cases run step t as <;> rfl

theorem run_cons (h : step s a = some (out, t)) (hrest : run step t as = some (more, u)) :
    run step s (a :: as) = some (out ++ more, u) := by
  simp only [run, h, hrest, Option.bind_some, Option.map_some]

theorem run_append (h : run step s as = some (out, t)) (hrest : run step t bs = some (more, u)) :
    run step s (as ++ bs) = some (out ++ more, u) := by
  induction as generalizing s out with
  | nil =>
    obtain ⟨rfl, rfl⟩ := Prod.mk.inj (Option.some.inj h)
    exact hrest
  | cons a as ih =>
    obtain ⟨⟨out₁, s₁⟩, hstep, h⟩ := Option.bind_eq_some_iff.mp h
    obtain ⟨⟨out₂, s₂⟩, hrun, h⟩ := Option.map_eq_some_iff.mp h
    obtain ⟨rfl, rfl⟩ := Prod.mk.inj h
    rw [List.append_assoc]
    exact run_cons hstep (ih hrun)

theorem run_append_silent (h : run step s as = some ([], t)) : run step s (as ++ bs) = run step t bs := by
  induction as generalizing s with
  | nil =>
    obtain ⟨-, rfl⟩ := Prod.mk.inj (Option.some.inj h)
    rfl
  | cons a as ih =>
    obtain ⟨⟨out₁, s₁⟩, hstep, h⟩ := Option.bind_eq_some_iff.mp h
    obtain ⟨⟨out₂, s₂⟩, hrun, h⟩ := Option.map_eq_some_iff.mp h
    obtain ⟨hnil, rfl⟩ := Prod.mk.inj h
    obtain ⟨rfl, rfl⟩ := List.append_eq_nil_iff.mp hnil
    rw [List.cons_append, run_cons_silent hstep, ih hrun]

/-- An encoding is read back letter by letter: where the code of `x` takes the state of what was read
so far to the state with `x` behind it, the code of a text adds the text. -/
theorem run_flatMap {code : γ → List α} {ys : List γ} (state : List γ → σ)
    (h : ∀ y ∈ ys, ∀ xs, run step (state xs) (code y) = some ([], state (xs ++ [y]))) (xs : List γ) :
    run step (state xs) (ys.flatMap code) = some ([], state (xs ++ ys)) := by
  induction ys generalizing xs with
  | nil => rw [List.flatMap_nil, List.append_nil, run_nil]
  | cons y ys ih =>
    have hy := h y List.mem_cons_self xs
    rw [List.flatMap_cons, run_append_silent hy, ih fun z hz ↦ h z (List.mem_cons_of_mem y hz)]
    rw [List.append_assoc, List.singleton_append]

end Transducer
