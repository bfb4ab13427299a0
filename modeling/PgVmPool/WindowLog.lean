import Mathlib

namespace WindowLog

open scoped List

variable {α : Type} {p : α → Bool} {old : α → α → Bool} {cap : ℕ} {l log : List α}

/-- A queue that takes an element in at the back: what is too old for it goes first, and then what is too
many for the queue. -/
def push (old : α → α → Bool) (cap : ℕ) (log : List α) (x : α) : List α :=
  let log := log.dropWhile (old x)
  log.drop (log.length + 1 - cap) ++ [x]

theorem push_sublist (old : α → α → Bool) (cap : ℕ) (log : List α) (x : α) :
    push old cap log x <+ log ++ [x] :=
  ((List.drop_sublist _ _).trans (List.dropWhile_sublist _)).append_right [x]

theorem foldl_push_sublist (old : α → α → Bool) (cap : ℕ) (l log : List α) :
    l.foldl (push old cap) log <+ log ++ l := by
  induction l generalizing log with
  | nil =>
    rw [List.foldl_nil, List.append_nil]
  | cons x l ih =>
    have hpush := (push_sublist old cap log x).append_right l
    rw [List.append_assoc] at hpush
    exact (ih _).trans hpush

theorem filter_dropWhile {q : α → Bool} (h : ∀ x ∈ l, q x = true → p x = false) :
    (l.dropWhile q).filter p = l.filter p := by
  induction l with
  | nil => rfl
  | cons x l ih =>
    obtain ⟨hx, hl⟩ := List.forall_mem_cons.mp h
    by_cases hq : q x = true
    · rw [List.dropWhile_cons_of_pos hq, ih hl, List.filter_cons_of_neg (by simp [hx hq])]
    · rw [List.dropWhile_cons_of_neg hq]

/-- Where what follows an element of the window is in the window too, a queue that has room for the window
drops nothing of it. -/
theorem filter_drop (hl : l.Pairwise fun x y ↦ p x = true → p y = true) (hcap : (l.filter p).length < cap) :
    (l.drop (l.length + 1 - cap)).filter p = l.filter p := by
  induction l with
  | nil => rw [List.drop_nil]
  | cons x l ih =>
    obtain ⟨hx, hl⟩ := List.pairwise_cons.mp hl
    by_cases hp : p x = true
    · have hall : (x :: l).filter p = x :: l := by
        refine List.filter_eq_self.mpr (List.forall_mem_cons.mpr ⟨hp, fun y hy ↦ hx y hy hp⟩)
      rw [hall] at hcap
      rw [Nat.sub_eq_zero_of_le (by omega), List.drop_zero]
    · rw [List.filter_cons_of_neg hp] at hcap ⊢
      rw [← ih hl hcap]
      rcases Nat.eq_zero_or_pos (l.length + 1 + 1 - cap) with hzero | hpos
      · have hzero' : l.length + 1 - cap = 0 := by omega
        rw [List.length_cons, hzero, hzero', List.drop_zero, List.drop_zero, List.filter_cons_of_neg hp]
      · obtain ⟨k, hk⟩ := Nat.exists_eq_succ_of_ne_zero hpos.ne'
        have hk' : l.length + 1 - cap = k := by omega
        rw [List.length_cons, hk, hk', List.drop_succ_cons]

theorem filter_push {x : α} (hlog : log.Pairwise fun x y ↦ p x = true → p y = true)
    (hold : ∀ y ∈ log, old x y = true → p y = false) (hcap : (log.filter p).length < cap) :
    (push old cap log x).filter p = (log ++ [x]).filter p := by
  have hdropWhile := filter_dropWhile hold
  have hdrop := filter_drop (hlog.sublist (List.dropWhile_sublist (old x))) (by rwa [hdropWhile])
  rw [push, List.filter_append, List.filter_append, hdrop, hdropWhile]

theorem filter_foldl_push (hl : l.Pairwise fun x y ↦ p x = true → p y = true)
    (hold : ∀ x ∈ l, ∀ y ∈ l, old x y = true → p y = false) (hcap : (l.filter p).length < cap) :
    (l.foldl (push old cap) []).filter p = l.filter p := by
  induction l using List.reverseRecOn with
  | nil => rfl
  | append_singleton l x ih =>
    have hsub := foldl_push_sublist old cap l []
    have hfilter : l.filter p <+ (l ++ [x]).filter p := (List.sublist_append_left l [x]).filter p
    have hcap' := lt_of_le_of_lt hfilter.length_le hcap
    have hleft := List.sublist_append_left l [x]
    rw [List.foldl_append, List.foldl_cons, List.foldl_nil]
    have ih := ih (hl.sublist hleft) (fun x hx y hy ↦ hold x (hleft.subset hx) y (hleft.subset hy)) hcap'
    rw [filter_push ((hl.sublist hleft).sublist hsub) (fun y hy ↦ hold x (by simp) y (hleft.subset (hsub.subset hy)))
      (by rwa [ih]), List.filter_append, ih, List.filter_append]

theorem length_push {x : α} (hold : ∀ y ∈ log, old x y = false) (hcap : 0 < cap) :
    (push old cap log x).length = min (log.length + 1) cap := by
  have hnone : log.dropWhile (old x) = log := by
    cases log with
    | nil => rfl
    | cons y log => rw [List.dropWhile_cons_of_neg (by simp [hold y])]
  rw [push, hnone, List.length_append, List.length_drop, List.length_singleton]
  omega

theorem length_foldl_push (hold : ∀ x ∈ l, ∀ y ∈ l, old x y = false) (hcap : 0 < cap) :
    (l.foldl (push old cap) []).length = min l.length cap := by
  induction l using List.reverseRecOn with
  | nil => exact (Nat.zero_min cap).symm
  | append_singleton l x ih =>
    have hleft := List.sublist_append_left l [x]
    have hsub := (foldl_push_sublist old cap l []).trans hleft
    rw [List.foldl_append, List.foldl_cons, List.foldl_nil,
      length_push (fun y hy ↦ hold x (by simp) y (hsub.subset hy)) hcap,
      ih fun x hx y hy ↦ hold x (hleft.subset hx) y (hleft.subset hy), List.length_append, List.length_singleton]
    omega

/-- A list in the order of a key, of which there are two values. -/
theorem filter_append_filter {κ : Type} [LinearOrder κ] {f : α → κ} {a b : κ}
    (hl : l.Pairwise fun x y ↦ f x ≤ f y) (hlt : a < b) (h : ∀ x ∈ l, f x = a ∨ f x = b) :
    l.filter (f · = a) ++ l.filter (f · = b) = l := by
  induction l with
  | nil => rfl
  | cons x l ih =>
    obtain ⟨hx, hl⟩ := List.pairwise_cons.mp hl
    obtain ⟨hab, h⟩ := List.forall_mem_cons.mp h
    rcases hab with hab | hab
    · rw [List.filter_cons_of_pos (by simp [hab]), List.filter_cons_of_neg (by simp [hab, hlt.ne]), List.cons_append,
        ih hl h]
    · have hrest : ∀ y ∈ l, f y = b := by
        intro y hy
        have hle := hx y hy
        rcases h y hy with hya | hyb
        · rw [hya, hab] at hle
          exact absurd hlt hle.not_gt
        · exact hyb
      have hnone : (x :: l).filter (f · = a) = [] := by
        refine List.filter_eq_nil_iff.mpr (List.forall_mem_cons.mpr ⟨by simp [hab, hlt.ne'], fun y hy ↦ ?_⟩)
        simp [hrest y hy, hlt.ne']
      have hall : (x :: l).filter (f · = b) = x :: l := by
        refine List.filter_eq_self.mpr (List.forall_mem_cons.mpr ⟨by simp [hab], fun y hy ↦ ?_⟩)
        simp [hrest y hy]
      rw [hnone, hall, List.nil_append]

end WindowLog
