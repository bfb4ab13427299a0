import Mathlib

namespace Transition

variable {σ ℓ τ V : Type}

def exec (step : ℓ → σ → Option σ) : List ℓ → σ → Option σ
  | [], a => some a
  | l :: ls, a => (step l a).bind (exec step ls)

theorem exec_cons {step : ℓ → σ → Option σ} {l : ℓ} {ls : List ℓ} {a c : σ} :
    exec step (l :: ls) a = some c ↔ ∃ b, step l a = some b ∧ exec step ls b = some c := by
  simp only [exec, Option.bind_eq_some_iff]

/-- A run from `a` in which every label is taken in a state that allows it. -/
inductive Run (step : ℓ → σ → Option σ) (ok : σ → ℓ → Prop) (a : σ) : σ → Prop
  | refl : Run step ok a a
  | tail {b c : σ} {l : ℓ} : Run step ok a b → ok b l → step l b = some c → Run step ok a c

variable {step : ℓ → σ → Option σ} {ok : σ → ℓ → Prop} {a b c : σ}

theorem Run.head {l : ℓ} (hl : ok a l) (hs : step l a = some b) (h : Run step ok b c) :
    Run step ok a c := by
  induction h with
  | refl => exact .tail .refl hl hs
  | tail _ hk ht ih => exact .tail ih hk ht

theorem Run.trans (h : Run step ok a b) (h' : Run step ok b c) : Run step ok a c := by
  induction h' with
  | refl => exact h
  | tail _ hl hs ih => exact .tail ih hl hs

/-- What holds at the start and is kept by every allowed step holds after every run. -/
theorem Run.invariant {I : σ → Prop} (h : Run step ok a b) (h0 : I a)
    (hstep : ∀ s l s', I s → ok s l → step l s = some s' → I s') : I b := by
  induction h with
  | refl => exact h0
  | tail _ hl hs ih => exact hstep _ _ _ ih hl hs

theorem Run.invariant_of {I J : σ → Prop} (h : Run step ok a b)
    (hJ : ∀ s, Run step ok a s → J s) (h0 : I a)
    (hstep : ∀ s l s', I s → J s → J s' → ok s l → step l s = some s' → I s') : I b := by
  induction h with
  | refl => exact h0
  | tail hr hl hs ih => exact hstep _ _ _ ih (hJ _ hr) (hJ _ (hr.tail hl hs)) hl hs

/-- A run of a system is a run of the part of it that `f` shows. -/
theorem Run.project {κ : Type} {step' : κ → τ → Option τ} {ok' : τ → κ → Prop} (f : σ → τ)
    (h : Run step ok a b)
    (hstep : ∀ s l s', ok s l → step l s = some s' →
      f s' = f s ∨ ∃ k, ok' (f s) k ∧ step' k (f s) = some (f s')) :
    Run step' ok' (f a) (f b) := by
  induction h with
  | refl => exact .refl
  | tail _ hl hs ih =>
    rcases hstep _ _ _ hl hs with heq | ⟨k, hk, hs'⟩
    · rwa [heq]
    · exact .tail ih hk hs'

theorem exec_invariant {I : σ → Prop} {ls : List ℓ} (h : exec step ls a = some b) (h0 : I a)
    (hstep : ∀ l ∈ ls, ∀ s s', I s → step l s = some s' → I s') : I b := by
  induction ls generalizing a with
  | nil =>
    obtain rfl : a = b := by simpa [exec] using h
    exact h0
  | cons l ls ih =>
    obtain ⟨s, hs, h⟩ := exec_cons.mp h
    exact ih h (hstep l (by simp) a s h0 hs) fun k hk ↦ hstep k (by simp [hk])

/-- Where some step of a kind decreases a measure, such steps lead to where the measure is zero. -/
theorem exists_exec_of_decreasing (step : ℓ → σ → Option σ) (I : σ → Prop)
    (p : ℓ → Prop) (μ : σ → ℕ)
    (hstep : ∀ s, I s → 0 < μ s → ∃ l s', p l ∧ step l s = some s' ∧ I s' ∧ μ s' < μ s) (ha : I a) :
    ∃ ls b, (∀ l ∈ ls, p l) ∧ exec step ls a = some b ∧ I b ∧ μ b = 0 := by
  induction hn : μ a using Nat.strong_induction_on generalizing a with
  | _ n ih =>
    by_cases h0 : μ a = 0
    · exact ⟨[], a, by simp, rfl, ha, h0⟩
    · obtain ⟨l, s, hl, hs, hI, hlt⟩ := hstep a ha (Nat.pos_of_ne_zero h0)
      obtain ⟨ls, b, hls, hb, hIb, hμ⟩ := ih (μ s) (hn ▸ hlt) hI rfl
      refine ⟨l :: ls, b, ?_, exec_cons.mpr ⟨s, hs, hb⟩, hIb, hμ⟩
      exact List.forall_mem_cons.mpr ⟨hl, hls⟩

def allowed (step : ℓ → σ → Option σ) (ok : σ → ℓ → Prop) [∀ s l, Decidable (ok s l)] :
    List ℓ → σ → Bool
  | [], _ => true
  | l :: ls, s => decide (ok s l) && ((step l s).map (allowed step ok ls)).getD true

theorem Run.of_exec [∀ s l, Decidable (ok s l)] {ls : List ℓ} (h : exec step ls a = some b)
    (hok : allowed step ok ls a = true) : Run step ok a b := by
  induction ls generalizing a with
  | nil =>
    obtain rfl : a = b := by simpa [exec] using h
    exact .refl
  | cons l ls ih =>
    obtain ⟨s, hs, h⟩ := exec_cons.mp h
    simp only [allowed, hs, Option.map_some, Option.getD_some, Bool.and_eq_true,
      decide_eq_true_eq] at hok
    exact .head hok.1 hs (ih h hok.2)

theorem Run.of_exec_true {ls : List ℓ} (h : exec step ls a = some b) (hok : ∀ s l, ok s l) :
    Run step ok a b := by
  induction ls generalizing a with
  | nil =>
    obtain rfl : a = b := by simpa [exec] using h
    exact .refl
  | cons l ls ih =>
    obtain ⟨s, hs, h⟩ := exec_cons.mp h
    exact .head (hok a l) hs (ih h)

theorem Run.exists_of_exec (step : ℓ → σ → Option σ) (ok : σ → ℓ → Prop)
    [∀ s l, Decidable (ok s l)] (a : σ) (ls : List ℓ) (p : σ → Bool)
    (h : (exec step ls a).any p = true) (hok : allowed step ok ls a = true) :
    ∃ b, Run step ok a b ∧ p b = true := by
  obtain ⟨b, hb, hp⟩ := (Option.any_eq_true _ _).mp h
  exact ⟨b, .of_exec hb hok, hp⟩

theorem sublist_of_increasing {xs : List τ} {ps : List (ℕ × τ)}
    (hlt : (ps.map Prod.fst).Pairwise (· < ·))
    (hget : ∀ p ∈ ps, 0 < p.1 ∧ xs[p.1 - 1]? = some p.2) : (ps.map Prod.snd).Sublist xs := by
  have hsub : (ps.map Prod.fst).Sublist (List.range' 1 xs.length) := by
    refine List.sublist_of_subperm_of_pairwise (List.Nodup.subperm (hlt.imp ne_of_lt) ?_) hlt
      List.pairwise_lt_range'
    intro i hi
    obtain ⟨p, hp, rfl⟩ := List.mem_map.mp hi
    obtain ⟨hpos, hx⟩ := hget p hp
    have hlen := (List.getElem?_eq_some_iff.mp hx).1
    exact List.mem_range'_1.mpr ⟨hpos, by omega⟩
  have hps : (ps.map Prod.fst).map (fun i ↦ xs[i - 1]?) = (ps.map Prod.snd).map some := by
    simp only [List.map_map]
    exact List.map_congr_left fun p hp ↦ (hget p hp).2
  have hxs : (List.range' 1 xs.length).map (fun i ↦ xs[i - 1]?) = xs.map some := by
    refine List.ext_getElem? fun i ↦ ?_
    by_cases hi : i < xs.length <;> simp [hi]
  have hmap := hsub.map fun i ↦ xs[i - 1]?
  rw [hps, hxs] at hmap
  simpa using hmap.filterMap id

section Dialogue

variable {π α : Type}

/-- A run of one component of a system: before each of its steps the rest of the system moves by
`rely`. The log has every position of the component with the answer it got there. -/
inductive Dialogue (rely : σ → σ → Prop) (step : σ → π → α → Option (σ × π)) (a : σ) (p : π) :
    List (π × α) → σ → π → Prop
  | refl : Dialogue rely step a p [] a p
  | tail {log : List (π × α)} {b b' c : σ} {q q' : π} {x : α} :
    Dialogue rely step a p log b q → rely b b' → step b' q x = some (c, q') →
    Dialogue rely step a p (log ++ [(q, x)]) c q'

variable {rely : σ → σ → Prop} {move : σ → π → α → Option (σ × π)} {p q : π} {log : List (π × α)}

theorem Dialogue.invariant {I : List (π × α) → σ → π → Prop}
    (h : Dialogue rely move a p log b q) (h0 : I [] a p)
    (hrely : ∀ log b b' q, I log b q → rely b b' → I log b' q)
    (hstep : ∀ log b q x c q', I log b q → move b q x = some (c, q') → I (log ++ [(q, x)]) c q') :
    I log b q := by
  induction h with
  | refl => exact h0
  | tail _ hr hs ih => exact hstep _ _ _ _ _ _ (hrely _ _ _ _ ih hr) hs

theorem Dialogue.answer (hrefl : ∀ a, rely a a) (h : Dialogue rely move a p log b q) {x : α} {q' : π}
    (hs : move b q x = some (c, q')) : Dialogue rely move a p (log ++ [(q, x)]) c q' :=
  .tail h (hrefl b) hs

def talk (move : σ → π → α → Option (σ × π)) :
    List α → List (π × α) → σ → π → Option (List (π × α) × σ × π)
  | [], log, a, p => some (log, a, p)
  | x :: xs, log, a, p => (move a p x).bind fun r ↦ talk move xs (log ++ [(p, x)]) r.1 r.2

theorem Dialogue.of_talk (hrefl : ∀ a, rely a a) (xs : List α) {log' : List (π × α)} {c : σ} {r : π}
    (h : Dialogue rely move a p log b q) (hc : talk move xs log b q = some (log', c, r)) :
    Dialogue rely move a p log' c r := by
  induction xs generalizing log b q with
  | nil =>
    cases hc
    exact h
  | cons x xs ih =>
    obtain ⟨⟨b', q'⟩, hs, hc⟩ := Option.bind_eq_some_iff.mp hc
    exact ih (h.answer hrefl hs) hc

theorem Dialogue.exists_of_talk (move : σ → π → α → Option (σ × π)) (a : σ) (p : π)
    (hrefl : ∀ a, rely a a) (xs : List α) (test : List (π × α) × σ × π → Bool)
    (h : (talk move xs [] a p).any test = true) :
    ∃ log b q, Dialogue rely move a p log b q ∧ test (log, b, q) = true := by
  obtain ⟨⟨log, b, q⟩, hc, ht⟩ := (Option.any_eq_true _ _).mp h
  exact ⟨log, b, q, Dialogue.refl.of_talk hrefl xs hc, ht⟩

end Dialogue

section Beside

variable {π α γ : Type}

/-- A system, a component that works beside it, and a history that neither of them reads. -/
structure Beside (σ π γ : Type) where
  sys : σ
  pc : π
  seen : γ

/-- Either the system steps, or the component does, on the system's state and its own position. -/
def beside (step : ℓ → σ → Option σ) (move : σ → π → α → Option (σ × π))
    (note : Beside σ π γ → ℓ ⊕ α → σ → γ) : ℓ ⊕ α → Beside σ π γ → Option (Beside σ π γ)
  | .inl l, j => (step l j.sys).map fun b ↦ ⟨b, j.pc, note j (.inl l) b⟩
  | .inr x, j => (move j.sys j.pc x).map fun r ↦ ⟨r.1, r.2, note j (.inr x) r.1⟩

variable {move : σ → π → α → Option (σ × π)} {note : Beside σ π γ → ℓ ⊕ α → σ → γ}
  {j j' : Beside σ π γ}

theorem beside_cases {l : ℓ ⊕ α} (h : beside step move note l j = some j') :
    j'.seen = note j l j'.sys ∧
      ((∃ k, l = .inl k ∧ step k j.sys = some j'.sys ∧ j'.pc = j.pc) ∨
        ∃ x, l = .inr x ∧ move j.sys j.pc x = some (j'.sys, j'.pc)) := by
  cases l with
  | inl k =>
    obtain ⟨b, hb, rfl⟩ := Option.map_eq_some_iff.mp h
    exact ⟨rfl, .inl ⟨k, rfl, hb, rfl⟩⟩
  | inr x =>
    obtain ⟨r, hr, rfl⟩ := Option.map_eq_some_iff.mp h
    exact ⟨rfl, .inr ⟨x, rfl, hr⟩⟩

theorem Beside.invariant {I : σ → Prop} {ok : Beside σ π γ → ℓ ⊕ α → Prop}
    (h : Run (beside step move note) ok j j') (h0 : I j.sys)
    (hstep : ∀ l a b, I a → step l a = some b → I b)
    (hmove : ∀ a p x b q, I a → move a p x = some (b, q) → I b) : I j'.sys := by
  refine h.invariant (I := fun j ↦ I j.sys) h0 fun j l j' hI _ hs ↦ ?_
  rcases (beside_cases hs).2 with ⟨k, -, hk, -⟩ | ⟨x, -, hx⟩
  · exact hstep k _ _ hI hk
  · exact hmove _ _ x _ _ hI hx

end Beside

section Pool

theorem getElem?_set_cases {ts : List τ} {i j : ℕ} {x y : τ} (h : (ts.set i x)[j]? = some y) :
    j = i ∧ y = x ∨ j ≠ i ∧ ts[j]? = some y := by
  by_cases hj : j = i
  · subst hj
    rw [List.getElem?_set_self'] at h
    obtain ⟨_, -, rfl⟩ := Option.map_eq_some_iff.mp h
    exact .inl ⟨rfl, rfl⟩
  · rw [List.getElem?_set_ne (Ne.symm hj)] at h
    exact .inr ⟨hj, h⟩

/-- A pointwise property of a task pool survives a change of one task when the new task has it
and every other task keeps it. -/
theorem forall_set {P : ℕ → τ → Prop} {ts : List τ} {i : ℕ} {x : τ} (hx : P i x)
    (hrest : ∀ j y, j ≠ i → ts[j]? = some y → P j y) :
    ∀ j y, (ts.set i x)[j]? = some y → P j y := by
  intro j y h
  rcases getElem?_set_cases h with ⟨rfl, rfl⟩ | ⟨hj, h⟩
  · exact hx
  · exact hrest j y hj h

theorem getElem?_append_cases {ts : List τ} {j : ℕ} {x y : τ} (h : (ts ++ [x])[j]? = some y) :
    j = ts.length ∧ y = x ∨ ts[j]? = some y := by
  rcases lt_trichotomy j ts.length with hj | rfl | hj
  · exact .inr (by rwa [List.getElem?_append_left hj] at h)
  · exact .inl ⟨rfl, by simpa using h.symm⟩
  · rw [List.getElem?_append_right (by omega)] at h
    simp [show j - ts.length ≠ 0 by omega] at h

theorem forall_append {P : ℕ → τ → Prop} {ts : List τ} {x : τ} (hx : P ts.length x)
    (hrest : ∀ j y, ts[j]? = some y → P j y) :
    ∀ j y, (ts ++ [x])[j]? = some y → P j y := by
  intro j y h
  rcases getElem?_append_cases h with ⟨rfl, rfl⟩ | h
  · exact hx
  · exact hrest j y h

end Pool

section Leases

variable {ε : Type} {gets puts : ε → Prop} {log : List ε} {e : ε}

/-- A resource that was got and not put back since. -/
def Outstanding (gets puts : ε → Prop) (log : List ε) : Prop :=
  ∃ before x after, log = before ++ x :: after ∧ gets x ∧ ∀ y ∈ after, ¬ puts y

/-- Between any two gets lies a put. -/
def Alternating (gets puts : ε → Prop) (log : List ε) : Prop :=
  ∀ before x between y after, log = before ++ x :: (between ++ y :: after) → gets x → gets y →
    ∃ z ∈ between, puts z

theorem Outstanding.of_snoc (h : Outstanding gets puts (log ++ [e])) :
    Outstanding gets puts log ∧ ¬ puts e ∨ gets e := by
  obtain ⟨before, x, after, heq, hx, hafter⟩ := h
  rcases List.eq_nil_or_concat after with rfl | ⟨after, y, rfl⟩
  · obtain ⟨-, hlast⟩ := List.append_inj' heq rfl
    obtain rfl := List.singleton_inj.mp hlast
    exact .inr hx
  · have hsplit : log ++ [e] = (before ++ x :: after) ++ [y] := by simpa using heq
    obtain ⟨rfl, hlast⟩ := List.append_inj' hsplit rfl
    obtain rfl := List.singleton_inj.mp hlast
    exact .inl ⟨⟨before, x, after, rfl, hx, fun z hz ↦ hafter z (by simp [hz])⟩, hafter e (by simp)⟩

theorem Alternating.nil : Alternating gets puts ([] : List ε) := by
  intro before x between y after heq
  simp at heq

theorem Alternating.snoc (h : Alternating gets puts log)
    (he : gets e → ¬ Outstanding gets puts log) : Alternating gets puts (log ++ [e]) := by
  intro before x between y after heq hx hy
  rcases List.eq_nil_or_concat after with rfl | ⟨after, z, rfl⟩
  · have hsplit : log ++ [e] = (before ++ x :: between) ++ [y] := by simpa using heq
    obtain ⟨rfl, hlast⟩ := List.append_inj' hsplit rfl
    obtain rfl := List.singleton_inj.mp hlast
    by_contra hnone
    exact he hy ⟨before, x, between, rfl, hx, fun z hz hp ↦ hnone ⟨z, hz, hp⟩⟩
  · have hsplit : log ++ [e] = (before ++ x :: (between ++ y :: after)) ++ [z] := by simpa using heq
    obtain ⟨rfl, -⟩ := List.append_inj' hsplit rfl
    exact h before x between y after rfl hx hy

end Leases

section Locks

variable {μ : Type}

/-- Which threads hold and which threads wait for each mutex. -/
structure Waits (τ μ : Type) where
  holds : τ → μ → Prop
  wants : τ → μ → Prop

/-- Some threads each wait for a mutex that another of them holds. -/
def Waits.Deadlocked (v : Waits τ μ) : Prop :=
  ∃ S : Set τ, S.Nonempty ∧ ∀ t ∈ S, ∃ m, v.wants t m ∧ ∃ u ∈ S, u ≠ t ∧ v.holds u m

theorem Waits.not_deadlocked {v : Waits τ μ} (rank : μ → ℕ) (hbdd : BddAbove (Set.range rank))
    (hrank : ∀ t m m', v.holds t m → v.wants t m' → rank m < rank m') : ¬ v.Deadlocked := by
  rintro ⟨S, ⟨t, ht⟩, hS⟩
  let blocked : Set μ := { m | ∃ u ∈ S, v.holds u m }
  obtain ⟨m, -, u, hu, -, hm⟩ := hS t ht
  have hfin : (rank '' blocked).Finite :=
    (hbdd.mono (Set.image_subset_range rank blocked)).finite
  obtain ⟨-, ⟨top, ⟨w, hw, htop⟩, rfl⟩, hmax⟩ :=
    Set.exists_max_image (rank '' blocked) id hfin ⟨rank m, m, ⟨u, hu, hm⟩, rfl⟩
  obtain ⟨m', hwant, u', hu', -, hm'⟩ := hS w hw
  have hlt := hrank w top m' htop hwant
  have hle : rank m' ≤ rank top := hmax (rank m') ⟨m', ⟨u', hu', hm'⟩, rfl⟩
  omega

end Locks

/-- Who uses a resource and who has resolved to destroy it. -/
structure Custody (V : Type) where
  held : Set V
  doomed : Set V

/-- What comes into use is not doomed, and what gets doomed is not in use. -/
structure Custody.Step (a b : Custody V) : Prop where
  take : ∀ v ∈ b.held, v ∈ a.held ∨ v ∉ b.doomed
  doom : ∀ v ∈ b.doomed, v ∈ a.doomed ∨ v ∉ b.held

def Custody.Safe (a : Custody V) : Prop := ∀ v ∈ a.doomed, v ∉ a.held

theorem Custody.Step.safe {a b : Custody V} (h : Custody.Step a b) (ha : a.Safe) : b.Safe := by
  intro v hv hh
  rcases h.take v hh with hheld | hfree
  · rcases h.doom v hv with hdoomed | hunused
    · exact ha v hdoomed hheld
    · exact hunused hh
  · exact hfree hv

/-- A system that refines custody never destroys what is in use. -/
theorem Run.custody {I : σ → Prop} (view : σ → Custody V) (h : Run step ok a b)
    (h0 : (view a).Safe) (hI : ∀ s, Run step ok a s → I s)
    (hstep : ∀ s l s', I s → ok s l → step l s = some s' →
      Custody.Step (view s) (view s')) : (view b).Safe :=
  h.invariant_of hI h0 (fun s l s' hs hJ _ hl ht ↦ (hstep s l s' hJ hl ht).safe hs)

end Transition
