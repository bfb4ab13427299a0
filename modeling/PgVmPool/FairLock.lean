import Mathlib

open Function

variable {ι : Type}

/-- A counting lock that serves its waiters in the order they came. Each entry is a user with the
number of permits it holds or waits for. -/
structure FairLock (ι : Type) where
  capacity : ℕ
  held : List (ι × ℕ)
  queue : List (ι × ℕ)

namespace FairLock

def free (capacity : ℕ) : FairLock ι := ⟨capacity, [], []⟩

def load (xs : List (ι × ℕ)) : ℕ := (xs.map Prod.snd).sum

/-- Serves the queue from its head for as long as the permits last. -/
def handOut (capacity : ℕ) : List (ι × ℕ) → List (ι × ℕ) → List (ι × ℕ) × List (ι × ℕ)
  | held, [] => (held, [])
  | held, w :: rest =>
    if load held + w.2 ≤ capacity then handOut capacity (held ++ [w]) rest else (held, w :: rest)

variable (l : FairLock ι)

def settle : FairLock ι :=
  { l with
    held := (handOut l.capacity l.held l.queue).1
    queue := (handOut l.capacity l.held l.queue).2 }

def users : List ι := (l.held ++ l.queue).map Prod.fst

variable [DecidableEq ι] (i : ι) (n : ℕ)

def request : FairLock ι := { l with queue := l.queue ++ [(i, n)] }.settle

def tryTake : Option (FairLock ι) :=
  if l.queue = [] ∧ load l.held + n ≤ l.capacity then some { l with held := l.held ++ [(i, n)] }
  else none

def drop : FairLock ι :=
  { l with
    held := l.held.filter fun x ↦ x.1 ≠ i
    queue := l.queue.filter fun x ↦ x.1 ≠ i }.settle

def granted : Bool := l.held.any fun x ↦ x.1 = i

end FairLock

namespace FairLock

variable {l : FairLock ι} {xs ys : List (ι × ℕ)}

theorem load_append : load (xs ++ ys) = load xs + load ys := by simp [load]

theorem handOut_cons (capacity : ℕ) (held : List (ι × ℕ)) (w : ι × ℕ) (rest : List (ι × ℕ)) :
    handOut capacity held (w :: rest) =
      if load held + w.2 ≤ capacity then handOut capacity (held ++ [w]) rest else (held, w :: rest) := rfl

theorem handOut_append (capacity : ℕ) :
    (handOut capacity xs ys).1 ++ (handOut capacity xs ys).2 = xs ++ ys := by
  induction ys generalizing xs with
  | nil => rfl
  | cons w rest ih =>
    rw [handOut_cons]
    split
    · rw [ih, List.append_assoc]
      rfl
    · rfl

theorem mem_handOut {capacity : ℕ} {x : ι × ℕ} (hx : x ∈ xs) : x ∈ (handOut capacity xs ys).1 := by
  induction ys generalizing xs with
  | nil => exact hx
  | cons w rest ih =>
    rw [handOut_cons]
    split
    · exact ih (List.mem_append_left _ hx)
    · exact hx

theorem load_handOut {capacity : ℕ} (h : load xs ≤ capacity) :
    load (handOut capacity xs ys).1 ≤ capacity := by
  induction ys generalizing xs with
  | nil => exact h
  | cons w rest ih =>
    rw [handOut_cons]
    split
    · rename_i hw
      apply ih
      rwa [load_append, load, load, List.map_singleton, List.sum_singleton]
    · exact h

theorem load_filter_le (p : ι × ℕ → Bool) : load (xs.filter p) ≤ load xs :=
  List.Sublist.sum_le_sum (List.filter_sublist.map _) fun _ _ ↦ Nat.zero_le _

/-- How a party stands to a lock. -/
inductive Use
  | idle | waiting | holding
  deriving DecidableEq

variable [DecidableEq ι]

/-- The lock is within its capacity and its users are the parties that wait or hold. -/
structure Tracks (l : FairLock ι) (need : ι → ℕ) (use : ι → Use) : Prop where
  fits : load l.held ≤ l.capacity
  nodup : l.users.Nodup
  needs : ∀ x ∈ l.held ++ l.queue, x.2 = need x.1
  users : ∀ i, i ∈ l.users ↔ use i ≠ .idle
  holding : ∀ i, use i = .holding → l.granted i = true

variable {need : ι → ℕ} {use : ι → Use} {i j : ι} {n : ℕ}

theorem granted_iff : l.granted i = true ↔ ∃ k, (i, k) ∈ l.held := by
  simp [granted]

theorem Tracks.free (capacity : ℕ) (h : ∀ i, use i = .idle) :
    Tracks (FairLock.free capacity) need use where
  fits := Nat.zero_le _
  nodup := List.nodup_nil
  needs := by simp [FairLock.free]
  users i := by simp [FairLock.users, FairLock.free, h]
  holding i hi := by simp [h] at hi

theorem Tracks.settle (h : Tracks l need use) : Tracks l.settle need use where
  fits := load_handOut h.fits
  nodup := by
    simp only [FairLock.settle, FairLock.users, handOut_append]
    exact h.nodup
  needs := by
    simp only [FairLock.settle, handOut_append]
    exact h.needs
  users := by
    simp only [FairLock.settle, FairLock.users, handOut_append]
    exact h.users
  holding j hj := by
    obtain ⟨k, hk⟩ := granted_iff.mp (h.holding j hj)
    exact granted_iff.mpr ⟨k, mem_handOut hk⟩

theorem Tracks.request (h : Tracks l need use) (hi : use i = .idle) (hn : need i = n) :
    Tracks (l.request i n) need (update use i .waiting) := by
  have hnot : i ∉ l.users := fun hm ↦ (h.users i).mp hm hi
  refine Tracks.settle ⟨h.fits, ?_, ?_, fun j ↦ ?_, fun j hj ↦ ?_⟩
  · have hu : ((l.held ++ (l.queue ++ [(i, n)])).map Prod.fst) = l.users ++ [i] := by
      simp [FairLock.users]
    simp only [FairLock.users] at hu ⊢
    rw [hu]
    exact List.nodup_append.mpr ⟨h.nodup, List.nodup_singleton i, fun a ha b hb heq ↦ by
      rw [List.mem_singleton] at hb
      exact hnot (hb ▸ heq ▸ ha)⟩
  · intro x hx
    rw [← List.append_assoc, List.mem_append, List.mem_singleton] at hx
    rcases hx with hx | rfl
    · exact h.needs x hx
    · exact hn.symm
  · have hu : j ∈ ((l.held ++ (l.queue ++ [(i, n)])).map Prod.fst) ↔ j ∈ l.users ∨ j = i := by
      simp [FairLock.users, or_assoc]
    refine hu.trans ?_
    by_cases hj : j = i
    · simp [hj]
    · simp [hj, h.users]
  · by_cases hji : j = i
    · simp [hji] at hj
    · rw [update_of_ne hji] at hj
      exact h.holding j hj

theorem Tracks.tryTake {l' : FairLock ι} (h : Tracks l need use) (hi : use i = .idle)
    (hn : need i = n) (ht : l.tryTake i n = some l') : Tracks l' need (update use i .holding) := by
  simp only [FairLock.tryTake, Option.ite_none_right_eq_some, Option.some.injEq] at ht
  obtain ⟨⟨hq, hload⟩, rfl⟩ := ht
  have hnot : i ∉ l.users := fun hm ↦ (h.users i).mp hm hi
  have hu : (l.held ++ [(i, n)] ++ l.queue).map Prod.fst = l.users ++ [i] := by
    simp [FairLock.users, hq]
  refine ⟨?_, ?_, fun x hx ↦ ?_, fun j ↦ ?_, fun j hj ↦ ?_⟩
  · rwa [load_append, load, load, List.map_singleton, List.sum_singleton]
  · simp only [FairLock.users] at hu ⊢
    rw [hu]
    refine List.nodup_append.mpr ⟨h.nodup, List.nodup_singleton i, fun a ha b hb heq ↦ ?_⟩
    rw [List.mem_singleton] at hb
    exact hnot (hb ▸ heq ▸ ha)
  · rw [hq, List.append_nil, List.mem_append, List.mem_singleton] at hx
    rcases hx with hx | rfl
    · exact h.needs x (List.mem_append_left _ hx)
    · exact hn.symm
  · rw [FairLock.users, hu, List.mem_append, List.mem_singleton, h.users]
    by_cases hj : j = i <;> simp [hj]
  · refine granted_iff.mpr ?_
    by_cases hji : j = i
    · exact ⟨n, by simp [hji]⟩
    · rw [update_of_ne hji] at hj
      obtain ⟨k, hk⟩ := granted_iff.mp (h.holding j hj)
      exact ⟨k, List.mem_append_left _ hk⟩

theorem Tracks.resume (h : Tracks l need use) (hi : use i = .waiting) (hg : l.granted i = true) :
    Tracks l need (update use i .holding) where
  fits := h.fits
  nodup := h.nodup
  needs := h.needs
  users j := by
    by_cases hj : j = i
    · subst hj
      simp [h.users, hi]
    · simp [hj, h.users]
  holding j hj := by
    by_cases hji : j = i
    · exact hji ▸ hg
    · rw [update_of_ne hji] at hj
      exact h.holding j hj

theorem Tracks.drop (h : Tracks l need use) (i : ι) : Tracks (l.drop i) need (update use i .idle) := by
  have happ : (l.held.filter fun x ↦ x.1 ≠ i) ++ (l.queue.filter fun x ↦ x.1 ≠ i) =
      (l.held ++ l.queue).filter fun x ↦ x.1 ≠ i := (List.filter_append ..).symm
  refine Tracks.settle ⟨(load_filter_le _).trans h.fits, ?_, ?_, fun j ↦ ?_, fun j hj ↦ ?_⟩
  · simp only [FairLock.users, happ]
    exact h.nodup.sublist (List.filter_sublist.map _)
  · rw [happ]
    exact fun x hx ↦ h.needs x (List.mem_of_mem_filter hx)
  · have hu : j ∈ ((l.held ++ l.queue).filter fun x ↦ x.1 ≠ i).map Prod.fst ↔ j ∈ l.users ∧ j ≠ i := by
      simp only [FairLock.users, List.mem_map, List.mem_filter, decide_eq_true_eq]
      constructor
      · rintro ⟨x, ⟨hx, hne⟩, rfl⟩
        exact ⟨⟨x, hx, rfl⟩, hne⟩
      · rintro ⟨⟨x, hx, rfl⟩, hne⟩
        exact ⟨x, ⟨hx, hne⟩, rfl⟩
    rw [FairLock.users, happ, hu, h.users]
    by_cases hj : j = i <;> simp [hj]
  · by_cases hji : j = i
    · simp [hji] at hj
    · rw [update_of_ne hji] at hj
      obtain ⟨k, hk⟩ := granted_iff.mp (h.holding j hj)
      exact granted_iff.mpr ⟨k, List.mem_filter.mpr ⟨hk, by simpa using hji⟩⟩

theorem Tracks.eq_free (h : Tracks l need use) (hidle : ∀ i, use i = .idle) :
    l = FairLock.free l.capacity := by
  have hnil : l.held ++ l.queue = [] := by
    refine List.eq_nil_iff_forall_not_mem.mpr fun x hx ↦ ?_
    exact (h.users x.1).mp (List.mem_map_of_mem hx) (hidle x.1)
  obtain ⟨hheld, hqueue⟩ := List.append_eq_nil_iff.mp hnil
  cases l
  cases hheld
  cases hqueue
  rfl

theorem Tracks.exclusive (h : Tracks l need use) (hi : l.granted i = true) (hcap : need i = l.capacity)
    (hj : l.granted j = true) (hpos : 0 < need j) : j = i := by
  obtain ⟨a, ha⟩ := granted_iff.mp hi
  obtain ⟨b, hb⟩ := granted_iff.mp hj
  have hna := h.needs _ (List.mem_append_left _ ha)
  have hnb := h.needs _ (List.mem_append_left _ hb)
  by_contra hji
  have hsub : [(i, a), (j, b)].Subperm l.held := by
    refine List.subperm_of_subset ?_ ?_
    · simp [Ne.symm hji]
    · simp [ha, hb]
  have hle : load [(i, a), (j, b)] ≤ load l.held := by
    obtain ⟨ys, hperm, hsubl⟩ := hsub
    have hsum : load ys = load [(i, a), (j, b)] := (hperm.map Prod.snd).sum_eq
    rw [← hsum]
    exact List.Sublist.sum_le_sum (hsubl.map _) fun _ _ ↦ Nat.zero_le _
  have hfits := h.fits
  simp only [load, List.map_cons, List.map_nil, List.sum_cons, List.sum_nil] at hle hna hnb hfits
  omega

/-- What one party can do to the lock, with how it stands to the lock before and after. -/
inductive Move (l : FairLock ι) (n : ℕ) (i : ι) : Use → FairLock ι → Use → Prop
  | keep (u : Use) : Move l n i u l u
  | request : Move l n i .idle (l.request i n) .waiting
  | take {l' : FairLock ι} (h : l.tryTake i n = some l') : Move l n i .idle l' .holding
  | resume (h : l.granted i = true) : Move l n i .waiting l .holding
  | drop (u : Use) : Move l n i u (l.drop i) .idle

theorem Tracks.move {l' : FairLock ι} {u : Use} (h : Tracks l need use) (hn : need i = n)
    (hm : Move l n i (use i) l' u) : Tracks l' need (update use i u) := by
  generalize hu : use i = v at hm
  cases hm with
  | keep =>
    rw [← hu, update_eq_self]
    exact h
  | request => exact h.request hu hn
  | take ht => exact h.tryTake hu hn ht
  | resume hg => exact h.resume hu hg
  | drop => exact h.drop i

theorem Move.capacity {l' : FairLock ι} {u v : Use} (h : Move l n i u l' v) : l'.capacity = l.capacity := by
  cases h with
  | keep | request | resume | drop => rfl
  | take ht =>
    simp only [FairLock.tryTake, Option.ite_none_right_eq_some, Option.some.injEq] at ht
    rw [← ht.2]

end FairLock
