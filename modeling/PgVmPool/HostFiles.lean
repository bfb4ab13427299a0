import Mathlib

namespace HostFiles

open Function

variable {P α : Type}

/-- No inode has two names. -/
def Distinct (links : P → Option ℕ) : Prop := ∀ p q i, links p = some i → links q = some i → p = q

def Below (links : P → Option ℕ) (n : ℕ) : Prop := ∀ p i, links p = some i → i < n

section Links

variable [DecidableEq P] {links : P → Option ℕ} {n : ℕ}

theorem update_link_cases {p q : P} {x : Option ℕ} {i : ℕ} (h : update links p x q = some i) :
    q = p ∧ x = some i ∨ q ≠ p ∧ links q = some i := by
  by_cases hq : q = p
  · subst hq
    exact .inl ⟨rfl, by rwa [update_self] at h⟩
  · exact .inr ⟨hq, by rwa [update_of_ne hq] at h⟩

theorem Distinct.unlink (h : Distinct links) (p : P) : Distinct (update links p none) := by
  intro q r i hq hr
  rcases update_link_cases hq with ⟨-, hq⟩ | ⟨-, hq⟩
  · cases hq
  · rcases update_link_cases hr with ⟨-, hr⟩ | ⟨-, hr⟩
    · cases hr
    · exact h q r i hq hr

theorem Distinct.link (h : Distinct links) (p : P) {i : ℕ} (hi : ∀ q, links q ≠ some i) :
    Distinct (update links p (some i)) := by
  intro q r j hq hr
  rcases update_link_cases hq with ⟨hqp, hj⟩ | ⟨-, hq⟩
  · rcases update_link_cases hr with ⟨hrp, -⟩ | ⟨-, hr⟩
    · rw [hqp, hrp]
    · exact absurd (hr.trans hj.symm) (hi r)
  · rcases update_link_cases hr with ⟨-, hj⟩ | ⟨-, hr⟩
    · exact absurd (hq.trans hj.symm) (hi q)
    · exact h q r j hq hr

theorem Below.update (h : Below links n) (p : P) {x : Option ℕ} {m : ℕ} (hn : n ≤ m)
    (hx : ∀ i, x = some i → i < m) : Below (update links p x) m := by
  intro q i hq
  rcases update_link_cases hq with ⟨-, hq⟩ | ⟨-, hq⟩
  · exact hx i hq
  · exact (h q i hq).trans_le hn

end Links

/-- Names, a table of inodes and the first unused one. A file that was opened keeps its inode
when its name is gone. -/
structure Files (P α : Type) where
  links : P → Option ℕ
  data : ℕ → List α
  next : ℕ
  distinct : Distinct links
  below : Below links next

/-- What a `write` of `bs` at an offset makes of a file: a gap before it reads as zeros. -/
def splice [Inhabited α] (xs : List α) (off : ℕ) (bs : List α) : List α :=
  xs.take off ++ List.replicate (off - xs.length) default ++ bs ++ xs.drop (off + bs.length)

theorem splice_length [Inhabited α] (xs bs : List α) : splice xs xs.length bs = xs ++ bs := by
  simp [splice]

namespace Files

def empty : Files P α := ⟨fun _ ↦ none, fun _ ↦ [], 0, by simp [Distinct], by simp [Below]⟩

def read (fs : Files P α) (p : P) : Option (List α) := (fs.links p).map fs.data

/-- The inode has no name but `p`. -/
def Only (fs : Files P α) (p : P) (i : ℕ) : Prop := i < fs.next ∧ ∀ q, fs.links q = some i → q = p

variable [DecidableEq P]

/-- `open` with `O_CREAT` and `O_TRUNC`: an existing file is emptied in place. -/
def create (fs : Files P α) (p : P) : ℕ × Files P α :=
  match fs.links p with
  | some i => (i, { fs with data := update fs.data i [] })
  | none => (fs.next, {
      links := update fs.links p (some fs.next)
      data := update fs.data fs.next []
      next := fs.next + 1
      distinct := fs.distinct.link p fun q hq ↦ absurd (fs.below q _ hq) (lt_irrefl _)
      below := fs.below.update p (Nat.le_succ _) fun _ hi ↦ Option.some_inj.mp hi ▸ Nat.lt_succ_self _ })

def write [Inhabited α] (fs : Files P α) (i off : ℕ) (bs : List α) : Files P α :=
  { fs with data := update fs.data i (splice (fs.data i) off bs) }

def remove (fs : Files P α) (p : P) : Files P α where
  links := update fs.links p none
  data := fs.data
  next := fs.next
  distinct := fs.distinct.unlink p
  below := fs.below.update p le_rfl (by simp)

/-- `rename`: fails when nothing is at `p`, replaces what is at `q`. -/
def rename (fs : Files P α) (p q : P) : Option (Files P α) :=
  match h : fs.links p with
  | none => none
  | some i => some {
      links := update (update fs.links p none) q (some i)
      data := fs.data
      next := fs.next
      distinct := (fs.distinct.unlink p).link q fun r hr ↦ by
        rcases update_link_cases hr with ⟨-, hr⟩ | ⟨hrp, hr⟩
        · cases hr
        · exact hrp (fs.distinct r p i hr h)
      below := (fs.below.update p le_rfl (by simp)).update q le_rfl fun j hj ↦
        Option.some_inj.mp hj ▸ fs.below p i h }

section Ops

variable {fs fs' : Files P α} {p q : P} {i : ℕ}

theorem create_links_self (fs : Files P α) (p : P) :
    (fs.create p).2.links p = some (fs.create p).1 := by
  unfold create
  split
  · assumption
  · exact update_self ..

theorem create_links_of_ne (h : q ≠ p) : (fs.create p).2.links q = fs.links q := by
  unfold create
  split
  · rfl
  · exact update_of_ne h ..

theorem create_data_self (fs : Files P α) (p : P) : (fs.create p).2.data (fs.create p).1 = [] := by
  unfold create
  split <;> exact update_self ..

theorem create_data_of_ne (h : i ≠ (fs.create p).1) : (fs.create p).2.data i = fs.data i := by
  unfold create at h ⊢
  split at h <;> exact update_of_ne h ..

theorem create_next_le (fs : Files P α) (p : P) : fs.next ≤ (fs.create p).2.next := by
  unfold create
  split
  · exact le_rfl
  · exact Nat.le_succ _

theorem create_fst (fs : Files P α) (p : P) :
    fs.links p = some (fs.create p).1 ∨ fs.links p = none ∧ (fs.create p).1 = fs.next := by
  unfold create
  split
  · exact .inl ‹_›
  · exact .inr ⟨‹_›, rfl⟩

theorem create_only (fs : Files P α) (p : P) : (fs.create p).2.Only p (fs.create p).1 :=
  ⟨(fs.create p).2.below p _ (create_links_self fs p), fun q hq ↦
    (fs.create p).2.distinct q p _ hq (create_links_self fs p)⟩

theorem create_read_of_ne (h : q ≠ p) : (fs.create p).2.read q = fs.read q := by
  simp only [read, create_links_of_ne h]
  cases hq : fs.links q with
  | none => rfl
  | some j =>
    have hj : j ≠ (fs.create p).1 := by
      rintro rfl
      rcases create_fst fs p with hp | ⟨-, hnew⟩
      · exact h (fs.distinct q p _ hq hp)
      · exact absurd (fs.below q _ hq) (hnew ▸ lt_irrefl _)
    rw [Option.map_some, Option.map_some, create_data_of_ne hj]

omit [DecidableEq P] in
theorem write_data_self [Inhabited α] (fs : Files P α) (i off : ℕ) (bs : List α) :
    (fs.write i off bs).data i = splice (fs.data i) off bs := update_self ..

omit [DecidableEq P] in
theorem write_read_of_only [Inhabited α] {off : ℕ} {bs : List α} (hi : fs.Only p i) (h : q ≠ p) :
    (fs.write i off bs).read q = fs.read q := by
  simp only [read, write]
  cases hq : fs.links q with
  | none => rfl
  | some j =>
    have hj : j ≠ i := fun he ↦ h (hi.2 q (he ▸ hq))
    rw [Option.map_some, Option.map_some, update_of_ne hj]

theorem remove_read_of_ne (h : q ≠ p) : (fs.remove p).read q = fs.read q := by
  simp only [read, remove, update_of_ne h]

theorem remove_links_of_ne (h : q ≠ p) : (fs.remove p).links q = fs.links q := update_of_ne h ..

theorem remove_links_self (fs : Files P α) (p : P) : (fs.remove p).links p = none := update_self ..

theorem rename_eq (h : fs.rename p q = some fs') : ∃ i, fs.links p = some i ∧
    fs'.links = update (update fs.links p none) q (some i) ∧ fs'.data = fs.data ∧
      fs'.next = fs.next := by
  unfold rename at h
  split at h
  · cases h
  · rename_i i hi
    cases h
    exact ⟨i, hi, rfl, rfl, rfl⟩

theorem rename_none_iff : fs.rename p q = none ↔ fs.links p = none := by
  unfold rename
  split <;> simp_all

end Ops

end Files

end HostFiles
