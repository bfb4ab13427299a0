import PgVmPool.System

namespace PgVmPool

open Transition

inductive Mutex
  | map | boundCache
  deriving DecidableEq

instance : Fintype Mutex := ⟨{.map, .boundCache}, fun m ↦ by cases m <;> decide⟩

/-- The calls that change a binding, with their arguments. -/
inductive Binding
  | put (s : Schema) (id : SandboxId) (now : UInt64)
  | adoptArchived (s : Schema) (now : UInt64)

/-- Everything but a bump of an unchanged live mapping. -/
def Binding.changes (st : Store) : Binding → Bool
  | .put s id _ => !(st.record s).any fun r ↦ r.sandboxId = id && r.tier = .live
  | .adoptArchived _ _ => true

def Binding.insert (st : Store) : Binding → Rows
  | .put s id now => st.map.insert s ⟨id, now, .live⟩
  | .adoptArchived s now => (st.adoptArchived s now).map

def Binding.call (st : Store) : Binding → Store
  | .put s id now => st.put s id now
  | .adoptArchived s now => (st.adoptArchived s now).writeDetached

/-- The lock acquisitions and releases of `put` and `adopt_archived`. -/
inductive WriterPc
  | lockMap | bump | lockCache | invalidate | stamp | done
  deriving DecidableEq

/-- The lock acquisitions and releases of `bound_ids`. -/
inductive ReaderPc
  | lockCache
  | hit (ids : List SandboxId)
  | lockMap
  | collect
  | fill (ids : List SandboxId)
  | done (ids : List SandboxId)
  deriving DecidableEq

inductive Thread
  | writer (b : Binding) (pc : WriterPc)
  | reader (pc : ReaderPc)

namespace Thread

def holds : Thread → List Mutex
  | .writer _ .bump | .writer _ .lockCache | .writer _ .stamp => [.map]
  | .writer _ .invalidate => [.map, .boundCache]
  | .reader (.hit _) | .reader .lockMap | .reader (.fill _) => [.boundCache]
  | .reader .collect => [.boundCache, .map]
  | .writer _ .lockMap | .writer _ .done | .reader .lockCache | .reader (.done _) => []

def wants : Thread → Option Mutex
  | .writer _ .lockMap | .reader .lockMap => some .map
  | .writer _ .lockCache | .reader .lockCache => some .boundCache
  | _ => none

def initial : Thread → Bool
  | .writer _ .lockMap | .reader .lockCache => true
  | _ => false

/-- A binding change that has `map` and waits for `bound_cache`. -/
def writerCrosses : Thread → Bool
  | .writer _ .lockCache => true
  | _ => false

/-- A `bound_ids` call that missed the cache, has `bound_cache` and waits for `map`. -/
def readerCrosses : Thread → Bool
  | .reader .lockMap => true
  | _ => false

/-- About to take `map`, and to need `bound_cache` as well. -/
def takesMap (st : Store) : Thread → Bool
  | .writer b .lockMap => b.changes st
  | _ => false

/-- About to take `bound_cache`, and to need `map` as well. -/
def takesCache (cache : Option (List SandboxId)) : Thread → Bool
  | .reader .lockCache => cache.isNone
  | _ => false

end Thread

structure LockState where
  store : Store
  cache : Option (List SandboxId)
  threads : List Thread

inductive LockLabel
  | spawn (x : Thread)
  | run (t : ℕ)

def LockState.free (st : LockState) (m : Mutex) : Bool := st.threads.all fun x ↦ m ∉ x.holds

def threadStep (st : LockState) : Thread → Option (Store × Option (List SandboxId) × Thread)
  | .writer b .lockMap =>
    if st.free .map then
      if b.changes st.store then
        some ({ st.store with map := b.insert st.store }, st.cache, .writer b .lockCache)
      else some (st.store, st.cache, .writer b .bump)
    else none
  | .writer b .bump => some (b.call st.store, st.cache, .writer b .done)
  | .writer b .lockCache =>
    if st.free .boundCache then some (st.store, st.cache, .writer b .invalidate) else none
  | .writer b .invalidate => some (st.store, none, .writer b .stamp)
  | .writer b .stamp => some ((st.store.stamp st.store.map).writeDetached, st.cache, .writer b .done)
  | .reader .lockCache =>
    if st.free .boundCache then
      match st.cache with
      | some ids => some (st.store, st.cache, .reader (.hit ids))
      | none => some (st.store, st.cache, .reader .lockMap)
    else none
  | .reader (.hit ids) => some (st.store, st.cache, .reader (.done ids))
  | .reader .lockMap => if st.free .map then some (st.store, st.cache, .reader .collect) else none
  | .reader .collect => some (st.store, st.cache, .reader (.fill st.store.boundIds))
  | .reader (.fill ids) => some (st.store, some ids, .reader (.done ids))
  | .writer _ .done | .reader (.done _) => none

def lockStep : LockLabel → LockState → Option LockState
  | .spawn x, st => if x.initial then some { st with threads := st.threads ++ [x] } else none
  | .run t, st =>
    st.threads[t]?.bind fun x ↦ (threadStep st x).map fun r ↦ ⟨r.1, r.2.1, st.threads.set t r.2.2⟩

def LockState.load (store : Store) : LockState := ⟨store, none, []⟩

def LockState.waits (st : LockState) : Waits ℕ Mutex where
  holds t m := ∃ x, st.threads[t]? = some x ∧ m ∈ x.holds
  wants t m := ∃ x, st.threads[t]? = some x ∧ x.wants = some m

theorem Binding.call_eq {st : Store} {b : Binding} (h : b.changes st = true) :
    b.call st = (({ st with map := b.insert st } : Store).stamp (b.insert st)).writeDetached := by
  cases b with
  | put s id now =>
    simp only [Binding.call, Binding.insert, Store.put]
    split
    · rename_i r hr
      have hne : ¬ (r.sandboxId = id ∧ r.tier = .live) := by
        rw [not_and_or]
        simpa [Binding.changes, hr] using h
      rw [if_neg hne]
      rfl
    · rfl
  | adoptArchived s now => rfl

theorem exec_writer (st : Store) (cache : Option (List SandboxId)) (b : Binding) :
    (exec lockStep (List.replicate (if b.changes st then 4 else 2) (.run 0))
      ⟨st, cache, [.writer b .lockMap]⟩).map (fun r ↦ (r.store, r.cache)) =
      some (b.call st, if b.changes st then none else cache) := by
  by_cases h : b.changes st = true
  · simp [h, exec, lockStep, threadStep, LockState.free, Thread.holds, List.replicate, Binding.call_eq h]
  · simp [h, exec, lockStep, threadStep, LockState.free, Thread.holds, List.replicate]

/-- A binding change does not take `map` while a `bound_ids` call that missed the cache waits for it
with `bound_cache` in hand, and such a call does not take `bound_cache` while a binding change waits
for it with `map` in hand. -/
def NeverCross (st : LockState) : LockLabel → Prop
  | .spawn _ => True
  | .run t => ∀ x ∈ st.threads[t]?,
    (x.takesMap st.store = true → ∀ y ∈ st.threads, y.readerCrosses = false) ∧
      (x.takesCache st.cache = true → ∀ y ∈ st.threads, y.writerCrosses = false)

instance (st : LockState) : (l : LockLabel) → Decidable (NeverCross st l)
  | .spawn _ => isTrue trivial
  | .run t => inferInstanceAs (Decidable (∀ x ∈ st.threads[t]?,
      (x.takesMap st.store = true → ∀ y ∈ st.threads, y.readerCrosses = false) ∧
        (x.takesCache st.cache = true → ∀ y ∈ st.threads, y.writerCrosses = false)))

def LockState.Aligned (st : LockState) : Prop :=
  (∀ x ∈ st.threads, x.writerCrosses = false) ∨ ∀ x ∈ st.threads, x.readerCrosses = false

section Runs

variable {st st' : LockState} {l : LockLabel}

theorem threadStep_crosses {x x' : Thread} {store : Store} {cache : Option (List SandboxId)}
    (h : threadStep st x = some (store, cache, x')) :
    (x'.writerCrosses = true → x.takesMap st.store = true ∧ x'.readerCrosses = false) ∧
      (x'.readerCrosses = true → x.takesCache st.cache = true ∧ x'.writerCrosses = false) := by
  revert h
  fun_cases threadStep st x <;> intro h <;> cases h
  all_goals simp_all [Thread.writerCrosses, Thread.readerCrosses, Thread.takesMap, Thread.takesCache]

theorem LockState.Aligned.step (h : st.Aligned) (hok : NeverCross st l)
    (hs : lockStep l st = some st') : st'.Aligned := by
  cases l with
  | spawn x =>
    simp only [lockStep, Option.ite_none_right_eq_some, Option.some.injEq] at hs
    obtain ⟨hx, rfl⟩ := hs
    have hnew : x.writerCrosses = false ∧ x.readerCrosses = false := by
      unfold Thread.initial at hx
      split at hx
      · exact ⟨rfl, rfl⟩
      · exact ⟨rfl, rfl⟩
      · cases hx
    refine h.imp (fun hw y hy ↦ ?_) fun hr y hy ↦ ?_
    · rcases List.mem_append.mp hy with hy | hy
      · exact hw y hy
      · rw [List.mem_singleton.mp hy]
        exact hnew.1
    · rcases List.mem_append.mp hy with hy | hy
      · exact hr y hy
      · rw [List.mem_singleton.mp hy]
        exact hnew.2
  | run t =>
    obtain ⟨x, hx, hs⟩ := Option.bind_eq_some_iff.mp hs
    obtain ⟨⟨store, cache, x'⟩, hr, rfl⟩ := Option.map_eq_some_iff.mp hs
    obtain ⟨hwriter, hreader⟩ := threadStep_crosses hr
    have hmem {p : Thread → Bool} (hp : ∀ y ∈ st.threads, p y = false) (hx' : p x' = false) :
        ∀ y ∈ st.threads.set t x', p y = false := by
      intro y hy
      rcases List.mem_or_eq_of_mem_set hy with hy | rfl
      · exact hp y hy
      · exact hx'
    by_cases hw : x'.writerCrosses = true
    · obtain ⟨htakes, hno⟩ := hwriter hw
      exact .inr (hmem ((hok x hx).1 htakes) hno)
    · by_cases hr : x'.readerCrosses = true
      · obtain ⟨htakes, hno⟩ := hreader hr
        exact .inl (hmem ((hok x hx).2 htakes) hno)
      · exact h.imp (fun h ↦ hmem h (by simpa using hw)) fun h ↦ hmem h (by simpa using hr)

theorem Thread.crosses_of_waits {x : Thread} {m m' : Mutex} (hm : m ∈ x.holds)
    (hm' : x.wants = some m') :
    x.writerCrosses = true ∧ m = .map ∧ m' = .boundCache ∨
      x.readerCrosses = true ∧ m = .boundCache ∧ m' = .map := by
  cases x with
  | writer b pc => cases pc <;> simp_all [Thread.holds, Thread.wants, Thread.writerCrosses]
  | reader pc => cases pc <;> simp_all [Thread.holds, Thread.wants, Thread.readerCrosses]

/-- While the calls do not cross, the mutexes are taken in one order, whichever it is. -/
theorem LockState.Aligned.not_deadlocked (h : st.Aligned) : ¬ st.waits.Deadlocked := by
  rcases h with hw | hr
  · apply Waits.not_deadlocked (fun m ↦ if m = .map then 1 else 0) (Set.finite_range _).bddAbove
    rintro t m m' ⟨x, hx, hm⟩ ⟨y, hy, hm'⟩
    cases hx.symm.trans hy
    rcases Thread.crosses_of_waits hm hm' with ⟨hcross, -⟩ | ⟨-, rfl, rfl⟩
    · simp [hw x (List.mem_of_getElem? hx)] at hcross
    · decide
  · apply Waits.not_deadlocked (fun m ↦ if m = .map then 0 else 1) (Set.finite_range _).bddAbove
    rintro t m m' ⟨x, hx, hm⟩ ⟨y, hy, hm'⟩
    cases hx.symm.trans hy
    rcases Thread.crosses_of_waits hm hm' with ⟨-, rfl, rfl⟩ | ⟨hcross, -⟩
    · decide
    · simp [hr x (List.mem_of_getElem? hx)] at hcross

/-- In every run in which no call takes its first mutex against another that waits for it, no calls
wait for each other. -/
theorem store_never_deadlocks {store : Store} (h : Run lockStep NeverCross (.load store) st) :
    ¬ st.waits.Deadlocked := by
  refine LockState.Aligned.not_deadlocked (h.invariant ?_ fun _ _ _ hI hok hs ↦ hI.step hok hs)
  exact .inl (by simp [LockState.load])

theorem store_never_deadlocks_run : ∃ st, Run lockStep NeverCross
    (.load (.load "app\tsb-1\t0\tlive\n" 0)) st ∧ st.store.boundIds = [sb2] ∧ ¬ st.waits.Deadlocked := by
  obtain ⟨st, hr, hst⟩ := Run.exists_of_exec lockStep NeverCross
    (.load (.load "app\tsb-1\t0\tlive\n" 0))
    [.spawn (.writer (.put app sb2 1) .lockMap), .spawn (.reader .lockCache), .run 1, .run 1, .run 1, .run 0,
      .run 1, .run 0, .run 0, .run 0]
    (fun st ↦ st.store.boundIds = [sb2]) (by decide +kernel) (by decide +kernel)
  exact ⟨st, hr, of_decide_eq_true hst, store_never_deadlocks hr⟩

/-- A `put` of a new binding and a `bound_ids` call that misses the cache each take the mutex that
the other one needs next. -/
theorem store_deadlocks : ∃ st, Run lockStep (fun _ _ ↦ True)
    (.load (.load "app\tsb-1\t0\tlive\n" 0)) st ∧ st.waits.Deadlocked := by
  obtain ⟨st, hr, hst⟩ := Run.exists_of_exec lockStep (fun _ _ ↦ True)
    (.load (.load "app\tsb-1\t0\tlive\n" 0))
    [.spawn (.writer (.put app sb2 1) .lockMap), .spawn (.reader .lockCache), .run 0, .run 1]
    (fun st ↦ st.threads[0]?.any Thread.writerCrosses && st.threads[1]?.any Thread.readerCrosses)
    (by decide +kernel) (by decide +kernel)
  simp only [Bool.and_eq_true, Option.any_eq_true] at hst
  obtain ⟨⟨x, hx, hxc⟩, y, hy, hyc⟩ := hst
  have hx' : x.wants = some .boundCache ∧ .map ∈ x.holds := by
    unfold Thread.writerCrosses at hxc
    split at hxc
    · exact ⟨rfl, by simp [Thread.holds]⟩
    · cases hxc
  have hy' : y.wants = some .map ∧ .boundCache ∈ y.holds := by
    unfold Thread.readerCrosses at hyc
    split at hyc
    · exact ⟨rfl, by simp [Thread.holds]⟩
    · cases hyc
  refine ⟨st, hr, {0, 1}, ⟨0, by simp⟩, ?_⟩
  rintro t (rfl | rfl)
  · exact ⟨.boundCache, ⟨x, hx, hx'.1⟩, 1, by simp, by decide, y, hy, hy'.2⟩
  · exact ⟨.map, ⟨y, hy, hy'.1⟩, 0, by simp, by decide, x, hx, hx'.2⟩

end Runs

end PgVmPool
