import PgVmPool.StoreLocks

namespace PgVmPool

open Transition

def idsOf (map : Rows) : List SandboxId := map.entries.map fun r ↦ r.2.sandboxId

/-- The set is that of all bound ids of the map. -/
def Lists (ids : List SandboxId) (map : Rows) : Prop := ∀ id, id ∈ ids ↔ id ∈ idsOf map

/-- What the store holds at one moment. `published` is the map without a change that has not yet cleared
the cache. -/
structure Moment where
  map : Rows
  published : Rows

/-- `published` and `seen` are history: `seen t` are the moments from the call of thread `t` to its return. -/
structure BoundState where
  locks : LockState
  published : Rows
  seen : ℕ → List Moment

/-- `set_tier` and `touch` do not know the cache: each is its section under the map lock. -/
inductive BoundLabel
  | lock (l : LockLabel)
  | setTier (s : Schema) (tier : Tier)
  | touch (s : Schema) (now : UInt64)

namespace Thread

/-- A binding change that is in the map already and not yet out of the cache. -/
def changing : Thread → Bool
  | .writer _ .lockCache | .writer _ .invalidate => true
  | _ => false

def returned : Thread → Bool
  | .writer _ .done | .reader (.done _) => true
  | _ => false

/-- The set that `bound_ids` is going to return. -/
def found : Thread → Option (List SandboxId)
  | .reader (.hit ids) | .reader (.fill ids) | .reader (.done ids) => some ids
  | _ => none

def answer : Thread → Option (List SandboxId)
  | .reader (.done ids) => some ids
  | _ => none

end Thread

namespace BoundState

variable (st : BoundState)

def publish (locks : LockState) : Rows :=
  if locks.threads.any Thread.changing then st.published else locks.store.map

def note (locks : LockState) : BoundState where
  locks := locks
  published := st.publish locks
  seen t :=
    if (st.locks.threads[t]?).any Thread.returned then st.seen t
    else if t < locks.threads.length then st.seen t ++ [⟨locks.store.map, st.publish locks⟩]
    else st.seen t

def load (store : Store) : BoundState := ⟨.load store, store.map, fun _ ↦ []⟩

end BoundState

def boundStep : BoundLabel → BoundState → Option BoundState
  | .lock l, st => (lockStep l st.locks).map st.note
  | .setTier s tier, st =>
    if st.locks.free .map then
      let store := ((st.locks.store.setTier s tier).map Store.writeDetached).getD st.locks.store
      some (st.note { st.locks with store })
    else none
  | .touch s now, st =>
    if st.locks.free .map then some (st.note { st.locks with store := st.locks.store.touch s now }) else none

namespace BoundState

/-- What is returned has all ids of the map at some moment of the call, and no id that was bound at no
moment of it. -/
def Current (st : BoundState) : Prop :=
  ∀ t ids, (st.locks.threads[t]?).bind Thread.answer = some ids →
    (∃ m ∈ st.seen t, ∀ id ∈ idsOf m.map, id ∈ ids) ∧
    ∀ id ∈ ids, ∃ m ∈ st.seen t, id ∈ idsOf m.map

/-- What is returned is the set of the map's ids at some moment of the call, where a change counts from
when it has cleared the cache. -/
def NeverStale (st : BoundState) : Prop :=
  ∀ t ids, (st.locks.threads[t]?).bind Thread.answer = some ids → ∃ m ∈ st.seen t, Lists ids m.published

/-- What holds of the cache and of the calls after every run. -/
structure Sound (st : BoundState) : Prop where
  exclusive : ∀ {t u : ℕ} {x y : Thread} {m : Mutex}, st.locks.threads[t]? = some x →
    st.locks.threads[u]? = some y → m ∈ x.holds → m ∈ y.holds → t = u
  settled : (∀ x ∈ st.locks.threads, x.changing = false) → st.published = st.locks.store.map
  bumps : ∀ (t : ℕ) (b : Binding), st.locks.threads[t]? = some (.writer b .bump) →
    b.changes st.locks.store = false
  cached : ∀ ids ∈ st.locks.cache, Lists ids st.published
  collected : ∀ (t : ℕ) (ids : List SandboxId), st.locks.threads[t]? = some (.reader (.fill ids)) →
    Lists ids st.published
  taken : ∀ (t : ℕ) (x : Thread) (ids : List SandboxId), st.locks.threads[t]? = some x → x.found = some ids →
    ∃ m ∈ st.seen t, Lists ids m.published

end BoundState

section Ids

variable {st st' : Store}

theorem mem_idsOf {map : Rows} {id : SandboxId} :
    id ∈ idsOf map ↔ ∃ s, (map.lookup s).map (·.sandboxId) = some id := by
  simp only [idsOf, List.mem_map, Option.map_eq_some_iff]
  constructor
  · rintro ⟨⟨s, r⟩, hr, hid⟩
    exact ⟨s, r, AList.mem_lookup_iff.mpr hr, hid⟩
  · rintro ⟨s, r, hr, hid⟩
    exact ⟨⟨s, r⟩, AList.mem_lookup_iff.mp hr, hid⟩

theorem lists_boundIds (st : Store) : Lists st.boundIds st.map := by
  intro id
  rw [Store.mem_boundIds, mem_idsOf]
  rfl

theorem mem_idsOf_congr (h : ∀ s, st'.idOf s = st.idOf s) (id : SandboxId) :
    id ∈ idsOf st'.map ↔ id ∈ idsOf st.map := by
  have hrow : ∀ s, (st'.map.lookup s).map (·.sandboxId) = (st.map.lookup s).map (·.sandboxId) := h
  simp only [mem_idsOf, hrow]

theorem Binding.idOf_call {b : Binding} (h : b.changes st = false) (s : Schema) :
    (b.call st).idOf s = st.idOf s := by
  cases b with
  | adoptArchived s' now => cases h
  | put s' id now =>
    simp only [Binding.changes, Bool.not_eq_false', Option.any_eq_true] at h
    obtain ⟨r, hr, hsame⟩ := h
    have hid : r.sandboxId = id := by
      simp only [Bool.and_eq_true, decide_eq_true_eq] at hsame
      exact hsame.1
    by_cases hs : s = s'
    · subst hs
      rw [Binding.call, Store.idOf_put, Store.idOf, hr, Option.map_some, hid]
    · simp only [Binding.call, Store.idOf, Store.record_put_ne hs]

end Ids

section Threads

variable {st : LockState} {x x' : Thread} {store : Store} {cache : Option (List SandboxId)}

/-- A mutex that a call did not hold was free when it took it. -/
theorem threadStep_holds (h : threadStep st x = some (store, cache, x')) {m : Mutex} (hm : m ∈ x'.holds) :
    m ∈ x.holds ∨ st.free m = true := by
  revert h
  fun_cases threadStep st x <;> intro h <;> cases h
  all_goals
    simp only [Thread.holds, List.mem_cons, List.not_mem_nil, or_false] at hm ⊢
    try grind

theorem Thread.changing_holds (h : x.changing = true) : .map ∈ x.holds := by
  unfold Thread.changing at h
  split at h
  · simp [Thread.holds]
  · simp [Thread.holds]
  · cases h

/-- The map is left as it is, or an activity bump leaves its ids, or a change is in it that the cache does
not know of. -/
theorem threadStep_map (h : threadStep st x = some (store, cache, x')) :
    store.map = st.store.map ∨ (∃ b, x = .writer b .bump ∧ store = b.call st.store) ∨
      .map ∈ x'.holds ∧ x'.changing = true ∧ st.free .map = true := by
  revert h
  fun_cases threadStep st x <;> intro h <;> cases h
  all_goals simp_all [Thread.holds, Thread.changing, Store.stamp, Store.writeDetached]

/-- A change stops waiting for the cache by clearing it. -/
theorem threadStep_cleared (h : threadStep st x = some (store, cache, x')) (hx : x.changing = true)
    (hx' : x'.changing = false) : cache = none ∧ .boundCache ∈ x.holds := by
  revert h
  fun_cases threadStep st x <;> intro h <;> cases h
  all_goals simp_all [Thread.holds, Thread.changing]

/-- What the cache holds was in it before, or is what a `bound_ids` call collected. -/
theorem threadStep_cache (h : threadStep st x = some (store, cache, x')) {ids : List SandboxId}
    (hids : cache = some ids) : st.cache = some ids ∨ x = .reader (.fill ids) := by
  revert h
  fun_cases threadStep st x <;> intro h <;> cases h
  all_goals simp_all

/-- A set is found in the cache, or collected under the map lock, or was found before. -/
theorem threadStep_found (h : threadStep st x = some (store, cache, x')) {ids : List SandboxId}
    (hids : x'.found = some ids) :
    x.found = some ids ∨ st.cache = some ids ∧ x = .reader .lockCache ∨
      x = .reader .collect ∧ ids = st.store.boundIds ∧ x' = .reader (.fill ids) ∧ store = st.store := by
  revert h
  fun_cases threadStep st x <;> intro h <;> cases h
  all_goals simp_all [Thread.found]

theorem threadStep_bump (h : threadStep st x = some (store, cache, x')) {b : Binding}
    (hx' : x' = .writer b .bump) : b.changes store = false ∧ store = st.store ∧ st.free .map = true := by
  revert h
  fun_cases threadStep st x <;> intro h <;> cases h
  all_goals simp_all

theorem threadStep_running (h : threadStep st x = some (store, cache, x')) : x.returned = false := by
  revert h
  fun_cases threadStep st x <;> intro h <;> cases h
  all_goals simp_all [Thread.returned]

end Threads

theorem threadStep_fill {st : LockState} {x x' : Thread} {store : Store} {cache : Option (List SandboxId)}
    (h : threadStep st x = some (store, cache, x')) {ids : List SandboxId} (hx' : x' = .reader (.fill ids)) :
    x = .reader .collect ∧ ids = st.store.boundIds ∧ store = st.store := by
  revert h
  fun_cases threadStep st x <;> intro h <;> cases h
  all_goals simp_all

theorem Binding.changes_of_map {st st' : Store} (h : st'.map = st.map) (b : Binding) :
    b.changes st' = b.changes st := by
  cases b with
  | put s id now => simp only [Binding.changes, Store.record, h]
  | adoptArchived s now => rfl

theorem LockState.notMem_holds {st : LockState} {m : Mutex} (h : st.free m = true) {x : Thread}
    (hx : x ∈ st.threads) : m ∉ x.holds := by
  simp only [LockState.free, List.all_eq_true, decide_eq_true_eq] at h
  exact h x hx

namespace BoundState

variable {st : BoundState} {locks : LockState} {t : ℕ} {x x' : Thread} {store : Store}
  {cache : Option (List SandboxId)}

theorem publish_of_settled (h : ∀ y ∈ locks.threads, y.changing = false) :
    st.publish locks = locks.store.map := by
  have hany : ¬locks.threads.any Thread.changing = true := by
    rw [List.any_eq_true]
    rintro ⟨y, hy, hc⟩
    rw [h y hy] at hc
    cases hc
  exact if_neg hany

theorem mem_seen_note {m : Moment} (h : m ∈ st.seen t) : m ∈ (st.note locks).seen t := by
  simp only [note]
  split_ifs
  · exact h
  · exact List.mem_append_left _ h
  · exact h

theorem now_mem_seen (locks : LockState) (hx : st.locks.threads[t]? = some x) (hret : x.returned = false)
    (hlt : t < locks.threads.length) : ⟨locks.store.map, st.publish locks⟩ ∈ (st.note locks).seen t := by
  have hrunning : ¬(st.locks.threads[t]?).any Thread.returned = true := by simp [hx, hret]
  simp only [note]
  rw [if_neg hrunning, if_pos hlt]
  exact List.mem_append_right _ (List.mem_singleton_self _)

def moved (st : BoundState) (t : ℕ) (store : Store) (cache : Option (List SandboxId)) (x' : Thread) :
    LockState :=
  ⟨store, cache, st.locks.threads.set t x'⟩

theorem Sound.exclusive_moved (h : st.Sound) (hx : st.locks.threads[t]? = some x)
    (hr : threadStep st.locks x = some (store, cache, x')) {u v : ℕ} {y z : Thread} {m : Mutex}
    (hy : (st.locks.threads.set t x')[u]? = some y) (hz : (st.locks.threads.set t x')[v]? = some z)
    (hmy : m ∈ y.holds) (hmz : m ∈ z.holds) : u = v := by
  have hother : ∀ w a, w ≠ t → st.locks.threads[w]? = some a → m ∈ a.holds → m ∉ x'.holds := by
    intro w a hw ha hma hmx
    obtain hmx | hfree := threadStep_holds hr hmx
    · exact hw (h.exclusive ha hx hma hmx)
    · exact LockState.notMem_holds hfree (List.mem_of_getElem? ha) hma
  obtain ⟨rfl, rfl⟩ | ⟨hu, hu'⟩ := getElem?_set_cases hy
  · obtain ⟨rfl, -⟩ | ⟨hv, hv'⟩ := getElem?_set_cases hz
    · rfl
    · exact absurd hmy (hother v z hv hv' hmz)
  · obtain ⟨rfl, rfl⟩ | ⟨hv, hv'⟩ := getElem?_set_cases hz
    · exact absurd hmz (hother u y hu hu' hmy)
    · exact h.exclusive hu' hv' hmy hmz

/-- Nothing but a change that clears the cache publishes other ids. -/
theorem Sound.publish_moved (h : st.Sound) (hx : st.locks.threads[t]? = some x)
    (hr : threadStep st.locks x = some (store, cache, x')) (hclear : x'.changing = false → x.changing = false)
    (id : SandboxId) : id ∈ idsOf (st.publish (st.moved t store cache x')) ↔ id ∈ idsOf st.published := by
  by_cases hany : (st.moved t store cache x').threads.any Thread.changing = true
  · rw [publish, if_pos hany]
  · have hlt := (List.getElem?_eq_some_iff.mp hx).1
    have hquiet : ∀ y ∈ st.locks.threads.set t x', y.changing = false := by
      simpa [moved, List.any_eq_true] using hany
    have hx' := hquiet x' (List.mem_set hlt x')
    have hsettled : st.published = st.locks.store.map := by
      refine h.settled fun y hy ↦ ?_
      obtain ⟨u, hu⟩ := List.mem_iff_getElem?.mp hy
      by_cases hut : u = t
      · subst hut
        obtain rfl := Option.some_inj.mp (hx.symm.trans hu)
        exact hclear hx'
      · refine hquiet y (List.mem_of_getElem? (i := u) ?_)
        rw [List.getElem?_set_ne (Ne.symm hut), hu]
    rw [publish_of_settled hquiet, hsettled]
    obtain hmap | ⟨b, rfl, rfl⟩ | ⟨-, hc, -⟩ := threadStep_map hr
    · rw [moved, hmap]
    · exact mem_idsOf_congr (Binding.idOf_call (h.bumps t b hx)) id
    · rw [hx'] at hc
      cases hc

theorem Sound.publish_fill (h : st.Sound) (hx : st.locks.threads[t]? = some (.reader .collect))
    {ids : List SandboxId} : st.publish (st.moved t st.locks.store cache (.reader (.fill ids))) =
      st.locks.store.map := by
  refine publish_of_settled fun y hy ↦ ?_
  by_contra hc
  rw [Bool.not_eq_false] at hc
  obtain ⟨u, hu⟩ := List.mem_iff_getElem?.mp hy
  obtain ⟨rfl, rfl⟩ | ⟨hne, hu⟩ := getElem?_set_cases hu
  · cases hc
  · have hmap : Mutex.map ∈ (Thread.reader .collect).holds := by simp [Thread.holds]
    exact hne (h.exclusive hu hx (Thread.changing_holds hc) hmap)

theorem Sound.run (h : st.Sound) (hx : st.locks.threads[t]? = some x)
    (hr : threadStep st.locks x = some (store, cache, x')) : (st.note (st.moved t store cache x')).Sound := by
  have hlt := (List.getElem?_eq_some_iff.mp hx).1
  have hnow := now_mem_seen (st.moved t store cache x') hx (threadStep_running hr)
    (by simpa [moved] using hlt)
  have hids : ∀ ids, (x'.changing = false → x.changing = false) → Lists ids st.published →
      Lists ids (st.publish (st.moved t store cache x')) :=
    fun ids hclear hl id ↦ (hl id).trans (h.publish_moved hx hr hclear id).symm
  have hfill : ∀ ids, x' = .reader (.fill ids) → Lists ids (st.publish (st.moved t store cache x')) := by
    rintro ids rfl
    obtain ⟨rfl, rfl, rfl⟩ := threadStep_fill hr rfl
    rw [h.publish_fill hx]
    exact lists_boundIds _
  refine ⟨h.exclusive_moved hx hr, fun hq ↦ publish_of_settled hq, ?_, ?_, ?_, ?_⟩
  · intro u b hu
    obtain ⟨rfl, hb⟩ | ⟨hne, hu⟩ := getElem?_set_cases hu
    · exact (threadStep_bump hr hb.symm).1
    · have hold := h.bumps u b hu
      have hmap : Mutex.map ∈ (Thread.writer b .bump).holds := by simp [Thread.holds]
      obtain hsame | ⟨b', rfl, -⟩ | ⟨-, -, hfree⟩ := threadStep_map hr
      · exact (Binding.changes_of_map hsame b).trans hold
      · exact absurd (h.exclusive hu hx hmap (by simp [Thread.holds])) hne
      · exact absurd hmap (LockState.notMem_holds hfree (List.mem_of_getElem? hu))
  · intro ids hc
    by_cases hclear : x'.changing = false → x.changing = false
    · obtain hold | rfl := threadStep_cache hr hc
      · exact hids ids hclear (h.cached ids hold)
      · exact hids ids hclear (h.collected t ids hx)
    · simp only [Classical.not_imp, Bool.not_eq_false] at hclear
      have hnone := (threadStep_cleared hr hclear.2 hclear.1).1
      rw [show cache = some ids from hc] at hnone
      cases hnone
  · intro u ids hu
    obtain ⟨rfl, hb⟩ | ⟨hne, hu⟩ := getElem?_set_cases hu
    · exact hfill ids hb.symm
    · by_cases hclear : x'.changing = false → x.changing = false
      · exact hids ids hclear (h.collected u ids hu)
      · simp only [Classical.not_imp, Bool.not_eq_false] at hclear
        have hholds := (threadStep_cleared hr hclear.2 hclear.1).2
        exact absurd (h.exclusive hu hx (by simp [Thread.holds]) hholds) hne
  · intro u y ids hu hf
    obtain ⟨rfl, rfl⟩ | ⟨hne, hu⟩ := getElem?_set_cases hu
    · obtain hold | ⟨hc, rfl⟩ | ⟨rfl, -, hy, -⟩ := threadStep_found hr hf
      · obtain ⟨m, hm, hl⟩ := h.taken u x ids hx hold
        exact ⟨m, mem_seen_note hm, hl⟩
      · exact ⟨_, hnow, hids ids (fun _ ↦ rfl) (h.cached ids hc)⟩
      · exact ⟨_, hnow, hfill ids hy⟩
    · obtain ⟨m, hm, hl⟩ := h.taken u y ids hu hf
      exact ⟨m, mem_seen_note hm, hl⟩

theorem Sound.spawn (h : st.Sound) (hx : x.initial = true) :
    (st.note { st.locks with threads := st.locks.threads ++ [x] }).Sound := by
  have hnew : x.holds = [] ∧ x.changing = false ∧ x.found = none ∧ ∀ b, x ≠ .writer b .bump := by
    unfold Thread.initial at hx
    split at hx
    · simp [Thread.holds, Thread.changing, Thread.found]
    · simp [Thread.holds, Thread.changing, Thread.found]
    · cases hx
  obtain ⟨hholds, hchanging, hfound, hbump⟩ := hnew
  have hpublish : ∀ ids, Lists ids st.published →
      Lists ids (st.publish { st.locks with threads := st.locks.threads ++ [x] }) := by
    intro ids hl
    by_cases hany : (st.locks.threads ++ [x]).any Thread.changing = true
    · rwa [publish, if_pos hany]
    · have hquiet : ∀ y ∈ st.locks.threads ++ [x], y.changing = false := by
        simpa only [List.any_eq_true, not_exists, not_and, Bool.not_eq_true] using hany
      rw [publish_of_settled hquiet]
      rwa [h.settled fun y hy ↦ hquiet y (List.mem_append_left _ hy)] at hl
  refine ⟨?_, fun hq ↦ publish_of_settled hq, ?_, ?_, ?_, ?_⟩
  · intro u v y z m hy hz hmy hmz
    obtain ⟨-, rfl⟩ | hu := getElem?_append_cases hy
    · simp [hholds] at hmy
    · obtain ⟨-, rfl⟩ | hv := getElem?_append_cases hz
      · simp [hholds] at hmz
      · exact h.exclusive hu hv hmy hmz
  · intro u b hu
    obtain ⟨-, hb⟩ | hu := getElem?_append_cases hu
    · exact absurd hb.symm (hbump b)
    · exact h.bumps u b hu
  · intro ids hc
    exact hpublish ids (h.cached ids hc)
  · intro u ids hu
    obtain ⟨-, hb⟩ | hu := getElem?_append_cases hu
    · rw [← hb] at hfound
      cases hfound
    · exact hpublish ids (h.collected u ids hu)
  · intro u y ids hu hf
    obtain ⟨-, rfl⟩ | hu := getElem?_append_cases hu
    · rw [hfound] at hf
      cases hf
    · obtain ⟨m, hm, hl⟩ := h.taken u y ids hu hf
      exact ⟨m, mem_seen_note hm, hl⟩

theorem Sound.section (h : st.Sound) (hfree : st.locks.free .map = true)
    (hsame : ∀ s, store.idOf s = st.locks.store.idOf s) : (st.note { st.locks with store }).Sound := by
  have hquiet : ∀ y ∈ st.locks.threads, y.changing = false := by
    intro y hy
    by_contra hc
    rw [Bool.not_eq_false] at hc
    exact LockState.notMem_holds hfree hy (Thread.changing_holds hc)
  have hpublish : ∀ ids, Lists ids st.published → Lists ids (st.publish { st.locks with store }) := by
    intro ids hl id
    have hsettled : st.publish { st.locks with store } = store.map := publish_of_settled hquiet
    rw [hsettled, hl id, h.settled hquiet]
    exact (mem_idsOf_congr hsame id).symm
  refine ⟨h.exclusive, fun hq ↦ publish_of_settled hq, ?_, ?_, ?_, ?_⟩
  · intro u b hu
    have hmap : Mutex.map ∈ (Thread.writer b .bump).holds := by simp [Thread.holds]
    exact absurd hmap (LockState.notMem_holds hfree (List.mem_of_getElem? hu))
  · intro ids hc
    exact hpublish ids (h.cached ids hc)
  · intro u ids hu
    exact hpublish ids (h.collected u ids hu)
  · intro u y ids hu hf
    obtain ⟨m, hm, hl⟩ := h.taken u y ids hu hf
    exact ⟨m, mem_seen_note hm, hl⟩

theorem Sound.step {st' : BoundState} {l : BoundLabel} (h : st.Sound) (hs : boundStep l st = some st') :
    st'.Sound := by
  cases l with
  | lock l =>
    obtain ⟨locks, hlocks, rfl⟩ := Option.map_eq_some_iff.mp hs
    cases l with
    | spawn x =>
      simp only [lockStep, Option.ite_none_right_eq_some, Option.some.injEq] at hlocks
      obtain ⟨hx, rfl⟩ := hlocks
      exact h.spawn hx
    | run t =>
      obtain ⟨x, hx, hlocks⟩ := Option.bind_eq_some_iff.mp hlocks
      obtain ⟨⟨store, cache, x'⟩, hr, rfl⟩ := Option.map_eq_some_iff.mp hlocks
      exact h.run hx hr
  | setTier s tier =>
    simp only [boundStep, Option.ite_none_right_eq_some, Option.some.injEq] at hs
    obtain ⟨hfree, rfl⟩ := hs
    refine h.section hfree fun r ↦ ?_
    cases hset : st.locks.store.setTier s tier with
    | none => rfl
    | some store =>
      have hdetached : (store.writeDetached).idOf r = store.idOf r := Store.idOf_of_map rfl r
      rw [Option.map_some, Option.getD_some, hdetached]
      by_cases hr : r = s
      · subst hr
        exact Store.idOf_setTier hset
      · exact congrArg (Option.map _) (Store.record_setTier_ne hset hr)
  | touch s now =>
    simp only [boundStep, Option.ite_none_right_eq_some, Option.some.injEq] at hs
    obtain ⟨hfree, rfl⟩ := hs
    refine h.section hfree fun r ↦ ?_
    by_cases hr : r = s
    · subst hr
      exact Store.idOf_touch _ r now
    · exact congrArg (Option.map _) (Store.record_touch_ne hr now)

theorem sound_load (store : Store) : (load store).Sound := by
  refine ⟨?_, fun _ ↦ rfl, ?_, ?_, ?_, ?_⟩
  · intro t u x y m hx
    cases hx
  · intro t b ht
    cases ht
  · intro ids hc
    cases hc
  · intro t ids ht
    cases ht
  · intro t x ids ht
    cases ht

end BoundState

/-- In every run, what `bound_ids` returns is the set of the ids in the map at some moment of the call,
where a change counts from when it has cleared the cache. -/
theorem bound_ids_never_stale {store : Store} {st : BoundState}
    (h : Run boundStep (fun _ _ ↦ True) (.load store) st) : st.NeverStale := by
  have hsound : st.Sound := h.invariant (BoundState.sound_load store) fun _ _ _ hI _ hs ↦ hI.step hs
  intro t ids ht
  obtain ⟨x, hx, ha⟩ := Option.bind_eq_some_iff.mp ht
  refine hsound.taken t x ids hx ?_
  unfold Thread.answer at ha
  split at ha
  · exact ha
  · cases ha

/-- The store of a registry with the one row `app sb-1 live`. -/
def BoundState.oneRow : BoundState := .load (.load "app\tsb-1\t0\tlive\n" 0)

theorem bound_ids_never_stale_run : ∃ st, Run boundStep (fun _ _ ↦ True) .oneRow st ∧
    (st.locks.threads[1]?).bind Thread.answer = some [sb2] ∧ st.NeverStale := by
  obtain ⟨st, hr, hst⟩ := Run.exists_of_exec boundStep (fun _ _ ↦ True) .oneRow
    [.lock (.spawn (.writer (.put app sb2 1) .lockMap)), .lock (.spawn (.reader .lockCache)), .lock (.run 0),
      .lock (.run 0), .lock (.run 0), .lock (.run 0), .setTier app .frozen, .lock (.run 1), .lock (.run 1),
      .lock (.run 1), .touch app 5, .lock (.run 1)]
    (fun st ↦ (st.locks.threads[1]?).bind Thread.answer = some [sb2]) (by decide +kernel) (by decide +kernel)
  exact ⟨st, hr, of_decide_eq_true hst, bound_ids_never_stale hr⟩

/-- The call comes after a `put` has changed the map and before it clears the cache: it returns the id that
is no longer bound, and not the one that is. -/
theorem bound_ids_stale : ∃ st, Run boundStep (fun _ _ ↦ True) .oneRow st ∧
    (st.locks.threads[2]?).bind Thread.answer = some [sb1] ∧ (∀ m ∈ st.seen 2, idsOf m.map = [sb2]) ∧
      ¬ st.Current := by
  obtain ⟨st, hr, hst⟩ := Run.exists_of_exec boundStep (fun _ _ ↦ True) .oneRow
    [.lock (.spawn (.reader .lockCache)), .lock (.run 0), .lock (.run 0), .lock (.run 0), .lock (.run 0),
      .lock (.spawn (.writer (.put app sb2 1) .lockMap)), .lock (.run 1), .lock (.spawn (.reader .lockCache)),
      .lock (.run 2), .lock (.run 2)]
    (fun st ↦ (st.locks.threads[2]?).bind Thread.answer = some [sb1] ∧ ∀ m ∈ st.seen 2, idsOf m.map = [sb2])
    (by decide +kernel) (by decide +kernel)
  obtain ⟨hanswer, hseen⟩ := of_decide_eq_true hst
  refine ⟨st, hr, hanswer, hseen, fun h ↦ ?_⟩
  obtain ⟨m, hm, hid⟩ := (h 2 [sb1] hanswer).2 sb1 (List.mem_singleton_self _)
  rw [hseen m hm, List.mem_singleton] at hid
  exact absurd hid (by decide)

end PgVmPool
