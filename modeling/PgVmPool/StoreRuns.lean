import PgVmPool.Durability

namespace PgVmPool

open Transition

/-- One `Store` and the calls on it in progress: `flushing` counts the `flush_dirty` calls that have
swapped the flag and not yet taken their snapshot. `loaded` and `log`, the writes that reached the
file, are history only. -/
structure StoreState where
  store : Store
  flushing : ℕ
  loaded : Rows
  log : List (ℕ × String)

/-- What the threads that use a `Store` do, and the blocking pool with it. -/
inductive StoreOp
  | put (s : Schema) (id : SandboxId) (now : UInt64)
  | touch (s : Schema) (now : UInt64)
  | setTier (s : Schema) (tier : Tier)
  | adoptArchived (s : Schema) (now : UInt64)
  | swapDirty
  | snapshot
  | land (k : ℕ) (ok : Bool)

def StoreState.load (file : String) (now : UInt64) : StoreState :=
  ⟨.load file now, 0, parse file now, []⟩

def storeStep : StoreOp → StoreState → Option StoreState
  | .put s id now, r => some { r with store := r.store.put s id now }
  | .touch s now, r => some { r with store := r.store.touch s now }
  | .setTier s tier, r =>
    some { r with store := ((r.store.setTier s tier).map Store.writeDetached).getD r.store }
  | .adoptArchived s now, r => some { r with store := (r.store.adoptArchived s now).writeDetached }
  | .swapDirty, r =>
    some (if r.store.dirty then
      { r with store := { r.store with dirty := false }, flushing := r.flushing + 1 } else r)
  | .snapshot, r =>
    if 0 < r.flushing then
      some { r with store := (r.store.stamp r.store.map).writeDetached, flushing := r.flushing - 1 }
    else none
  | .land k ok, r =>
    (r.store.land k ok).map fun store ↦
      { r with
        store
        log := if store.written = r.store.written then r.log else r.log ++ [(store.written, store.file)] }

/-- The map that the registry file holds: the last one written, or the one it was loaded with. -/
def StoreState.saved (r : StoreState) : Rows :=
  if r.store.written = 0 then r.loaded else (r.store.stamped[r.store.written - 1]?).getD r.loaded

def StoreState.newest (r : StoreState) : Rows := r.store.stamped.getLast?.getD r.loaded

theorem flushDirty_eq (r : StoreState) (h : r.store.dirty = true) :
    (exec storeStep [.swapDirty, .snapshot] r).map (·.store) = some r.store.flushDirty := by
  simp [exec, storeStep, h, Store.flushDirty, Store.stamp, Store.writeDetached]

namespace Store

/-- An operation that writes nothing itself: it stamps nothing, or the map it leaves, and queues
what it stamps. -/
inductive Update (st st' : Store) : Prop
  | same (h : st' = st)
  | bump (h : st' = { st with map := st'.map, dirty := true })
  | stamp (h : st' = (({ st with dirty := st'.dirty } : Store).stamp st'.map).writeDetached)

variable {st st' : Store} {s : Schema}

theorem put_update (st : Store) (s : Schema) (id : SandboxId) (now : UInt64) :
    st.Update (st.put s id now) := by
  unfold Store.put
  split
  · split
    · exact .bump rfl
    · exact .stamp rfl
  · exact .stamp rfl

theorem touch_update (st : Store) (s : Schema) (now : UInt64) : st.Update (st.touch s now) := by
  unfold Store.touch
  split
  · exact .bump rfl
  · exact .same rfl

theorem setTier_update (st : Store) (s : Schema) (tier : Tier) :
    st.Update (((st.setTier s tier).map Store.writeDetached).getD st) := by
  unfold Store.setTier
  cases st.record s with
  | none => exact .same rfl
  | some r => exact .stamp rfl

theorem adoptArchived_update (st : Store) (s : Schema) (now : UInt64) :
    st.Update (st.adoptArchived s now).writeDetached :=
  .stamp rfl

theorem Update.recorded (h : st.Update st') (hrec : st.Recorded) : st'.Recorded ∧ st.Grows st' := by
  cases h with
  | same h =>
    subst h
    exact ⟨hrec, .refl _⟩
  | bump h =>
    rw [h]
    exact ⟨⟨hrec.seq, hrec.queue, hrec.file⟩, .inl rfl, le_rfl, fun _ ↦ rfl⟩
  | stamp h =>
    rw [h]
    have hrec' : ({ st with dirty := st'.dirty } : Store).Recorded := ⟨hrec.seq, hrec.queue, hrec.file⟩
    exact ⟨(hrec'.stamp _).writeDetached (hrec'.stamped_stamp _), .inr rfl, le_rfl, fun _ ↦ rfl⟩

theorem Update.disk (h : st.Update st') : st'.written = st.written ∧ st'.file = st.file := by
  cases h with
  | same h | bump h | stamp h =>
    rw [h]
    exact ⟨rfl, rfl⟩

theorem Recorded.written_le (h : st.Recorded) : st.written ≤ st.seq := by
  rcases h.file with h0 | ⟨m, ⟨hpos, hm⟩, -⟩
  · omega
  · have hlt := (List.getElem?_eq_some_iff.mp hm).1
    have hseq := h.seq
    omega

/-- A write that runs leaves the file alone, or replaces it with a newer generation. -/
theorem land_cases {k : ℕ} {ok : Bool} (h : st.land k ok = some st') :
    ∃ q, st.queue[k]? = some q ∧ st'.queue = st.queue.eraseIdx k ∧ st'.map = st.map ∧
      st'.seq = st.seq ∧ st'.dirty = st.dirty ∧ st'.stamped = st.stamped ∧
      (st'.written = st.written ∧ st'.file = st.file ∧ (q.1 ≤ st.written ∨ ok = false) ∨
        st.written < q.1 ∧ st'.written = q.1 ∧ st'.file = q.2) := by
  obtain ⟨q, hq, rfl⟩ := Option.map_eq_some_iff.mp h
  refine ⟨q, hq, ?_⟩
  unfold Store.writeLatest
  split
  · rename_i hle
    exact ⟨rfl, rfl, rfl, rfl, rfl, .inl ⟨rfl, rfl, .inl hle⟩⟩
  · rename_i hlt
    cases ok with
    | true => exact ⟨rfl, rfl, rfl, rfl, rfl, .inr ⟨not_le.mp hlt, rfl, rfl⟩⟩
    | false => exact ⟨rfl, rfl, rfl, rfl, rfl, .inl ⟨rfl, rfl, .inr rfl⟩⟩

end Store

/-- The steps on a `Store`: a call, the two halves of a flush, or a write that runs. -/
inductive StoreMove (r r' : StoreState) : StoreOp → Prop
  | call {op : StoreOp} (hop : ∀ k ok, op ≠ .land k ok) (h : r.store.Update r'.store)
    (hr : r' = { r with store := r'.store }) : StoreMove r r' op
  | swap (h : r.store.dirty = true) (hr : r' = { r with
      store := { r.store with dirty := false }, flushing := r.flushing + 1 }) : StoreMove r r' .swapDirty
  | snapshot (h : 0 < r.flushing) (hr : r' = { r with
      store := (r.store.stamp r.store.map).writeDetached, flushing := r.flushing - 1 }) :
    StoreMove r r' .snapshot
  | land {k : ℕ} {ok : Bool} (h : r.store.land k ok = some r'.store) (hr : r' = { r with
      store := r'.store
      log := if r'.store.written = r.store.written then r.log
        else r.log ++ [(r'.store.written, r'.store.file)] }) : StoreMove r r' (.land k ok)

theorem storeStep_move {op : StoreOp} {r r' : StoreState} (h : storeStep op r = some r') :
    StoreMove r r' op := by
  cases op with
  | put s id now =>
    cases h
    exact .call nofun (Store.put_update _ _ _ _) rfl
  | touch s now =>
    cases h
    exact .call nofun (Store.touch_update _ _ _) rfl
  | setTier s tier =>
    cases h
    exact .call nofun (Store.setTier_update _ _ _) rfl
  | adoptArchived s now =>
    cases h
    exact .call nofun (Store.adoptArchived_update _ _ _) rfl
  | swapDirty =>
    simp only [storeStep, Option.some.injEq] at h
    subst h
    split
    · exact .swap ‹_› rfl
    · exact .call nofun (.same rfl) rfl
  | snapshot =>
    simp only [storeStep, Option.ite_none_right_eq_some, Option.some.injEq] at h
    exact .snapshot h.1 h.2.symm
  | land k ok =>
    obtain ⟨store, hl, rfl⟩ := Option.map_eq_some_iff.mp h
    exact .land hl rfl

/-- The log has the writes that reached the file, each of its own generation and newer than the one
before. -/
structure StoreState.Logged (file : String) (now : UInt64) (r : StoreState) : Prop where
  recorded : r.store.Recorded
  loaded : r.loaded = parse file now
  log : ∀ q ∈ r.log, r.store.Writes q.1 q.2
  newer : ∀ q ∈ r.log, q.1 ≤ r.store.written
  sorted : (r.log.map Prod.fst).Pairwise (· < ·)
  last : r.log = [] ∧ r.store.written = 0 ∧ r.store.file = file ∨
    r.log.getLast? = some (r.store.written, r.store.file)

section Runs

variable {file : String} {now : UInt64} {r r' : StoreState} {op : StoreOp}

theorem StoreState.Logged.of_disk (h : r.Logged file now) (hrec : r'.store.Recorded)
    (hgrows : r.store.Grows r'.store)
    (hdisk : r'.store.written = r.store.written ∧ r'.store.file = r.store.file)
    (hlog : r'.log = r.log) (hloaded : r'.loaded = r.loaded) : r'.Logged file now where
  recorded := hrec
  loaded := hloaded.trans h.loaded
  log q hq := (h.log q (hlog ▸ hq)).grows hgrows
  newer q hq := (h.newer q (hlog ▸ hq)).trans hdisk.1.ge
  sorted := hlog ▸ h.sorted
  last := by
    rw [hlog, hdisk.1, hdisk.2]
    exact h.last

theorem StoreState.Logged.land (h : r.Logged file now) {k : ℕ} {ok : Bool}
    (hl : r.store.land k ok = some r'.store) (hr : r' = { r with
      store := r'.store
      log := if r'.store.written = r.store.written then r.log
        else r.log ++ [(r'.store.written, r'.store.file)] }) : r'.Logged file now := by
  obtain ⟨hrec, hgrows⟩ := h.recorded.land hl
  obtain ⟨q, hq, -, -, -, -, hst, hdisk⟩ := Store.land_cases hl
  have hloaded : r'.loaded = r.loaded := by rw [hr]
  rcases hdisk with ⟨hw, hf, -⟩ | ⟨hlt, hw, hf⟩
  · exact h.of_disk hrec hgrows ⟨hw, hf⟩ (by rw [hr]; exact if_pos hw) hloaded
  · have hlog : r'.log = r.log ++ [(q.1, q.2)] := by
      rw [hr]
      simp only
      rw [if_neg (by omega), hw, hf]
    have hq' := h.recorded.queue q (List.mem_of_getElem? hq)
    have hall : ∀ p ∈ r'.log, r'.store.Writes p.1 p.2 ∧ p.1 ≤ r'.store.written := by
      intro p hp
      rw [hlog] at hp
      rcases List.mem_append.mp hp with hp | hp
      · exact ⟨(h.log p hp).grows hgrows, (h.newer p hp).trans hgrows.written⟩
      · obtain rfl := List.mem_singleton.mp hp
        exact ⟨hq'.grows hgrows, hw.ge⟩
    refine ⟨hrec, hloaded.trans h.loaded, fun p hp ↦ (hall p hp).1, fun p hp ↦ (hall p hp).2, ?_,
      .inr (by rw [hlog, hw, hf]; simp)⟩
    rw [hlog, List.map_append, List.pairwise_append]
    refine ⟨h.sorted, by simp, fun g hg g' hg' ↦ ?_⟩
    obtain rfl : g' = q.1 := by simpa using hg'
    obtain ⟨p, hp, rfl⟩ := List.mem_map.mp hg
    exact (h.newer p hp).trans_lt hlt

theorem StoreState.Logged.step (h : r.Logged file now) (hs : storeStep op r = some r') :
    r'.Logged file now := by
  cases storeStep_move hs with
  | call _ hu hr =>
    obtain ⟨hrec, hgrows⟩ := hu.recorded h.recorded
    exact h.of_disk hrec hgrows hu.disk (by rw [hr]) (by rw [hr])
  | swap _ hr =>
    subst hr
    exact h.of_disk ⟨h.recorded.seq, h.recorded.queue, h.recorded.file⟩
      ⟨.inl rfl, le_rfl, fun _ ↦ rfl⟩ ⟨rfl, rfl⟩ rfl rfl
  | snapshot _ hr =>
    subst hr
    have hu : r.store.Update (r.store.stamp r.store.map).writeDetached := .stamp rfl
    obtain ⟨hrec, hgrows⟩ := hu.recorded h.recorded
    exact h.of_disk hrec hgrows ⟨rfl, rfl⟩ rfl rfl
  | land hl hr => exact h.land hl hr

theorem StoreState.logged {ok : StoreState → StoreOp → Prop}
    (h : Run storeStep ok (.load file now) r) : r.Logged file now := by
  refine h.invariant ?_ fun _ _ _ hI _ hs ↦ hI.step hs
  exact ⟨⟨rfl, by simp [load, Store.load], .inl rfl⟩, rfl, by simp [load], by simp [load], by simp [load],
    .inl ⟨rfl, rfl, rfl⟩⟩

/-- The contents that the registry file has had are snapshots, in the order of their generations. -/
structure StoreState.NeverRegresses (file : String) (r : StoreState) : Prop where
  increasing : (r.log.map Prod.fst).Pairwise (· < ·)
  stamped : ∀ q ∈ r.log, r.store.Writes q.1 q.2
  sublist : (r.log.map Prod.snd).Sublist (r.store.stamped.map serialize)
  current : r.store.file = (r.log.getLast?.map Prod.snd).getD file

theorem file_never_regresses {ok : StoreState → StoreOp → Prop}
    (h : Run storeStep ok (.load file now) r) : r.NeverRegresses file := by
  have hlog := StoreState.logged h
  refine ⟨hlog.sorted, hlog.log, ?_, ?_⟩
  · refine sublist_of_increasing hlog.sorted fun q hq ↦ ?_
    obtain ⟨m, ⟨hpos, hm⟩, heq⟩ := hlog.log q hq
    exact ⟨hpos, by simp [hm, heq]⟩
  · rcases hlog.last with ⟨hnil, -, hfile⟩ | hlast
    · simp [hnil, hfile]
    · simp [hlast]

theorem serialize_eq_empty_or_newline (m : Rows) :
    (serialize m).toList = [] ∨ (serialize m).toList.getLast? = some '\n' := by
  rw [serialize, String.toList_ofList]
  induction m.entries using List.reverseRecOn with
  | nil => exact .inl rfl
  | append_singleton rows row =>
    right
    rw [List.flatMap_append, List.flatMap_singleton, serializeRow_eq, ← List.append_assoc,
      List.getLast?_concat]

def liveRow : String := "app\tsb-1\t0\tlive\n"

theorem file_never_regresses_run : ∃ r, Run storeStep (fun _ _ ↦ True) (.load liveRow 0) r ∧
    r.log.map Prod.fst = [3] ∧ r.store.queue = [] ∧ r.NeverRegresses liveRow := by
  obtain ⟨r, hr, hst⟩ := Run.exists_of_exec storeStep (fun _ _ ↦ True) (.load liveRow 0)
    [.put app sb2 1, .setTier app .archived, .adoptArchived app 2, .land 2 true, .land 0 false, .land 0 true]
    (fun r ↦ r.log.map Prod.fst = [3] && r.store.queue = []) (by decide +kernel) (by decide +kernel)
  simp only [Bool.and_eq_true, decide_eq_true_eq] at hst
  exact ⟨r, hr, hst.1, hst.2, file_never_regresses hr⟩

/-- Until the first write the file is the one that was loaded, which need not be a snapshot: a row of
the legacy format has no newline and only two columns. -/
theorem file_not_snapshot : ∃ r, Run storeStep (fun _ _ ↦ True) (.load "app\tsb-1" 0) r ∧
    ∀ m, r.store.file ≠ serialize m := by
  refine ⟨_, .refl, fun m hm ↦ ?_⟩
  have hfile : (serialize m).toList = "app\tsb-1".toList := congrArg String.toList hm.symm
  rcases serialize_eq_empty_or_newline m with h | h
  · rw [hfile] at h
    exact absurd h (by decide)
  · rw [hfile] at h
    exact absurd h (by decide)

/-- Whatever the file does not hold is still owed to it: the flag is set, a flush has taken it and
not yet its snapshot, or a snapshot of the map as it is now waits to be written. -/
def StoreState.Remembers (r : StoreState) : Prop :=
  (∃ s, r.saved.lookup s ≠ r.store.map.lookup s) →
    r.store.dirty = true ∨ 0 < r.flushing ∨ ∃ q ∈ r.store.queue, ∃ m, r.store.Stamped q.1 m ∧
      q.2 = serialize m ∧ ∀ s, m.lookup s = r.store.map.lookup s

def StoreOp.settles : StoreOp → Bool
  | .swapDirty | .snapshot | .land _ true => true
  | _ => false

/-- When writes succeed, a flush and the writes that are queued bring the file up to the map. -/
def StoreState.CatchesUp (r : StoreState) : Prop :=
  ∃ ls r', (∀ l ∈ ls, StoreOp.settles l = true) ∧ exec storeStep ls r = some r' ∧
    r'.store.map = r.store.map ∧ ∀ s, r'.saved.lookup s = r.store.map.lookup s

/-- A write of the newest generation fails only while a flush is owed. -/
def FailsCovered (r : StoreState) : StoreOp → Prop
  | .land k false => ∀ q ∈ r.store.queue[k]?, q.1 = r.store.seq →
      r.store.seq ≤ r.store.written ∨ r.store.dirty = true ∨ 0 < r.flushing
  | _ => True

/-- A flush is owed, or the newest generation is the map as it is now and is on disk or queued. -/
def StoreState.Covered (r : StoreState) : Prop :=
  r.store.dirty = true ∨ 0 < r.flushing ∨ r.newest = r.store.map ∧
    (r.store.written = r.store.seq ∨ ∃ q ∈ r.store.queue, q.1 = r.store.seq)

theorem StoreState.saved_eq_newest (hrec : r.store.Recorded) (h : r.store.written = r.store.seq) :
    r.saved = r.newest := by
  have hlen := hrec.seq
  unfold saved newest
  split
  · have hnil : r.store.stamped = [] := List.length_eq_zero_iff.mp (by omega)
    simp [hnil]
  · rw [List.getLast?_eq_getElem?, h, hlen]

theorem StoreState.newest_of_stamped (hrec : r.store.Recorded) {m : Rows}
    (h : r.store.Stamped r.store.seq m) : r.newest = m := by
  have hm := h.2
  rw [hrec.seq] at hm
  simp [newest, List.getLast?_eq_getElem?, hm]

theorem StoreState.Covered.remembers (h : r.Covered) (hrec : r.store.Recorded) : r.Remembers := by
  rintro ⟨s, hs⟩
  rcases h with hd | hf | ⟨hnew, hw | ⟨q, hq, hseq⟩⟩
  · exact .inl hd
  · exact .inr (.inl hf)
  · rw [saved_eq_newest hrec hw, hnew] at hs
    exact absurd rfl hs
  · obtain ⟨m, hm, hser⟩ := hrec.queue q hq
    have hmap : m = r.store.map := (newest_of_stamped hrec (hseq ▸ hm)).symm.trans hnew
    exact .inr (.inr ⟨q, hq, m, hm, hser, fun s ↦ by rw [hmap]⟩)

theorem StoreState.covered_of_stamp {st : Store}
    (h : r.store = (st.stamp r.store.map).writeDetached) : r.Covered := by
  have hq : (r.store.seq, serialize r.store.map) ∈ r.store.queue := by
    rw [h]
    simp [Store.stamp, Store.writeDetached]
  have hlast : r.newest = r.store.map := by
    unfold newest
    rw [h]
    simp [Store.stamp, Store.writeDetached]
  exact .inr (.inr ⟨hlast, .inr ⟨_, hq, rfl⟩⟩)

theorem StoreState.Covered.land (h : r.Covered) (hrec : r.store.Recorded) {k : ℕ} {ok : Bool}
    (hok : FailsCovered r (.land k ok)) (hl : r.store.land k ok = some r'.store)
    (hflush : r'.flushing = r.flushing) (hloaded : r'.loaded = r.loaded) : r'.Covered := by
  obtain ⟨q, hq, hqueue, hmap, hseq, hdirty, hstamped, hdisk⟩ := Store.land_cases hl
  have hle := hrec.written_le
  have hnewest : r'.newest = r.newest := by rw [newest, newest, hstamped, hloaded]
  have hqle : q.1 ≤ r.store.seq := by
    obtain ⟨m, ⟨hpos, hm⟩, -⟩ := hrec.queue q (List.mem_of_getElem? hq)
    have hlen := (List.getElem?_eq_some_iff.mp hm).1
    have hseq := hrec.seq
    omega
  rcases h with hd | hf | ⟨hnew, hcov⟩
  · exact .inl (hdirty.trans hd)
  · exact .inr (.inl (hflush ▸ hf))
  · have hdone : r'.store.written = r'.store.seq → r'.Covered := fun hw ↦
      .inr (.inr ⟨by rw [hnewest, hmap, hnew], .inl hw⟩)
    rcases hcov with hw | ⟨p, hp, hpseq⟩
    · exact hdone (by omega)
    · by_cases hqs : q.1 = r.store.seq
      · rcases hdisk with ⟨hw, -, hskip | rfl⟩ | ⟨-, hw, -⟩
        · exact hdone (by omega)
        · rcases hok q hq hqs with hw' | hd | hf
          · exact hdone (by omega)
          · exact .inl (hdirty.trans hd)
          · exact .inr (.inl (hflush ▸ hf))
        · exact hdone (by omega)
      · obtain ⟨i, hi⟩ := List.mem_iff_getElem?.mp hp
        have hik : i ≠ k := by
          rintro rfl
          cases hi.symm.trans hq
          exact hqs hpseq
        refine .inr (.inr ⟨by rw [hnewest, hmap, hnew], .inr ⟨p, ?_, hpseq.trans hseq.symm⟩⟩)
        rw [hqueue]
        exact List.mem_eraseIdx_iff_getElem?.mpr ⟨i, hik, hi⟩

theorem StoreState.Covered.step (h : r.Covered) (hrec : r.store.Recorded) (hok : FailsCovered r op)
    (hs : storeStep op r = some r') : r'.Covered := by
  cases storeStep_move hs with
  | call _ hu hr =>
    cases hu with
    | same hst =>
      have heq : r' = r := by rw [hr, hst]
      rwa [heq]
    | bump hst => exact .inl (by rw [hst])
    | stamp hst => exact covered_of_stamp hst
  | swap _ hr =>
    subst hr
    exact .inr (.inl (Nat.succ_pos _))
  | snapshot _ hr =>
    subst hr
    exact covered_of_stamp rfl
  | land hl hr => exact h.land hrec hok hl (by rw [hr]) (by rw [hr])

theorem StoreState.covered (h : Run storeStep FailsCovered (.load file now) r) : r.Covered := by
  refine h.invariant_of (fun _ hr ↦ (logged hr).recorded) (.inr (.inr ⟨rfl, .inl rfl⟩)) ?_
  exact fun _ _ _ hI hJ _ hok hs ↦ hI.step hJ hok hs

/-- What is still to be done before the file is up to date: a set flag costs a swap, a snapshot and
a write. -/
def StoreState.owed (r : StoreState) : ℕ :=
  3 * r.store.dirty.toNat + 2 * r.flushing + r.store.queue.length

theorem StoreState.exists_settling (r : StoreState) (h : 0 < r.owed) :
    ∃ op r', StoreOp.settles op = true ∧ storeStep op r = some r' ∧ r'.store.map = r.store.map ∧
      r'.owed < r.owed := by
  cases hd : r.store.dirty with
  | true =>
    refine ⟨.swapDirty, _, rfl, rfl, ?_, ?_⟩
    · simp [hd]
    · simp [owed, hd]
      omega
  | false =>
    by_cases hf : 0 < r.flushing
    · refine ⟨.snapshot, _, rfl, if_pos hf, rfl, ?_⟩
      simp [owed, hd, Store.stamp, Store.writeDetached]
      omega
    · obtain ⟨q, qs, hq⟩ : ∃ q qs, r.store.queue = q :: qs := by
        refine List.exists_cons_of_ne_nil fun hnil ↦ ?_
        simp [owed, hd, hnil] at h
        omega
      have hl : r.store.land 0 true =
          some (({ r.store with queue := qs } : Store).writeLatest q.1 q.2 true) := by
        simp [Store.land, hq]
      refine ⟨.land 0 true, _, rfl, by rw [storeStep, hl]; rfl, Store.land_map hl, ?_⟩
      obtain ⟨-, -, hqueue, -, -, hdirty, -⟩ := Store.land_cases hl
      simp only [owed, hqueue, hdirty, hq, List.eraseIdx_cons_zero, List.length_cons]
      omega

theorem StoreState.Covered.catchesUp (h : r.Covered) (hlog : r.Logged file now) : r.CatchesUp := by
  obtain ⟨ls, r', hls, hrun, hmap, h0⟩ := exists_exec_of_decreasing storeStep
    (fun x ↦ x.store.map = r.store.map) (fun op ↦ op.settles = true) StoreState.owed
    (fun x hx hpos ↦ by
      obtain ⟨op, x', hop, hs, hm, hlt⟩ := x.exists_settling hpos
      exact ⟨op, x', hop, hs, hm.trans hx, hlt⟩) (rfl : r.store.map = r.store.map)
  have hcov : r'.Covered ∧ r'.Logged file now := by
    refine exec_invariant (I := fun x ↦ x.Covered ∧ x.Logged file now) hrun ⟨h, hlog⟩
      fun op hop x x' hx hs ↦ ⟨?_, hx.2.step hs⟩
    have hok : FailsCovered x op := by
      have hset := hls op hop
      unfold FailsCovered
      split
      · cases hset
      · trivial
    exact hx.1.step hx.2.recorded hok hs
  refine ⟨ls, r', hls, hrun, hmap, fun s ↦ ?_⟩
  obtain ⟨hdirty, hflush, hqueue⟩ :
      r'.store.dirty = false ∧ r'.flushing = 0 ∧ r'.store.queue = [] := by
    simp only [owed, Nat.add_eq_zero_iff, mul_eq_zero, Bool.toNat_eq_zero, List.length_eq_zero_iff] at h0
    exact ⟨h0.1.1.resolve_left (by decide), h0.1.2.resolve_left (by decide), h0.2⟩
  rcases hcov.1 with hd | hf | ⟨hnew, hw | ⟨q, hq, -⟩⟩
  · simp [hdirty] at hd
  · omega
  · rw [saved_eq_newest hcov.2.recorded hw, hnew, hmap]
  · simp [hqueue] at hq

/-- In every run in which a write of the newest generation fails only while a flush is owed, what the
file does not hold is still owed to it, and a flush brings it there. -/
theorem update_remembered (h : Run storeStep FailsCovered (.load file now) r) :
    r.Remembers ∧ r.CatchesUp :=
  ⟨(StoreState.covered h).remembers (StoreState.logged h).recorded,
    (StoreState.covered h).catchesUp (StoreState.logged h)⟩

instance (r : StoreState) : (op : StoreOp) → Decidable (FailsCovered r op)
  | .land k false => inferInstanceAs (Decidable (∀ q ∈ r.store.queue[k]?, q.1 = r.store.seq →
      r.store.seq ≤ r.store.written ∨ r.store.dirty = true ∨ 0 < r.flushing))
  | .land _ true | .put _ _ _ | .touch _ _ | .setTier _ _ | .adoptArchived _ _ | .swapDirty | .snapshot =>
    isTrue trivial

theorem update_remembered_run : ∃ r, Run storeStep FailsCovered (.load liveRow 0) r ∧
    r.store.written = 3 ∧ r.Remembers ∧ r.CatchesUp := by
  obtain ⟨r, hr, hw⟩ := Run.exists_of_exec storeStep FailsCovered (.load liveRow 0)
    [.put app sb2 1, .land 0 true, .touch app 2, .swapDirty, .snapshot, .touch app 3, .land 0 false,
      .swapDirty, .snapshot, .land 0 true]
    (fun r ↦ r.store.written = 3) (by decide +kernel) (by decide +kernel)
  exact ⟨r, hr, of_decide_eq_true hw, update_remembered hr⟩

/-- A failed write of a new binding is only logged: the map has the VM, the file never will, and
nothing is left that would write it. -/
theorem update_forgotten : ∃ r, Run storeStep (fun _ _ ↦ True) (.load liveRow 0) r ∧
    ¬ r.Remembers := by
  obtain ⟨r, hr, hst⟩ := Run.exists_of_exec storeStep (fun _ _ ↦ True) (.load liveRow 0)
    [.put app sb2 1, .land 0 false]
    (fun r ↦ r.saved.lookup app ≠ r.store.map.lookup app && !r.store.dirty && r.flushing = 0 &&
      r.store.queue.isEmpty) (by decide +kernel) (by decide +kernel)
  simp only [Bool.and_eq_true, decide_eq_true_eq, Bool.not_eq_true', List.isEmpty_iff] at hst
  obtain ⟨⟨⟨hne, hdirty⟩, hflush⟩, hqueue⟩ := hst
  refine ⟨r, hr, fun hrem ↦ ?_⟩
  rcases hrem ⟨app, hne⟩ with hd | hf | ⟨q, hq, -⟩
  · simp [hdirty] at hd
  · omega
  · simp [hqueue] at hq

end Runs

end PgVmPool
