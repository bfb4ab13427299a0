import PgVmPool.DrainLoop
import PgVmPool.System

namespace PgVmPool

open Function Transition

namespace Tier

def steps : Tier → ℕ
  | .live => 2
  | .compacted | .frozen => 1
  | .archived => 0

end Tier

namespace JobKind

/-- Where a job that succeeds leaves a schema; `none` when it refuses the tier. -/
def lands : JobKind → Tier → Option Tier
  | .promote, .archived | .archive, .archived => none
  | .promote, _ | .archive, _ => some .archived
  | .compact, .live => some .compacted
  | .freeze, .live => some .frozen
  | .imageArchive, .live => some .archived
  | .compact, _ | .freeze, _ | .imageArchive, _ => none

/-- Whether the wrapper of the job calls `record_failure`. -/
def recordsFailure : JobKind → Bool
  | .imageArchive => false
  | .promote | .compact | .archive | .freeze => true

theorem lands_steps {kind : JobKind} {t t' : Tier} (h : kind.lands t = some t') : t'.steps < t.steps := by
  cases kind <;> cases t <;> cases h <;> decide

end JobKind

/-- How a job ended; `until` is when the backoff window of a failure ends. -/
inductive Ended
  | done | skipped
  | failed (deadline : ℕ)
  | panicked (deadline : ℕ)
  deriving DecidableEq

inductive JobResult
  | done | skipped | failed | panicked
  deriving DecidableEq

/-- A job the loop has dispatched, with the tier its schema was picked at. -/
structure Dispatch where
  job : OffloadJob
  tier : Tier
  ended : Option Ended
  deriving DecidableEq

namespace Dispatch

def window (d : Dispatch) : Option ℕ :=
  match d.ended with
  | some (.failed u) | some (.panicked u) => some u
  | some .done | some .skipped | none => none

/-- What the join reports, `none` for a panic. -/
def outcome : Ended → Option JobOutcome
  | .done => some .done
  | .skipped => some .skipped
  | .failed _ => some .failed
  | .panicked _ => none

/-- In flight or failed. -/
def blocks (d : Dispatch) : Bool := d.ended.isNone || d.window.isSome

def step (d : Dispatch) : Option (Schema × Tier) :=
  if d.ended = some .skipped then none else some (d.job.schema, d.tier)

end Dispatch

/-- One `offload_drain_loop` run. `jobs` are the dispatches by task id; `offered` and `streak` are
history: the schema/tier steps that were eligible at a pick, and the failures since the last success. -/
structure Sweep where
  store : Store
  backoff : OffloadBackoff
  now : ℕ
  drain : Drain
  jobs : List Dispatch
  offered : List (Schema × Tier)
  streak : List ℕ

inductive SweepLabel
  | tick (n : ℕ)
  | usage (below : Bool)
  | pick (warm : List (Schema × ℕ × ℕ)) (archiving : List Schema) (unix : UInt64)
  | full
  | finish (id : ℕ) (r : JobResult)
  | join (id : ℕ)
  | recheck
  | close

structure SweepConfig where
  workers : ℕ
  keepalive : Schema → Bool

namespace Sweep

def init (store : Store) (backoff : OffloadBackoff) (now : ℕ) (policy : OffloadPolicy) (standDown : Bool) :
    Sweep := ⟨store, backoff, now, .start policy standDown, [], [], []⟩

def warmOf (warm : List (Schema × ℕ × ℕ)) (s : Schema) : WarmEntry := warm.lookup s

def backingOff (st : Sweep) (archiving : List Schema) (s : Schema) : Bool :=
  st.drain.excludes s || archiving.contains s || (st.backoff.active s st.now).isSome

/-- The schema/tier steps that the picker may choose from. -/
def eligible (cfg : SweepConfig) (st : Sweep) (warm : List (Schema × ℕ × ℕ)) (archiving : List Schema)
    (unix : UInt64) : List (Schema × Tier) :=
  (st.store.records.filter fun r ↦ !cfg.keepalive r.1 && !st.backingOff archiving r.1 &&
    (st.drain.pickPolicy.offer (warmOf warm r.1) r.2 unix).isSome).map fun r ↦ (r.1, r.2.tier)

def next (cfg : SweepConfig) (st : Sweep) (warm : List (Schema × ℕ × ℕ)) (archiving : List Schema)
    (unix : UInt64) : Option OffloadJob × List Schema :=
  pickOffloadJob (warmOf warm) st.drain.pickPolicy cfg.keepalive (st.backingOff archiving) unix
    st.store.records

def dispatch (st : Sweep) (job : OffloadJob) : Dispatch :=
  ⟨job, (st.store.tierOf job.schema).getD .live, none⟩

def pick (cfg : SweepConfig) (st : Sweep) (warm : List (Schema × ℕ × ℕ)) (archiving : List Schema)
    (unix : UInt64) : Option Sweep :=
  let picked := st.next cfg warm archiving unix
  (st.drain.step cfg.workers (.picked st.jobs.length picked.1)).map fun drain ↦
    { st with
      drain
      store := picked.2.foldl (fun store s ↦ store.touch s unix) st.store
      jobs := st.jobs ++ (picked.1.map st.dispatch).toList
      offered := st.offered ++ st.eligible cfg warm archiving unix }

def finish (st : Sweep) (id : ℕ) (d : Dispatch) (r : JobResult) : Option Sweep :=
  let s := d.job.schema
  let deadline := st.now + offloadBackoffDelay (st.backoff.nextFailures s)
  let ends (e : Ended) := st.jobs.set id { d with ended := some e }
  match r with
  | .done =>
    ((st.store.tierOf s).bind d.job.kind.lands).bind fun tier ↦
      (st.store.setTier s tier).map fun store ↦
        { st with store, backoff := st.backoff.clear s, jobs := ends .done }
  | .skipped => some { st with jobs := ends .skipped }
  | .failed => some { st with
      backoff := if d.job.kind.recordsFailure then st.backoff.recordFailure s st.now else st.backoff
      jobs := ends (.failed deadline) }
  | .panicked => some { st with jobs := ends (.panicked deadline) }

def join (cfg : SweepConfig) (st : Sweep) (id : ℕ) (e : Ended) : Option Sweep :=
  (st.drain.step cfg.workers (.joined id (Dispatch.outcome e))).map fun drain ↦
    { st with
      drain
      streak :=
        if st.drain.pc = .wait then
          match e with
          | .done => []
          | .skipped => st.streak
          | .failed _ | .panicked _ => st.streak ++ [id]
        else st.streak }

end Sweep

def sweepStep (cfg : SweepConfig) : SweepLabel → Sweep → Option Sweep
  | .tick n, st => some { st with now := st.now + n }
  | .usage below, st => (st.drain.step cfg.workers (.usage below)).map fun drain ↦ { st with drain }
  | .pick warm archiving unix, st => st.pick cfg warm archiving unix
  | .full, st => (st.drain.step cfg.workers .full).map fun drain ↦ { st with drain }
  | .finish id r, st => (st.jobs[id]?).bind fun d ↦ if d.ended = none then st.finish id d r else none
  | .join id, st =>
    if st.drain.inFlight.any (·.1 = id) then
      ((st.jobs[id]?).bind (·.ended)).bind (st.join cfg id) else none
  | .recheck, st => (st.drain.step cfg.workers .recheck).map fun drain ↦ { st with drain }
  | .close, st => (st.drain.step cfg.workers .close).map fun drain ↦ { st with drain }

/-- No image archive fails, no job panics, and no pick is made after the window of a failure. -/
def Backed (st : Sweep) : SweepLabel → Prop
  | .finish id r => r ≠ .panicked ∧
      (r = .failed → ∀ d ∈ st.jobs[id]?, d.job.kind ≠ .imageArchive)
  | .pick _ _ _ => ∀ d ∈ st.jobs, ∀ u ∈ d.window, st.now < u
  | .tick _ | .usage _ | .full | .join _ | .recheck | .close => True

instance (st : Sweep) : ∀ l : SweepLabel, Decidable (Backed st l)
  | .finish id r => inferInstanceAs (Decidable (r ≠ .panicked ∧
      (r = .failed → ∀ d ∈ st.jobs[id]?, d.job.kind ≠ .imageArchive)))
  | .pick _ _ _ => inferInstanceAs (Decidable (∀ d ∈ st.jobs, ∀ u ∈ d.window, st.now < u))
  | .tick _ | .usage _ | .full | .join _ | .recheck | .close => isTrue trivial

/-- A sweep is not held up by a schema that keeps failing: a failed one is out of the running until its window ends
and is dispatched once, the sweep stops early only after that many different schemas have failed, and it dispatches
no more jobs than were offered. -/
structure Unstalled (st : Sweep) : Prop where
  backedOff : ∀ d ∈ st.jobs, ∀ u, d.window = some u → st.now < u →
    (st.backoff.active d.job.schema st.now).isSome = true
  once : ∀ (i j : ℕ) (d d' : Dispatch), i < j → st.jobs[i]? = some d → st.jobs[j]? = some d' →
    d.window.isSome = true → d'.job.schema ≠ d.job.schema
  aborted : st.drain.aborted = true → ∃ schemas : List Schema,
    schemas.Nodup ∧ sweepMaxConsecutiveFailures ≤ schemas.length ∧
      ∀ s ∈ schemas, ∃ d ∈ st.jobs, d.job.schema = s ∧ d.window.isSome = true
  bounded : (st.jobs.filterMap Dispatch.step).length ≤ st.offered.dedup.length

structure SweepInv (st : Sweep) : Prop where
  running : ∀ (i : ℕ) (d : Dispatch), st.jobs[i]? = some d → d.ended = none → (i, d.job) ∈ st.drain.inFlight
  tiers : ∀ (i : ℕ) (d : Dispatch), st.jobs[i]? = some d → ∃ t, st.store.tierOf d.job.schema = some t ∧
    t.steps ≤ d.tier.steps ∧ (d.ended = some .done → t.steps < d.tier.steps)
  windows : ∀ (i : ℕ) (d : Dispatch) u, st.jobs[i]? = some d → d.window = some u → ∃ n t₀,
    st.backoff d.job.schema = some (n, t₀) ∧ u = t₀ + offloadBackoffDelay n ∧ t₀ ≤ st.now
  once : ∀ (i j : ℕ) (d d' : Dispatch), i < j → st.jobs[i]? = some d → st.jobs[j]? = some d' →
    d.blocks = true → d'.job.schema ≠ d.job.schema
  distinct : ∀ (i j : ℕ) (d d' : Dispatch) x, i < j → st.jobs[i]? = some d → st.jobs[j]? = some d' →
    d.step = some x → d'.step ≠ some x
  offered : ∀ (i : ℕ) (d : Dispatch) x, st.jobs[i]? = some d → d.step = some x → x ∈ st.offered
  counted : st.streak.length = st.drain.failures
  fresh : st.streak.Nodup
  failed : ∀ i ∈ st.streak, (∀ x ∈ st.drain.inFlight, x.1 ≠ i) ∧
    ∃ d, st.jobs[i]? = some d ∧ d.window.isSome = true
  aborted : st.drain.aborted = true → sweepMaxConsecutiveFailures ≤ st.streak.length

section Inv

variable {cfg : SweepConfig} {st st' : Sweep}

theorem SweepInv.init (store : Store) (backoff : OffloadBackoff) (now : ℕ) (policy : OffloadPolicy)
    (standDown : Bool) : SweepInv (.init store backoff now policy standDown) where
  running i d h := by simp [Sweep.init] at h
  tiers i d h := by simp [Sweep.init] at h
  windows i d u h := by simp [Sweep.init] at h
  once i j d d' _ h := by simp [Sweep.init] at h
  distinct i j d d' x _ h := by simp [Sweep.init] at h
  offered i d x h := by simp [Sweep.init] at h
  counted := rfl
  fresh := List.nodup_nil
  failed i h := by simp [Sweep.init] at h
  aborted h := by cases h

theorem OffloadBackoff.active_isSome {b : OffloadBackoff} {s : Schema} {n t₀ now : ℕ}
    (hb : b s = some (n, t₀)) (ht : t₀ ≤ now) (hw : now < t₀ + offloadBackoffDelay n) :
    (b.active s now).isSome = true := by
  have hlt : now - t₀ < offloadBackoffDelay n := by omega
  simp [active, hb, hlt]

theorem SweepInv.active (h : SweepInv st) {i u : ℕ} {d : Dispatch} (hd : st.jobs[i]? = some d)
    (hw : d.window = some u) (hu : st.now < u) : (st.backoff.active d.job.schema st.now).isSome = true := by
  obtain ⟨n, t₀, hb, rfl, ht⟩ := h.windows i d u hd hw
  exact OffloadBackoff.active_isSome hb ht hu

/-- While a schema's job is in flight or its backoff lasts the picker leaves it alone. -/
theorem SweepInv.not_blocked (h : SweepInv st) (hw : ∀ d ∈ st.jobs, ∀ u ∈ d.window, st.now < u)
    {archiving : List Schema} {s : Schema} (hs : st.backingOff archiving s = false) {i : ℕ} {d : Dispatch}
    (hd : st.jobs[i]? = some d) (he : d.job.schema = s) : d.blocks = false := by
  simp only [Sweep.backingOff, Bool.or_eq_false_iff] at hs
  cases hended : d.ended with
  | none =>
    have hex := Drain.excludes_iff.mpr ⟨_, h.running i d hd hended, he⟩
    rw [hex] at hs
    cases hs.1.1
  | some e =>
    cases hwin : d.window with
    | none => simp [Dispatch.blocks, hended, hwin]
    | some u =>
      have hact := h.active hd hwin (hw d (List.mem_of_getElem? hd) u hwin)
      rw [he, hs.2] at hact
      cases hact

theorem Store.tierOf_foldl_touch (store : Store) (refresh : List Schema) (unix : UInt64) (s : Schema) :
    (refresh.foldl (fun store s ↦ store.touch s unix) store).tierOf s = store.tierOf s := by
  induction refresh generalizing store with
  | nil => rfl
  | cons r refresh ih => rw [List.foldl_cons, ih, Store.tierOf_touch]

theorem SweepInv.quiet (h : SweepInv st) {drain : Drain} (hf : drain.inFlight = st.drain.inFlight)
    (hn : drain.failures = st.drain.failures)
    (ha : drain.aborted = true → st.drain.aborted = true ∨ sweepMaxConsecutiveFailures ≤ st.drain.failures) :
    SweepInv { st with drain } := by
  refine ⟨?_, h.tiers, h.windows, h.once, h.distinct, h.offered, h.counted.trans hn.symm, h.fresh, ?_, ?_⟩
  · intro i d hd he
    rw [hf]
    exact h.running i d hd he
  · intro i hi
    rw [hf]
    exact h.failed i hi
  · intro hab
    rcases ha hab with hab | hmax
    · exact h.aborted hab
    · exact hmax.trans h.counted.ge

theorem getElem?_append_pair {α : Type} {xs : List α} {x a b : α} {i j : ℕ} (hij : i < j)
    (hi : (xs ++ [x])[i]? = some a) (hj : (xs ++ [x])[j]? = some b) :
    xs[i]? = some a ∧ (b = x ∨ xs[j]? = some b) := by
  rcases getElem?_append_cases hi with ⟨rfl, -⟩ | hleft
  · have hlt := (List.getElem?_eq_some_iff.mp hj).1
    rw [List.length_append, List.length_singleton] at hlt
    omega
  · rcases getElem?_append_cases hj with ⟨-, hlast⟩ | hright
    · exact ⟨hleft, .inl hlast⟩
    · exact ⟨hleft, .inr hright⟩

/-- A job that no longer blocks its schema has moved it on, or left no step. -/
theorem SweepInv.step_ne (h : SweepInv st) {i : ℕ} {d : Dispatch} {tier : Tier} (hi : st.jobs[i]? = some d)
    (hfree : d.blocks = false) (hrow : st.store.tierOf d.job.schema = some tier) :
    d.step ≠ some (d.job.schema, tier) := by
  intro hx
  unfold Dispatch.step at hx
  split at hx
  · cases hx
  · rename_i hskip
    obtain ⟨-, htier⟩ := Prod.mk.inj (Option.some_inj.mp hx)
    obtain ⟨t, ht, -, hdone⟩ := h.tiers i d hi
    rw [hrow, Option.some_inj] at ht
    cases hended : d.ended with
    | none => simp [Dispatch.blocks, hended] at hfree
    | some e =>
      cases e with
      | done =>
        have hlt := hdone hended
        rw [htier, ← ht] at hlt
        exact absurd hlt (lt_irrefl _)
      | skipped => exact hskip hended
      | failed u => simp [Dispatch.blocks, Dispatch.window, hended] at hfree
      | panicked u => simp [Dispatch.blocks, Dispatch.window, hended] at hfree

theorem SweepInv.pick (h : SweepInv st) {warm : List (Schema × ℕ × ℕ)} {archiving : List Schema}
    {unix : UInt64} (hw : ∀ d ∈ st.jobs, ∀ u ∈ d.window, st.now < u)
    (hs : st.pick cfg warm archiving unix = some st') : SweepInv st' := by
  obtain ⟨drain, hd, rfl⟩ := Option.map_eq_some_iff.mp hs
  obtain ⟨hfly, hfail, hab⟩ := Drain.step_picked hd
  set picked := st.next cfg warm archiving unix with hpicked
  have htier : ∀ s, (picked.2.foldl (fun store s ↦ store.touch s unix) st.store).tierOf s =
      st.store.tierOf s := Store.tierOf_foldl_touch st.store picked.2 unix
  cases hjob : picked.1 with
  | none =>
    rw [hjob] at hfly
    simp only [Option.map_none, Option.toList_none, List.append_nil] at hfly
    have hq := h.quiet hfly hfail fun ha ↦ by rw [hab] at ha; cases ha
    simp only [Option.map_none, Option.toList_none, List.append_nil]
    refine ⟨hq.running, fun i d hi ↦ ?_, hq.windows, hq.once, hq.distinct, fun i d x hi hx ↦ ?_,
      hq.counted, hq.fresh, hq.failed, hq.aborted⟩
    · rw [htier]
      exact h.tiers i d hi
    · exact List.mem_append_left _ (h.offered i d x hi hx)
  | some job =>
    rw [hjob] at hfly
    simp only [Option.map_some, Option.toList_some] at hfly ⊢
    obtain ⟨rec, hrec, hkeep, hback, hoffer⟩ := offered_of_pick (hpicked ▸ hjob)
    have hrow : st.store.tierOf job.schema = some rec.tier := by
      rw [Store.tierOf, Store.mem_records.mp hrec, Option.map_some]
    have hdispatch : st.dispatch job = ⟨job, rec.tier, none⟩ := by
      rw [Sweep.dispatch, hrow, Option.getD_some]
    have hfree : ∀ (i : ℕ) (d : Dispatch), st.jobs[i]? = some d → d.job.schema = job.schema →
        d.blocks = false := fun i d hi he ↦ h.not_blocked hw hback hi he
    rw [hdispatch]
    refine ⟨?_, ?_, ?_, ?_, ?_, ?_, h.counted.trans hfail.symm, h.fresh, ?_, fun ha ↦ ?_⟩
    · intro i d hi he
      rw [hfly]
      rcases getElem?_append_cases hi with ⟨rfl, rfl⟩ | hi
      · exact List.mem_append_right _ (List.mem_singleton_self _)
      · exact List.mem_append_left _ (h.running i d hi he)
    · intro i d hi
      rw [htier]
      rcases getElem?_append_cases hi with ⟨rfl, rfl⟩ | hi
      · exact ⟨rec.tier, hrow, le_rfl, fun he ↦ by cases he⟩
      · exact h.tiers i d hi
    · intro i d u hi hu
      rcases getElem?_append_cases hi with ⟨rfl, rfl⟩ | hi
      · cases hu
      · exact h.windows i d u hi hu
    · intro i j d d' hij hi hj hb
      obtain ⟨hi, rfl | hj⟩ := getElem?_append_pair hij hi hj
      · intro he
        rw [hfree i d hi he.symm] at hb
        cases hb
      · exact h.once i j d d' hij hi hj hb
    · intro i j d d' x hij hi hj hx hx'
      obtain ⟨hi, rfl | hj⟩ := getElem?_append_pair hij hi hj
      · obtain rfl : (job.schema, rec.tier) = x := Option.some_inj.mp hx'
        have hschema : d.job.schema = job.schema := by
          unfold Dispatch.step at hx
          split at hx
          · cases hx
          · exact (Prod.mk.inj (Option.some_inj.mp hx)).1
        rw [← hschema] at hrow hx
        exact h.step_ne hi (hfree i d hi hschema) hrow hx
      · exact h.distinct i j d d' x hij hi hj hx hx'
    · intro i d x hi hx
      rcases getElem?_append_cases hi with ⟨rfl, rfl⟩ | hi
      · obtain rfl : (job.schema, rec.tier) = x := Option.some_inj.mp hx
        refine List.mem_append_right _ (List.mem_map.mpr ⟨(job.schema, rec), ?_, rfl⟩)
        simp [hrec, hkeep, hback, hoffer]
      · exact List.mem_append_left _ (h.offered i d x hi hx)
    · intro i hi
      obtain ⟨hout, d, hd, hwin⟩ := h.failed i hi
      have hlt := (List.getElem?_eq_some_iff.mp hd).1
      refine ⟨fun x hx ↦ ?_, d, by rwa [List.getElem?_append_left hlt], hwin⟩
      rw [hfly] at hx
      rcases List.mem_append.mp hx with hx | hx
      · exact hout x hx
      · obtain rfl := List.mem_singleton.mp hx
        exact hlt.ne'
    · rw [hab] at ha
      cases ha

/-- What the end of a job leaves to show: the tiers and the backoff of the other schemas are as they were. -/
theorem SweepInv.ends (h : SweepInv st) {id : ℕ} {d : Dispatch} (hd : st.jobs[id]? = some d)
    (hrun : d.ended = none) (e : Ended) {store : Store} {backoff : OffloadBackoff}
    (htier : ∃ t t', st.store.tierOf d.job.schema = some t ∧ store.tierOf d.job.schema = some t' ∧
      t'.steps ≤ t.steps ∧ (e = .done → t'.steps < t.steps))
    (hothers : ∀ s, s ≠ d.job.schema → store.tierOf s = st.store.tierOf s ∧ backoff s = st.backoff s)
    (hwindow : ∀ u, Dispatch.window { d with ended := some e } = some u → ∃ n t₀,
      backoff d.job.schema = some (n, t₀) ∧ u = t₀ + offloadBackoffDelay n ∧ t₀ ≤ st.now) :
    SweepInv { st with store, backoff, jobs := st.jobs.set id { d with ended := some e } } := by
  have hblocks : d.blocks = true := by simp [Dispatch.blocks, hrun]
  have hstep : ∀ x, Dispatch.step { d with ended := some e } = some x → d.step = some x := by
    intro x hx
    simp only [Dispatch.step] at hx ⊢
    split at hx
    · cases hx
    · simp [hrun, hx]
  have hsame : ∀ (j : ℕ) (d' : Dispatch), j ≠ id → st.jobs[j]? = some d' → d'.blocks = true →
      d'.job.schema ≠ d.job.schema := by
    intro j d' hj hd' hb
    rcases Nat.lt_or_gt_of_ne hj with hlt | hgt
    · exact (h.once j id d' d hlt hd' hd hb).symm
    · exact h.once id j d d' hgt hd hd' hblocks
  refine ⟨?_, ?_, ?_, ?_, ?_, ?_, h.counted, h.fresh, ?_, h.aborted⟩
  · intro i d' hi he
    rcases getElem?_set_cases hi with ⟨rfl, rfl⟩ | ⟨-, hi⟩
    · cases he
    · exact h.running i d' hi he
  · intro i d' hi
    obtain ⟨t, t', ht, ht', hle, hlt⟩ := htier
    rcases getElem?_set_cases hi with ⟨rfl, rfl⟩ | ⟨-, hi⟩
    · obtain ⟨t₀, ht₀, hle₀, -⟩ := h.tiers i d hd
      rw [ht, Option.some_inj] at ht₀
      subst ht₀
      exact ⟨t', ht', hle.trans hle₀, fun he ↦ (hlt (Option.some_inj.mp he)).trans_le hle₀⟩
    · obtain ⟨t₀, ht₀, hle₀, hlt₀⟩ := h.tiers i d' hi
      by_cases hs : d'.job.schema = d.job.schema
      · rw [hs, ht, Option.some_inj] at ht₀
        subst ht₀
        exact ⟨t', hs ▸ ht', hle.trans hle₀, fun he ↦ hle.trans_lt (hlt₀ he)⟩
      · exact ⟨t₀, (hothers _ hs).1.trans ht₀, hle₀, hlt₀⟩
  · intro i d' u hi hu
    rcases getElem?_set_cases hi with ⟨rfl, rfl⟩ | ⟨hne, hi⟩
    · exact hwindow u hu
    · have hs := hsame i d' hne hi (by simp [Dispatch.blocks, hu])
      obtain ⟨n, t₀, hb, hrest⟩ := h.windows i d' u hi hu
      exact ⟨n, t₀, (hothers _ hs).2.trans hb, hrest⟩
  · intro i j d₁ d₂ hij hi hj hb
    rcases getElem?_set_cases hi with ⟨rfl, rfl⟩ | ⟨-, hi'⟩
    · rcases getElem?_set_cases hj with ⟨rfl, -⟩ | ⟨-, hj'⟩
      · exact absurd hij (lt_irrefl _)
      · exact h.once i j d d₂ hij hd hj' hblocks
    · rcases getElem?_set_cases hj with ⟨rfl, rfl⟩ | ⟨-, hj'⟩
      · exact h.once i j d₁ d hij hi' hd hb
      · exact h.once i j d₁ d₂ hij hi' hj' hb
  · intro i j d₁ d₂ x hij hi hj hx
    rcases getElem?_set_cases hi with ⟨rfl, rfl⟩ | ⟨-, hi'⟩
    · rcases getElem?_set_cases hj with ⟨rfl, -⟩ | ⟨-, hj'⟩
      · exact absurd hij (lt_irrefl _)
      · exact h.distinct i j d d₂ x hij hd hj' (hstep x hx)
    · rcases getElem?_set_cases hj with ⟨rfl, rfl⟩ | ⟨-, hj'⟩
      · exact fun hx' ↦ h.distinct i j d₁ d x hij hi' hd hx (hstep x hx')
      · exact h.distinct i j d₁ d₂ x hij hi' hj' hx
  · intro i d' x hi hx
    rcases getElem?_set_cases hi with ⟨rfl, rfl⟩ | ⟨-, hi⟩
    · exact h.offered i d x hd (hstep x hx)
    · exact h.offered i d' x hi hx
  · intro i hi
    obtain ⟨hout, d', hd', hwin⟩ := h.failed i hi
    refine ⟨hout, d', ?_, hwin⟩
    rw [List.getElem?_set_ne]
    · exact hd'
    · rintro rfl
      obtain rfl := Option.some_inj.mp (hd.symm.trans hd')
      simp [Dispatch.window, hrun] at hwin

theorem SweepInv.finish (h : SweepInv st) {id : ℕ} {d : Dispatch} {r : JobResult}
    (hd : st.jobs[id]? = some d) (hrun : d.ended = none) (hpanic : r ≠ .panicked)
    (himage : r = .failed → d.job.kind ≠ .imageArchive) (hs : st.finish id d r = some st') :
    SweepInv st' := by
  obtain ⟨t, ht, -, -⟩ := h.tiers id d hd
  cases r with
  | done =>
    obtain ⟨tier, hlands, hs⟩ := Option.bind_eq_some_iff.mp hs
    obtain ⟨store, hset, rfl⟩ := Option.map_eq_some_iff.mp hs
    obtain ⟨t', ht', hland⟩ := Option.bind_eq_some_iff.mp hlands
    have hlt := JobKind.lands_steps hland
    exact h.ends hd hrun .done ⟨t', tier, ht', Store.tierOf_setTier hset, hlt.le, fun _ ↦ hlt⟩
      (fun s hne ↦ ⟨Store.tierOf_setTier_ne hset hne, update_of_ne hne ..⟩) fun u hu ↦ by cases hu
  | skipped =>
    cases hs
    exact h.ends hd hrun .skipped ⟨t, t, ht, ht, le_rfl, fun he ↦ by cases he⟩
      (fun s _ ↦ ⟨rfl, rfl⟩) fun u hu ↦ by cases hu
  | failed =>
    have hrec : d.job.kind.recordsFailure = true := by
      have := himage rfl
      cases hk : d.job.kind <;> first | rfl | exact absurd hk this
    simp only [Sweep.finish, hrec, if_true, Option.some_inj] at hs
    subst hs
    refine h.ends hd hrun _ ⟨t, t, ht, ht, le_rfl, fun he ↦ by cases he⟩
      (fun s hne ↦ ⟨rfl, update_of_ne hne ..⟩) fun u hu ↦ ?_
    cases hu
    exact ⟨_, st.now, update_self .., rfl, le_rfl⟩
  | panicked => exact absurd rfl hpanic

theorem SweepInv.join (h : SweepInv st) {id : ℕ} {d : Dispatch} {e : Ended}
    (hfly : st.drain.inFlight.any (·.1 = id) = true) (hd : st.jobs[id]? = some d) (he : d.ended = some e)
    (hs : st.join cfg id e = some st') : SweepInv st' := by
  obtain ⟨drain, hdr, rfl⟩ := Option.map_eq_some_iff.mp hs
  obtain ⟨hrem, hcases⟩ := Drain.step_joined hdr
  have hnot : id ∉ st.streak := by
    intro hm
    obtain ⟨x, hx, hxid⟩ := List.any_eq_true.mp hfly
    exact (h.failed id hm).1 x hx (of_decide_eq_true hxid)
  have hrunning : ∀ (i : ℕ) (d' : Dispatch), st.jobs[i]? = some d' → d'.ended = none →
      (i, d'.job) ∈ drain.inFlight := by
    intro i d' hi hr
    rw [hrem]
    refine Drain.mem_remove.mpr ⟨h.running i d' hi hr, ?_⟩
    rintro rfl
    obtain rfl := Option.some_inj.mp (hd.symm.trans hi)
    rw [hr] at he
    cases he
  have hkeep : ∀ i ∈ st.streak, (∀ x ∈ drain.inFlight, x.1 ≠ i) ∧
      ∃ d, st.jobs[i]? = some d ∧ d.window.isSome = true := by
    intro i hi
    refine ⟨fun x hx ↦ ?_, (h.failed i hi).2⟩
    rw [hrem] at hx
    exact (h.failed i hi).1 x (Drain.mem_remove.mp hx).1
  rcases hcases with ⟨hpc, hab, hfail⟩ | ⟨hpc, hfail, hab⟩
  · have hone : Dispatch.outcome e ≠ some .done → Dispatch.outcome e ≠ some .skipped →
        d.window.isSome = true → SweepInv { st with drain, streak := st.streak ++ [id] } := by
      intro hnd hns hwin
      refine ⟨hrunning, h.tiers, h.windows, h.once, h.distinct, h.offered, ?_, ?_, ?_, fun ha ↦ ?_⟩
      · rw [List.length_append, List.length_singleton, h.counted, hfail]
        cases ho : Dispatch.outcome e with
        | none => rfl
        | some o =>
          cases o with
          | done => exact absurd ho hnd
          | skipped => exact absurd ho hns
          | failed => rfl
      · exact h.fresh.append (List.nodup_singleton id) (by simpa using hnot)
      · intro i hi
        rcases List.mem_append.mp hi with hi | hi
        · exact hkeep i hi
        · obtain rfl := List.mem_singleton.mp hi
          refine ⟨fun x hx ↦ ?_, d, hd, hwin⟩
          rw [hrem] at hx
          exact (Drain.mem_remove.mp hx).2
      · rw [hab] at ha
        cases ha
    simp only [hpc, if_true]
    cases e with
    | done =>
      exact ⟨hrunning, h.tiers, h.windows, h.once, h.distinct, h.offered, hfail.symm, List.nodup_nil,
        fun i hi ↦ (by cases hi), fun ha ↦ (by rw [hab] at ha; cases ha)⟩
    | skipped =>
      exact ⟨hrunning, h.tiers, h.windows, h.once, h.distinct, h.offered, h.counted.trans hfail.symm,
        h.fresh, hkeep, fun ha ↦ (by rw [hab] at ha; cases ha)⟩
    | failed u =>
      exact hone (by simp [Dispatch.outcome]) (by simp [Dispatch.outcome]) (by simp [Dispatch.window, he])
    | panicked u =>
      exact hone (by simp [Dispatch.outcome]) (by simp [Dispatch.outcome]) (by simp [Dispatch.window, he])
  · simp only [hpc, if_false]
    exact ⟨hrunning, h.tiers, h.windows, h.once, h.distinct, h.offered, h.counted.trans hfail.symm,
      h.fresh, hkeep, fun ha ↦ h.aborted (hab ▸ ha)⟩

theorem SweepInv.step (h : SweepInv st) {l : SweepLabel} (hl : Backed st l)
    (hs : sweepStep cfg l st = some st') : SweepInv st' := by
  have hquiet : ∀ {e : DrainEvent}, (∀ id job, e ≠ .picked id job) → (∀ id r, e ≠ .joined id r) →
      ((st.drain.step cfg.workers e).map fun drain ↦ { st with drain }) = some st' → SweepInv st' := by
    intro e hp hj hs
    obtain ⟨drain, hd, rfl⟩ := Option.map_eq_some_iff.mp hs
    obtain ⟨hf, hn, ha, -⟩ := Drain.step_quiet hd hp hj
    exact h.quiet hf hn ha
  cases l with
  | tick n =>
    cases hs
    refine ⟨h.running, h.tiers, fun i d u hi hu ↦ ?_, h.once, h.distinct, h.offered, h.counted, h.fresh,
      h.failed, h.aborted⟩
    obtain ⟨m, t₀, hb, hu', ht⟩ := h.windows i d u hi hu
    exact ⟨m, t₀, hb, hu', ht.trans (Nat.le_add_right _ _)⟩
  | usage below => exact hquiet (by simp) (by simp) hs
  | full => exact hquiet (by simp) (by simp) hs
  | recheck => exact hquiet (by simp) (by simp) hs
  | close => exact hquiet (by simp) (by simp) hs
  | pick warm archiving unix => exact h.pick hl hs
  | finish id r =>
    obtain ⟨d, hd, hs⟩ := Option.bind_eq_some_iff.mp hs
    rw [Option.ite_none_right_eq_some] at hs
    exact h.finish hd hs.1 hl.1 (fun hr ↦ hl.2 hr d hd) hs.2
  | join id =>
    simp only [sweepStep, Option.ite_none_right_eq_some] at hs
    obtain ⟨hfly, hs⟩ := hs
    obtain ⟨e, hde, hs⟩ := Option.bind_eq_some_iff.mp hs
    obtain ⟨d, hd, he⟩ := Option.bind_eq_some_iff.mp hde
    exact h.join hfly hd he hs

/-- The failures since the last success are of different schemas. -/
theorem SweepInv.streak_schemas (h : SweepInv st) : ∃ schemas : List Schema, schemas.Nodup ∧
    schemas.length = st.streak.length ∧
      ∀ s ∈ schemas, ∃ d ∈ st.jobs, d.job.schema = s ∧ d.window.isSome = true := by
  have hsome : ∀ i ∈ st.streak, ∃ d, st.jobs[i]? = some d ∧ d.window.isSome = true :=
    fun i hi ↦ (h.failed i hi).2
  refine ⟨st.streak.map fun i ↦ ((st.jobs[i]?).map (·.job.schema)).getD default, ?_, List.length_map _, ?_⟩
  · refine List.Nodup.map_on (fun i hi j hj he ↦ ?_) h.fresh
    obtain ⟨d, hd, hwin⟩ := hsome i hi
    obtain ⟨d', hd', hwin'⟩ := hsome j hj
    simp only [hd, hd', Option.map_some, Option.getD_some] at he
    by_contra hne
    rcases Nat.lt_or_gt_of_ne hne with hlt | hgt
    · exact h.once i j d d' hlt hd hd' (by simp [Dispatch.blocks, hwin]) he.symm
    · exact h.once j i d' d hgt hd' hd (by simp [Dispatch.blocks, hwin']) he
  · intro s hs
    obtain ⟨i, hi, rfl⟩ := List.mem_map.mp hs
    obtain ⟨d, hd, hwin⟩ := hsome i hi
    exact ⟨d, List.mem_of_getElem? hd, by simp [hd], hwin⟩

theorem SweepInv.unstalled (h : SweepInv st) : Unstalled st := by
  constructor
  · intro d hd u hw hu
    obtain ⟨i, hi⟩ := List.mem_iff_getElem?.mp hd
    exact h.active hi hw hu
  · intro i j d d' hij hi hj hw
    exact h.once i j d d' hij hi hj (by simp [Dispatch.blocks, hw])
  · intro ha
    obtain ⟨schemas, hnodup, hlen, hall⟩ := h.streak_schemas
    exact ⟨schemas, hnodup, hlen ▸ h.aborted ha, hall⟩
  · have hnodup : (st.jobs.filterMap Dispatch.step).Nodup := by
      rw [List.Nodup, List.pairwise_filterMap, List.pairwise_iff_getElem]
      intro i j hi hj hij x hx x' hx' he
      subst he
      exact h.distinct i j _ _ x hij (List.getElem?_eq_getElem hi) (List.getElem?_eq_getElem hj) hx hx'
    refine (hnodup.subperm fun x hx ↦ ?_).length_le
    obtain ⟨d, hd, hx⟩ := List.mem_filterMap.mp hx
    obtain ⟨i, hi⟩ := List.mem_iff_getElem?.mp hd
    exact List.mem_dedup.mpr (h.offered i d x hi hx)

end Inv

/-- In every run of the loop whose failures are recorded and whose picks come before a failure's
window has ended, from any registry and with any outcomes. -/
theorem drain_unstalled {cfg : SweepConfig} {store : Store} {backoff : OffloadBackoff} {now : ℕ}
    {policy : OffloadPolicy} {standDown : Bool} {st : Sweep}
    (h : Run (sweepStep cfg) Backed (.init store backoff now policy standDown) st) : Unstalled st :=
  (h.invariant (SweepInv.init store backoff now policy standDown)
    fun _ _ _ hI hl hs ↦ hI.step hl hs).unstalled

def pressurePolicy (compactAfter : Option ℕ) : OffloadPolicy where
  compactAfter
  freezeAfter := none
  archiveAfter := some 0
  imageArchive := true
  noBoot := false
  mode := .pressure

def Sweep.overApp (compactAfter : Option ℕ) : Sweep :=
  .init (World.recorded .live).store (fun _ ↦ none) 0 (pressurePolicy compactAfter) false

def oneWorker : SweepConfig := ⟨1, fun _ ↦ false⟩

/-- The loop's turn around job `id`, which ends as `r`. -/
def turn (id : ℕ) (r : JobResult) : List SweepLabel :=
  [.usage false, .pick [] [] 9, .full, .finish id r, .join id]

theorem drain_unstalled_run : ∃ st, Run (sweepStep oneWorker) Backed (.overApp (some 0)) st ∧
    st.drain.pc = .done .dry ∧ st.jobs.map (·.job.kind) = [.compact, .promote] ∧
      (st.backoff.active app st.now).isSome = true ∧ Unstalled st := by
  obtain ⟨st, hr, hp⟩ := Run.exists_of_exec (sweepStep oneWorker) Backed (.overApp (some 0))
    (turn 0 .done ++ turn 1 .failed ++ [.usage false, .pick [] [] 9, .close])
    (fun st ↦ decide (st.drain.pc = .done .dry ∧ st.jobs.map (·.job.kind) = [.compact, .promote] ∧
      (st.backoff.active app st.now).isSome = true)) (by decide +kernel) (by decide +kernel)
  obtain ⟨hpc, hjobs, hactive⟩ := of_decide_eq_true hp
  exact ⟨st, hr, hpc, hjobs, hactive, drain_unstalled hr⟩

/-- One schema whose image archive fails is picked until the loop gives up. -/
theorem drain_stalled : ∃ st, Run (sweepStep oneWorker) (fun _ _ ↦ True) (.overApp none) st ∧
    st.drain.pc = .finishing .aborted ∧ st.now = 0 ∧
      st.jobs.map (fun d ↦ (d.job.schema, d.job.kind)) = List.replicate 3 (app, .imageArchive) ∧
        ¬Unstalled st := by
  obtain ⟨st, hr, hp⟩ := Run.exists_of_exec (sweepStep oneWorker) (fun _ _ ↦ True) (.overApp none)
    (turn 0 .failed ++ turn 1 .failed ++ turn 2 .failed ++ [.usage false])
    (fun st ↦ decide (st.drain.pc = .finishing .aborted ∧ st.now = 0 ∧
      st.jobs.map (fun d ↦ (d.job.schema, d.job.kind)) = List.replicate 3 (app, .imageArchive)))
    (by decide +kernel) (by decide +kernel)
  obtain ⟨hpc, hnow, hjobs⟩ := of_decide_eq_true hp
  refine ⟨st, hr, hpc, hnow, hjobs, fun hun ↦ ?_⟩
  obtain ⟨schemas, hnodup, hlen, hall⟩ := hun.aborted (by simp [Drain.aborted, hpc])
  have happ : ∀ s ∈ schemas, s ∈ [app] := by
    intro s hs
    obtain ⟨d, hd, rfl, -⟩ := hall s hs
    have hm := List.mem_map_of_mem (f := fun d : Dispatch ↦ (d.job.schema, d.job.kind)) hd
    rw [hjobs] at hm
    rw [(Prod.mk.inj (List.eq_of_mem_replicate hm)).1]
    exact List.mem_singleton_self _
  have hle := (hnodup.subperm happ).length_le
  have : sweepMaxConsecutiveFailures ≤ 1 := hlen.trans hle
  exact absurd this (by decide)

end PgVmPool
