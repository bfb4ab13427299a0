import PgVmPool.DrainLoop
import PgVmPool.Moves

namespace PgVmPool

open Transition

/-- The configured idle thresholds, in seconds. -/
structure Thresholds where
  compactAfter : ℕ
  freezeAfter : ℕ
  archiveAfter : ℕ

structure OffloadConfig where
  sys : Config
  thresholds : Thresholds
  workers : ℕ

namespace OffloadConfig

def offloadPolicy (cfg : OffloadConfig) : OffloadPolicy where
  compactAfter := if cfg.sys.compact then some cfg.thresholds.compactAfter else none
  freezeAfter := if cfg.sys.freeze then some cfg.thresholds.freezeAfter else none
  archiveAfter := if cfg.sys.archive then some cfg.thresholds.archiveAfter else none
  imageArchive := cfg.sys.imageArchive
  noBoot := false
  mode := .routine

/-- The policy of a pressure pass (`after = 0`) and of a TTL sweep. -/
def drainPolicy (cfg : OffloadConfig) (after : ℕ) : OffloadPolicy where
  compactAfter := if cfg.sys.compact then some after else none
  freezeAfter := none
  archiveAfter := if cfg.sys.archive then some after else none
  imageArchive := cfg.sys.imageArchive
  noBoot := false
  mode := .pressure

end OffloadConfig

def JobKind.offload : JobKind → OffloadKind
  | .promote | .archive => .archive
  | .compact => .compact
  | .imageArchive => .image none
  | .freeze => .freeze

/-- `run_offload_job`. -/
def OffloadJob.task (job : OffloadJob) : Task := .offload job.schema job.kind.offload .begin

namespace OffPc

def ended : OffPc → Bool
  | .done | .failed => true
  | _ => false

def inBringUp : OffPc → Bool
  | .bringUp _ _ _ => true
  | _ => false

/-- Nothing from here on boots a VM. -/
def bootless : OffPc → Bool
  | .claim r => r ≠ .archive && r ≠ .freeze
  | .evict .compact | .evict (.image _) | .readRecord .compact => true
  | .imageTarget _ | .imageCheckpoint _ _ | .imageStop _ _ | .imageDisk _ | .ensureRow _ | .compactDisk _
  | .checkFrozen | .statDump | .uploadDump _ | .verifyDump _ | .statImage | .uploadImage _
  | .verifyImage _ | .deleteDump | .setTier _ _ | .writeTier _ _ _ _ | .finish _ _ _ | .done | .failed =>
    true
  | .begin | .evict _ | .readRecord _ | .bringUp _ _ _ | .leak _ _ | .leakByName _ _ | .leakStop _ _ _
  | .dump _ _ | .uploadScratch _ | .failedCheckpoint _ _ | .failedStop _ _ => false

end OffPc

def Task.ended : Task → Bool
  | .offload _ _ pc => pc.ended
  | _ => false

def Task.outcome : Task → Option JobOutcome → Bool
  | .offload _ _ .done, r => r = some .done
  | .offload _ _ .failed, r => r = some .skipped || r = some .failed
  | _, _ => false

def Task.atBegin : Task → Bool
  | .offload _ _ .begin => true
  | _ => false

def Task.inBringUp : Task → Bool
  | .offload _ _ pc => pc.inBringUp
  | _ => false

/-- What the pacer's tick finds on the host, besides the drain. -/
structure HostNow where
  held : Bool
  bringupsWaiting : Bool
  passRunning : Bool
  sweepArchive : Bool
  headroom : Bool

/-- The pacer's and the drain loop's own state. `ready`: the pacer's checks are over and it is about to
pick. `dispatched` is history. -/
structure Loops where
  pacer : List (ℕ × OffloadJob)
  ready : Bool
  drain : Option Drain
  dispatched : List (ℕ × OffloadJob)

def Loops.idle : Loops := ⟨[], false, none, []⟩

/-- What a pick reads besides the registry and the claims. -/
structure PickInput where
  warm : List (Schema × ℕ × ℕ)
  backoff : List Schema
  unix : UInt64

inductive LoopLabel
  | pacerTick (host : HostNow)
  | pacerPick (x : PickInput)
  | pacerJoin (id : ℕ)
  | drainStart (after : ℕ) (standDown : Bool)
  | drainPick (x : PickInput)
  | drainJoin (id : ℕ) (r : Option JobOutcome)
  | drainQuiet (e : DrainEvent)

def boots (xs : List (ℕ × OffloadJob)) : Bool := xs.any fun x ↦ x.2.kind.boots

def dispatchAllowance (inFlight workers : ℕ) (headroom : Bool) : Bool :=
  if workers ≤ inFlight then false else if inFlight = 0 then true else headroom

/-- `next_offload_job`: the pick and the rows whose clock it refreshes. -/
def nextOffloadJob (cfg : OffloadConfig) (st : State) (policy : OffloadPolicy)
    (inFlight : List (ℕ × OffloadJob)) (x : PickInput) : Option OffloadJob × List Schema :=
  pickOffloadJob (fun s ↦ x.warm.lookup s) policy cfg.sys.keepalive
    (fun s ↦ inFlight.any (fun y ↦ y.2.schema = s) || st.world.archiving s || x.backoff.contains s)
    x.unix st.world.store.records

def pacerNext (cfg : OffloadConfig) (st : State) (p : Loops) (x : PickInput) :
    Option OffloadJob × List Schema :=
  nextOffloadJob cfg st { cfg.offloadPolicy with noBoot := boots p.pacer } p.pacer x

def drainNext (cfg : OffloadConfig) (st : State) (d : Drain) (x : PickInput) :
    Option OffloadJob × List Schema :=
  nextOffloadJob cfg st d.pickPolicy d.inFlight x

/-- A pick is over: clocks are refreshed, the job is spawned. -/
def State.dispatch (st : State) (x : PickInput) (picked : Option OffloadJob × List Schema) : State where
  world := { st.world with
    store := picked.2.foldl (fun store s ↦ store.touch s x.unix) st.world.store }
  tasks := st.tasks ++ (picked.1.map OffloadJob.task).toList

def State.entry (st : State) (job : Option OffloadJob) : List (ℕ × OffloadJob) :=
  (job.map fun job ↦ (st.tasks.length, job)).toList

def loopMove (cfg : OffloadConfig) (st : State) (p : Loops) : LoopLabel → Option (State × Loops)
  | .pacerTick host =>
    if host.held || host.bringupsWaiting || host.passRunning || host.sweepArchive || p.drain.isSome ||
        !dispatchAllowance p.pacer.length cfg.workers host.headroom then none
    else some (st, { p with ready := true })
  | .pacerPick x =>
    if p.ready then
      let picked := pacerNext cfg st p x
      some (st.dispatch x picked, { p with
        pacer := p.pacer ++ st.entry picked.1
        ready := false
        dispatched := p.dispatched ++ st.entry picked.1 })
    else none
  | .pacerJoin id =>
    if p.pacer.any (·.1 = id) && (st.tasks[id]?).any (fun t ↦ [some .done, some .skipped].any t.outcome) then
      some (st, { p with pacer := p.pacer.filter (·.1 ≠ id) })
    else none
  | .drainStart after standDown =>
    match p.drain with
    | none => some (st, { p with drain := some (.start (cfg.drainPolicy after) standDown) })
    | some _ => none
  | .drainPick x =>
    p.drain.bind fun d ↦
      let picked := drainNext cfg st d x
      (d.step cfg.workers (.picked st.tasks.length picked.1)).map fun d' ↦
        (st.dispatch x picked, { p with
          drain := some d'
          dispatched := p.dispatched ++ st.entry picked.1 })
  | .drainJoin id r =>
    p.drain.bind fun d ↦
      if d.inFlight.any (·.1 = id) && (st.tasks[id]?).any (fun t ↦ t.outcome r) then
        (d.step cfg.workers (.joined id r)).map fun d' ↦ (st, { p with drain := some d' })
      else none
  | .drainQuiet e =>
    p.drain.bind fun d ↦
      match e with
      | .picked _ _ | .joined _ _ => none
      | e => (d.step cfg.workers e).map fun d' ↦
          (st, { p with drain := match d'.pc with
            | .done _ => none
            | _ => some d' })

abbrev Paced := Beside State Loops Unit

abbrev pacedStep (cfg : OffloadConfig) : Label ⊕ LoopLabel → Paced → Option Paced :=
  beside (step cfg.sys) (loopMove cfg) fun _ _ _ ↦ ()

def Paced.boot (w : World) : Paced := ⟨.boot w, .idle, ()⟩

/-- A loop picks a job that boots only when the other has none in flight, and a promotion finds a local
tier when it runs. -/
def Capped (cfg : OffloadConfig) (j : Paced) : Label ⊕ LoopLabel → Prop
  | .inr (.pacerPick x) => ∀ job ∈ (pacerNext cfg j.sys j.pc x).1, job.kind.boots = true →
      ∀ d ∈ j.pc.drain, boots d.inFlight = false
  | .inr (.drainPick x) => ∀ d ∈ j.pc.drain, ∀ job ∈ (drainNext cfg j.sys d x).1, job.kind.boots = true →
      boots j.pc.pacer = false
  | .inl (.run t _) => ∀ x ∈ j.pc.dispatched, x.1 = t → x.2.kind = .promote →
      (j.sys.tasks[t]?).any Task.atBegin = true →
        (j.sys.world.store.tierOf x.2.schema).any (· ≠ .live) = true
  | _ => True

def State.inBringUp (st : State) (id : ℕ) : Bool := (st.tasks[id]?).any Task.inBringUp

/-- At most one dispatched job is in a bring-up, and it was picked as one that boots. -/
structure OneBoot (j : Paced) : Prop where
  one : ∀ x ∈ j.pc.dispatched, ∀ y ∈ j.pc.dispatched, j.sys.inBringUp x.1 = true →
    j.sys.inBringUp y.1 = true → x = y
  kind : ∀ x ∈ j.pc.dispatched, j.sys.inBringUp x.1 = true → x.2.kind.boots = true

instance (cfg : OffloadConfig) (j : Paced) : ∀ l : Label ⊕ LoopLabel, Decidable (Capped cfg j l)
  | .inr (.pacerPick x) => inferInstanceAs (Decidable (∀ job ∈ (pacerNext cfg j.sys j.pc x).1,
      job.kind.boots = true → ∀ d ∈ j.pc.drain, boots d.inFlight = false))
  | .inr (.drainPick x) => inferInstanceAs (Decidable (∀ d ∈ j.pc.drain,
      ∀ job ∈ (drainNext cfg j.sys d x).1, job.kind.boots = true → boots j.pc.pacer = false))
  | .inl (.run t _) => inferInstanceAs (Decidable (∀ x ∈ j.pc.dispatched, x.1 = t →
      x.2.kind = .promote → (j.sys.tasks[t]?).any Task.atBegin = true →
        (j.sys.world.store.tierOf x.2.schema).any (· ≠ .live) = true))
  | .inl (.spawn _) | .inl (.land _ _) | .inl (.tick _) | .inl (.publish _ _) | .inl .flush
  | .inr (.pacerTick _) | .inr (.pacerJoin _) | .inr (.drainStart _ _) | .inr (.drainJoin _ _)
  | .inr (.drainQuiet _) => isTrue trivial

section Steps

variable {cfg : Config} {s : Schema} {kind : OffloadKind} {w w' : World} {pc pc' : OffPc} {a : Answer}

theorem offBegin_bootless {k : JobKind} (hk : k.boots = false) {tier : Option Tier}
    (ht : k = .promote → tier.any (· ≠ .live) = true) : (offBegin cfg tier k.offload).bootless = true := by
  cases k with
  | archive => cases hk
  | freeze => cases hk
  | compact =>
    simp only [JobKind.offload, offBegin]
    split <;> rfl
  | imageArchive =>
    simp only [JobKind.offload, offBegin]
    split <;> rfl
  | promote =>
    simp only [JobKind.offload, offBegin]
    split
    · rfl
    · cases tier with
      | none => simp at ht
      | some tier =>
        cases tier with
        | live => simp at ht
        | frozen => rfl
        | archived => rfl
        | compacted =>
          dsimp only
          split <;> rfl

theorem offCore_bootless (h : offCore cfg s kind w pc a = some (w', pc')) (hb : pc.bootless = true) :
    pc'.bootless = true := by
  revert h
  fun_cases offCore cfg s kind w pc a <;> intro h <;> (try cases h) <;> (try cases hb) <;> (try rfl)
  case case5 r _ => cases r <;> first | rfl | simp [OffPc.bootless] at hb
  case case6 r =>
    obtain rfl : (offEvict s r w).2 = pc' := by rw [Option.some.inj h]
    unfold offEvict Route.afterEvict
    cases r <;> cases hb
    all_goals
      repeat' split
      all_goals rfl
  case case9 r hr => cases r <;> first | exact absurd rfl hr | cases hb
  case case33 | case36 | case41 | case45 =>
    obtain ⟨_, -, heq⟩ := Option.map_eq_some_iff.mp h
    cases heq
    rfl
  case case38 | case39 | case42 | case43 | case46 => split <;> rfl

theorem offCore_begin (h : offCore cfg s kind w .begin a = some (w', pc')) :
    pc' = offBegin cfg (w.store.tierOf s) kind := by
  cases a <;> cases h
  rfl

theorem offCore_ended (hpc : pc.ended = true) : offCore cfg s kind w pc a = none := by
  cases pc <;> cases hpc <;> cases a <;> rfl

end Steps

theorem Task.ended_of_outcome {t : Task} {r : Option JobOutcome} (h : t.outcome r = true) :
    t.ended = true := by
  unfold outcome at h
  split at h
  · rfl
  · rfl
  · cases h

def OneBooter (xs : List (ℕ × OffloadJob)) : Prop :=
  ∀ x ∈ xs, ∀ y ∈ xs, x.2.kind.boots = true → y.2.kind.boots = true → x = y

theorem boots_false {xs : List (ℕ × OffloadJob)} (h : boots xs = false) {x : ℕ × OffloadJob} (hx : x ∈ xs) :
    x.2.kind.boots = false := by
  simpa using List.any_eq_false.mp h x hx

theorem OneBooter.of_subset {xs ys : List (ℕ × OffloadJob)} (h : OneBooter xs) (hsub : ∀ x ∈ ys, x ∈ xs) :
    OneBooter ys := fun x hx y hy ↦ h x (hsub x hx) y (hsub y hy)

theorem OneBooter.append {xs : List (ℕ × OffloadJob)} (h : OneBooter xs) {z : ℕ × OffloadJob}
    (hz : z.2.kind.boots = true → boots xs = false) : OneBooter (xs ++ [z]) := by
  intro x hx y hy hbx hby
  rcases List.mem_append.mp hx with hx' | hx'
  · rcases List.mem_append.mp hy with hy' | hy'
    · exact h x hx' y hy' hbx hby
    · obtain rfl := List.mem_singleton.mp hy'
      rw [boots_false (hz hby) hx'] at hbx
      cases hbx
  · obtain rfl := List.mem_singleton.mp hx'
    rcases List.mem_append.mp hy with hy' | hy'
    · rw [boots_false (hz hbx) hy'] at hby
      cases hby
    · exact (List.mem_singleton.mp hy').symm

/-- A pick that boots is made with nothing booting in flight. -/
theorem nextOffloadJob_boots {cfg : OffloadConfig} {st : State} {policy : OffloadPolicy}
    {inFlight : List (ℕ × OffloadJob)} {x : PickInput} {job : OffloadJob}
    (h : (nextOffloadJob cfg st policy inFlight x).1 = some job) (hb : job.kind.boots = true) :
    policy.noBoot = false := by
  obtain ⟨rec, -, -, -, hoffer⟩ := offered_of_pick h
  rcases OffloadPolicy.offer_tier hoffer with ⟨hk, -⟩ | ⟨-, -, hno⟩
  · rw [hk] at hb
    cases hb
  · exact hno hb

/-- The dispatched jobs have their tasks, which are in flight or over; what boots is alone. -/
structure LoopInv (j : Paced) : Prop where
  jobs : ∀ x ∈ j.pc.dispatched, ∃ pc, j.sys.tasks[x.1]? = some (.offload x.2.schema x.2.kind.offload pc) ∧
    (x.2.kind.boots = true ∨ pc = .begin ∨ pc.bootless = true)
  flying : ∀ x ∈ j.pc.dispatched, x ∈ j.pc.pacer ∨ (∃ d ∈ j.pc.drain, x ∈ d.inFlight) ∨
    (j.sys.tasks[x.1]?).any Task.ended = true
  pacerOne : OneBooter j.pc.pacer
  drainOne : ∀ d ∈ j.pc.drain, OneBooter d.inFlight
  apart : ∀ d ∈ j.pc.drain, ∀ x ∈ j.pc.pacer, ∀ y ∈ d.inFlight, x.2.kind.boots = true →
    y.2.kind.boots = false

section Inv

variable {cfg : OffloadConfig} {j j' : Paced}

theorem LoopInv.oneBoot (h : LoopInv j) : OneBoot j := by
  have hkind : ∀ x ∈ j.pc.dispatched, j.sys.inBringUp x.1 = true → x.2.kind.boots = true ∧
      (x ∈ j.pc.pacer ∨ ∃ d ∈ j.pc.drain, x ∈ d.inFlight) := by
    intro x hx hb
    obtain ⟨pc, ht, hok⟩ := h.jobs x hx
    simp only [State.inBringUp, ht, Option.any_some, Task.inBringUp] at hb
    obtain ⟨r, known, p, rfl⟩ : ∃ r known p, pc = .bringUp r known p := by
      cases pc <;> first | exact ⟨_, _, _, rfl⟩ | cases hb
    refine ⟨?_, ?_⟩
    · rcases hok with hok | hok | hok
      · exact hok
      · cases hok
      · cases hok
    · rcases h.flying x hx with hf | hf | hf
      · exact .inl hf
      · exact .inr hf
      · simp [ht, Task.ended, OffPc.ended] at hf
  constructor
  · intro x hx y hy hbx hby
    obtain ⟨hkx, hx⟩ := hkind x hx hbx
    obtain ⟨hky, hy⟩ := hkind y hy hby
    rcases hx with hx | ⟨d, hd, hx⟩
    · rcases hy with hy | ⟨d, hd, hy⟩
      · exact h.pacerOne x hx y hy hkx hky
      · rw [h.apart d hd x hx y hy hkx] at hky
        cases hky
    · rcases hy with hy | ⟨d', hd', hy⟩
      · rw [h.apart d hd y hy x hx hky] at hkx
        cases hkx
      · obtain rfl := Option.mem_unique hd hd'
        exact h.drainOne d hd x hx y hy hkx hky
  · exact fun x hx hb ↦ (hkind x hx hb).1

/-- A step of the system moves the tasks of the dispatched jobs. -/
theorem LoopInv.sys (h : LoopInv j) {l : Label} {st' : State} (hcap : Capped cfg j (.inl l))
    (hs : step cfg.sys l j.sys = some st') : LoopInv ⟨st', j.pc, ()⟩ := by
  refine ⟨fun x hx ↦ ?_, fun x hx ↦ ?_, h.pacerOne, h.drainOne, h.apart⟩
  · obtain ⟨pc, ht, hok⟩ := h.jobs x hx
    rcases step_task hs ht with ⟨a, y, rfl, hy, ht'⟩ | ht'
    · obtain ⟨⟨w', pc'⟩, hstep, heq⟩ := Option.map_eq_some_iff.mp hy
      cases heq
      obtain ⟨u, hu, -⟩ := offStep_eq hstep
      refine ⟨pc', ht', ?_⟩
      rcases hok with hok | rfl | hok
      · exact .inl hok
      · cases hb : x.2.kind.boots with
        | true => exact .inl rfl
        | false =>
          rw [offCore_begin hu]
          refine .inr (.inr (offBegin_bootless hb fun hk ↦ hcap x hx rfl hk ?_))
          simp [ht, Task.atBegin]
      · exact .inr (.inr (offCore_bootless hu hok))
    · exact ⟨pc, ht', hok⟩
  · rcases h.flying x hx with hf | hf | hf
    · exact .inl hf
    · exact .inr (.inl hf)
    · obtain ⟨pc, ht, -⟩ := h.jobs x hx
      rcases step_task hs ht with ⟨a, y, -, hy, -⟩ | ht'
      · obtain ⟨_, hstep, -⟩ := Option.map_eq_some_iff.mp hy
        obtain ⟨u, hu, -⟩ := offStep_eq hstep
        simp only [ht, Option.any_some, Task.ended] at hf
        rw [offCore_ended hf] at hu
        cases hu
      · exact .inr (.inr (by rw [ht', ← ht]; exact hf))

theorem flying_filter {st : State} {xs : List (ℕ × OffloadJob)} {id : ℕ} {x : ℕ × OffloadJob}
    (hx : x ∈ xs) (hended : (st.tasks[id]?).any Task.ended = true) :
    x ∈ xs.filter (·.1 ≠ id) ∨ (st.tasks[x.1]?).any Task.ended = true := by
  by_cases he : x.1 = id
  · exact .inr (he ▸ hended)
  · exact .inl (List.mem_filter.mpr ⟨hx, by simpa using he⟩)

theorem LoopInv.dispatch (h : LoopInv j) {x : PickInput} {picked : Option OffloadJob × List Schema}
    {pacer : List (ℕ × OffloadJob)} {ready : Bool} {drain : Option Drain}
    (hold : ∀ y ∈ j.pc.pacer, y ∈ pacer)
    (hdrain : ∀ d ∈ j.pc.drain, ∃ d' ∈ drain, ∀ y ∈ d.inFlight, y ∈ d'.inFlight)
    (hnew : ∀ y ∈ j.sys.entry picked.1, y ∈ pacer ∨ ∃ d ∈ drain, y ∈ d.inFlight)
    (hp : OneBooter pacer) (hd : ∀ d ∈ drain, OneBooter d.inFlight)
    (hapart : ∀ d ∈ drain, ∀ y ∈ pacer, ∀ z ∈ d.inFlight,
      y.2.kind.boots = true → z.2.kind.boots = false) :
    LoopInv ⟨j.sys.dispatch x picked,
      ⟨pacer, ready, drain, j.pc.dispatched ++ j.sys.entry picked.1⟩, ()⟩ := by
  refine ⟨fun y hy ↦ ?_, fun y hy ↦ ?_, hp, hd, hapart⟩
  · rcases List.mem_append.mp hy with hy | hy
    · obtain ⟨pc, ht, hok⟩ := h.jobs y hy
      refine ⟨pc, ?_, hok⟩
      rw [State.dispatch, List.getElem?_append_left (List.getElem?_eq_some_iff.mp ht).1]
      exact ht
    · cases hjob : picked.1 with
      | none => simp [State.entry, hjob] at hy
      | some job =>
        simp only [State.entry, hjob, Option.map_some, Option.toList_some, List.mem_singleton] at hy
        subst hy
        refine ⟨.begin, ?_, .inr (.inl rfl)⟩
        simp [State.dispatch, hjob, OffloadJob.task]
  · rcases List.mem_append.mp hy with hy | hy
    · rcases h.flying y hy with hf | ⟨d, hd, hf⟩ | hf
      · exact .inl (hold y hf)
      · obtain ⟨d', hd', hsub⟩ := hdrain d hd
        exact .inr (.inl ⟨d', hd', hsub y hf⟩)
      · obtain ⟨pc, ht, -⟩ := h.jobs y hy
        refine .inr (.inr ?_)
        rw [State.dispatch, List.getElem?_append_left (List.getElem?_eq_some_iff.mp ht).1]
        exact hf
    · rcases hnew y hy with hf | hf
      · exact .inl hf
      · exact .inr (.inl hf)

theorem entry_cases (st : State) (job : Option OffloadJob) :
    job = none ∧ st.entry job = [] ∨ ∃ k, job = some k ∧ st.entry job = [(st.tasks.length, k)] := by
  cases job with
  | none => exact .inl ⟨rfl, rfl⟩
  | some k => exact .inr ⟨k, rfl, rfl⟩

theorem OneBooter.append_entry {st : State} {job : Option OffloadJob} {xs : List (ℕ × OffloadJob)}
    (h : OneBooter xs) (hjob : ∀ k, job = some k → k.kind.boots = true → boots xs = false) :
    OneBooter (xs ++ st.entry job) := by
  rcases entry_cases st job with ⟨-, he⟩ | ⟨k, hk, he⟩
  · rw [he, List.append_nil]
    exact h
  · rw [he]
    exact h.append fun hb ↦ hjob k hk hb

theorem LoopInv.pacerPick (h : LoopInv j) {x : PickInput} (hcap : Capped cfg j (.inr (.pacerPick x))) :
    LoopInv ⟨j.sys.dispatch x (pacerNext cfg j.sys j.pc x), { j.pc with
      pacer := j.pc.pacer ++ j.sys.entry (pacerNext cfg j.sys j.pc x).1
      ready := false
      dispatched := j.pc.dispatched ++ j.sys.entry (pacerNext cfg j.sys j.pc x).1 }, ()⟩ := by
  refine h.dispatch (fun y hy ↦ List.mem_append_left _ hy) (fun d hd ↦ ⟨d, hd, fun _ hy ↦ hy⟩)
    (fun y hy ↦ .inl (List.mem_append_right _ hy))
    (h.pacerOne.append_entry fun k hk hb ↦ nextOffloadJob_boots hk hb) h.drainOne fun d hd y hy z hz hb ↦ ?_
  rcases List.mem_append.mp hy with hy | hy
  · exact h.apart d hd y hy z hz hb
  · rcases entry_cases j.sys (pacerNext cfg j.sys j.pc x).1 with ⟨-, he⟩ | ⟨k, hk, he⟩
    · rw [he] at hy
      cases hy
    · rw [he, List.mem_singleton] at hy
      subst hy
      exact boots_false (hcap k hk hb d hd) hz

theorem LoopInv.drainPick (h : LoopInv j) {x : PickInput} {d d' : Drain}
    (hcap : Capped cfg j (.inr (.drainPick x))) (hd : j.pc.drain = some d)
    (hs : d.step cfg.workers (.picked j.sys.tasks.length (drainNext cfg j.sys d x).1) = some d') :
    LoopInv ⟨j.sys.dispatch x (drainNext cfg j.sys d x), { j.pc with
      drain := some d'
      dispatched := j.pc.dispatched ++ j.sys.entry (drainNext cfg j.sys d x).1 }, ()⟩ := by
  obtain ⟨hfly, -, -⟩ := Drain.step_picked hs
  have hfly' : d'.inFlight = d.inFlight ++ j.sys.entry (drainNext cfg j.sys d x).1 := hfly
  refine h.dispatch (fun _ hy ↦ hy) (fun e he ↦ ⟨d', rfl, fun y hy ↦ ?_⟩)
    (fun y hy ↦ .inr ⟨d', rfl, by rw [hfly']; exact List.mem_append_right _ hy⟩) h.pacerOne (fun e he ↦ ?_)
    fun e he y hy z hz hb ↦ ?_
  · obtain rfl := Option.mem_unique hd he
    rw [hfly']
    exact List.mem_append_left _ hy
  · obtain rfl := Option.some_inj.mp he
    rw [hfly']
    exact (h.drainOne d hd).append_entry fun k hk hb ↦ nextOffloadJob_boots hk hb
  · obtain rfl := Option.some_inj.mp he
    rw [hfly'] at hz
    rcases List.mem_append.mp hz with hz | hz
    · exact h.apart d hd y hy z hz hb
    · rcases entry_cases j.sys (drainNext cfg j.sys d x).1 with ⟨-, he⟩ | ⟨k, hk, he⟩
      · rw [he] at hz
        cases hz
      · rw [he, List.mem_singleton] at hz
        subst hz
        cases hkb : k.kind.boots with
        | false => rfl
        | true =>
          rw [boots_false (hcap d hd k hk hkb) hy] at hb
          cases hb

theorem LoopInv.pacerJoined (h : LoopInv j) {id : ℕ} (hended : (j.sys.tasks[id]?).any Task.ended = true) :
    LoopInv ⟨j.sys, { j.pc with pacer := j.pc.pacer.filter (·.1 ≠ id) }, ()⟩ := by
  refine ⟨h.jobs, fun x hx ↦ ?_, h.pacerOne.of_subset fun x hx ↦ (List.mem_filter.mp hx).1, h.drainOne,
    fun d hd x hx ↦ h.apart d hd x (List.mem_filter.mp hx).1⟩
  rcases h.flying x hx with hf | hf | hf
  · rcases flying_filter hf hended with hf | hf
    · exact .inl hf
    · exact .inr (.inr hf)
  · exact .inr (.inl hf)
  · exact .inr (.inr hf)

/-- A drain begins with nothing in flight. -/
theorem LoopInv.drainStarted (h : LoopInv j) (hnone : j.pc.drain = none) (policy : OffloadPolicy) (standDown : Bool) :
    LoopInv ⟨j.sys, { j.pc with drain := some (.start policy standDown) }, ()⟩ := by
  refine ⟨h.jobs, fun x hx ↦ ?_, h.pacerOne, fun d hd x hx ↦ ?_, fun d hd x _ y hy ↦ ?_⟩
  · rcases h.flying x hx with hf | ⟨d, hd, -⟩ | hf
    · exact .inl hf
    · rw [hnone] at hd
      cases hd
    · exact .inr (.inr hf)
  · obtain rfl := Option.some_inj.mp hd
    cases hx
  · obtain rfl := Option.some_inj.mp hd
    cases hy

theorem LoopInv.drainJoined (h : LoopInv j) {id : ℕ} {r : Option JobOutcome} {d d' : Drain} (hd : j.pc.drain = some d)
    (hended : (j.sys.tasks[id]?).any Task.ended = true) (hs : d.step cfg.workers (.joined id r) = some d') :
    LoopInv ⟨j.sys, { j.pc with drain := some d' }, ()⟩ := by
  have hrem : d'.inFlight = d.inFlight.filter (·.1 ≠ id) := (Drain.step_joined hs).1
  have hsub : ∀ x ∈ d'.inFlight, x ∈ d.inFlight := by
    intro x hx
    rw [hrem] at hx
    exact (List.mem_filter.mp hx).1
  refine ⟨h.jobs, fun x hx ↦ ?_, h.pacerOne, fun e he ↦ ?_, fun e he x hx y hy ↦ ?_⟩
  · rcases h.flying x hx with hf | ⟨e, he, hf⟩ | hf
    · exact .inl hf
    · obtain rfl := Option.mem_unique hd he
      rcases flying_filter hf hended with hf | hf
      · exact .inr (.inl ⟨d', rfl, hrem ▸ hf⟩)
      · exact .inr (.inr hf)
    · exact .inr (.inr hf)
  · obtain rfl := Option.some_inj.mp he
    exact (h.drainOne d hd).of_subset hsub
  · obtain rfl := Option.some_inj.mp he
    exact h.apart d hd x hx y (hsub y hy)

/-- A drain goes on with the same jobs in flight, or is over with none. -/
theorem LoopInv.drainQuiet (h : LoopInv j) {e : DrainEvent} {d d' : Drain} (hd : j.pc.drain = some d)
    (hp : ∀ id job, e ≠ .picked id job) (hj : ∀ id r, e ≠ .joined id r) (hs : d.step cfg.workers e = some d') :
    LoopInv ⟨j.sys, { j.pc with drain := match d'.pc with
      | .done _ => none
      | _ => some d' }, ()⟩ := by
  obtain ⟨hfly, -, -, hdone⟩ := Drain.step_quiet hs hp hj
  split
  · rename_i x hpc
    have hnone := hdone x hpc
    rw [hfly] at hnone
    refine ⟨h.jobs, fun y hy ↦ ?_, h.pacerOne, fun e he ↦ (by cases he), fun e he ↦ (by cases he)⟩
    rcases h.flying y hy with hf | ⟨e, he, hf⟩ | hf
    · exact .inl hf
    · obtain rfl := Option.mem_unique hd he
      rw [hnone] at hf
      cases hf
    · exact .inr (.inr hf)
  · refine ⟨h.jobs, fun y hy ↦ ?_, h.pacerOne, fun e he ↦ ?_, fun e he ↦ ?_⟩
    · rcases h.flying y hy with hf | ⟨e, he, hf⟩ | hf
      · exact .inl hf
      · obtain rfl := Option.mem_unique hd he
        exact .inr (.inl ⟨d', rfl, hfly ▸ hf⟩)
      · exact .inr (.inr hf)
    · obtain rfl := Option.some_inj.mp he
      rw [hfly]
      exact h.drainOne d hd
    · obtain rfl := Option.some_inj.mp he
      rw [hfly]
      exact h.apart d hd

theorem LoopInv.loop (h : LoopInv j) {l : LoopLabel} {st' : State} {p' : Loops}
    (hcap : Capped cfg j (.inr l)) (hs : loopMove cfg j.sys j.pc l = some (st', p')) :
    LoopInv ⟨st', p', ()⟩ := by
  cases l with
  | pacerTick host =>
    simp only [loopMove] at hs
    split at hs
    · cases hs
    · cases hs
      exact ⟨h.jobs, h.flying, h.pacerOne, h.drainOne, h.apart⟩
  | pacerPick x =>
    simp only [loopMove] at hs
    split at hs
    · cases hs
      exact h.pacerPick hcap
    · cases hs
  | pacerJoin id =>
    simp only [loopMove] at hs
    split at hs
    · rename_i hguard
      cases hs
      obtain ⟨-, hout⟩ := Bool.and_eq_true_iff.mp hguard
      refine h.pacerJoined ?_
      obtain ⟨t, ht, hr⟩ := (Option.any_eq_true _ _).mp hout
      obtain ⟨r, -, hr⟩ := List.any_eq_true.mp hr
      rw [ht]
      exact Task.ended_of_outcome hr
    · cases hs
  | drainStart after standDown =>
    simp only [loopMove] at hs
    split at hs
    · rename_i hnone
      cases hs
      exact h.drainStarted hnone _ _
    · cases hs
  | drainPick x =>
    obtain ⟨d, hd, hs⟩ := Option.bind_eq_some_iff.mp hs
    obtain ⟨d', hd', heq⟩ := Option.map_eq_some_iff.mp hs
    cases heq
    exact h.drainPick hcap hd hd'
  | drainJoin id r =>
    obtain ⟨d, hd, hs⟩ := Option.bind_eq_some_iff.mp hs
    rw [Option.ite_none_right_eq_some] at hs
    obtain ⟨hguard, hs⟩ := hs
    obtain ⟨d', hd', heq⟩ := Option.map_eq_some_iff.mp hs
    cases heq
    obtain ⟨-, hout⟩ := Bool.and_eq_true_iff.mp hguard
    refine h.drainJoined hd ?_ hd'
    obtain ⟨t, ht, hr⟩ := (Option.any_eq_true _ _).mp hout
    rw [ht]
    exact Task.ended_of_outcome hr
  | drainQuiet e =>
    obtain ⟨d, hd, hs⟩ := Option.bind_eq_some_iff.mp hs
    cases e with
    | picked id job => cases hs
    | joined id r => cases hs
    | usage below | full | recheck | close =>
      obtain ⟨d', hd', heq⟩ := Option.map_eq_some_iff.mp hs
      cases heq
      exact h.drainQuiet hd (by simp) (by simp) hd'

end Inv

/-- In every run in which the two loops take turns with what boots and promotions find what they were
picked for. -/
theorem offload_one_boot {cfg : OffloadConfig} {w : World} {j : Paced}
    (h : Run (pacedStep cfg) (Capped cfg) (.boot w) j) : OneBoot j := by
  have h0 : LoopInv (.boot w) := by
    refine ⟨fun x hx ↦ ?_, fun x hx ↦ ?_, fun x hx ↦ ?_, fun d hd ↦ ?_, fun d hd ↦ ?_⟩
    · cases hx
    · cases hx
    · cases hx
    · cases hd
    · cases hd
  refine LoopInv.oneBoot (h.invariant h0 fun j l j' hI hcap hs ↦ ?_)
  obtain ⟨sys', pc', seen'⟩ := j'
  rcases (beside_cases hs).2 with ⟨k, rfl, hk, rfl⟩ | ⟨x, rfl, hx⟩
  · exact hI.sys hcap hk
  · exact hI.loop hcap hx

/-- Schemas `app`, which is live, and `web`. -/
def World.appAndWeb (tier : Tier) : World :=
  .host ("app\tsb-1\t0\tlive\nweb\tsb-2\t0\t" ++ tier.asStr ++ "\n") fun _ ↦ some ⟨[], 0⟩

def dumpOnly : OffloadConfig :=
  ⟨{ Config.full with compact := false, imageArchive := false }, ⟨60, 60, 60⟩, 2⟩

def coldNow : PickInput := ⟨[], [], 1000⟩

def quietHost : HostNow := ⟨false, false, false, false, true⟩

def pacerDispatch : List (Label ⊕ LoopLabel) := [.inr (.pacerTick quietHost), .inr (.pacerPick coldNow)]

def drainDispatch : List (Label ⊕ LoopLabel) :=
  [.inr (.drainStart 0 false), .inr (.drainQuiet (.usage false)), .inr (.drainPick coldNow)]

theorem offload_one_boot_run : ∃ j, Run (pacedStep dumpOnly) (Capped dumpOnly)
    (.boot (.appAndWeb .frozen)) j ∧ j.sys.inBringUp 1 = true ∧
      j.pc.dispatched.map (·.2.kind) = [.promote, .archive, .promote] ∧ OneBoot j := by
  obtain ⟨j, hr, hp⟩ := Run.exists_of_exec (pacedStep dumpOnly) (Capped dumpOnly)
    (.boot (.appAndWeb .frozen))
    (pacerDispatch ++ pacerDispatch ++ alone (goes 1 4) ++ drainDispatch ++ alone (goes 2 2))
    (fun j ↦ decide (j.sys.inBringUp 1 = true ∧
      j.pc.dispatched.map (·.2.kind) = [.promote, .archive, .promote]))
    (by decide +kernel) (by decide +kernel)
  obtain ⟨hboot, hkinds⟩ := of_decide_eq_true hp
  exact ⟨j, hr, hboot, hkinds, offload_one_boot hr⟩

/-- The pacer's job is in its bring-up when a drain starts and dispatches another that boots. -/
theorem offload_two_boots : ∃ j, Run (pacedStep dumpOnly) (fun _ _ ↦ True) (.boot (.appAndWeb .live)) j ∧
    j.sys.inBringUp 0 = true ∧ j.sys.inBringUp 1 = true ∧
      j.pc.dispatched.map (·.1) = [0, 1] ∧ ¬OneBoot j := by
  obtain ⟨j, hr, hp⟩ := Run.exists_of_exec (pacedStep dumpOnly) (fun _ _ ↦ True)
    (.boot (.appAndWeb .live)) (pacerDispatch ++ alone (goes 0 4) ++ drainDispatch ++ alone (goes 1 4))
    (fun j ↦ decide (j.sys.inBringUp 0 = true ∧ j.sys.inBringUp 1 = true ∧
      j.pc.dispatched.map (·.1) = [0, 1])) (by decide +kernel) (by decide +kernel)
  obtain ⟨hboot, hboot', hids⟩ := of_decide_eq_true hp
  refine ⟨j, hr, hboot, hboot', hids, fun hone ↦ ?_⟩
  have hmem : ∀ i ∈ [0, 1], ∃ x ∈ j.pc.dispatched, x.1 = i := by
    intro i hi
    rw [← hids] at hi
    exact List.mem_map.mp hi
  obtain ⟨x, hx, hx0⟩ := hmem 0 (by simp)
  obtain ⟨y, hy, hy1⟩ := hmem 1 (by simp)
  have hxy := hone.one x hx y hy (hx0 ▸ hboot) (hy1 ▸ hboot')
  rw [← hxy, hx0] at hy1
  cases hy1

end PgVmPool
