import PgVmPool.Rows
import PgVmPool.Spares

namespace PgVmPool

open Function Transition

def maxSpares : ℕ := 16

def spareSickGrace : ℕ := 300

def spareMaxCullsPerPass : ℕ := 2

structure ReplenishPlan where
  start : List SandboxId
  create : ℕ
  delete : List SandboxId

/-- `plan_replenish`; a spare is its id and whether it is running. -/
def planReplenish (spares : List (SandboxId × Bool)) (bound : List SandboxId)
    (claimed : SandboxId → Bool) (target : ℕ) : ReplenishPlan :=
  let free (id : SandboxId) : Bool := id ∉ bound ∧ claimed id = false
  let running := (spares.filter fun x ↦ x.2 && free x.1).length
  let stopped := (spares.filter fun x ↦ !x.2 && free x.1).map (·.1)
  let deficit := target - running
  let start := stopped.take deficit
  { start, create := deficit - start.length, delete := stopped.drop deficit }

/-- What a pass knows: the ids bound when it began, the listed spares, and its health verdicts. -/
structure Stock where
  bound : List SandboxId
  spares : List (SandboxId × Bool)
  healthy : List SandboxId
  sick : List SandboxId

/-- The builds of a pass: restarts and creates still to answer, created VMs that are booting or, not
having booted, are being killed, and the ids that came up. -/
structure Builds where
  starts : List SandboxId
  creates : ℕ
  booting : List SandboxId
  halfBuilt : List SandboxId
  built : List SandboxId

/-- The lock acquisitions and awaits of `SparePool::replenish` and `cull_sick`. -/
inductive ReplenishPc
  | idle
  | list (bound : List SandboxId)
  | freeRunning (bound : List SandboxId) (spares : List (SandboxId × Bool))
  | probe (s : Stock) (todo : List SandboxId)
  | sickSince (s : Stock)
  | cull (s : Stock) (doomed : List SandboxId)
  | plan (s : Stock)
  | build (s : Stock) (b : Builds) (delete : List SandboxId)
  | delete (s : Stock) (built delete : List SandboxId)
  | probeFresh (s : Stock) (todo : List SandboxId)
  | publish (s : Stock)

namespace ReplenishPc

def bound : ReplenishPc → Option (List SandboxId)
  | .idle => none
  | .list bound | .freeRunning bound _ => some bound
  | .probe s _ | .sickSince s | .cull s _ | .plan s | .build s _ _ | .delete s _ _ | .probeFresh s _
  | .publish s => some s.bound

def culls : ReplenishPc → List SandboxId
  | .cull _ doomed => doomed
  | _ => []

def deletes : ReplenishPc → List SandboxId
  | .build _ _ surplus | .delete _ _ surplus => surplus
  | _ => []

def victim : ReplenishPc → Option SandboxId
  | .cull _ (id :: _) | .delete _ _ (id :: _) => some id
  | _ => none

end ReplenishPc

/-- The replenisher: since when each spare has been sick, kept from pass to pass, and where it is. -/
structure Replenisher where
  since : SandboxId → Option ℕ
  pc : ReplenishPc

def Replenisher.new : Replenisher := ⟨fun _ ↦ none, .idle⟩

/-- What the daemon and the guests answer a pass. Probes and builds run side by side, so an answer
says which of them it is for; `forget` is a `release_failed` that drops the verdict on its spare. -/
inductive PoolAnswer
  | go
  | listed (infos : List Info)
  | failed
  | probed (k : ℕ) (up : Bool)
  | killed (ok : Bool)
  | restarted (k : ℕ) (up : Bool)
  | accepted (name : String) (id : SandboxId)
  | refused
  | booted (k : ℕ) (up : Bool)
  | disposed (k : ℕ) (ok : Bool)
  | forget (id : SandboxId)

def spareRows (infos : List Info) : List (SandboxId × Bool) :=
  (infos.filter fun i ↦ isSpareName i.name).map fun i ↦ (i.id, i.running)

def freeRunning (w : World) (bound : List SandboxId) (spares : List (SandboxId × Bool)) :
    List SandboxId :=
  (spares.filter fun x ↦ x.2 ∧ x.1 ∉ bound ∧ w.claimed x.1 = false).map (·.1)

def Stock.judge (s : Stock) (id : SandboxId) (up : Bool) : Stock :=
  if up then { s with healthy := s.healthy ++ [id] } else { s with sick := s.sick ++ [id] }

def Stock.planInput (s : Stock) : List (SandboxId × Bool) := s.spares.filter fun x ↦ x.1 ∉ s.sick

namespace Replenisher

variable (r : Replenisher)

/-- The first half of `cull_sick`, under the lock of `sick_since`. -/
def markSick (now : ℕ) (sick : List SandboxId) : SandboxId → Option ℕ := fun id ↦
  if id ∈ sick then some ((r.since id).getD now) else none

def doomed (now : ℕ) (sick : List SandboxId) : List SandboxId :=
  (sick.filter fun id ↦ spareSickGrace ≤ now - (r.since id).getD now).take spareMaxCullsPerPass

def forget (id : SandboxId) : Replenisher := { r with since := update r.since id none }

def goto (pc : ReplenishPc) : Replenisher := { r with pc }

end Replenisher

def Builds.finished (b : Builds) : Bool :=
  b.starts.isEmpty && b.creates = 0 && b.booting.isEmpty && b.halfBuilt.isEmpty

def buildStep (w : World) (b : Builds) : PoolAnswer → Option (World × Builds)
  | .restarted k up =>
    b.starts[k]?.map fun id ↦
      (w, { b with starts := b.starts.eraseIdx k, built := if up then b.built ++ [id] else b.built })
  | .accepted name id =>
    if 0 < b.creates ∧ isSpareName name ∧ w.disks id = none then
      some ({ w with disks := update w.disks id (some ⟨[], 0⟩) }.insertName name id,
        { b with creates := b.creates - 1, booting := b.booting ++ [id] })
    else none
  | .refused => if 0 < b.creates then some (w, { b with creates := b.creates - 1 }) else none
  | .booted k up =>
    b.booting[k]?.map fun id ↦
      let b' := { b with booting := b.booting.eraseIdx k }
      (w, if up then { b' with built := b.built ++ [id] } else { b' with halfBuilt := b.halfBuilt ++ [id] })
  | .disposed k ok =>
    b.halfBuilt[k]?.map fun id ↦
      (if ok then (w.kill id).removeId id else w, { b with halfBuilt := b.halfBuilt.eraseIdx k })
  | _ => none

/-- A `kill_spare`; the name index keeps the id. -/
def World.killSpare (w : World) (id : SandboxId) (ok : Bool) : World := if ok then w.kill id else w

def replenishStep (target : ℕ) (w : World) (r : Replenisher) (a : PoolAnswer) :
    Option (World × Replenisher) :=
  match r.pc, a with
  | _, .forget id => some (w, r.forget id)
  | .idle, .go => some (w, r.goto (.list w.store.boundIds))
  | .list bound, .listed infos => some (w.absorb infos, r.goto (.freeRunning bound (spareRows infos)))
  | .list _, .failed => some (w, r.goto .idle)
  | .freeRunning bound spares, .go =>
    some (w, r.goto (.probe ⟨bound, spares, [], []⟩ (freeRunning w bound spares)))
  | .probe s [], .go => some (w, r.goto (.sickSince s))
  | .probe s todo, .probed k up =>
    todo[k]?.map fun id ↦ (w, r.goto (.probe (s.judge id up) (todo.eraseIdx k)))
  | .sickSince s, .go => some (w, ⟨r.markSick w.now s.sick, .cull s (r.doomed w.now s.sick)⟩)
  | .cull s [], .go => some (w, r.goto (.plan s))
  | .cull s (id :: doomed), .killed ok =>
    some (w.killSpare id ok, (if ok then r.forget id else r).goto (.cull s doomed))
  | .plan s, .go =>
    let plan := planReplenish s.planInput s.bound w.claimed target
    some (w, r.goto (.build s ⟨plan.start, plan.create, [], [], []⟩ plan.delete))
  | .build s b delete, .go =>
    if b.finished then some (w, r.goto (.delete s b.built delete)) else none
  | .build s b delete, a => (buildStep w b a).map fun x ↦ (x.1, r.goto (.build s x.2 delete))
  | .delete s built [], .go => some (w, r.goto (.probeFresh s built))
  | .delete s built (id :: delete), .killed ok =>
    some (w.killSpare id ok, r.goto (.delete s built delete))
  | .probeFresh s [], .go => some (w, r.goto (.publish s))
  | .probeFresh s todo, .probed k up =>
    todo[k]?.map fun id ↦
      (w, r.goto (.probeFresh (if up then s.judge id true else s) (todo.eraseIdx k)))
  | .publish s, .go => some (w.publish s.healthy s.bound, r.goto .idle)
  | _, _ => none

/-- The steps of the pooler but for the shelf, which is the replenisher's. -/
def pooledStep (cfg : Config) : Label → State → Option State
  | .publish _ _, _ => none
  | l, st => step cfg l st

def replenish (target : ℕ) (st : State) (r : Replenisher) (a : PoolAnswer) :
    Option (State × Replenisher) :=
  (replenishStep (min target maxSpares) st.world r a).map fun x ↦ ({ st with world := x.1 }, x.2)

section Steps

variable {cfg : Config} {target : ℕ} {w w' : World} {r r' : Replenisher} {a : PoolAnswer}
  {st st' : State} {l : Label}

theorem step_of_pooled (h : pooledStep cfg l st = some st') : step cfg l st = some st' := by
  cases l <;> first | exact h | cases h

/-- A step of the pooler is one of a task, or leaves the claims, the shelf and the bring-ups alone. -/
theorem pooledStep_spare (h : pooledStep cfg l st = some st') :
    (∃ t b x y, l = .run t b ∧ st.tasks[t]? = some x ∧ st'.tasks = st.tasks.set t y ∧
      TaskSpareMove b st.world st'.world x y) ∨
    (∀ t b, l ≠ .run t b) ∧ st'.world.claimed = st.world.claimed ∧ st'.world.ready = st.world.ready ∧
      ∀ (j : ℕ) (y : Task), st'.tasks[j]? = some y → y.ensuring = none ∨ st.tasks[j]? = some y := by
  have hs := step_of_pooled h
  cases l with
  | run t b =>
    obtain ⟨x, hx, -⟩ := Option.bind_eq_some_iff.mp hs
    obtain ⟨y, hy, htasks⟩ := step_run hs hx
    exact .inl ⟨t, b, x, y, rfl, hx, htasks, taskStep_spare hy⟩
  | spawn x =>
    obtain ⟨hi, heq⟩ := Option.ite_none_right_eq_some.mp hs
    cases heq
    refine .inr ⟨by simp, rfl, rfl, fun j y hj ↦ ?_⟩
    rcases getElem?_append_cases hj with ⟨-, rfl⟩ | hj
    · exact .inl (Task.holding_of_initial hi)
    · exact .inr hj
  | publish => cases h
  | tick | flush =>
    cases hs
    exact .inr ⟨by simp, rfl, rfl, fun j y hj ↦ .inr hj⟩
  | land =>
    simp only [step, worldStep, Option.map_map, Option.map_eq_some_iff] at hs
    obtain ⟨_, -, rfl⟩ := hs
    exact .inr ⟨by simp, rfl, rfl, fun j y hj ↦ .inr hj⟩

theorem replenish_eq (h : replenish target st r a = some (st', r')) :
    replenishStep (min target maxSpares) st.world r a = some (st'.world, r') ∧ st'.tasks = st.tasks := by
  obtain ⟨⟨u, q⟩, hu, heq⟩ := Option.map_eq_some_iff.mp h
  cases heq
  exact ⟨hu, rfl⟩

theorem buildStep_frame {b b' : Builds} (h : buildStep w b a = some (w', b')) :
    w' = { w with inventory := w'.inventory, disks := w'.disks } := by
  revert h
  fun_cases buildStep w b a <;> intro h
  case case1 | case6 =>
    obtain ⟨_, -, heq⟩ := Option.map_eq_some_iff.mp h
    cases heq
    rfl
  case case7 =>
    obtain ⟨_, -, heq⟩ := Option.map_eq_some_iff.mp h
    cases heq
    split <;> rfl
  all_goals cases h <;> rfl

theorem replenishStep_frame (h : replenishStep target w r a = some (w', r')) :
    w' = { w with inventory := w'.inventory, ready := w'.ready, disks := w'.disks } := by
  revert h
  fun_cases replenishStep target w r a <;> intro h <;> (try cases h)
  case case7 | case18 =>
    obtain ⟨_, -, heq⟩ := Option.map_eq_some_iff.mp h
    cases heq
    rfl
  case case10 ok _ | case16 ok _ => cases ok <;> rfl
  case case14 =>
    obtain ⟨_, hb, heq⟩ := Option.map_eq_some_iff.mp h
    cases heq
    rw [buildStep_frame hb]
  all_goals rfl

structure ReplenishPc.Narrows (p p' : ReplenishPc) : Prop where
  bound : ∀ ids, p'.bound = some ids → p.bound = some ids
  culls : p'.culls ⊆ p.culls
  deletes : p'.deletes ⊆ p.deletes

/-- What a step of a pass does to the shelf and to the lists it works from. -/
inductive PassMove (target : ℕ) (a : PoolAnswer) (w w' : World) (r r' : Replenisher) : Prop
  | other (ready : w'.ready = w.ready) (hpc : r.pc.Narrows r'.pc) : PassMove target a w w' r r'
  | start (hw : w' = w) (hpc : r.pc = .idle) (hpc' : r'.pc = .list w.store.boundIds) :
    PassMove target a w w' r r'
  | cull {s : Stock} (ha : a = .go) (hw : w' = w) (hpc : r.pc = .sickSince s)
    (hpc' : r'.pc = .cull s (r.doomed w.now s.sick)) : PassMove target a w w' r r'
  | plan {s : Stock} {b : Builds} (ha : a = .go) (hw : w' = w) (hpc : r.pc = .plan s)
    (hpc' : r'.pc = .build s b (planReplenish s.planInput s.bound w.claimed target).delete) :
    PassMove target a w w' r r'
  | publish {s : Stock} (hpc : r.pc = .publish s) (hw : w' = w.publish s.healthy s.bound)
    (hpc' : r'.pc = .idle) : PassMove target a w w' r r'

theorem Stock.judge_bound (s : Stock) (id : SandboxId) (up : Bool) : (s.judge id up).bound = s.bound := by
  cases up <;> rfl

theorem replenishStep_move (h : replenishStep target w r a = some (w', r')) :
    PassMove target a w w' r r' := by
  revert h
  fun_cases replenishStep target w r a <;> intro h <;> (try cases h)
  case case1 => exact .other rfl ⟨fun _ ↦ id, List.Subset.refl _, List.Subset.refl _⟩
  case case2 hpc => exact .start rfl hpc rfl
  case case7 s _ _ up hpc =>
    obtain ⟨id, -, heq⟩ := Option.map_eq_some_iff.mp h
    cases heq
    exact .other rfl ⟨by simp [hpc, Replenisher.goto, ReplenishPc.bound, Stock.judge_bound],
      List.nil_subset _, List.nil_subset _⟩
  case case8 hpc => exact .cull rfl rfl hpc rfl
  case case10 ok hpc =>
    refine .other (by cases ok <;> rfl) ⟨?_, ?_, List.nil_subset _⟩
    · simp [hpc, Replenisher.goto, ReplenishPc.bound]
    · simp [hpc, Replenisher.goto, ReplenishPc.culls]
  case case11 hpc _ => exact .plan rfl rfl hpc rfl
  case case12 hpc _ =>
    refine .other rfl ⟨?_, List.nil_subset _, ?_⟩
    · simp [hpc, Replenisher.goto, ReplenishPc.bound]
    · simp [hpc, Replenisher.goto, ReplenishPc.deletes]
  case case14 hpc _ _ =>
    obtain ⟨_, hb, heq⟩ := Option.map_eq_some_iff.mp h
    cases heq
    refine .other (by rw [buildStep_frame hb]) ⟨?_, List.nil_subset _, ?_⟩
    · simp [hpc, Replenisher.goto, ReplenishPc.bound]
    · simp [hpc, Replenisher.goto, ReplenishPc.deletes]
  case case16 ok hpc =>
    refine .other (by cases ok <;> rfl) ⟨?_, List.nil_subset _, ?_⟩
    · simp [hpc, Replenisher.goto, ReplenishPc.bound]
    · simp [hpc, Replenisher.goto, ReplenishPc.deletes]
  case case18 s _ _ up hpc =>
    obtain ⟨id, -, heq⟩ := Option.map_eq_some_iff.mp h
    cases heq
    refine .other rfl ⟨?_, List.nil_subset _, List.nil_subset _⟩
    cases up <;> simp [hpc, Replenisher.goto, ReplenishPc.bound, Stock.judge_bound]
  case case19 hpc => exact .publish hpc rfl rfl
  all_goals
    rename_i hpc
    exact .other rfl ⟨by simp [hpc, Replenisher.goto, ReplenishPc.bound],
      List.nil_subset _, List.nil_subset _⟩

theorem World.Shelved.pooled (hw : st.world.Shelved) (h : pooledStep cfg l st = some st') :
    st'.world.Shelved := by
  rcases pooledStep_spare h with ⟨_, _, _, _, -, -, -, hm⟩ | ⟨-, hc, hr, -⟩
  · exact hw.task hm
  · exact hw.congr hc hr

theorem World.Shelved.replenish (hw : w.Shelved) (h : replenishStep target w r a = some (w', r')) :
    w'.Shelved := by
  have hc : w'.claimed = w.claimed := by rw [replenishStep_frame h]
  cases replenishStep_move h with
  | other ready => exact hw.congr hc ready
  | start hw' | cull _ hw' | plan _ hw' => exact hw.congr hc (by rw [hw'])
  | publish _ hw' =>
    rw [hw']
    exact (w.shelved_publish _ _).1

theorem free_of_planned {spares : List (SandboxId × Bool)} {bound : List SandboxId}
    {claimed : SandboxId → Bool} {v : SandboxId}
    (hv : v ∈ (planReplenish spares bound claimed target).delete) : v ∉ bound ∧ claimed v = false := by
  have hmem := List.mem_of_mem_drop hv
  obtain ⟨x, hx, rfl⟩ := List.mem_map.mp hmem
  have hfree := (List.mem_filter.mp hx).2
  simp only [Bool.and_eq_true, decide_eq_true_eq] at hfree
  exact hfree.2

end Steps

end PgVmPool
