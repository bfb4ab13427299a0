import PgVmPool.Sweeps
import PgVmPool.Transition

namespace PgVmPool

inductive Task
  | checkout (s : Schema) (pc : CkPc)
  | offload (s : Schema) (kind : OffloadKind) (pc : OffPc)
  | reapIdle (pc : IdlePc)
  | reapUntracked (pc : UntrackedPc)
  | purge (pc : PurgePc)

def Task.initial : Task → Bool
  | .checkout _ .touch | .offload _ _ .begin | .reapIdle .lockEntries | .reapUntracked (.list [])
  | .purge .list => true
  | _ => false

theorem Task.initial_cases {x : Task} (h : x.initial = true) :
    (∃ s, x = .checkout s .touch) ∨ (∃ s kind, x = .offload s kind .begin) ∨
      x = .reapIdle .lockEntries ∨ x = .reapUntracked (.list []) ∨ x = .purge .list := by
  unfold Task.initial at h
  split at h
  · exact .inl ⟨_, rfl⟩
  · exact .inr (.inl ⟨_, _, rfl⟩)
  · exact .inr (.inr (.inl rfl))
  · exact .inr (.inr (.inr (.inl rfl)))
  · exact .inr (.inr (.inr (.inr rfl)))
  · cases h

theorem Task.eq_touch_of_initial {s : Schema} {pc : CkPc} (h : (Task.checkout s pc).initial = true) :
    pc = .touch := by
  cases pc <;> first | rfl | cases h

theorem Task.eq_begin_of_initial {s : Schema} {kind : OffloadKind} {pc : OffPc}
    (h : (Task.offload s kind pc).initial = true) : pc = .begin := by
  cases pc <;> first | rfl | cases h

structure State where
  world : World
  tasks : List Task

inductive Label
  | spawn (x : Task)
  | run (t : ℕ) (a : Answer)
  | land (k : ℕ) (ok : Bool)
  | tick (n : ℕ)
  | publish (ids bound : List SandboxId)
  | flush

def OnRun (p : ℕ → Answer → Prop) : Label → Prop
  | .run t a => p t a
  | .spawn _ | .land _ _ | .tick _ | .publish _ _ | .flush => True

instance {p : ℕ → Answer → Prop} [∀ t a, Decidable (p t a)] : (l : Label) → Decidable (OnRun p l)
  | .run t a => inferInstanceAs (Decidable (p t a))
  | .spawn _ | .land _ _ | .tick _ | .publish _ _ | .flush => isTrue trivial

def taskStep (cfg : Config) (t : ℕ) (w : World) (a : Answer) : Task → Option (World × Task)
  | .checkout s pc => (ckStep cfg t s w pc a).map fun r ↦ (r.1, .checkout s r.2)
  | .offload s kind pc => (offStep cfg s kind w pc a).map fun r ↦ (r.1, .offload s kind r.2)
  | .reapIdle pc => (idleStep cfg w pc a).map fun r ↦ (r.1, .reapIdle r.2)
  | .reapUntracked pc => (untrackedStep w pc a).map fun r ↦ (r.1, .reapUntracked r.2)
  | .purge pc => (purgeStep w pc a).map fun r ↦ (r.1, .purge r.2)

/-- The `k`-th queued registry write runs; the blocking pool keeps no order. -/
def Store.land (st : Store) (k : ℕ) (ok : Bool) : Option Store :=
  st.queue[k]?.map fun q ↦ { st with queue := st.queue.eraseIdx k }.writeLatest q.1 q.2 ok

/-- What happens besides the tasks: a queued write runs, time passes, the spare pool publishes its
shelf, the registry is flushed. -/
def worldStep (w : World) : Label → Option World
  | .land k ok => (w.store.land k ok).map fun store ↦ { w with store }
  | .tick n => some { w with now := w.now + n }
  | .publish ids bound => some (w.publish ids bound)
  | .flush => some { w with store := w.store.flushDirty }
  | .spawn _ | .run _ _ => none

def step (cfg : Config) : Label → State → Option State
  | .spawn x, st => if x.initial then some { st with tasks := st.tasks ++ [x] } else none
  | .run t a, st =>
    st.tasks[t]?.bind fun x ↦
      (taskStep cfg t st.world a x).map fun r ↦ ⟨r.1, st.tasks.set t r.2⟩
  | l, st => (worldStep st.world l).map fun world ↦ { st with world }

/-- The steps of the system, by what moves. -/
inductive Step (cfg : Config) (st : State) : Label → State → Prop
  | spawn {x : Task} (h : x.initial = true) :
    Step cfg st (.spawn x) ⟨st.world, st.tasks ++ [x]⟩
  | checkout {t : ℕ} {a : Answer} {s : Schema} {pc pc' : CkPc} {w' : World}
    (ht : st.tasks[t]? = some (.checkout s pc)) (h : ckStep cfg t s st.world pc a = some (w', pc')) :
    Step cfg st (.run t a) ⟨w', st.tasks.set t (.checkout s pc')⟩
  | offload {t : ℕ} {a : Answer} {s : Schema} {kind : OffloadKind} {pc pc' : OffPc} {w' : World}
    (ht : st.tasks[t]? = some (.offload s kind pc))
    (h : offStep cfg s kind st.world pc a = some (w', pc')) :
    Step cfg st (.run t a) ⟨w', st.tasks.set t (.offload s kind pc')⟩
  | reapIdle {t : ℕ} {a : Answer} {pc pc' : IdlePc} {w' : World}
    (ht : st.tasks[t]? = some (.reapIdle pc)) (h : idleStep cfg st.world pc a = some (w', pc')) :
    Step cfg st (.run t a) ⟨w', st.tasks.set t (.reapIdle pc')⟩
  | reapUntracked {t : ℕ} {a : Answer} {pc pc' : UntrackedPc} {w' : World}
    (ht : st.tasks[t]? = some (.reapUntracked pc))
    (h : untrackedStep st.world pc a = some (w', pc')) :
    Step cfg st (.run t a) ⟨w', st.tasks.set t (.reapUntracked pc')⟩
  | purge {t : ℕ} {a : Answer} {pc pc' : PurgePc} {w' : World}
    (ht : st.tasks[t]? = some (.purge pc)) (h : purgeStep st.world pc a = some (w', pc')) :
    Step cfg st (.run t a) ⟨w', st.tasks.set t (.purge pc')⟩
  | outside {l : Label} {w' : World} (h : worldStep st.world l = some w') :
    Step cfg st l ⟨w', st.tasks⟩

theorem step_sound {cfg : Config} {l : Label} {st st' : State} (h : step cfg l st = some st') :
    Step cfg st l st' := by
  cases l with
  | spawn x =>
    simp only [step, Option.ite_none_right_eq_some, Option.some.injEq] at h
    obtain ⟨hx, rfl⟩ := h
    exact .spawn hx
  | run t a =>
    obtain ⟨x, hx, h⟩ := Option.bind_eq_some_iff.mp h
    obtain ⟨⟨w', x'⟩, hr, rfl⟩ := Option.map_eq_some_iff.mp h
    cases x <;> obtain ⟨⟨w, pc⟩, hp, heq⟩ := Option.map_eq_some_iff.mp hr <;> cases heq
    · exact .checkout hx hp
    · exact .offload hx hp
    · exact .reapIdle hx hp
    · exact .reapUntracked hx hp
    · exact .purge hx hp
  | land | tick | publish | flush =>
    simp only [step, Option.map_eq_some_iff] at h
    obtain ⟨w', hw, rfl⟩ := h
    exact .outside hw

theorem step_run {cfg : Config} {t : ℕ} {a : Answer} {st st' : State} {x : Task}
    (h : step cfg (.run t a) st = some st') (ht : st.tasks[t]? = some x) :
    ∃ y, taskStep cfg t st.world a x = some (st'.world, y) ∧ st'.tasks = st.tasks.set t y := by
  obtain ⟨z, hz, h⟩ := Option.bind_eq_some_iff.mp h
  obtain ⟨⟨w', y⟩, hr, rfl⟩ := Option.map_eq_some_iff.mp h
  cases ht.symm.trans hz
  exact ⟨y, hr, rfl⟩

theorem step_task {cfg : Config} {l : Label} {st st' : State} (h : step cfg l st = some st') {t : ℕ}
    {x : Task} (ht : st.tasks[t]? = some x) :
    (∃ a y, l = .run t a ∧ taskStep cfg t st.world a x = some (st'.world, y) ∧
      st'.tasks[t]? = some y) ∨ st'.tasks[t]? = some x := by
  have hlt := (List.getElem?_eq_some_iff.mp ht).1
  cases l with
  | spawn y =>
    simp only [step, Option.ite_none_right_eq_some, Option.some.injEq] at h
    obtain ⟨-, rfl⟩ := h
    exact .inr (by rwa [List.getElem?_append_left hlt])
  | run j a =>
    obtain ⟨y, hy, h⟩ := Option.bind_eq_some_iff.mp h
    obtain ⟨⟨w', y'⟩, hr, rfl⟩ := Option.map_eq_some_iff.mp h
    by_cases hj : j = t
    · subst hj
      cases ht.symm.trans hy
      exact .inl ⟨a, y', rfl, hr, List.getElem?_set_self hlt⟩
    · exact .inr (by rwa [List.getElem?_set_ne hj])
  | land | tick | publish | flush =>
    simp only [step, Option.map_eq_some_iff] at h
    obtain ⟨w', -, rfl⟩ := h
    exact .inr ht

/-- A task of the next state is an old one, a new one, or the one that has moved. -/
theorem Step.mem_cases {cfg : Config} {l : Label} {st st' : State} (hs : Step cfg st l st') {x : Task}
    (hx : x ∈ st'.tasks) : x ∈ st.tasks ∨ x.initial = true ∨ ∃ t a y, l = .run t a ∧
      st.tasks[t]? = some y ∧ taskStep cfg t st.world a y = some (st'.world, x) ∧
      st'.tasks = st.tasks.set t x := by
  have hset {t : ℕ} {a : Answer} {w' : World} {y z : Task} (ht : st.tasks[t]? = some y)
      (hy : taskStep cfg t st.world a y = some (w', z)) (hx : x ∈ st.tasks.set t z) :
      x ∈ st.tasks ∨ x.initial = true ∨ ∃ t' a' y, Label.run t a = .run t' a' ∧
        st.tasks[t']? = some y ∧ taskStep cfg t' st.world a' y = some (w', x) ∧
        st.tasks.set t z = st.tasks.set t' x := by
    rcases List.mem_or_eq_of_mem_set hx with hx | rfl
    · exact .inl hx
    · exact .inr (.inr ⟨t, a, y, rfl, ht, hy, rfl⟩)
  cases hs with
  | spawn hi =>
    rcases List.mem_append.mp hx with hx | hx
    · exact .inl hx
    · obtain rfl := List.mem_singleton.mp hx
      exact .inr (.inl hi)
  | checkout ht h | offload ht h | reapIdle ht h | reapUntracked ht h | purge ht h =>
    exact hset ht (by simp [taskStep, h]) hx
  | outside => exact .inl hx

section Kinds

variable {cfg : Config} {t : ℕ} {w w' : World} {a : Answer} {y : Task}

theorem taskStep_offload {s : Schema} {kind : OffloadKind} {pc' : OffPc}
    (h : taskStep cfg t w a y = some (w', .offload s kind pc')) :
    ∃ pc, y = .offload s kind pc ∧ offStep cfg s kind w pc a = some (w', pc') := by
  cases y <;> obtain ⟨_, hp, heq⟩ := Option.map_eq_some_iff.mp h <;> cases heq
  exact ⟨_, rfl, hp⟩

theorem taskStep_reapIdle {pc' : IdlePc} (h : taskStep cfg t w a y = some (w', .reapIdle pc')) :
    ∃ pc, y = .reapIdle pc ∧ idleStep cfg w pc a = some (w', pc') := by
  cases y <;> obtain ⟨_, hp, heq⟩ := Option.map_eq_some_iff.mp h <;> cases heq
  exact ⟨_, rfl, hp⟩

theorem taskStep_reapUntracked {pc' : UntrackedPc}
    (h : taskStep cfg t w a y = some (w', .reapUntracked pc')) :
    ∃ pc, y = .reapUntracked pc ∧ untrackedStep w pc a = some (w', pc') := by
  cases y <;> obtain ⟨_, hp, heq⟩ := Option.map_eq_some_iff.mp h <;> cases heq
  exact ⟨_, rfl, hp⟩

theorem taskStep_purge {pc' : PurgePc} (h : taskStep cfg t w a y = some (w', .purge pc')) :
    ∃ pc, y = .purge pc ∧ purgeStep w pc a = some (w', pc') := by
  cases y <;> obtain ⟨_, hp, heq⟩ := Option.map_eq_some_iff.mp h <;> cases heq
  exact ⟨_, rfl, hp⟩

end Kinds

def Store.load (file : String) (now : UInt64) : Store :=
  { map := parse file now, seq := 0, written := 0, dirty := false, file, queue := [], stamped := [] }

/-- A restart: what is on disk, on the host and in S3 stays, the pooler's memory does not. -/
def World.boot (w : World) : World :=
  { w with
    store := .load w.store.file w.unix
    entries := ∅
    cells := fun _ ↦ .empty
    nextCell := 0
    ents := fun _ ↦ .new default false 0 0
    nextEntry := 0
    archiving := fun _ ↦ false
    breaker := fun _ ↦ none
    inventory := fun _ ↦ none
    claimed := fun _ ↦ false
    ready := [] }

def State.boot (w : World) : State := ⟨w.boot, []⟩

def World.host (file : String) (disks : SandboxId → Option Content) : World where
  now := 0
  store := .load file 0
  entries := ∅
  cells := fun _ ↦ .empty
  nextCell := 0
  ents := fun _ ↦ .new default false 0 0
  nextEntry := 0
  archiving := fun _ ↦ false
  breaker := fun _ ↦ none
  pending := fun _ ↦ none
  inventory := fun _ ↦ none
  claimed := fun _ ↦ false
  ready := []
  disks := disks
  dumps := fun _ ↦ none
  images := fun _ ↦ none
  scratch := fun _ ↦ none
  s3Dump := fun _ ↦ none
  s3Image := fun _ ↦ none
  acked := fun _ ↦ []

def Config.full : Config where
  archive := true
  freeze := true
  compact := true
  imageArchive := true
  spares := true
  viaGuest := true
  idleTimeout := 60
  jitter _ timeout := timeout
  keepalive _ := false

abbrev Reaches (cfg : Config) (ok : State → Label → Prop) (w : World) (st : State) : Prop :=
  Transition.Run (step cfg) ok (State.boot w) st

abbrev Always (_ : State) (_ : Label) : Prop := True

/-- Task `t` runs on through the given answers. -/
def runs (t : ℕ) (answers : List Answer) : List Label := answers.map (.run t)

/-- Task `t` resumes `n` times with nothing to wait for. -/
def goes (t n : ℕ) : List Label := List.replicate n (.run t .go)

def attaches (t : ℕ) : List Label := runs t [.ok, .ok, .ok, .ok, .slots 10, .go]

def alone {α : Type} (ls : List Label) : List (Label ⊕ α) := ls.map .inl

def app : Schema := ⟨"app", by decide, by decide⟩

def sb1 : SandboxId := ⟨"sb-1", by decide, by decide⟩

def sb2 : SandboxId := ⟨"sb-2", by decide, by decide⟩

def World.blank : World := .host "" fun _ ↦ none

def World.recorded (tier : Tier) : World :=
  .host ("app\tsb-1\t0\t" ++ tier.asStr ++ "\n")
    fun id ↦ if id = sb1 then some ⟨[], 0⟩ else none

end PgVmPool
