import PgVmPool.BringUpGates

namespace PgVmPool.Boots

open Function Transition FairLock

/-- A pass that has looked at the count and has not asked its script to stop. -/
def PassPc.unasked : PassPc → Bool
  | .watching _ false | .woken _ => true
  | .queued | .counting _ | .watching _ true => false

/-- A permit is stored for the notified branch of the pass, or the branch has been taken. -/
def State.Roused (st : State) : Prop :=
  st.gates.preempt = true ∨ ∃ child, st.pass = some (.woken child)

/-- What the pass does next by itself: it takes its notified branch and looks at the count. -/
def PassPc.rouse : PassPc → List Label
  | .watching _ false => [.pass .wake, .pass .recount]
  | .woken _ => [.pass .recount]
  | .queued | .counting _ | .watching _ true => []

structure State.Preempts (cfg : Config) (st : State) : Prop where
  counts : st.gates.bootsWaiting = st.tasks.countP Task.guarded
  roused : ∀ pc, st.pass = some pc → pc.unasked = true → 0 < st.gates.bootsWaiting → st.Roused
  asks : ∀ pc, st.pass = some pc → pc.unasked = true → 0 < st.gates.bootsWaiting →
    ∃ st', exec (step cfg) pc.rouse st = some st' ∧ st'.asked = st.asked + 1 ∧ st'.gates.stopFile = cfg.runDir
  file : ∀ pc, st.pass = some pc → pc.running = true →
    st.gates.stopFile = (cfg.runDir && decide (0 < st.asked))
  once : st.asked ≤ 1
  wanted : 0 < st.asked → st.crowded = true

/-- The part of it that a run carries along. -/
structure State.Heard (cfg : Config) (st : State) : Prop where
  roused : ∀ pc, st.pass = some pc → pc.unasked = true → 0 < st.gates.bootsWaiting → st.Roused
  file : ∀ pc, st.pass = some pc → pc.running = true →
    st.gates.stopFile = (cfg.runDir && decide (0 < st.asked))
  once : st.asked ≤ 1
  fresh : ∀ pc, st.pass = some pc → pc.running = true → (∀ child, pc ≠ .watching child true) → st.asked = 0
  wanted : 0 < st.asked → st.crowded = true

/-- Either a permit is stored now, or nothing new waits and nothing was consumed; the stop file is not touched. -/
def Gates.Quieter (g g' : Gates) : Prop :=
  (g'.preempt = true ∨ g'.preempt = g.preempt ∧ g'.bootsWaiting ≤ g.bootsWaiting) ∧ g'.stopFile = g.stopFile

section Task

variable {cfg : Config} {t : ℕ} {id : String} {limited : Bool} {g g' : Gates} {pc : PermitPc}
  {acq : Acquire}

theorem Gates.Quieter.refl (g : Gates) : g.Quieter g := ⟨.inr ⟨rfl, le_rfl⟩, rfl⟩

theorem Gates.quieter_unregister (g : Gates) : g.Quieter g.unregister := ⟨.inr ⟨rfl, Nat.sub_le _ 1⟩, rfl⟩

theorem PermitMove.quieter (h : PermitMove cfg t id limited g pc g' acq) : g.Quieter g' := by
  cases h with
  | latch | skip | again => exact .refl g
  | lock | read => exact ⟨.inr ⟨rfl, le_rfl⟩, rfl⟩
  | meet | queue => exact ⟨.inl rfl, rfl⟩
  | lockLate | quit => exact ⟨.inr ⟨rfl, Nat.sub_le _ 1⟩, rfl⟩
  | skipLate | expire | enter => exact g.quieter_unregister

theorem Gates.quieter_releaseAll (g : Gates) (t : ℕ) (permit : Option Permit) :
    g.Quieter (g.releaseAll t permit) := by
  rcases permit with _ | _ | _ <;> exact ⟨.inr ⟨rfl, le_rfl⟩, rfl⟩

theorem TaskMove.quieter {kind : Kind} {w w' : Shared} {stage stage' : Stage}
    (h : TaskMove cfg t w kind stage w' stage') : w.gates.Quieter w'.gates := by
  cases h with
  | permit hp => exact hp.quieter
  | @booted permit => exact w.gates.quieter_releaseAll t permit
  | enter | wait | entered | boot | create | finish | slot | slotWait | slotted => exact .refl _

theorem abandon_quieter (t : ℕ) (w : Shared) (stage : Stage) :
    w.gates.Quieter (w.abandon t stage).gates := by
  cases stage with
  | permit id pc =>
    cases pc <;> first | exact ⟨.inr ⟨rfl, le_rfl⟩, rfl⟩ | exact ⟨.inr ⟨rfl, Nat.sub_le _ 1⟩, rfl⟩
  | slot permit | slotQueued permit | daemon permit => exact w.gates.quieter_releaseAll t permit
  | admission | admissionQueued | next | ended => exact .refl _

end Task

section Heard

variable {cfg : Config} {st : State}

/-- The pass and its record stay, and the boots get no louder without a permit. -/
theorem State.Heard.quieter {st' : State} (hh : st.Heard cfg) (hpass : st'.pass = st.pass)
    (hasked : st'.asked = st.asked) (hcrowded : st'.crowded = st.crowded)
    (hg : st.gates.Quieter st'.gates) : st'.Heard cfg := by
  obtain ⟨hg, hfile⟩ := hg
  refine ⟨fun pc hpc hun hpos ↦ ?_, ?_, ?_, ?_, ?_⟩
  · rcases hg with hpre | ⟨hpre, hle⟩
    · exact .inl hpre
    · rw [hpass] at hpc
      rcases hh.roused pc hpc hun (by omega) with hst | ⟨child, hst⟩
      · exact .inl (hpre.trans hst)
      · exact .inr ⟨child, hpass.trans hst⟩
  · rw [hpass, hfile, hasked]
    exact hh.file
  · rw [hasked]
    exact hh.once
  · rw [hpass, hasked]
    exact hh.fresh
  · rw [hasked, hcrowded]
    exact hh.wanted

theorem State.Heard.noteCrowd (hh : st.Heard cfg) : st.noteCrowd.Heard cfg := by
  refine ⟨hh.roused, hh.file, hh.once, hh.fresh, fun hpos ↦ ?_⟩
  have hcrowded := hh.wanted hpos
  simp [State.noteCrowd, hcrowded]

theorem consult_asks (cfg : Config) (child : Option ℕ) (hpos : 0 < st.gates.bootsWaiting) :
    (st.consult cfg child).asked = st.asked + 1 ∧ (st.consult cfg child).gates.stopFile = cfg.runDir := by
  unfold State.consult
  rw [if_pos hpos]
  exact ⟨rfl, rfl⟩

theorem State.Heard.consult (child : Option ℕ) (hasked : st.asked = 0)
    (hfile : st.gates.stopFile = (cfg.runDir && decide (0 < st.asked))) :
    (st.consult cfg child).noteCrowd.Heard cfg := by
  by_cases hpos : 0 < st.gates.bootsWaiting
  · obtain ⟨hasks, hstop⟩ := consult_asks cfg child hpos
    have hpass : (st.consult cfg child).pass = some (.watching child true) := by
      rw [State.consult, if_pos hpos]
    refine ⟨fun pc hpc hun ↦ ?_, fun pc hpc _ ↦ ?_, ?_, fun pc hpc _ hne ↦ ?_, fun _ ↦ ?_⟩
    · cases hpass.symm.trans hpc
      cases hun
    · have hone : 0 < (st.consult cfg child).asked := by omega
      refine hstop.trans ?_
      change cfg.runDir = (cfg.runDir && decide (0 < (st.consult cfg child).asked))
      rw [decide_eq_true hone, Bool.and_true]
    · exact hasks.le.trans (by omega)
    · cases hpass.symm.trans hpc
      exact absurd rfl (hne child)
    · have hwait : 0 < (st.consult cfg child).gates.bootsWaiting := by
        rw [State.consult, if_pos hpos]
        exact hpos
      simp [State.noteCrowd, hpass, hwait, PassPc.running]
  · have hsame : st.consult cfg child = { st with pass := some (.watching child false) } := by
      rw [State.consult, if_neg hpos]
    rw [hsame]
    refine ⟨fun pc _ _ hwait ↦ absurd hwait hpos, fun _ _ _ ↦ hfile, ?_,
      fun _ _ _ _ ↦ hasked, fun hone ↦ ?_⟩
    · exact hasked.le.trans (Nat.zero_le 1)
    · have hzero : ¬0 < st.asked := by omega
      exact absurd hone hzero

theorem State.Heard.passEnds (hh : st.Heard cfg) (f : Gates → Gates) : (st.passEnds f).Heard cfg := by
  refine ⟨fun pc hpc ↦ ?_, fun pc hpc ↦ ?_, hh.once, fun pc hpc ↦ ?_, hh.wanted⟩ <;> cases hpc

theorem State.Heard.begun {removed : Bool} {scripts : List Script} {child : Option ℕ} :
    State.Heard cfg { Boots.begun cfg st removed with scripts, pass := some (.counting child) } := by
  refine ⟨fun pc hpc hun ↦ ?_, fun _ _ _ ↦ ?_, Nat.zero_le 1, fun _ _ _ _ ↦ rfl, fun hpos ↦ ?_⟩
  · cases hpc
    cases hun
  · have hclear : (st.gates.clearStop.clearMarker cfg removed).stopFile = false := by
      unfold Gates.clearMarker
      split <;> rfl
    exact hclear.trans (Bool.and_false _).symm
  · exact absurd hpos (Nat.lt_irrefl 0)

end Heard

theorem passMove_heard {cfg : Config} {st st' : State} {pc : PassPc} {x : PassMove} (hh : st.Heard cfg)
    (hpc : st.pass = some pc) (h : passMove cfg st pc x = some st') : st'.noteCrowd.Heard cfg := by
  unfold passMove at h
  split at h
  · rename_i removed launch
    simp only [Option.ite_none_right_eq_some] at h
    obtain ⟨-, h⟩ := h
    cases launch <;> cases h <;> exact State.Heard.begun.noteCrowd
  · cases h
    exact State.Heard.consult _ (hh.fresh _ hpc rfl fun _ ↦ by simp) (hh.file _ hpc rfl)
  · rename_i child
    simp only [Option.ite_none_right_eq_some, Option.some.injEq] at h
    obtain ⟨-, rfl⟩ := h
    have hasked : st.asked = 0 := hh.fresh _ hpc rfl fun _ ↦ by simp
    refine State.Heard.noteCrowd
      ⟨fun pc hpc _ _ ↦ .inr ⟨child, rfl⟩, fun _ _ _ ↦ hh.file _ hpc rfl,
      hh.once, fun _ _ _ _ ↦ hasked, hh.wanted⟩
  · cases h
    exact State.Heard.consult _ (hh.fresh _ hpc rfl fun _ ↦ by simp) (hh.file _ hpc rfl)
  · cases h
    exact (hh.passEnds _).noteCrowd
  · cases h
    exact (hh.passEnds _).noteCrowd
  · cases h
    exact (hh.passEnds _).noteCrowd
  · cases h
    exact (hh.passEnds _).noteCrowd
  · cases h

theorem ScriptMoved.quieter {k : ℕ} {g g' : Gates} {s s' : Script} (h : ScriptMoved k g s g' s') :
    g.Quieter g' := by
  cases h with
  | mark | take => exact ⟨.inr ⟨rfl, le_rfl⟩, rfl⟩
  | use => exact .refl g
  | leave | exit =>
    unfold Script.unlocks
    split
    · split <;> exact ⟨.inr ⟨rfl, le_rfl⟩, rfl⟩
    · exact .refl g

theorem State.Heard.step {cfg : Config} {l : Label} {st st' : State} (hh : st.Heard cfg)
    (h : Boots.step cfg l st = some st') : st'.Heard cfg := by
  obtain ⟨sm, hm, rfl⟩ := Option.map_eq_some_iff.mp h
  cases l with
  | spawn kind =>
    cases hm
    exact State.Heard.noteCrowd (hh.quieter rfl rfl rfl (.refl _))
  | run t a =>
    obtain ⟨x, hx, hm⟩ := Option.bind_eq_some_iff.mp hm
    obtain ⟨⟨w', stage'⟩, hr, rfl⟩ := Option.map_eq_some_iff.mp hm
    exact State.Heard.noteCrowd (hh.quieter rfl rfl rfl (taskStep_move hr).quieter)
  | cancel t =>
    obtain ⟨x, hx, rfl⟩ := Option.map_eq_some_iff.mp hm
    exact State.Heard.noteCrowd (hh.quieter rfl rfl rfl (abandon_quieter t st.shared x.stage))
  | runOnce =>
    simp only [Boots.move] at hm
    split at hm
    · cases hm
      exact hh.noteCrowd
    · cases hm
      refine State.Heard.noteCrowd ⟨fun pc hpc hun ↦ ?_, fun pc hpc hrun ↦ ?_, hh.once,
        fun pc hpc hrun ↦ ?_, hh.wanted⟩
      · cases hpc
        cases hun
      · cases hpc
        cases hrun
      · cases hpc
        cases hrun
  | pass x =>
    obtain ⟨pc, hpc, hm⟩ := Option.bind_eq_some_iff.mp hm
    exact passMove_heard hh hpc hm
  | script k x =>
    obtain ⟨s, -, hm⟩ := Option.bind_eq_some_iff.mp hm
    obtain ⟨⟨g', s'⟩, hr, rfl⟩ := Option.map_eq_some_iff.mp hm
    exact State.Heard.noteCrowd (hh.quieter rfl rfl rfl (scriptMove_moved hr).2.quieter)
  | restart =>
    simp only [Boots.move, Option.ite_none_left_eq_some, Option.some.injEq] at hm
    obtain ⟨hpass, rfl⟩ := hm
    have hnone : st.pass = none := Option.not_isSome_iff_eq_none.mp hpass
    refine State.Heard.noteCrowd ⟨fun pc hpc ↦ ?_, fun pc hpc ↦ ?_, hh.once, fun pc hpc ↦ ?_, hh.wanted⟩ <;>
      cases hnone.symm.trans hpc

theorem Reaches.heard {cfg : Config} {ok : State → Label → Prop} {marker : Option (List Char)}
    {st : State} (h : Reaches cfg ok marker st) : st.Heard cfg := by
  refine h.invariant (I := State.Heard cfg) ?_ fun s l s' hI _ hs ↦ hI.step hs
  refine ⟨fun pc hpc ↦ ?_, fun pc hpc ↦ ?_, Nat.zero_le 1,
    fun pc hpc ↦ ?_, fun hpos ↦ absurd hpos (Nat.lt_irrefl 0)⟩ <;>
    cases hpc

/-- The pass that is roused goes on to ask, as long as a boot waits. -/
theorem State.Roused.asks {cfg : Config} {st : State} {pc : PassPc} (hr : st.Roused)
    (hpc : st.pass = some pc) (hun : pc.unasked = true) (hpos : 0 < st.gates.bootsWaiting) :
    ∃ st', exec (Boots.step cfg) pc.rouse st = some st' ∧ st'.asked = st.asked + 1 ∧
      st'.gates.stopFile = cfg.runDir := by
  cases pc with
  | queued | counting => cases hun
  | watching child yielding =>
    cases yielding with
    | true => cases hun
    | false =>
      rcases hr with hpre | ⟨child', hwoken⟩
      · let woken : State :=
          { st.modGates fun g ↦ { g with preempt := false } with pass := some (.woken child) }
        have hwake : Boots.step cfg (.pass .wake) st = some woken.noteCrowd := by
          simp [Boots.step, Boots.move, hpc, passMove, hpre, woken]
        refine ⟨(woken.noteCrowd.consult cfg child).noteCrowd, ?_, consult_asks cfg child hpos⟩
        have hrecount : Boots.step cfg (.pass .recount) woken.noteCrowd =
            some (woken.noteCrowd.consult cfg child).noteCrowd := rfl
        simp [PassPc.rouse, exec, hwake, hrecount]
      · cases hpc.symm.trans hwoken
  | woken child =>
    refine ⟨(st.consult cfg child).noteCrowd, ?_, consult_asks cfg child hpos⟩
    simp [PassPc.rouse, exec, Boots.step, Boots.move, hpc, passMove]

theorem no_lost_preemption {cfg : Config} {marker : Option (List Char)} {st : State}
    (h : Reaches cfg Always marker st) : st.Preempts cfg := by
  have hh := Reaches.heard h
  refine ⟨(Reaches.booked h).boots, hh.roused, fun pc hpc hun hpos ↦ ?_, hh.file, hh.once, hh.wanted⟩
  exact (hh.roused pc hpc hun hpos).asks hpc hun hpos

/-- A pass finds nobody waiting, and a boot queues up behind it. -/
theorem no_lost_preemption_run : ∃ st, Reaches oneSlot Always none st ∧
    st.pass = some (.watching (some 0) false) ∧ st.gates.bootsWaiting = 1 ∧ st.Preempts oneSlot := by
  let labels : List Label := [.runOnce, .pass (.begin true (some false)), .pass .count,
    .spawn (.lifecycle "sb-1")] ++ goes 0 2
  obtain ⟨st, hr, hst⟩ := Run.exists_of_exec (step oneSlot) Always (State.boot oneSlot none) labels
    (fun st ↦ st.pass == some (.watching (some 0) false) && st.gates.bootsWaiting == 1)
    (by decide) (by decide)
  simp only [Bool.and_eq_true, beq_iff_eq] at hst
  exact ⟨st, hr, hst.1, hst.2, no_lost_preemption hr⟩

end PgVmPool.Boots
