import PgVmPool.BringUpGates

namespace PgVmPool.Boots

open Function Transition FairLock

/-- While processes of a pass are alive, the pass has the gate and no boot does. -/
structure State.GateKept (st : State) : Prop where
  kept : ∀ s ∈ st.scripts, s.alive = true → st.gates.gate.granted .pass = true
  closed : ∀ s ∈ st.scripts, s.alive = true → ∀ t, st.gates.gate.granted (.boot t) = false

def PassPc.child : PassPc → Option ℕ
  | .queued => none
  | .counting child | .watching child _ | .woken child => child

def State.childAlive (st : State) : Bool :=
  (st.pass.bind PassPc.child).any fun k ↦ st.scripts[k]?.any fun s : Script ↦ s.alive

/-- The script leaves no process behind when its shell is done, and the pass is not given up while the processes
it has launched are alive. -/
def StaysOn (st : State) : Label → Prop
  | .pass .finish | .pass .timeout | .pass .cancel => st.childAlive = false
  | _ => True

instance (st : State) : DecidablePred (StaysOn st)
  | .pass .finish | .pass .timeout | .pass .cancel => inferInstanceAs (Decidable (st.childAlive = false))
  | .pass (.begin _ _) | .pass .count | .pass .wake | .pass .recount => isTrue trivial
  | .spawn _ | .run _ _ | .cancel _ | .runOnce | .script _ _ | .restart => isTrue trivial

/-- Every live script is the child of the pass that runs. -/
def State.Attended (st : State) : Prop :=
  ∀ (k : ℕ) (s : Script), st.scripts[k]? = some s → s.alive = true → st.pass.bind PassPc.child = some k

theorem State.Attended.congr {st st' : State} (ha : st.Attended) (hscripts : st'.scripts = st.scripts)
    (hpass : st'.pass.bind PassPc.child = st.pass.bind PassPc.child) : st'.Attended := by
  intro k s hk hs
  rw [hscripts] at hk
  rw [hpass]
  exact ha k s hk hs

theorem State.Attended.of_quiet {st st' : State} (ha : st.Attended) (hscripts : st'.scripts = st.scripts)
    (hquiet : st.childAlive = false) : st'.Attended := by
  intro k s hk hs
  rw [hscripts] at hk
  have hchild := ha k s hk hs
  simp [State.childAlive, hchild, hk, hs] at hquiet

theorem State.consult_child (cfg : Config) (st : State) (child : Option ℕ) :
    (st.consult cfg child).pass.bind PassPc.child = child := by
  unfold State.consult
  split <;> rfl

theorem passMove_attended {cfg : Config} {st st' : State} {pc : PassPc} {x : PassMove} (ha : st.Attended)
    (hok : StaysOn st (.pass x)) (hpc : st.pass = some pc) (h : passMove cfg st pc x = some st') :
    st'.Attended := by
  have hconsult (child : Option ℕ) (hchild : st.pass.bind PassPc.child = child) :
      (st.consult cfg child).Attended := by
    refine ha.congr (st.consult_flocks cfg child).2 ?_
    rw [State.consult_child, hchild]
  unfold passMove at h
  split at h
  · rename_i removed launch
    simp only [Option.ite_none_right_eq_some] at h
    obtain ⟨-, h⟩ := h
    have hnone : st.pass.bind PassPc.child = none := by rw [hpc]; rfl
    cases launch with
    | none =>
      cases h
      exact ha.congr rfl hnone.symm
    | some locks =>
      cases h
      intro k s hk hs
      rcases getElem?_append_cases hk with ⟨rfl, -⟩ | hk
      · rfl
      · cases hnone.symm.trans (ha k s hk hs)
  · cases h
    exact hconsult _ (by rw [hpc]; rfl)
  · simp only [Option.ite_none_right_eq_some, Option.some.injEq] at h
    obtain ⟨-, rfl⟩ := h
    exact ha.congr rfl (by rw [hpc]; rfl)
  · cases h
    exact hconsult _ (by rw [hpc]; rfl)
  -- the ways in which a pass ends: its child was never there, is done, is given up, or the pass is dropped
  · cases h
    exact ha.of_quiet rfl hok
  · cases h
    exact ha.of_quiet rfl hok
  · cases h
    exact ha.of_quiet rfl hok
  · cases h
    exact ha.of_quiet rfl hok
  · cases h

theorem ScriptMoved.locks {k : ℕ} {g g' : Gates} {s s' : Script} (h : ScriptMoved k g s g' s') :
    s'.locks = s.locks := by
  cases h <;> rfl

theorem State.Attended.step {cfg : Config} {l : Label} {st st' : State} (ha : st.Attended)
    (hok : StaysOn st l) (h : Boots.step cfg l st = some st') : st'.Attended := by
  obtain ⟨sm, hm, rfl⟩ := Option.map_eq_some_iff.mp h
  suffices hsm : sm.Attended from hsm.congr rfl rfl
  cases l with
  | spawn kind =>
    cases hm
    exact ha
  | run t a =>
    obtain ⟨x, -, hm⟩ := Option.bind_eq_some_iff.mp hm
    obtain ⟨-, -, rfl⟩ := Option.map_eq_some_iff.mp hm
    exact ha
  | cancel t =>
    obtain ⟨x, -, rfl⟩ := Option.map_eq_some_iff.mp hm
    exact ha
  | runOnce =>
    simp only [Boots.move] at hm
    split at hm
    · cases hm
      exact ha
    · rename_i hpass
      cases hm
      have hnone := Option.not_isSome_iff_eq_none.mp hpass
      exact ha.congr rfl (by rw [hnone]; rfl)
  | pass x =>
    obtain ⟨pc, hpc, hm⟩ := Option.bind_eq_some_iff.mp hm
    exact passMove_attended ha hok hpc hm
  | script k x =>
    obtain ⟨s, hs, hm⟩ := Option.bind_eq_some_iff.mp hm
    obtain ⟨⟨g', s'⟩, hr, rfl⟩ := Option.map_eq_some_iff.mp hm
    intro j r hj hr'
    rcases getElem?_set_cases hj with ⟨rfl, rfl⟩ | ⟨-, hj⟩
    · exact ha j s hs (scriptMove_moved hr).1
    · exact ha j r hj hr'
  | restart =>
    simp only [Boots.move, Option.ite_none_left_eq_some, Option.some.injEq] at hm
    obtain ⟨-, rfl⟩ := hm
    exact ha

theorem State.Booked.pass_granted {cfg : Config} {st : State} (hb : st.Booked cfg) {k : ℕ}
    (hchild : st.pass.bind PassPc.child = some k) : st.gates.gate.granted .pass = true := by
  refine hb.gate.holding .pass ?_
  obtain ⟨pc, hpc, hk⟩ := Option.bind_eq_some_iff.mp hchild
  cases pc with
  | queued => cases hk
  | counting | watching | woken => simp [State.gateUse, hpc, passUse]

/-- In every run in which no process of a script outlives its shell, and no pass is given up while its processes
are alive, the gate outlives them. -/
theorem boot_gate_kept {cfg : Config} {marker : Option (List Char)} {st : State}
    (h : Reaches cfg StaysOn marker st) : st.GateKept := by
  have hb := Reaches.booked h
  have ha : st.Attended := by
    refine h.invariant (I := State.Attended) ?_ fun s l s' hI hok hs ↦ hI.step hok hs
    intro k s hk
    simp [State.boot] at hk
  have hkept (s : Script) (hs : s ∈ st.scripts) (halive : s.alive = true) :
      st.gates.gate.granted .pass = true := by
    obtain ⟨k, hk⟩ := List.getElem?_of_mem hs
    exact hb.pass_granted (ha k s hk halive)
  refine ⟨hkept, fun s hs halive t ↦ ?_⟩
  by_contra hboot
  rw [Bool.not_eq_false] at hboot
  have hcap : cfg.need .pass = st.gates.gate.capacity := hb.gateCap.symm
  have hneed : 0 < cfg.need (.boot t) := Nat.one_pos
  cases hb.gate.exclusive (hkept s hs halive) hcap hboot hneed

/-- A pass that ends before the deadline, with a boot queued behind it. -/
theorem boot_gate_kept_run : ∃ st, Reaches oneSlot StaysOn none st ∧
    st.scripts.any (fun s ↦ s.alive) = true ∧ st.gates.bootsWaiting = 1 ∧ st.GateKept := by
  let labels : List Label := [.runOnce, .pass (.begin true (some false)), .script 0 (.take "sb-1"),
    .pass .count, .spawn (.lifecycle "sb-2")] ++ goes 0 2 ++ [.pass .wake, .pass .recount]
  obtain ⟨st, hr, hst⟩ := Run.exists_of_exec (step oneSlot) StaysOn (State.boot oneSlot none) labels
    (fun st ↦ st.scripts.any (fun s ↦ s.alive) && st.gates.bootsWaiting == 1) (by decide) (by decide)
  simp only [Bool.and_eq_true, beq_iff_eq] at hst
  exact ⟨st, hr, hst.1, hst.2, boot_gate_kept hr⟩

/-- A boot of sb-1 waits while a script without locks works on its disk, and the pass ends by `x`. -/
def passEndsBy (x : PassMove) : List Label :=
  [.runOnce, .pass (.begin true (some false)), .script 0 (.take "sb-1"), .pass .count, .spawn (.lifecycle "sb-1")] ++
    goes 0 2 ++ [.pass .wake, .pass .recount, .pass x] ++ goes 0 2

/-- The script is still at work on the disk of sb-1, and the boot of it has the gate. -/
def State.Dropped (st : State) : Prop :=
  st.scripts = [⟨false, false, some "sb-1", true⟩] ∧ st.tasks = [⟨.lifecycle "sb-1", .daemon (some .gate) true⟩] ∧
    ¬st.GateKept

theorem exists_dropped {x : PassMove}
    (h : (exec (step oneSlot) (passEndsBy x) (State.boot oneSlot none)).any (fun st ↦
      st.scripts == [⟨false, false, some "sb-1", true⟩] &&
        st.tasks == [⟨.lifecycle "sb-1", .daemon (some .gate) true⟩] &&
        st.gates.gate.granted (.boot 0)) = true) :
    ∃ st, exec (step oneSlot) (passEndsBy x) (State.boot oneSlot none) = some st ∧
      Reaches oneSlot Always none st ∧ st.Dropped := by
  obtain ⟨st, hexec, hst⟩ := (Option.any_eq_true _ _).mp h
  simp only [Bool.and_eq_true, beq_iff_eq] at hst
  obtain ⟨⟨hscripts, htasks⟩, hgranted⟩ := hst
  refine ⟨st, hexec, .of_exec_true hexec fun _ _ ↦ trivial, hscripts, htasks, fun hkept ↦ ?_⟩
  have hclosed := hkept.closed _ (hscripts ▸ List.mem_singleton_self _) rfl 0
  rw [hgranted] at hclosed
  cases hclosed

/-- The deadline passes, or the shell is done, while a process of the script works on the disk. -/
theorem boot_gate_dropped :
    (∃ st, exec (step oneSlot) (passEndsBy .timeout) (State.boot oneSlot none) = some st ∧
      Reaches oneSlot Always none st ∧ st.Dropped) ∧
    ∃ st, exec (step oneSlot) (passEndsBy .finish) (State.boot oneSlot none) = some st ∧
      Reaches oneSlot Always none st ∧ st.Dropped :=
  ⟨exists_dropped (by decide), exists_dropped (by decide)⟩

end PgVmPool.Boots
