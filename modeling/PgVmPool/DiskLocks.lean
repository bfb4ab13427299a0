import PgVmPool.BootAccounts

namespace PgVmPool.Boots

open Function Transition

def Task.locks (x : Task) (id : String) : Prop := x.stage.held = some (.disk id)

def Script.holds (s : Script) (id : String) : Prop := s.locks = true ∧ s.disk = some id

/-- Whether this party has the lock file of this disk locked. -/
def State.locks (st : State) : Party → String → Prop
  | .boot t, id => ∃ x, st.tasks[t]? = some x ∧ x.locks id
  | .script k, id => ∃ s, st.scripts[k]? = some s ∧ s.holds id
  | .pass, _ => False

def State.Flocked (st : State) : Prop := ∀ id p, st.gates.flocks id = some p ↔ st.locks p id

/-- What one party does to the lock files: it leaves them alone, locks a free one when it has none,
or unlocks the one it has. -/
inductive FlockMove (flocks : String → Option Party) (p : Party) :
    Option String → (String → Option Party) → Option String → Prop
  | keep (d : Option String) : FlockMove flocks p d flocks d
  | lock {id : String} (h : flocks id = none) : FlockMove flocks p none (update flocks id (some p)) (some id)
  | unlock {id : String} : FlockMove flocks p (some id) (update flocks id none) none

theorem FlockMove.flocked {flocks flocks' : String → Option Party} {p : Party} {d d' : Option String}
    {holds holds' : Party → String → Prop} (h : FlockMove flocks p d flocks' d')
    (hf : ∀ id q, flocks id = some q ↔ holds q id) (hp : ∀ id, holds p id ↔ d = some id)
    (hp' : ∀ id, holds' p id ↔ d' = some id) (hrest : ∀ q id, q ≠ p → (holds' q id ↔ holds q id)) :
    ∀ id q, flocks' id = some q ↔ holds' q id := by
  intro id q
  cases h with
  | keep =>
    by_cases hq : q = p
    · subst hq
      rw [hf, hp, hp']
    · rw [hf, hrest q id hq]
  | @lock id' hfree =>
    by_cases hid : id = id'
    · subst hid
      rw [update_self, Option.some_inj]
      by_cases hq : q = p
      · subst hq
        simp [hp']
      · rw [hrest q id hq, ← hf, hfree]
        simp [Ne.symm hq]
    · rw [update_of_ne hid]
      by_cases hq : q = p
      · subst hq
        rw [hf, hp, hp']
        simp [Ne.symm hid]
      · rw [hf, hrest q id hq]
  | @unlock id' =>
    have hown : flocks id' = some p := (hf id' p).mpr ((hp id').mpr rfl)
    by_cases hid : id = id'
    · subst hid
      rw [update_self]
      by_cases hq : q = p
      · subst hq
        simp [hp']
      · rw [hrest q id hq, ← hf, hown]
        simp [Ne.symm hq]
    · rw [update_of_ne hid]
      by_cases hq : q = p
      · subst hq
        rw [hf, hp, hp']
        simp [Ne.symm hid]
      · rw [hf, hrest q id hq]

def Permit.disk? : Option Permit → Option String
  | some (.disk id) => some id
  | some .gate | none => none

def Acquire.permit : Acquire → Option Permit
  | .waits _ => none
  | .done permit => permit

section Task

variable {cfg : Config} {t : ℕ} {id : String} {limited : Bool} {g g' : Gates} {pc : PermitPc}
  {acq : Acquire}

theorem PermitMove.flocks (h : PermitMove cfg t id limited g pc g' acq) :
    FlockMove g.flocks (.boot t) none g'.flocks (Permit.disk? acq.permit) := by
  cases h with
  | lock free | lockLate free => exact .lock free
  | latch | meet | skip | again | skipLate | expire | read | queue | enter | quit => exact .keep _

theorem Acquire.held_stage (kind : Kind) (acq : Acquire) : (acq.stage kind id).held = acq.permit := by
  cases acq with
  | waits => rfl
  | done permit =>
    cases permit with
    | none => rfl
    | some permit => cases kind <;> rfl

theorem Gates.releaseAll_flocks (g : Gates) (t : ℕ) (permit : Option Permit) :
    FlockMove g.flocks (.boot t) (Permit.disk? permit) (g.releaseAll t permit).flocks none := by
  rcases permit with _ | _ | _
  · exact .keep _
  · exact .unlock
  · exact .keep _

theorem TaskMove.flocks {kind : Kind} {w w' : Shared} {stage stage' : Stage}
    (h : TaskMove cfg t w kind stage w' stage') :
    FlockMove w.gates.flocks (.boot t) (Permit.disk? stage.held) w'.gates.flocks
      (Permit.disk? stage'.held) := by
  cases h with
  | permit hp =>
    rw [Acquire.held_stage]
    exact hp.flocks
  | @booted permit =>
    have hret : kind.returned.held = none := by cases kind <;> rfl
    rw [hret]
    exact w.gates.releaseAll_flocks t permit
  | enter | wait | entered | boot | create | finish | slot | slotWait | slotted => exact .keep _

theorem abandon_flocks (t : ℕ) (w : Shared) (stage : Stage) :
    FlockMove w.gates.flocks (.boot t) (Permit.disk? stage.held) (w.abandon t stage).gates.flocks none := by
  cases stage with
  | permit id pc => cases pc <;> exact .keep _
  | slot permit | slotQueued permit | daemon permit => exact w.gates.releaseAll_flocks t permit
  | admission | admissionQueued | next | ended => exact .keep _

end Task

theorem Permit.disk?_eq {permit : Option Permit} {id : String} :
    Permit.disk? permit = some id ↔ permit = some (.disk id) := by
  rcases permit with _ | _ | _ <;> simp [Permit.disk?]

def Script.disk? (s : Script) : Option String := if s.locks then s.disk else none

theorem Script.holds_iff {s : Script} {id : String} : s.holds id ↔ s.disk? = some id := by
  simp [Script.holds, Script.disk?]

theorem ScriptMoved.flocks {k : ℕ} {g g' : Gates} {s s' : Script} (h : ScriptMoved k g s g' s') :
    FlockMove g.flocks (.script k) s.disk? g'.flocks s'.disk? := by
  have hunlock {s'' : Script} (hdisk : s''.disk? = none) :
      FlockMove g.flocks (.script k) s.disk? (s.unlocks g).flocks s''.disk? := by
    rw [hdisk]
    unfold Script.unlocks Script.disk?
    cases s.disk with
    | none => split <;> exact .keep _
    | some id =>
      split
      · exact .unlock
      · exact .keep _
  cases h with
  | mark => exact .keep _
  | take hlocks hdisk free =>
    simp only [Script.disk?, hlocks, hdisk, if_true]
    exact .lock free
  | use hlocks =>
    simp only [Script.disk?, hlocks, Bool.false_eq_true, if_false]
    exact .keep _
  | leave | exit => exact hunlock (by simp [Script.disk?])

theorem Gates.relatch_flocks (cfg : Config) (g : Gates) : (g.relatch cfg).flocks = g.flocks := by
  unfold Gates.relatch
  split <;> rfl

theorem Gates.clearMarker_flocks (cfg : Config) (g : Gates) (removed : Bool) :
    (g.clearMarker cfg removed).flocks = g.flocks := by
  unfold Gates.clearMarker
  split <;> rfl

theorem State.consult_flocks (cfg : Config) (st : State) (child : Option ℕ) :
    (st.consult cfg child).gates.flocks = st.gates.flocks ∧ (st.consult cfg child).scripts = st.scripts := by
  unfold State.consult
  split <;> exact ⟨rfl, rfl⟩

/-- The pass touches no lock file; it may launch a script, which has none. -/
theorem passMove_flocks {cfg : Config} {st st' : State} {pc : PassPc} {x : PassMove}
    (h : passMove cfg st pc x = some st') :
    st'.gates.flocks = st.gates.flocks ∧
      (st'.scripts = st.scripts ∨ ∃ locks, st'.scripts = st.scripts ++ [⟨locks, false, none, true⟩]) := by
  unfold passMove at h
  split at h
  · rename_i removed launch
    simp only [Option.ite_none_right_eq_some] at h
    obtain ⟨-, h⟩ := h
    cases launch <;> cases h
    · exact ⟨st.gates.clearStop.clearMarker_flocks cfg removed, .inl rfl⟩
    · exact ⟨st.gates.clearStop.clearMarker_flocks cfg removed, .inr ⟨_, rfl⟩⟩
  · cases h
    exact ⟨(st.consult_flocks cfg _).1, .inl (st.consult_flocks cfg _).2⟩
  · simp only [Option.ite_none_right_eq_some, Option.some.injEq] at h
    obtain ⟨-, rfl⟩ := h
    exact ⟨rfl, .inl rfl⟩
  · cases h
    exact ⟨(st.consult_flocks cfg _).1, .inl (st.consult_flocks cfg _).2⟩
  · cases h
    exact ⟨rfl, .inl rfl⟩
  · cases h
    exact ⟨st.gates.clearStop.relatch_flocks cfg, .inl rfl⟩
  · cases h
    exact ⟨rfl, .inl rfl⟩
  · cases h
    exact ⟨rfl, .inl rfl⟩
  · cases h

theorem State.locks_set {st : State} {t : ℕ} {y : Task} {w : Shared} {q : Party} {id : String}
    (hq : q ≠ .boot t) :
    State.locks { st with shared := w, tasks := st.tasks.set t y } q id ↔ st.locks q id := by
  cases q with
  | boot j =>
    have hj : t ≠ j := fun h ↦ hq (h ▸ rfl)
    simp only [State.locks, List.getElem?_set_ne hj]
  | pass | script => exact Iff.rfl

theorem State.Flocked.task {st : State} (hf : st.Flocked) {t : ℕ} {x : Task}
    (hx : st.tasks[t]? = some x) {w' : Shared} {stage' : Stage}
    (h : FlockMove st.gates.flocks (.boot t) (Permit.disk? x.stage.held) w'.gates.flocks
      (Permit.disk? stage'.held)) :
    State.Flocked { st with shared := w', tasks := st.tasks.set t ⟨x.kind, stage'⟩ } := by
  have hlt := (List.getElem?_eq_some_iff.mp hx).1
  refine h.flocked hf (fun id ↦ ?_) (fun id ↦ ?_) fun q id hq ↦ State.locks_set hq
  · rw [Permit.disk?_eq]
    simp [State.locks, hx, Task.locks]
  · rw [Permit.disk?_eq]
    simp [State.locks, hlt, Task.locks]

theorem exists_append_iff {α : Type} {xs : List α} {x : α} {i : ℕ} {P : α → Prop} (hx : ¬P x) :
    (∃ y, (xs ++ [x])[i]? = some y ∧ P y) ↔ ∃ y, xs[i]? = some y ∧ P y := by
  constructor
  · rintro ⟨y, hy, hP⟩
    rcases getElem?_append_cases hy with ⟨-, rfl⟩ | hy
    · exact absurd hP hx
    · exact ⟨y, hy, hP⟩
  · rintro ⟨y, hy, hP⟩
    have hlt := (List.getElem?_eq_some_iff.mp hy).1
    exact ⟨y, by rwa [List.getElem?_append_left hlt], hP⟩

theorem State.Flocked.congr {st st' : State} (hf : st.Flocked)
    (hflocks : st'.gates.flocks = st.gates.flocks) (hlocks : ∀ p id, st'.locks p id ↔ st.locks p id) :
    st'.Flocked := fun id p ↦ by rw [hflocks, hlocks, hf]

theorem State.Flocked.script {st : State} (hf : st.Flocked) {k : ℕ} {s s' : Script} {g' : Gates}
    (hs : st.scripts[k]? = some s)
    (h : FlockMove st.gates.flocks (.script k) s.disk? g'.flocks s'.disk?) :
    State.Flocked { st.modGates fun _ ↦ g' with scripts := st.scripts.set k s' } := by
  have hlt := (List.getElem?_eq_some_iff.mp hs).1
  refine h.flocked hf (fun id ↦ ?_) (fun id ↦ ?_) fun q id hq ↦ ?_
  · rw [← Script.holds_iff]
    simp [State.locks, hs]
  · rw [← Script.holds_iff]
    simp [State.locks, hlt]
  · cases q with
    | script j =>
      have hj : k ≠ j := fun h ↦ hq (h ▸ rfl)
      simp only [State.locks, List.getElem?_set_ne hj]
    | pass | boot => exact Iff.rfl

theorem State.Flocked.restart {st : State} (hf : st.Flocked) (cfg : Config) :
    State.Flocked { st with
      shared := .fresh cfg (st.gates.reboot cfg)
      tasks := st.tasks.map fun x ↦ ⟨x.kind, .ended⟩ } := by
  intro id p
  have hflocks : (st.gates.reboot cfg).flocks id = _ := congrFun (Gates.relatch_flocks cfg _) id
  change (st.gates.reboot cfg).flocks id = some p ↔ _
  rw [hflocks, Option.bind_eq_some_iff]
  cases p with
  | boot t =>
    refine iff_of_false ?_ ?_
    · rintro ⟨q, -, hq⟩
      cases q <;> cases hq
    · rintro ⟨x, hx, hlocks⟩
      obtain ⟨y, -, rfl⟩ := List.mem_map.mp (List.mem_of_getElem? hx)
      cases hlocks
  | pass =>
    refine iff_of_false ?_ fun h ↦ h
    rintro ⟨q, -, hq⟩
    cases q <;> cases hq
  | script k =>
    refine Iff.trans ?_ (hf id (.script k))
    constructor
    · rintro ⟨q, hq, heq⟩
      cases q <;> cases heq
      exact hq
    · exact fun h ↦ ⟨_, h, rfl⟩

theorem State.Flocked.step {cfg : Config} {l : Label} {st st' : State} (hf : st.Flocked)
    (h : Boots.step cfg l st = some st') : st'.Flocked := by
  obtain ⟨sm, hm, rfl⟩ := Option.map_eq_some_iff.mp h
  change sm.Flocked
  cases l with
  | spawn kind =>
    cases hm
    have hnone (id : String) : ¬Task.locks ⟨kind, kind.start⟩ id := by cases kind <;> rintro ⟨⟩
    refine hf.congr rfl fun p id ↦ ?_
    cases p with
    | boot t => exact exists_append_iff (hnone id)
    | pass | script => exact Iff.rfl
  | run t a =>
    obtain ⟨x, hx, hm⟩ := Option.bind_eq_some_iff.mp hm
    obtain ⟨⟨w', stage'⟩, hr, rfl⟩ := Option.map_eq_some_iff.mp hm
    exact hf.task hx (taskStep_move hr).flocks
  | cancel t =>
    obtain ⟨x, hx, rfl⟩ := Option.map_eq_some_iff.mp hm
    exact hf.task hx (abandon_flocks t st.shared x.stage)
  | runOnce =>
    simp only [Boots.move] at hm
    split at hm <;> cases hm <;> exact hf
  | pass x =>
    obtain ⟨pc, hpc, hm⟩ := Option.bind_eq_some_iff.mp hm
    obtain ⟨hflocks, hscripts⟩ := passMove_flocks hm
    have htasks := (passMove_booked hpc hm).1.tasks
    refine hf.congr hflocks fun p id ↦ ?_
    cases p with
    | boot t => simp only [State.locks, htasks]
    | pass => exact Iff.rfl
    | script k =>
      rcases hscripts with hscripts | ⟨locks, hscripts⟩
      · simp only [State.locks, hscripts]
      · simp only [State.locks, hscripts]
        exact exists_append_iff fun h ↦ by cases h.2
  | script k x =>
    obtain ⟨s, hs, hm⟩ := Option.bind_eq_some_iff.mp hm
    obtain ⟨⟨g', s'⟩, hr, rfl⟩ := Option.map_eq_some_iff.mp hm
    exact hf.script hs (scriptMove_moved hr).2.flocks
  | restart =>
    simp only [Boots.move, Option.ite_none_left_eq_some, Option.some.injEq] at hm
    obtain ⟨-, rfl⟩ := hm
    exact hf.restart cfg

theorem Reaches.flocked {cfg : Config} {ok : State → Label → Prop} {marker : Option (List Char)}
    {st : State} (h : Reaches cfg ok marker st) : st.Flocked := by
  refine h.invariant (I := State.Flocked) ?_ fun s l s' hI _ hs ↦ hI.step hs
  intro id p
  have hflocks : (State.boot cfg marker).gates.flocks id = none :=
    congrFun (Gates.relatch_flocks cfg _) id
  rw [hflocks]
  cases p <;> simp [State.locks, State.boot]

end PgVmPool.Boots
