import PgVmPool.Pending

namespace PgVmPool

open Function Transition

def Task.lifts : Task → Option SandboxId
  | .offload _ _ (.bringUp _ _ p) => p.vm
  | _ => none

def Task.uses (w : World) : Task → Option SandboxId
  | .checkout _ pc => pc.vm w
  | x => x.lifts

/-- Some checkout uses the VM, a lookup would hand it out, or an offload brings it up. -/
def State.Occupied (st : State) (v : SandboxId) : Prop := st.InUse v ∨ ∃ x ∈ st.tasks, x.lifts = some v

/-- The VM that the bring-up of task `t`, a checkout or an offload, takes in hand when it resumes. -/
def State.grabs (st : State) (t : ℕ) (a : Answer) : Option SandboxId :=
  match st.tasks[t]? with
  | some (.offload s _ (.bringUp _ known p)) =>
    (ensureStep ⟨s, known, none, none⟩ st.world p a).bind fun r ↦
      if r.2.vm = p.vm then none else r.2.vm
  | _ => st.takes t a

namespace JanitorPc

def acting : JanitorPc → Option (Schema × SandboxId)
  | .checkEntries s id _ | .probe s id _ | .kill s id _ | .clear s id _ => some (s, id)
  | .idle | .visit _ => none

/-- The entry whose VM the janitor has found without a row and may still kill. -/
def unbound : JanitorPc → Option (Schema × SandboxId)
  | .checkEntries s id _ | .probe s id _ | .kill s id _ => some (s, id)
  | .idle | .visit _ | .clear _ _ _ => none

/-- The VM the janitor has found idle and may still kill. -/
def dooms : JanitorPc → Option SandboxId
  | .probe _ id _ | .kill _ id _ => some id
  | .idle | .visit _ | .checkEntries _ _ _ | .clear _ _ _ => none

def takesUp : JanitorPc → Option (Schema × SandboxId)
  | .visit ((s, id) :: _) => some (s, id)
  | _ => none

def checks : JanitorPc → Option (Schema × SandboxId)
  | .checkEntries s id _ => some (s, id)
  | _ => none

end JanitorPc

/-- A VM that the janitor deletes is not in the row of its schema and nobody brings it up or serves
from it; a ledger entry that the janitor drops is the one it acted on. -/
structure Tended.Careful (j : Tended) : Prop where
  kill : ∀ s id todo, j.pc = .kill s id todo → j.sys.world.store.idOf s ≠ some id ∧
    ∀ x ∈ j.sys.tasks, x.uses j.sys.world ≠ some id
  clear : ∀ s id todo, j.pc = .clear s id todo → ∀ p ∈ j.sys.world.pending s, p.1 = id

/-- What the next step of a task asks of the janitor. -/
def Tended.Avoids (j : Tended) (x : Task) : Prop :=
  (∀ p ∈ x.puts j.sys.world, j.pc.unbound ≠ some p) ∧
    ∀ p ∈ x.records, ∀ q ∈ j.pc.acting, q.1 = p.1 → q.2 = p.2

/-- What the next step of the janitor asks of the tasks. -/
def Tended.Clear (j : Tended) : Prop :=
  (∀ p ∈ j.pc.takesUp, ∀ q ∈ j.sys.world.pending p.1, q.1 = p.2) ∧
    ∀ p ∈ j.pc.checks, j.sys.world.unsettled p.1 = false → ¬ j.sys.Occupied p.2

/-- The janitor takes up an entry only when no other VM has been recorded in its place, and goes past
its map check only when nobody holds the VM; until it is done with the entry nobody records another
VM for the schema, and until it has killed the VM nobody takes it in hand or binds the schema to it. -/
def TendsAlone (j : Tended) : Label ⊕ Answer → Prop
  | .inl l => OnRun (fun t a ↦ (∀ v ∈ j.sys.grabs t a, j.pc.dooms ≠ some v) ∧
      ∀ x ∈ j.sys.tasks[t]?, j.Avoids x) l
  | .inr _ => j.Clear

instance (st : State) (v : SandboxId) : Decidable (st.Occupied v) :=
  inferInstanceAs (Decidable (_ ∨ _))

instance (j : Tended) (x : Task) : Decidable (j.Avoids x) := inferInstanceAs (Decidable (_ ∧ _))

instance (j : Tended) : Decidable j.Clear := inferInstanceAs (Decidable (_ ∧ _))

instance (j : Tended) : (l : Label ⊕ Answer) → Decidable (TendsAlone j l)
  | .inl l => inferInstanceAs (Decidable (OnRun _ l))
  | .inr _ => inferInstanceAs (Decidable j.Clear)

section Steps

variable {cfg : Config} {minAge t : ℕ} {a : Answer} {w w' : World} {x y : Task} {s : Schema}
  {v : SandboxId} {st st' : State} {l : Label} {j j' : Tended}

theorem offStep_lifts {kind : OffloadKind} {pc pc' : OffPc}
    (h : offStep cfg s kind w pc a = some (w', pc')) (hv : (Task.offload s kind pc').lifts = some v) :
    ∃ r known p u p', pc = .bringUp r known p ∧ p'.vm = some v ∧
      ensureStep ⟨s, known, none, none⟩ w p a = some (u, p') := by
  obtain ⟨u, hu, -, -⟩ := offStep_eq h
  rcases offCore_ensure_or hu with ⟨r, known, p, p', rfl, rfl, hp⟩ | hapart
  · exact ⟨r, known, p, u, p', rfl, hv, hp⟩
  · cases pc' with
    | bringUp r known p =>
      obtain rfl := hapart.started r known p rfl
      cases hv
    | _ => cases hv

theorem Task.lifts_of_initial (h : x.initial = true) : x.lifts = none := by
  obtain ⟨_, rfl⟩ | ⟨_, _, rfl⟩ | rfl | rfl | rfl := Task.initial_cases h <;> rfl

theorem State.grabs_of_takes (h : st.takes t a = some v) : st.grabs t a = some v := by
  unfold State.grabs
  split
  · rename_i ht
    simp [State.takes, ht] at h
  · exact h

theorem State.Occupied.of_step (hsound : st.Sound) (hs : Step cfg st l st') (hv : st'.Occupied v) :
    st.Occupied v ∨ ∃ t a, l = .run t a ∧ st.grabs t a = some v := by
  rcases hv with huse | ⟨x, hx, hv⟩
  · rcases State.InUse.of_step hsound hs huse with h | ⟨t, a, rfl, h⟩
    · exact .inl (.inl h)
    · exact .inr ⟨t, a, rfl, State.grabs_of_takes h⟩
  rcases hs.mem_cases hx with hx | hi | ⟨t, a, y, rfl, ht, hy, -⟩
  · exact .inl (.inr ⟨x, hx, hv⟩)
  · simp [Task.lifts_of_initial hi] at hv
  · cases x with
    | offload s kind pc' =>
      obtain ⟨pc, rfl, ho⟩ := taskStep_offload hy
      obtain ⟨r, known, p, u, p', rfl, hvm, hp⟩ := offStep_lifts ho hv
      by_cases hpv : p.vm = some v
      · exact .inl (.inr ⟨_, List.mem_of_getElem? ht, hpv⟩)
      · refine .inr ⟨t, a, rfl, ?_⟩
        simp only [State.grabs, ht, hp, Option.bind_some, hvm]
        rw [if_neg (Ne.symm hpv)]
    | checkout | reapIdle | reapUntracked | purge => cases hv

theorem State.Occupied.of_uses (hx : x ∈ st.tasks) (hv : x.uses st.world = some v) : st.Occupied v := by
  cases x with
  | checkout s pc => exact .inl (.inl ⟨_, hx, CkPc.reach_of_vm hv⟩)
  | offload | reapIdle | reapUntracked | purge => exact .inr ⟨_, hx, hv⟩

theorem Step.recorded (hs : step cfg l st = some st') {p : SandboxId × ℕ}
    (hp : st'.world.pending s = some p) :
    st.world.pending s = some p ∨
      ∃ t a x, l = .run t a ∧ st.tasks[t]? = some x ∧ x.records = some (s, p.1) := by
  by_cases hsame : st'.world.pending s = st.world.pending s
  · exact .inl (hsame ▸ hp)
  obtain ⟨t, a, x, rfl, ht, hx⟩ := (step_sound hs).pending hsame
  obtain ⟨y, hy, -⟩ := step_run hs ht
  obtain ⟨⟨r, v⟩, hr, rfl⟩ := Option.map_eq_some_iff.mp ((Task.pending_of_ledger hy hx).symm.trans hp)
  obtain rfl : r = s := Option.some.inj ((Task.ledger_of_records hr).symm.trans hx)
  exact .inr ⟨t, a, x, rfl, ht, hr⟩

/-- What the janitor relies on while it acts on an entry. -/
structure Tended.Relies (j : Tended) : Prop where
  unbound : ∀ p ∈ j.pc.unbound, j.sys.world.store.idOf p.1 ≠ some p.2
  unheld : ∀ v ∈ j.pc.dooms, ¬ j.sys.Occupied v
  entry : ∀ p ∈ j.pc.acting, ∀ q ∈ j.sys.world.pending p.1, q.1 = p.2

theorem Tended.Relies.careful (h : j.Relies) : j.Careful where
  kill s id todo hpc := by
    refine ⟨h.unbound (s, id) (by rw [hpc]; rfl), fun x hx hv ↦ ?_⟩
    exact h.unheld id (by rw [hpc]; rfl) (.of_uses hx hv)
  clear s id todo hpc := h.entry (s, id) (by rw [hpc]; rfl)

theorem Tended.Relies.system (h : j.Relies) (hsound : j.sys.Sound) (hok : TendsAlone j (.inl l))
    (hs : step cfg l j.sys = some j'.sys) (hpc : j'.pc = j.pc) : j'.Relies where
  unbound p hp hid := by
    rw [hpc] at hp
    rcases (step_sound hs).idOf p.1 with heq | ⟨t, a, x, id, rfl, ht, hput, heq⟩
    · exact h.unbound p hp (heq ▸ hid)
    · obtain rfl : id = p.2 := Option.some.inj (heq.symm.trans hid)
      exact (hok.2 x ht).1 p hput hp
  unheld v hv hheld := by
    rw [hpc] at hv
    rcases hheld.of_step hsound (step_sound hs) with hold | ⟨t, a, rfl, hgrab⟩
    · exact h.unheld v hv hold
    · exact hok.1 v hgrab hv
  entry p hp q hq := by
    rw [hpc] at hp
    rcases Step.recorded hs hq with hold | ⟨t, a, x, rfl, ht, hrec⟩
    · exact h.entry p hp q hold
    · exact ((hok.2 x ht).2 _ hrec p hp rfl).symm

end Steps

section Janitor

variable {cfg : Config} {minAge : ℕ} {a : Answer} {w w' : World} {pc pc' : JanitorPc}
  {p : Schema × SandboxId} {v : SandboxId} {j j' : Tended}

theorem janitorStep_acting (h : janitorStep minAge w pc a = some (w', pc')) (hp : pc'.acting = some p) :
    (pc.acting = some p ∨ pc.takesUp = some p) ∧ w'.pending = w.pending := by
  revert h
  fun_cases janitorStep minAge w pc a <;> intro h <;> cases h
  case case4 =>
    refine ⟨.inr ?_, rfl⟩
    split at hp <;> exact hp
  case case5 =>
    split at hp
    · cases hp
    · exact ⟨.inl hp, rfl⟩
  all_goals first | cases hp; done | exact ⟨.inl hp, rfl⟩

theorem janitorStep_unbound (h : janitorStep minAge w pc a = some (w', pc'))
    (hp : pc'.unbound = some p) : pc.unbound = some p ∨ w.store.idOf p.1 ≠ some p.2 := by
  revert h
  fun_cases janitorStep minAge w pc a <;> intro h <;> cases h
  case case4 =>
    split at hp
    · cases hp
    · cases hp
      exact .inr ‹_›
  case case5 =>
    split at hp
    · cases hp
    · exact .inl hp
  all_goals first | cases hp; done | exact .inl hp

theorem janitorStep_dooms (h : janitorStep minAge w pc a = some (w', pc')) (hv : pc'.dooms = some v) :
    pc.dooms = some v ∨ ∃ s, pc.checks = some (s, v) ∧ w.unsettled s = false := by
  revert h
  fun_cases janitorStep minAge w pc a <;> intro h <;> cases h
  case case4 => split at hv <;> cases hv
  case case5 s _ _ =>
    split at hv
    · cases hv
    · cases hv
      rename_i hset
      exact .inr ⟨s, rfl, by simpa using hset⟩
  all_goals first | cases hv; done | exact .inl hv

theorem State.Occupied.of_world {st st' : State} (hw : st.world.Shrinks st'.world)
    (ht : st'.tasks = st.tasks) (h : st'.Occupied v) : st.Occupied v := by
  rcases h with huse | ⟨x, hx, hv⟩
  · exact .inl (huse.of_shrinks hw fun j y hj ↦ .inr (ht ▸ hj))
  · exact .inr ⟨x, ht ▸ hx, hv⟩

theorem Tended.Relies.janitor (h : j.Relies) (hok : TendsAlone j (.inr a))
    (hs : tend minAge j.sys j.pc a = some (j'.sys, j'.pc)) : j'.Relies := by
  obtain ⟨hj, ht⟩ := tend_eq hs
  have hstore : j'.sys.world.store = j.sys.world.store := by rw [janitorStep_frame hj]
  constructor
  · intro p hp
    rw [hstore]
    exact (janitorStep_unbound hj hp).elim (h.unbound p) id
  · intro v hv hheld
    have hheld := hheld.of_world (janitorStep_shrinks hj) ht
    rcases janitorStep_dooms hj hv with hold | ⟨s, hc, hset⟩
    · exact h.unheld v hold hheld
    · exact hok.2 (s, v) hc hset hheld
  · intro p hp q hq
    obtain ⟨hpc, hpend⟩ := janitorStep_acting hj hp
    rw [hpend] at hq
    exact hpc.elim (h.entry p · q hq) (hok.1 p · q hq)

/-- In every run in which the tasks keep away from the VM and the schema that the janitor is acting
on, the janitor deletes no VM in use and drops no entry but the one it acted on. -/
theorem janitor_careful (h : Tends cfg minAge TendsAlone w j) : j.Careful := by
  refine Tended.Relies.careful ?_
  refine Run.invariant_of h (J := fun j ↦ j.sys.Sound) (fun _ hr ↦ Tends.sound hr) ?_ ?_
  · constructor <;> rintro _ ⟨⟩
  · intro j l j' hI hJ _ hok hs
    rcases (beside_cases hs).2 with ⟨k, rfl, hk, hpc⟩ | ⟨a, rfl, ha⟩
    · exact hI.system hJ hok hk hpc
    · exact hI.janitor hok ha

def World.stranded : World :=
  { World.blank with
    pending := fun s ↦ if s = app then some (sb2, 0) else none
    disks := fun id ↦ if id = sb2 then some ⟨[], 0⟩ else none }

def janitorPass : List (Label ⊕ Answer) := [.inr (.order [app]), .inr .go, .inr .go]

theorem janitor_careful_run : ∃ j, Tends .full 0 TendsAlone .stranded j ∧
    j.pc = .kill app sb2 [] ∧ j.sys.tasks.length = 1 ∧ j.Careful := by
  obtain ⟨j, hr, hj⟩ := Run.exists_of_exec (tendedStep .full 0) TendsAlone (.boot .stranded)
    (alone (.spawn (.checkout app .touch) :: goes 0 2) ++ janitorPass ++ [.inr .ok])
    (fun j ↦ j.pc = .kill app sb2 [] ∧ j.sys.tasks.length = 1) (by decide +kernel) (by decide +kernel)
  obtain ⟨hpc, htasks⟩ := of_decide_eq_true hj
  exact ⟨j, hr, hpc, htasks, janitor_careful hr⟩

/-- A checkout finds the stranded VM by name and binds it before the janitor's kill is sent; another
one creates a new VM, and the janitor drops the entry of that one. -/
theorem janitor_not_careful :
    (∃ j, Tends .full 0 (fun _ _ ↦ True) .stranded j ∧ j.pc = .kill app sb2 [] ∧
      j.sys.world.store.idOf app = some sb2 ∧ ¬ j.Careful) ∧
    ∃ j, Tends .full 0 (fun _ _ ↦ True) .stranded j ∧ j.pc = .clear app sb2 [] ∧
      (j.sys.world.pending app).map (·.1) = some sb1 ∧ ¬ j.Careful := by
  constructor
  · obtain ⟨j, hr, hj⟩ := Run.exists_of_exec (tendedStep .full 0) (fun _ _ ↦ True) (.boot .stranded)
      (janitorPass ++ [.inr .ok] ++ alone (.spawn (.checkout app .touch) :: goes 0 9 ++
        [.run 0 (.listing leftover)] ++ attaches 0 ++ goes 0 1))
      (fun j ↦ j.pc = .kill app sb2 [] ∧ j.sys.world.store.idOf app = some sb2)
      (by decide +kernel) (by decide +kernel)
    obtain ⟨hpc, hid⟩ := of_decide_eq_true hj
    exact ⟨j, hr, hpc, hid, fun h ↦ (h.kill app sb2 [] hpc).1 hid⟩
  · obtain ⟨j, hr, hj⟩ := Run.exists_of_exec (tendedStep .full 0) (fun _ _ ↦ True) (.boot .stranded)
      (janitorPass ++ alone (createsVm 0 app sb1 ++ goes 0 1) ++ [.inr .notFound])
      (fun j ↦ j.pc = .clear app sb2 [] ∧ (j.sys.world.pending app).map (·.1) = some sb1)
      (by decide +kernel) (by decide +kernel)
    obtain ⟨hpc, hp⟩ := of_decide_eq_true hj
    refine ⟨j, hr, hpc, hp, fun h ↦ ?_⟩
    obtain ⟨q, hq, hq1⟩ := Option.map_eq_some_iff.mp hp
    have heq : sb1 = sb2 := hq1.symm.trans (h.clear app sb2 [] hpc q hq)
    exact absurd heq (by decide)

end Janitor

end PgVmPool
