import PgVmPool.SpareDeletes

namespace PgVmPool

open Function Transition

/-- What has become of a VM while it exists. -/
structure Past where
  bound : Bool
  served : Bool

def Past.used (p : Past) : Bool := p.bound && p.served

abbrev Reused := Beside State Replenisher Past

/-- A step of a pass, or the death of the process and a new start from the file. -/
def restarting (target : ℕ) (st : State) (r : Replenisher) :
    Option PoolAnswer → Option (State × Replenisher)
  | none => some (.boot st.world, .new)
  | some a => replenish target st r a

def Task.serves (w : World) : Task → Answer → Option SandboxId
  | .checkout _ (.probing _ e), .ok | .checkout _ (.admitCold e), .go => some (w.ents e).sandbox
  | _, _ => none

def Reused.serves (j : Reused) : Label ⊕ Option PoolAnswer → Option SandboxId
  | .inl (.run t a) => j.sys.tasks[t]?.bind (·.serves j.sys.world a)
  | _ => none

def Reused.note (v : SandboxId) (j : Reused) (l : Label ⊕ Option PoolAnswer) (st : State) : Past :=
  if st.world.disks v = none then ⟨false, false⟩
  else ⟨j.seen.bound || v ∈ st.world.store.boundIds, j.seen.served || j.serves l = some v⟩

def reusedStep (cfg : Config) (target : ℕ) (v : SandboxId) :
    Label ⊕ Option PoolAnswer → Reused → Option Reused :=
  beside (pooledStep cfg) (restarting target) (Reused.note v)

def Reused.boot (v : SandboxId) (w : World) : Reused :=
  ⟨.boot w, .new, ⟨v ∈ w.boot.store.boundIds, false⟩⟩

abbrev Reuses (cfg : Config) (target : ℕ) (ok : Reused → Label ⊕ Option PoolAnswer → Prop)
    (v : SandboxId) (w : World) (j : Reused) : Prop :=
  Run (reusedStep cfg target v) ok (.boot v w) j

/-- The spare that a purge pass has looked up in the registry again and not found. -/
def PurgePc.rechecked : PurgePc → Option SandboxId
  | .recheckClaimed _ id _ | .killSpare _ id _ => some id
  | _ => none

/-- The spare that a purge pass deletes as one that nobody ever claimed. -/
def PurgePc.sheds : PurgePc → Option SandboxId
  | .killSpare _ id _ => some id
  | _ => none

def Task.rechecked : Task → Option SandboxId
  | .purge pc => pc.rechecked
  | .checkout _ _ | .offload _ _ _ | .reapIdle _ | .reapUntracked _ => none

def Task.sheds : Task → Option SandboxId
  | .purge pc => pc.sheds
  | .checkout _ _ | .offload _ _ _ | .reapIdle _ | .reapUntracked _ => none

def ReplenishPc.misses (p : ReplenishPc) (v : SandboxId) : Bool := p.bound.any fun ids ↦ v ∉ ids

/-- A VM that was bound and served is neither on the shelf, nor surplus of a replenish pass, nor a spare
that a purge pass deletes. -/
def Reused.Retired (v : SandboxId) (j : Reused) : Prop :=
  j.seen.used = true → v ∉ j.sys.world.ready ∧ v ∉ j.pc.pc.deletes ∧ ∀ x ∈ j.sys.tasks, x.sheds ≠ some v

/-- What the write of a row asks: a VM is bound only when no pass may still take it for a spare, and
one that was used is given up by a row only when it is claimed or has another row. -/
def Reused.PutsSafely (v : SandboxId) (j : Reused) (p : Schema × SandboxId) : Prop :=
  if p.2 = v then
    v ∉ j.sys.world.ready ∧ v ∉ j.pc.pc.deletes ∧ (∀ y ∈ j.sys.tasks, y.rechecked ≠ some v) ∧
      (j.pc.pc.misses v = true → j.sys.world.claimed v = true)
  else j.sys.world.store.idOf p.1 = some v → j.seen.used = true → j.sys.world.claimed v = true ∨
    ∃ q ∈ j.sys.world.store.records, q.1 ≠ p.1 ∧ q.2.sandboxId = v

def Reused.StepsSafely (v : SandboxId) (j : Reused) (a : Answer) (x : Task) : Prop :=
  (x.spare j.sys.world = some v → v ∉ j.pc.pc.deletes ∧ ∀ y ∈ j.sys.tasks, y.sheds ≠ some v) ∧
  (∀ p ∈ x.puts j.sys.world, j.PutsSafely v p) ∧
  (x.yields a = some v → (j.pc.pc.misses v = true → v ∉ j.sys.world.store.boundIds) ∧
    (j.seen.used = true → v ∈ j.sys.world.store.boundIds ∨ x.handout a = some (.released v))) ∧
  (x.serves j.sys.world a = some v → j.seen.bound = true →
    j.sys.world.claimed v = true ∨ v ∈ j.sys.world.store.boundIds)

/-- A process dies only after the row of a VM that was used has been written. -/
def KeepsOwner (v : SandboxId) (j : Reused) : Label ⊕ Option PoolAnswer → Prop
  | .inl l => OnRun (fun t a ↦ ∀ x ∈ j.sys.tasks[t]?, j.StepsSafely v a x) l
  | .inr none => j.seen.used = true → v ∈ j.sys.world.boot.store.boundIds
  | .inr (some _) => True

instance (v : SandboxId) (j : Reused) (p : Schema × SandboxId) : Decidable (j.PutsSafely v p) :=
  inferInstanceAs (Decidable (ite _ _ _))

instance (v : SandboxId) (j : Reused) (a : Answer) (x : Task) : Decidable (j.StepsSafely v a x) :=
  inferInstanceAs (Decidable (_ ∧ _))

instance (v : SandboxId) (j : Reused) : (l : Label ⊕ Option PoolAnswer) → Decidable (KeepsOwner v j l)
  | .inl l => inferInstanceAs (Decidable (OnRun _ l))
  | .inr none => inferInstanceAs (Decidable (j.seen.used = true → v ∈ j.sys.world.boot.store.boundIds))
  | .inr (some _) => isTrue trivial

section Steps

variable {cfg : Config} {target t : ℕ} {a : Answer} {w w' : World} {x y : Task} {v : SandboxId}
  {st st' : State} {l : Label} {j j' : Reused}

theorem Task.puts_of_yields (h : x.yields a = some v) : x.puts w = none ∧ x.serves w a = none := by
  cases x with
  | checkout s pc => cases pc <;> first | exact ⟨rfl, rfl⟩ | cases h
  | offload s kind pc => cases pc <;> first | exact ⟨rfl, rfl⟩ | cases h
  | reapIdle | reapUntracked | purge => exact ⟨rfl, rfl⟩

theorem Task.puts_of_serves (h : x.serves w a = some v) : x.puts w = none := by
  unfold Task.serves at h
  split at h <;> first | rfl | cases h

theorem Task.unbound_of_rechecked (h : x.rechecked = some v) : v ∈ x.unbound := by
  cases x with
  | purge pc => cases pc <;> cases h <;> exact List.mem_singleton_self _
  | checkout | offload | reapIdle | reapUntracked => cases h

theorem Task.rechecked_of_sheds (h : x.sheds = some v) : x.rechecked = some v := by
  cases x with
  | purge pc => cases pc <;> first | exact h | cases h
  | checkout | offload | reapIdle | reapUntracked => cases h

theorem purgeStep_rechecked {pc pc' : PurgePc} (h : purgeStep w pc a = some (w', pc'))
    (hv : pc'.rechecked = some v) : pc.rechecked = some v ∨ v ∉ w.store.boundIds := by
  revert h
  fun_cases purgeStep w pc a <;> intro h <;> cases h
  case case8 | case15 =>
    revert hv
    repeat' split
    all_goals exact fun hv ↦ by cases hv
  case case16 id _ =>
    split at hv
    · cases hv
    · cases hv
      exact .inr ‹_›
  case case17 =>
    split at hv
    · cases hv
    · exact .inl hv
  all_goals cases hv

theorem purgeStep_sheds {pc pc' : PurgePc} (h : purgeStep w pc a = some (w', pc'))
    (hv : pc'.sheds = some v) : pc.rechecked = some v ∧ w.claimed v = false := by
  revert h
  fun_cases purgeStep w pc a <;> intro h <;> cases h
  case case8 | case15 | case16 =>
    revert hv
    repeat' split
    all_goals exact fun hv ↦ by cases hv
  case case17 =>
    split at hv
    · cases hv
    · rename_i hc
      cases hv
      exact ⟨rfl, by simpa using hc⟩
  all_goals cases hv

theorem pooledStep_ready (h : pooledStep cfg l st = some st') : st'.world.ready ⊆ st.world.ready := by
  rcases pooledStep_spare h with ⟨_, _, _, _, -, -, -, hm⟩ | ⟨-, -, hr, -⟩
  · exact hm.ready_subset
  · rw [hr]
    exact List.Subset.refl _

theorem pooledStep_yields (h : pooledStep cfg l st = some st') (hc : st.world.claimed v = true)
    (hc' : ¬ st'.world.claimed v = true) : ∃ t a x, l = .run t a ∧ st.tasks[t]? = some x ∧
      x.yields a = some v ∧ (x.handout a = some (.released v) → st'.world.disks v = none) := by
  rcases pooledStep_spare h with ⟨t, a, x, y, rfl, ht, -, hm⟩ | ⟨-, heq, -, -⟩
  · exact ⟨t, a, x, rfl, ht, hm.yields hc hc'⟩
  · rw [heq] at hc'
    exact absurd hc hc'

/-- Who owns a VM: one that was used is claimed or bound; one on the shelf, one that is surplus and one
that a purge pass has rechecked are not. -/
structure Reused.Owned (v : SandboxId) (j : Reused) : Prop where
  used : j.seen.used = true → j.sys.world.claimed v = true ∨ v ∈ j.sys.world.store.boundIds
  shelf : v ∈ j.sys.world.ready → v ∉ j.sys.world.store.boundIds
  missed : j.pc.pc.misses v = true → v ∈ j.sys.world.store.boundIds → j.sys.world.claimed v = true
  surplus : v ∈ j.pc.pc.deletes → j.sys.world.Free v
  rechecked : ∀ x ∈ j.sys.tasks, x.rechecked = some v → v ∉ j.sys.world.store.boundIds
  sheds : ∀ x ∈ j.sys.tasks, x.sheds = some v → ¬ j.sys.world.claimed v = true

theorem Reused.Owned.retired (h : j.Owned v) (hw : j.sys.world.Shelved) : j.Retired v := by
  intro hused
  rcases h.used hused with hc | hb
  · refine ⟨fun hr ↦ ?_, fun hd ↦ (h.surplus hd).not_held (.inl hc), fun x hx hs ↦ h.sheds x hx hs hc⟩
    simp [hw.free v hr] at hc
  · refine ⟨fun hr ↦ h.shelf hr hb, fun hd ↦ (h.surplus hd).not_held (.inr hb), fun x hx hs ↦ ?_⟩
    exact h.rechecked x hx (Task.rechecked_of_sheds hs) hb

theorem Reused.used_cases {l : Label ⊕ Option PoolAnswer} (hseen : j'.seen = j.note v l j'.sys)
    (h : j'.seen.used = true) : j'.sys.world.disks v ≠ none ∧
      (v ∈ j'.sys.world.store.boundIds ∨ j.seen.used = true ∨
        j.seen.bound = true ∧ j.serves l = some v) := by
  rw [hseen] at h
  unfold Reused.note at h
  split at h
  · cases h
  · rename_i hdisk
    refine ⟨hdisk, ?_⟩
    simp only [Past.used, Bool.and_eq_true, Bool.or_eq_true, decide_eq_true_eq] at h ⊢
    tauto

theorem Reused.kept (hok : KeepsOwner v j (.inl l)) (hk : pooledStep cfg l j.sys = some j'.sys)
    (hdisk : j'.sys.world.disks v ≠ none)
    (hcause : j.seen.used = true ∨ j.seen.bound = true ∧ j.serves (.inl l) = some v)
    (hown : j.sys.world.claimed v = true ∨ v ∈ j.sys.world.store.boundIds) :
    j'.sys.world.claimed v = true ∨ v ∈ j'.sys.world.store.boundIds := by
  by_contra hnot
  obtain ⟨hc', hb'⟩ := not_or.mp hnot
  have hunbound := fun hb ↦ (step_sound (step_of_pooled hk)).unbound hb hb'
  have hclaim : ¬ j.sys.world.claimed v = true := by
    intro hc
    obtain ⟨t, a, x, rfl, ht, hy, hkill⟩ := pooledStep_yields hk hc hc'
    obtain ⟨hputs, hserves⟩ := Task.puts_of_yields (w := j.sys.world) hy
    rcases hcause with hused | ⟨-, hs⟩
    · rcases ((hok x ht).2.2.1 hy).2 hused with hb | hr
      · obtain ⟨t', a', x', s, id, hl, ht', hput, -⟩ := hunbound hb
        cases hl
        cases ht.symm.trans ht'
        simp [hputs] at hput
      · exact hdisk (hkill hr)
    · simp [Reused.serves, ht, hserves] at hs
  obtain ⟨t, a, x, s, id, rfl, ht, hput, hne, hid, honly⟩ := hunbound (hown.resolve_left hclaim)
  rcases hcause with hused | ⟨-, hs⟩
  · have hsafe := (hok x ht).2.1 (s, id) hput
    simp only [Reused.PutsSafely, if_neg hne] at hsafe
    rcases hsafe hid hused with hc | ⟨q, hq, hqs, hqv⟩
    · exact hclaim hc
    · have hrow : j.sys.world.store.idOf q.1 = some v := by
        rw [Store.idOf, Store.mem_records.mp hq, Option.map_some, hqv]
      exact hqs (honly q.1 hrow)
  · simp only [Reused.serves, ht, Option.bind_some] at hs
    simp [Task.puts_of_serves hs] at hput

theorem Reused.Owned.pooled (h : j.Owned v) (hok : KeepsOwner v j (.inl l))
    (hk : pooledStep cfg l j.sys = some j'.sys) (hpc : j'.pc = j.pc)
    (hseen : j'.seen = j.note v (.inl l) j'.sys) : j'.Owned v := by
  have hstep := step_sound (step_of_pooled hk)
  have hbound (hb : v ∈ j'.sys.world.store.boundIds) : v ∈ j.sys.world.store.boundIds ∨
      ∃ t a x, l = .run t a ∧ j.sys.tasks[t]? = some x ∧ (x.puts j.sys.world).isSome ∧
        v ∉ j.sys.world.ready ∧ v ∉ j.pc.pc.deletes ∧ (∀ y ∈ j.sys.tasks, y.rechecked ≠ some v) ∧
        (j.pc.pc.misses v = true → j.sys.world.claimed v = true) := by
    refine (hstep.bound hb).imp_right fun ⟨t, a, x, s, hl, ht, hput⟩ ↦ ?_
    subst hl
    have hsafe := (hok x ht).2.1 (s, v) hput
    simp only [Reused.PutsSafely, if_true] at hsafe
    exact ⟨t, a, x, rfl, ht, by simp [hput], hsafe⟩
  constructor
  · intro hused
    obtain ⟨hdisk, hb | hcause⟩ := Reused.used_cases hseen hused
    · exact .inr hb
    · refine Reused.kept hok hk hdisk hcause ?_
      rcases hcause with hused | ⟨hb, hs⟩
      · exact h.used hused
      · cases l with
        | run t a =>
          obtain ⟨x, ht, hx⟩ := Option.bind_eq_some_iff.mp hs
          exact (hok x ht).2.2.2 hx hb
        | spawn | land | tick | publish | flush => cases hs
  · intro hr hb
    have hr := pooledStep_ready hk hr
    rcases hbound hb with hb | ⟨_, _, _, -, -, -, hnot, -⟩
    · exact h.shelf hr hb
    · exact hnot hr
  · intro hm hb
    rw [hpc] at hm
    by_contra hc'
    rcases hbound hb with hb | ⟨t, a, x, rfl, ht, hput, -, -, -, hclaim⟩
    · obtain ⟨t, a, x, rfl, ht, hy, -⟩ := pooledStep_yields hk (h.missed hm hb) hc'
      exact ((hok x ht).2.2.1 hy).1 hm hb
    · obtain ⟨t', a', x', hl, ht', hy, -⟩ := pooledStep_yields hk (hclaim hm) hc'
      cases hl
      cases ht.symm.trans ht'
      simp [(Task.puts_of_yields (w := j.sys.world) hy).1] at hput
  · intro hd
    rw [hpc] at hd
    obtain ⟨hc, hb⟩ := h.surplus hd
    refine ⟨?_, fun hb' ↦ ?_⟩
    · by_contra hc'
      rcases hstep.claimed (by simpa using hc') with hold | ⟨t, a, x, rfl, ht, hspare⟩
      · simp [hc] at hold
      · exact ((hok x ht).1 hspare).1 hd
    · rcases hbound hb' with hold | ⟨_, _, _, -, -, -, -, hnot, -⟩
      · exact hb hold
      · exact hnot hd
  · intro x hx hv hb
    rcases hstep.marks hx (Task.unbound_of_rechecked hv) with hx | ⟨t, a, pc, pc', rfl, ht, rfl, hp⟩
    · rcases hbound hb with hb | ⟨_, _, _, -, -, -, -, -, hnot, -⟩
      · exact h.rechecked x hx hv hb
      · exact hnot x hx hv
    · rw [purgeStep_frame hp] at hb
      rcases purgeStep_rechecked hp hv with hold | hnot
      · exact h.rechecked _ (List.mem_of_getElem? ht) hold hb
      · exact hnot hb
  · intro x hx hv hc
    have hunbound := Task.unbound_of_rechecked (Task.rechecked_of_sheds hv)
    rcases hstep.marks hx hunbound with hx | ⟨t, a, pc, pc', rfl, ht, rfl, hp⟩
    · rcases hstep.claimed hc with hc | ⟨t, a, z, rfl, ht, hspare⟩
      · exact h.sheds x hx hv hc
      · exact ((hok z ht).1 hspare).2 x hx hv
    · rw [purgeStep_frame hp] at hc
      simp [(purgeStep_sheds hp hv).2] at hc

theorem ReplenishPc.Narrows.misses {p p' : ReplenishPc} (h : p.Narrows p') (hv : p'.misses v = true) :
    p.misses v = true := by
  obtain ⟨ids, hids, hmem⟩ := (Option.any_eq_true _ _).mp hv
  exact (Option.any_eq_true _ _).mpr ⟨ids, h.bound ids hids, hmem⟩

/-- A pass offers or deletes only what was unbound when it began and is unclaimed now. -/
theorem Reused.Owned.pass {b : PoolAnswer} (h : j.Owned v)
    (hc : replenish target j.sys j.pc b = some (j'.sys, j'.pc))
    (hseen : j'.seen = j.note v (.inr (some b)) j'.sys) : j'.Owned v := by
  obtain ⟨hr, htasks⟩ := replenish_eq hc
  have hclaimed : j'.sys.world.claimed = j.sys.world.claimed := by rw [replenishStep_frame hr]
  have hstore : j'.sys.world.store = j.sys.world.store := by rw [replenishStep_frame hr]
  have hmove := replenishStep_move hr
  have hfree {s : Stock} (hpc : j.pc.pc.bound = some s.bound) (hv : v ∉ s.bound)
      (hcl : j.sys.world.claimed v = false) : v ∉ j.sys.world.store.boundIds := by
    intro hb
    have hmiss : j.pc.pc.misses v = true := by simpa [ReplenishPc.misses, hpc] using hv
    have hcl' := h.missed hmiss hb
    simp [hcl] at hcl'
  constructor
  · intro hused
    obtain ⟨-, hb | hused | ⟨-, hs⟩⟩ := Reused.used_cases hseen hused
    · exact .inr hb
    · rw [hclaimed, hstore]
      exact h.used hused
    · cases hs
  · intro hready
    rw [hstore]
    cases hmove with
    | other ready => exact h.shelf (ready ▸ hready)
    | start hw | cull _ hw | plan _ hw => exact h.shelf (by rwa [hw] at hready)
    | publish hpc hw =>
      rw [hw] at hready
      obtain ⟨hshelved, hb⟩ := j.sys.world.shelved_publish _ _
      exact hfree (by rw [hpc]; rfl) (hb v hready) (hshelved.free v hready)
  · intro hmiss
    rw [hclaimed, hstore]
    cases hmove with
    | other _ hpc => exact h.missed (hpc.misses hmiss)
    | start _ _ hpc' =>
      intro hb
      simp [hpc', ReplenishPc.misses, ReplenishPc.bound, hb] at hmiss
    | cull _ _ hpc hpc' | plan _ _ hpc hpc' =>
      refine h.missed ?_
      rw [hpc'] at hmiss
      rw [hpc]
      exact hmiss
    | publish _ _ hpc' =>
      rw [hpc'] at hmiss
      cases hmiss
  · intro hd
    rw [World.Free, hclaimed, hstore]
    cases hmove with
    | other _ hpc => exact h.surplus (hpc.deletes hd)
    | start _ _ hpc' | cull _ _ _ hpc' | publish _ _ hpc' =>
      rw [hpc'] at hd
      cases hd
    | plan _ _ hpc hpc' =>
      rw [hpc'] at hd
      obtain ⟨hb, hcl⟩ := free_of_planned hd
      exact ⟨hcl, hfree (by rw [hpc]; rfl) hb hcl⟩
  · rw [htasks, hstore]
    exact h.rechecked
  · rw [htasks, hclaimed]
    exact h.sheds

/-- A process that has just started knows only the file. -/
theorem Reused.Owned.started {u : World} (hsys : j.sys = .boot u) (hpc : j.pc = .new)
    (hused : j.seen.used = true → v ∈ j.sys.world.store.boundIds) : j.Owned v where
  used h := .inr (hused h)
  shelf h := by
    rw [hsys] at h
    cases h
  missed h := by
    rw [hpc] at h
    cases h
  surplus h := by
    rw [hpc] at h
    cases h
  rechecked x hx := by
    rw [hsys] at hx
    cases hx
  sheds x hx := by
    rw [hsys] at hx
    cases hx

theorem Reused.Owned.step {k : Label ⊕ Option PoolAnswer} (h : j.Owned v) (hok : KeepsOwner v j k)
    (hs : reusedStep cfg target v k j = some j') : j'.Owned v := by
  obtain ⟨hseen, hstep⟩ := beside_cases hs
  rcases hstep with ⟨l, rfl, hl, hpc⟩ | ⟨b, rfl, hb⟩
  · exact h.pooled hok hl hpc hseen
  · cases b with
    | some b => exact h.pass hb hseen
    | none =>
      simp only [restarting, Option.some.injEq, Prod.mk.injEq] at hb
      refine .started hb.1.symm hb.2.symm fun hused ↦ ?_
      obtain ⟨-, hrow | hused | ⟨-, hserves⟩⟩ := Reused.used_cases hseen hused
      · exact hrow
      · rw [← hb.1]
        exact hok hused
      · cases hserves

/-- In every run, through restarts and rebindings, whose steps keep a used VM claimed or bound and bind
no VM that a pass may still take for a spare, a used VM never comes back to the pool. -/
theorem used_spare_retired (h : Reuses cfg target (KeepsOwner v) v w j) : j.Retired v := by
  have howned : j.Owned v := by
    refine Run.invariant h ?_ fun _ _ _ hI hok hs ↦ hI.step hok hs
    exact .started rfl rfl fun hused ↦ by simp [Reused.boot, Past.used] at hused
  have hshelved : j.sys.world.Shelved := by
    refine Beside.invariant (I := fun st ↦ st.world.Shelved) h ⟨List.nodup_nil, fun _ hv ↦ by cases hv⟩
      (fun _ _ _ hI hk ↦ hI.pooled hk) fun st r b st' r' hI hb ↦ ?_
    cases b with
    | some b => exact hI.replenish (replenish_eq hb).1
    | none =>
      cases hb
      exact ⟨List.nodup_nil, fun _ hv ↦ by cases hv⟩
  exact howned.retired hshelved

def pooled (ls : List (Label ⊕ PoolAnswer)) : List (Label ⊕ Option PoolAnswer) :=
  ls.map (Sum.map id some)

def servesSpare : List Label :=
  claimsSpare 0 app ++ runs 0 [.running "spare-pg-1", .ok, .ok, .slots 10] ++ goes 0 6

def emptyPass : List (Label ⊕ PoolAnswer) :=
  ([.go, .listed (spareInfos true)] ++ List.replicate 5 .go ++ [.refused] ++ List.replicate 4 .go :
    List PoolAnswer).map .inr

theorem used_spare_retired_run : ∃ j, Reuses .full 1 (KeepsOwner sb2) sb2 .oneSpare j ∧
    j.seen.used = true ∧ j.sys.world.claimed sb2 = false ∧ j.pc.pc.bound = none ∧ j.Retired sb2 := by
  obtain ⟨j, hr, hj⟩ := Run.exists_of_exec (reusedStep .full 1 sb2) (KeepsOwner sb2)
    (.boot sb2 .oneSpare)
    (pooled healthyPass ++ alone (servesSpare ++ [.land 0 true]) ++ [.inr none] ++ pooled emptyPass)
    (fun j ↦ j.seen.used = true ∧ j.sys.world.claimed sb2 = false ∧ j.pc.pc.bound = none)
    (by decide +kernel) (by decide +kernel)
  obtain ⟨hused, hc, hpc⟩ := of_decide_eq_true hj
  exact ⟨j, hr, hused, hc, hpc, used_spare_retired hr⟩

/-- The process dies before the row of the VM is written; the next one offers the VM again. -/
theorem used_spare_not_retired : ∃ j, Reuses .full 1 (fun _ _ ↦ True) sb2 .oneSpare j ∧
    j.seen.used = true ∧ sb2 ∈ j.sys.world.ready ∧ ¬ j.Retired sb2 := by
  obtain ⟨j, hr, hj⟩ := Run.exists_of_exec (reusedStep .full 1 sb2) (fun _ _ ↦ True)
    (.boot sb2 .oneSpare)
    (pooled healthyPass ++ alone servesSpare ++ [.inr none] ++ pooled healthyPass)
    (fun j ↦ j.seen.used = true ∧ sb2 ∈ j.sys.world.ready) (by decide +kernel) (by decide +kernel)
  obtain ⟨hused, hready⟩ := of_decide_eq_true hj
  exact ⟨j, hr, hused, hready, fun h ↦ (h hused).1 hready⟩

end Steps

end PgVmPool
