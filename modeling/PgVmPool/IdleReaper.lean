import PgVmPool.InUse

namespace PgVmPool

open Function Transition

def Task.victims : Task → List ℕ
  | .reapIdle pc => pc.victims
  | .checkout _ _ | .offload _ _ _ | .reapUntracked _ | .purge _ => []

def Task.guard : Task → Option ℕ
  | .checkout _ pc => pc.guard
  | .offload _ _ _ | .reapIdle _ | .reapUntracked _ | .purge _ => none

def State.Queued (st : State) (v : SandboxId) : Prop :=
  ∃ x ∈ st.tasks, ∃ e ∈ x.victims, (st.world.ents e).sandbox = v

instance (st : State) (v : SandboxId) : Decidable (st.Queued v) := by
  unfold State.Queued
  infer_instance

/-- Every checkout that uses the entry's VM is counted at the entry, and no other schema of the
map leads to it. -/
def State.Sole (st : State) (s : Schema) (e : ℕ) : Prop :=
  (∀ x ∈ st.tasks, x.reach st.world = some (st.world.ents e).sandbox → x.guard = some e) ∧
    ∀ p ∈ st.world.entries.entries, p.1 ≠ s →
      (st.world.cells p.2).vm st.world ≠ some (st.world.ents e).sandbox

instance (st : State) (s : Schema) (e : ℕ) : Decidable (st.Sole s e) := by
  unfold State.Sole
  infer_instance

def Task.walks (a : Answer) : Task → Option (List Schema)
  | .reapIdle .lockEntries =>
    match a with
    | .order keys => some keys
    | _ => none
  | _ => none

/-- A pass evicts only entries that are the sole way to their VM, and no bring-up takes a VM in
hand while a pass is still going to stop it. -/
def ReapsSole (cfg : Config) (st : State) : Label → Prop :=
  OnRun fun t a ↦ (∀ v ∈ st.takes t a, ¬ st.Queued v) ∧ ∀ x ∈ st.tasks[t]?, ∀ keys ∈ x.walks a,
    ∀ p ∈ st.world.idleVictims cfg keys, st.Sole p.1 p.2

instance (cfg : Config) (st : State) (l : Label) : Decidable (ReapsSole cfg st l) :=
  inferInstanceAs (Decidable (OnRun _ l))

def State.StopsUnused (st : State) : Prop :=
  ∀ (t j : ℕ) (e : ℕ) (es : List ℕ) (s : Schema) (ck : CkPc),
    st.tasks[t]? = some (.reapIdle (.stop e es)) → st.tasks[j]? = some (.checkout s ck) →
      ck.vm st.world ≠ some (st.world.ents e).sandbox

section Runs

variable {cfg : Config} {st st' : State} {l : Label}

theorem lookup_eraseAll_of_mem {m : AList (fun _ : Schema ↦ ℕ)} {rs : List Schema} {s : Schema}
    (h : s ∈ rs) : (rs.foldl (fun m s ↦ m.erase s) m).lookup s = none := by
  cases hc : (rs.foldl (fun m s ↦ m.erase s) m).lookup s with
  | none => rfl
  | some c =>
    induction rs generalizing m with
    | nil => cases h
    | cons r rs ih =>
      by_cases hs : s ∈ rs
      · exact ih hs hc
      · obtain rfl : s = r := by simpa [hs] using h
        simpa using lookup_of_lookup_eraseAll (m := m.erase s) hc

theorem State.Sound.victim_lt (h : st.Sound) {x : Task} (hx : x ∈ st.tasks) {e : ℕ}
    (he : e ∈ x.victims) : e < st.world.nextEntry := by
  obtain ⟨t, ht⟩ := List.getElem?_of_mem hx
  cases x with
  | reapIdle pc => exact (h.fits t _ ht).1 e he
  | checkout | offload | reapUntracked | purge => cases he

theorem idleStep_lock {w w' : World} {pc' : IdlePc} {keys : List Schema}
    (h : idleStep cfg w .lockEntries (.order keys) = some (w', pc')) :
    w' = w.evictAll ((w.idleVictims cfg keys).map (·.1)) := by
  simp only [idleStep, Option.ite_none_right_eq_some, Option.some.injEq, Prod.mk.injEq] at h
  exact h.2.1.symm

theorem Step.victims (hs : Step cfg st l st') {x : Task} (hx : x ∈ st'.tasks) {e : ℕ}
    (he : e ∈ x.victims) : (∃ y ∈ st.tasks, e ∈ y.victims) ∨
    ∃ t keys s pc', l = .run t (.order keys) ∧ st.tasks[t]? = some (.reapIdle .lockEntries) ∧
      (s, e) ∈ st.world.idleVictims cfg keys ∧
      st' = ⟨st.world.evictAll ((st.world.idleVictims cfg keys).map (·.1)),
        st.tasks.set t (.reapIdle pc')⟩ := by
  rcases hs.mem_cases hx with hx | hi | ⟨t, a, y, rfl, ht, hy, htasks⟩
  · exact .inl ⟨x, hx, he⟩
  · obtain ⟨_, rfl⟩ | ⟨_, _, rfl⟩ | rfl | rfl | rfl := Task.initial_cases hi <;> cases he
  · cases x with
    | reapIdle pc' =>
      obtain ⟨pc, rfl, hp⟩ := taskStep_reapIdle hy
      rcases idleStep_victims hp he with he | ⟨keys, s, rfl, rfl, he⟩
      · exact .inl ⟨_, List.mem_of_getElem? ht, he⟩
      · exact .inr ⟨t, keys, s, pc', rfl, ht, he, by rw [← idleStep_lock hp, ← htasks]⟩
    | _ => cases he

theorem State.Sound.unused_of_sole (hsound : st.Sound) {t : ℕ} {pc' : IdlePc} {keys : List Schema}
    {s : Schema} {e : ℕ} (he : (s, e) ∈ st.world.idleVictims cfg keys) (hsole : st.Sole s e) :
    ¬ State.InUse ⟨st.world.evictAll ((st.world.idleVictims cfg keys).map (·.1)),
      st.tasks.set t (.reapIdle pc')⟩ (st.world.ents e).sandbox := by
  obtain ⟨c, hc, hfull, hidle⟩ := mem_idleVictims he
  have hw : st.world.Shrinks (st.world.evictAll ((st.world.idleVictims cfg keys).map (·.1))) :=
    ⟨fun _ _ ↦ lookup_of_lookup_eraseAll, rfl, rfl, rfl, rfl⟩
  intro hv
  rcases State.inUse_iff.mp hv with ⟨j, x, hj, hv⟩ | ⟨r, d, hr, hv⟩
  · rcases getElem?_set_cases hj with ⟨-, rfl⟩ | ⟨-, hj⟩
    · cases hv
    · have hg := hsole.1 x (List.mem_of_getElem? hj) (by rwa [hw.reach] at hv)
      cases x with
      | checkout q pc =>
        have hpos := hsound.active_pos hj hg
        simp only [SchemaEntry.isIdle, Bool.and_eq_true, decide_eq_true_eq] at hidle
        omega
      | offload | reapIdle | reapUntracked | purge => cases hg
  · have hrs : r ≠ s := by
      rintro rfl
      cases hr.symm.trans (lookup_eraseAll_of_mem (List.mem_map_of_mem (f := Prod.fst) he))
    exact hsole.2 ⟨r, d⟩ (AList.mem_lookup_iff.mp (hw.entries r d hr)) hrs (by rwa [hw.vm] at hv)

/-- Who uses a VM, and which passes will stop it. -/
def State.idleCustody (st : State) : Custody SandboxId where
  held := {v | st.InUse v}
  doomed := {v | st.Queued v}

theorem State.idleCustody_step (hsound : st.Sound) (hok : ReapsSole cfg st l)
    (hs : Step cfg st l st') : Custody.Step st.idleCustody st'.idleCustody := by
  have hqueued (v : SandboxId) (hv : st'.Queued v) : st.Queued v ∨ ¬ st'.InUse v := by
    obtain ⟨x, hx, e, he, rfl⟩ := hv
    rcases hs.victims hx he with ⟨y, hy, he⟩ | ⟨t, keys, s, pc', rfl, ht, he, rfl⟩
    · exact .inl ⟨y, hy, e, he, (hs.sandbox (hsound.victim_lt hy he)).symm⟩
    · exact .inr (hsound.unused_of_sole he (hok.2 _ ht keys rfl _ he))
  refine ⟨fun v hv ↦ ?_, hqueued⟩
  rcases State.InUse.of_step hsound hs hv with h | ⟨t, a, rfl, htake⟩
  · exact .inl h
  · exact .inr fun hq ↦ (hqueued v hq).elim (hok.1 v htake) fun h ↦ h hv

/-- In every run whose idle passes evict only sole entries, and whose bring-ups keep off the VMs a
pass is going to stop, no checkout uses a VM when it is stopped. -/
theorem reap_idle_stops_unused {w : World} (h : Reaches cfg (ReapsSole cfg) w st) : st.StopsUnused := by
  have hsafe : st.idleCustody.Safe := by
    refine Run.custody (I := State.Sound) State.idleCustody h ?_ (fun _ ↦ Reaches.sound) ?_
    · rintro v ⟨x, hx, -⟩
      simp [State.boot] at hx
    · exact fun _ _ _ hI hok hstep ↦ State.idleCustody_step hI hok (step_sound hstep)
  intro t j e es s ck ht hj hv
  refine hsafe _ ⟨_, List.mem_of_getElem? ht, e, List.mem_cons_self, rfl⟩ ?_
  exact .inl ⟨_, List.mem_of_getElem? hj, CkPc.reach_of_vm hv⟩

def State.stopping (st : State) (t j : ℕ) : Bool :=
  match st.tasks[t]?, st.tasks[j]? with
  | some (.reapIdle (.stop _ _)), some (.checkout _ _) => true
  | _, _ => false

theorem reap_idle_stops_unused_run : ∃ st, Reaches .full (ReapsSole .full) (.recorded .live) st ∧
    st.stopping 1 2 = true ∧ st.StopsUnused := by
  obtain ⟨st, hr, hst⟩ := Run.exists_of_exec (step .full) (ReapsSole .full) (.boot (.recorded .live))
    ([.spawn (.checkout app .touch)] ++ goes 0 8 ++ attaches 0 ++ goes 0 6 ++
      [.tick 100, .spawn (.reapIdle .lockEntries), .run 1 (.order [app])] ++
      [.spawn (.checkout app .touch)] ++ goes 2 7 ++ [.run 1 .ok])
    (fun st ↦ st.stopping 1 2) (by decide +kernel) (by decide +kernel)
  exact ⟨st, hr, hst, reap_idle_stops_unused hr⟩

def State.stopsUnder (st : State) (t j : ℕ) : Bool :=
  match st.tasks[t]?, st.tasks[j]? with
  | some (.reapIdle (.stop e _)), some (.checkout _ ck) =>
    ck.vm st.world = some (st.world.ents e).sandbox
  | _, _ => false

theorem State.not_stopsUnused {t j : ℕ} (h : st.stopsUnder t j = true) : ¬ st.StopsUnused := by
  unfold State.stopsUnder at h
  split at h
  · rename_i e es s ck ht hj
    exact fun hun ↦ hun t j e es s ck ht hj (of_decide_eq_true h)
  · cases h

/-- A checkout that misses the evicted entry reattaches to its VM before the stop. -/
theorem reap_idle_stops_used : ∃ st, Reaches .full Always (.recorded .live) st ∧
    ¬ st.StopsUnused := by
  obtain ⟨st, hr, hst⟩ := Run.exists_of_exec (step .full) Always (.boot (.recorded .live))
    ([.spawn (.checkout app .touch)] ++ goes 0 8 ++ attaches 0 ++ goes 0 6 ++
      [.tick 100, .spawn (.reapIdle .lockEntries), .run 1 (.order [app])] ++
      [.spawn (.checkout app .touch)] ++ goes 2 8 ++ attaches 2 ++ goes 2 5 ++ [.run 1 .ok])
    (fun st ↦ st.stopsUnder 1 2) (by decide +kernel) (by decide +kernel)
  exact ⟨st, hr, State.not_stopsUnused hst⟩

end Runs

end PgVmPool
