import PgVmPool.OneCell

namespace PgVmPool

open Function Transition

def Task.cleans (s : Schema) : Task → Bool
  | .checkout r ck => r = s && ck.cleaning
  | .offload _ _ _ | .reapIdle _ | .reapUntracked _ | .purge _ => false

def Task.retries (w : World) (s : Schema) : Task → Bool
  | .checkout r (.awaitCell c _) => r = s && w.cells c = .empty
  | _ => false

/-- The checkouts of `s` share one `OnceCell`, and a waiter starts its own attempt only when no
other checkout is still cleaning up after a failed one. -/
def RetriesAlone (cfg : Config) (s : Schema) (st : State) (l : Label) : Prop :=
  KeepsCell cfg s st l ∧ OnRun (fun t _ ↦ ∀ x ∈ st.tasks[t]?, x.retries st.world s = true →
    ∀ y ∈ st.tasks, y.cleans s = false) l

instance (cfg : Config) (s : Schema) (st : State) (l : Label) : Decidable (RetriesAlone cfg s st l) :=
  inferInstanceAs (Decidable (_ ∧ OnRun _ l))

/-- The cleanup of a failed bring-up stops no VM that another checkout of the schema uses. -/
def State.CleansAlone (s : Schema) (st : State) : Prop :=
  ∀ (i j : ℕ) (v : SandboxId) (vs : List SandboxId) (ck : CkPc), i ≠ j →
    st.tasks[i]? = some (.checkout s (.leakStop (v :: vs))) → st.tasks[j]? = some (.checkout s ck) →
      ck.vm st.world ≠ some v

section Moves

variable {a : Answer} {t : ℕ} {s : Schema} {w w' : World} {pc pc' : CkPc}

theorem CkMove.retries (h : CkMove a t s w w' pc pc') (ha : pc.Agrees t (w.zone s))
    (hkeep : ∀ c, w.entries.lookup s = some c → w'.entries.lookup s = some c)
    (hz : (w.zone s).map Prod.snd = some .empty) (hne : w'.zone s ≠ w.zone s) :
    ∃ c b, pc = .awaitCell c b ∧ w.cells c = .empty := by
  cases h with
  | keep hs => exact absurd (hs.zone s) hne
  | ensure h => exact absurd ((ensureStep_sameMap h).zone s) hne
  | miss hnone => simp [World.zone, hnone] at hz
  | warm _ _ heq | acquire _ _ _ _ _ _ heq | release _ _ _ _ _ _ heq =>
    subst heq
    exact absurd rfl hne
  | evict hl heq =>
    subst heq
    simpa using hkeep _ hl
  | @start c b hc => exact ⟨c, b, rfl, hc⟩
  | @fill c n b id => cases hz.symm.trans (ha.busy c b _ rfl)
  | @reset c b => cases hz.symm.trans (ha.busy c b _ rfl)

theorem CkMove.cleaning (h : CkMove a t s w w' pc pc') (ha : pc.Agrees t (w.zone s))
    (hc : pc'.cleaning = true) : pc.cleaning = true ∧ w'.zone s = w.zone s ∨
      (w'.zone s).map Prod.snd = some .empty := by
  cases h with
  | keep hs _ _ _ _ _ cleaning => exact .inl ⟨cleaning hc, hs.zone s⟩
  | ensure | miss | warm | evict | start | fill => cases hc
  | acquire _ _ entry' => cases pc' <;> simp_all [CkPc.cleaning, CkPc.entry]
  | release _ _ _ _ _ cleaning => simp [cleaning] at hc
  | @reset c b heq =>
    subst heq
    right
    have hl := World.zone_fst.mp (ha.cell c rfl)
    simp [World.zone, hl]

end Moves

section Runs

variable {cfg : Config} {s : Schema} {st st' : State} {l : Label}

def State.Tidy (s : Schema) (st : State) : Prop :=
  ∀ (t : ℕ) (ck : CkPc), st.tasks[t]? = some (.checkout s ck) → ck.cleaning = true →
    (st.world.zone s).map Prod.snd = some .empty

theorem State.Tidy.of_zone (h : st.Tidy s) {w' : World} (hz : w'.zone s = st.world.zone s)
    {ts : List Task} (hts : ∀ (j : ℕ) (ck : CkPc), ts[j]? = some (.checkout s ck) →
      st.tasks[j]? = some (.checkout s ck) ∨ ck.cleaning = false) : State.Tidy s ⟨w', ts⟩ := by
  intro t ck ht hc
  rcases hts t ck ht with ht | hck
  · rw [hz]
    exact h t ck ht hc
  · simp [hck] at hc

theorem State.Tidy.own_step (h : st.Tidy s) (hcell : st.OneCell s) {t : ℕ} {a : Answer}
    {ck ck' : CkPc} {w' : World} (hok : RetriesAlone cfg s st (.run t a))
    (hkeep : ∀ c, st.world.entries.lookup s = some c → w'.entries.lookup s = some c)
    (ht : st.tasks[t]? = some (.checkout s ck)) (hmove : CkMove a t s st.world w' ck ck') :
    State.Tidy s ⟨w', st.tasks.set t (.checkout s ck')⟩ := by
  have ha := hcell.own t ck ht
  intro j cj hj hc
  rcases getElem?_set_cases hj with ⟨rfl, heq⟩ | ⟨hne, hj⟩
  · cases heq
    rcases hmove.cleaning ha hc with ⟨hck, hz⟩ | hempty
    · rw [hz]
      exact h j ck ht hck
    · exact hempty
  · have hempty := h j cj hj hc
    by_cases hz : w'.zone s = st.world.zone s
    · rw [hz]
      exact hempty
    · obtain ⟨c, b, rfl, hcell⟩ := hmove.retries ha hkeep hempty hz
      have hclean := hok.2 _ ht (by simp [Task.retries, hcell]) _ (List.mem_of_getElem? hj)
      simp [Task.cleans, hc] at hclean

theorem State.Tidy.step (h : st.Tidy s) (hsound : st.Sound) (hcell : st.OneCell s)
    (hok : RetriesAlone cfg s st l) (hstep : PgVmPool.step cfg l st = some st') : st'.Tidy s := by
  have hkeep : ∀ c, st.world.entries.lookup s = some c → st'.world.entries.lookup s = some c :=
    fun c hc ↦ hok.1 st' hstep c hc
  have hset {t : ℕ} {x : Task} (hx : ∀ ck, x ≠ .checkout s ck) (j : ℕ) (ck : CkPc)
      (hj : (st.tasks.set t x)[j]? = some (.checkout s ck)) :
      st.tasks[j]? = some (.checkout s ck) ∨ ck.cleaning = false := by
    rcases getElem?_set_cases hj with ⟨-, heq⟩ | ⟨-, hj⟩
    · exact absurd heq.symm (hx ck)
    · exact .inl hj
  cases step_sound hstep with
  | spawn hx =>
    refine h.of_zone rfl fun j ck hj ↦ ?_
    rcases getElem?_append_cases hj with ⟨-, rfl⟩ | hj
    · exact .inr (by rw [Task.eq_touch_of_initial hx]; rfl)
    · exact .inl hj
  | @checkout t a r ck ck' w' ht hck =>
    by_cases hr : r = s
    · subst hr
      exact h.own_step hcell hok hkeep ht (ckStep_move hck)
    · have hz := (ckStep_move hck).zone_of_ne hr hsound.world (hcell.foreign t r ck hr ht)
      exact h.of_zone hz (hset (by simp [hr]))
  | offload _ ho => exact h.of_zone ((offStep_shrinks ho).zone hkeep) (hset (by simp))
  | reapIdle _ hi => exact h.of_zone ((idleStep_shrinks hi).zone hkeep) (hset (by simp))
  | reapUntracked _ hu => exact h.of_zone ((untrackedStep_shrinks hu).zone hkeep) (hset (by simp))
  | purge _ hp => exact h.of_zone ((purgeStep_shrinks hp).zone hkeep) (hset (by simp))
  | outside hw => exact h.of_zone ((worldStep_shrinks hw).zone hkeep) fun j ck hj ↦ .inl hj

theorem Reaches.retries_oneCell {w : World} (h : Reaches cfg (RetriesAlone cfg s) w st) : st.OneCell s :=
  Reaches.oneCell h fun _ _ hok ↦ hok.1

theorem Reaches.tidy {w : World} (h : Reaches cfg (RetriesAlone cfg s) w st) : st.Tidy s := by
  refine Run.invariant_of (J := fun st ↦ st.Sound ∧ st.OneCell s) h
    (fun _ hr ↦ ⟨Reaches.sound hr, Reaches.retries_oneCell hr⟩) ?_
    fun _ _ _ hI hJ _ hok hstep ↦ hI.step hJ.1 hJ.2 hok hstep
  intro t ck ht
  simp [State.boot] at ht

/-- In every run in which the checkouts of a schema share one `OnceCell`, and a waiter starts its
own attempt only when no other checkout is cleaning up, the cleanup stops no VM another one uses. -/
theorem cleanup_alone {w : World} (h : Reaches cfg (RetriesAlone cfg s) w st) : st.CleansAlone s := by
  have hcell := Reaches.retries_oneCell h
  intro i j v vs ck _ hi hj hv
  exact (hcell.own j ck hj).vm hv (h.tidy i _ hi rfl)

def State.cleansBeside (st : State) (i j : ℕ) : Bool :=
  match st.tasks[i]?, st.tasks[j]? with
  | some (.checkout s (.leakStop (_ :: _))), some (.checkout r _) => s = r
  | _, _ => false

def failsToStart (t : ℕ) : List Label :=
  goes t 8 ++ runs t [.failed, .go, .failed, .go]

theorem cleanup_alone_run : ∃ st, Reaches .full (RetriesAlone .full app) (.recorded .live) st ∧
    st.cleansBeside 0 1 = true ∧ st.CleansAlone app := by
  obtain ⟨st, hr, hst⟩ := Run.exists_of_exec (step .full) (RetriesAlone .full app)
    (.boot (.recorded .live))
    ([.spawn (.checkout app .touch), .spawn (.checkout app .touch)] ++ failsToStart 0 ++ goes 1 6 ++
      [.run 0 .go])
    (fun st ↦ st.cleansBeside 0 1) (by decide +kernel) (by decide +kernel)
  exact ⟨st, hr, hst, cleanup_alone hr⟩

def State.cleansUnder (s : Schema) (st : State) (i j : ℕ) : Bool :=
  match st.tasks[i]?, st.tasks[j]? with
  | some (.checkout q (.leakStop (v :: _))), some (.checkout r ck) =>
    q = s && r = s && ck.vm st.world = some v
  | _, _ => false

theorem State.not_cleansAlone {i j : ℕ} (hij : i ≠ j) (h : st.cleansUnder s i j = true) :
    ¬ st.CleansAlone s := by
  unfold State.cleansUnder at h
  split at h
  · rename_i q v vs r ck hi hj
    simp only [Bool.and_eq_true, decide_eq_true_eq] at h
    obtain ⟨⟨rfl, rfl⟩, hv⟩ := h
    exact fun halone ↦ halone i j v vs ck hij hi hj hv
  · cases h

/-- The next waiter brings up, and serves, the very VM that the failed attempt goes on to stop. -/
theorem cleanup_not_alone : ∃ st, Reaches .full (KeepsCell .full app) (.recorded .live) st ∧
    ¬ st.CleansAlone app := by
  obtain ⟨st, hr, hst⟩ := Run.exists_of_exec (step .full) (KeepsCell .full app)
    (.boot (.recorded .live))
    ([.spawn (.checkout app .touch), .spawn (.checkout app .touch)] ++ failsToStart 0 ++ goes 1 8 ++
      attaches 1 ++ goes 1 5 ++ [.run 0 .go])
    (fun st ↦ st.cleansUnder app 0 1) (by decide +kernel) (by decide +kernel)
  exact ⟨st, hr, State.not_cleansAlone (by decide) hst⟩

end Runs

end PgVmPool
