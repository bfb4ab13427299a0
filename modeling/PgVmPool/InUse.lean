import PgVmPool.Guards

namespace PgVmPool

open Function Transition

def Task.reach (w : World) : Task → Option SandboxId
  | .checkout _ pc => pc.reach w
  | .offload _ _ _ | .reapIdle _ | .reapUntracked _ | .purge _ => none

def State.InUse (st : State) (v : SandboxId) : Prop :=
  (∃ x ∈ st.tasks, x.reach st.world = some v) ∨
    ∃ p ∈ st.world.entries.entries, (st.world.cells p.2).vm st.world = some v

instance (st : State) (v : SandboxId) : Decidable (st.InUse v) := by
  unfold State.InUse
  infer_instance

/-- The VM that the bring-up of task `t` takes in hand when it resumes with `a`. -/
def State.takes (st : State) (t : ℕ) (a : Answer) : Option SandboxId :=
  match st.tasks[t]? with
  | some (.checkout _ (.bringUp _ b p)) =>
    (ensureStep b st.world p a).bind fun r ↦ if r.2.vm = p.vm then none else r.2.vm
  | _ => none

theorem CkPc.reach_of_vm {pc : CkPc} {w : World} {v : SandboxId} (h : pc.vm w = some v) :
    pc.reach w = some v := by
  cases pc <;> first | exact h | simp [CkPc.vm, CkPc.entry] at h

section Moves

variable {a : Answer} {t : ℕ} {s : Schema} {w w' : World} {pc pc' : CkPc} {v : SandboxId}

theorem CkMove.sandbox (h : CkMove a t s w w' pc pc') {e : ℕ} (he : e < w.nextEntry) :
    (w'.ents e).sandbox = (w.ents e).sandbox := by
  cases h with
  | keep hw => rw [hw.ents]
  | ensure h => rw [(ensureStep_sameMap h).ents]
  | miss _ hw | evict _ hw | start _ hw | reset hw =>
    subst hw
    rfl
  | warm _ _ hw | acquire _ _ _ _ _ _ hw | release _ _ _ _ _ _ hw =>
    subst hw
    refine World.modEntry_sandbox ?_ w e
    exact fun _ ↦ rfl
  | fill hw =>
    subst hw
    simp [World.openEntry, he.ne]

theorem Cell.vm_of_sandbox {c : Cell} (hc : ∀ e, c = .full e → (w'.ents e).sandbox = (w.ents e).sandbox) :
    c.vm w' = c.vm w := by
  cases c with
  | empty | busy => rfl
  | full e => simp [Cell.vm, hc e rfl]

/-- A cell gets its VM from the bring-up that ends. -/
theorem CkMove.published (h : CkMove a t s w w' pc pc') (hw : w.Bounded) {c : ℕ}
    (hv : (w'.cells c).vm w' = some v) :
    (w.cells c).vm w = some v ∨ ∃ b n, pc = .bringUp c b (.ok v n) := by
  have hold : (w.cells c).vm w' = (w.cells c).vm w :=
    Cell.vm_of_sandbox fun e he ↦ h.sandbox (hw.full c e he)
  cases h with
  | keep hs => exact .inl (by rwa [hs.cells, hold] at hv)
  | ensure h => exact .inl (by rwa [(ensureStep_sameMap h).cells, hold] at hv)
  | warm _ _ heq | acquire _ _ _ _ _ _ heq | release _ _ _ _ _ _ heq | evict _ heq =>
    subst heq
    exact .inl (hold ▸ hv)
  | miss _ heq | start _ heq | reset heq =>
    subst heq
    simp only [World.openCell, update_apply] at hv
    split at hv
    · cases hv
    · exact .inl (hold ▸ hv)
  | @fill d n b id k heq =>
    subst heq
    by_cases hc : c = d
    · subst hc
      simp only [World.openEntry, update_self, Cell.vm, SchemaEntry.new] at hv
      obtain rfl := Option.some_inj.mp hv
      exact .inr ⟨b, n, rfl⟩
    · refine .inl (hold ▸ ?_)
      simpa [World.openEntry, hc] using hv

theorem CkMove.cell_vm (h : CkMove a t s w w' pc pc') (hw : w.Bounded) {c : ℕ}
    (hv : (w'.cells c).vm w' = some v) :
    (w.cells c).vm w = some v ∨ pc.reach w = some v := by
  refine (h.published hw hv).imp_right ?_
  rintro ⟨b, n, rfl⟩
  rfl

theorem CkMove.reach_cases (h : CkMove a t s w w' pc pc') (hv : pc'.reach w' = some v) :
    pc.reach w = some v ∨ (∃ c, w.entries.lookup s = some c ∧ (w.cells c).vm w = some v) ∨
      ∃ c b p p', pc = .bringUp c b p ∧ ensureStep b w p a = some (w', p') ∧ p'.vm = some v := by
  cases h with
  | keep _ _ _ _ reach => exact .inl (reach v hv)
  | ensure h => exact .inr (.inr ⟨_, _, _, _, rfl, h, hv⟩)
  | miss _ heq =>
    subst heq
    simp [CkPc.reach, World.openCell, Cell.vm] at hv
  | @warm c e hl hc heq =>
    subst heq
    have hsame := World.modEntry_sandbox (e := e) (f := (·.touch w.now)) (fun _ ↦ rfl) w e
    refine .inr (.inl ⟨c, hl, ?_⟩)
    rw [hc, Cell.vm, ← hsame]
    exact hv
  | acquire _ _ _ _ _ reach => exact .inl (reach ▸ hv)
  | release _ _ _ _ reach => simp [reach] at hv
  | evict | reset => simp [CkPc.reach, CkPc.vm, CkPc.entry] at hv
  | start => simp [CkPc.reach, CkPc.vm, EnsurePc.vm] at hv
  | fill heq =>
    subst heq
    left
    simpa [CkPc.reach, CkPc.vm, CkPc.entry, EnsurePc.vm, World.openEntry, SchemaEntry.new] using hv

theorem CkMove.mapped (h : CkMove a t s w w' pc pc') {r : Schema} {c : ℕ}
    (hr : w'.entries.lookup r = some c) : w.entries.lookup r = some c ∨ w'.cells c = .empty := by
  cases h with
  | keep hs => exact .inl (by rwa [hs.entries] at hr)
  | ensure h => exact .inl (by rwa [(ensureStep_sameMap h).entries] at hr)
  | miss _ heq =>
    subst heq
    by_cases hrs : r = s
    · subst hrs
      obtain rfl : w.nextCell = c := by simpa [World.openCell] using hr
      exact .inr (by simp [World.openCell])
    · exact .inl (by rwa [World.openCell, AList.lookup_insert_ne hrs] at hr)
  | evict _ heq =>
    subst heq
    exact .inl (lookup_of_lookup_erase hr)
  | warm _ _ heq | acquire _ _ _ _ _ _ heq | release _ _ _ _ _ _ heq | start _ heq | fill heq
  | reset heq =>
    subst heq
    exact .inl hr

theorem CkMove.other_reach (h : CkMove a t s w w' pc pc') (hw : w.Bounded) {r : Schema} {p : CkPc}
    (hb : (Task.checkout r p).Bounded w) (hv : p.reach w' = some v) :
    p.reach w = some v ∨ pc.reach w = some v := by
  cases p with
  | checkBreaker | readRecord | pickRestore | boundIds | awaitCell => exact h.cell_vm hw hv
  | admitWarm | probing | recordBinding | clearPending | removeThawed | clearBreaker | admitCold
  | serving =>
    refine .inl (Eq.trans (congrArg some ?_) hv)
    exact (h.sandbox (hb.2 _ rfl)).symm
  | _ => exact .inl hv

end Moves

section Steps

variable {cfg : Config} {st st' : State} {l : Label} {v : SandboxId}

theorem Step.sandbox (hs : Step cfg st l st') {e : ℕ} (he : e < st.world.nextEntry) :
    (st'.world.ents e).sandbox = (st.world.ents e).sandbox := by
  cases hs with
  | spawn => rfl
  | checkout _ hck => exact (ckStep_move hck).sandbox he
  | offload _ ho => exact congrArg (fun f ↦ (f e).sandbox) (offStep_shrinks ho).ents
  | reapIdle _ hi => exact congrArg (fun f ↦ (f e).sandbox) (idleStep_shrinks hi).ents
  | reapUntracked _ hu => exact congrArg (fun f ↦ (f e).sandbox) (untrackedStep_shrinks hu).ents
  | purge _ hp => exact congrArg (fun f ↦ (f e).sandbox) (purgeStep_shrinks hp).ents
  | outside hw => exact congrArg (fun f ↦ (f e).sandbox) (worldStep_shrinks hw).ents

theorem State.inUse_iff : st.InUse v ↔
    (∃ (t : ℕ) (x : Task), st.tasks[t]? = some x ∧ x.reach st.world = some v) ∨
      ∃ s c, st.world.entries.lookup s = some c ∧ (st.world.cells c).vm st.world = some v := by
  unfold State.InUse
  refine or_congr ?_ ?_
  · constructor
    · rintro ⟨x, hx, hv⟩
      obtain ⟨t, ht⟩ := List.getElem?_of_mem hx
      exact ⟨t, x, ht, hv⟩
    · rintro ⟨t, x, ht, hv⟩
      exact ⟨x, List.mem_of_getElem? ht, hv⟩
  · constructor
    · rintro ⟨⟨s, c⟩, hp, hv⟩
      exact ⟨s, c, AList.mem_lookup_iff.mpr hp, hv⟩
    · rintro ⟨s, c, hs, hv⟩
      exact ⟨⟨s, c⟩, AList.mem_lookup_iff.mp hs, hv⟩

theorem World.Shrinks.vm {w w' : World} (h : w.Shrinks w') (c : Cell) : c.vm w' = c.vm w :=
  Cell.vm_of_sandbox fun e _ ↦ by rw [h.ents]

theorem World.Shrinks.reach {w w' : World} (h : w.Shrinks w') (x : Task) : x.reach w' = x.reach w := by
  cases x with
  | checkout s pc => cases pc <;> simp [Task.reach, CkPc.reach, CkPc.vm, h.cells, h.ents, h.vm]
  | offload | reapIdle | reapUntracked | purge => rfl

theorem State.InUse.of_shrinks {w' : World} (hw : st.world.Shrinks w') {ts : List Task}
    (hts : ∀ (j : ℕ) (y : Task), ts[j]? = some y → y.reach w' = none ∨ st.tasks[j]? = some y)
    (hv : State.InUse ⟨w', ts⟩ v) : st.InUse v := by
  rw [State.inUse_iff] at hv ⊢
  rcases hv with ⟨j, y, hj, hv⟩ | ⟨s, c, hs, hv⟩
  · rcases hts j y hj with hy | hj
    · simp [hy] at hv
    · exact .inl ⟨j, y, hj, by rwa [hw.reach] at hv⟩
  · exact .inr ⟨s, c, hw.entries s c hs, by rwa [hw.cells, hw.vm] at hv⟩

theorem State.InUse.of_checkout (hsound : st.Sound) {t : ℕ} {a : Answer} {s : Schema}
    {pc pc' : CkPc} {w' : World} (ht : st.tasks[t]? = some (.checkout s pc))
    (hck : ckStep cfg t s st.world pc a = some (w', pc'))
    (hv : State.InUse ⟨w', st.tasks.set t (.checkout s pc')⟩ v) :
    st.InUse v ∨ st.takes t a = some v := by
  have hmove := ckStep_move hck
  have hself (h : pc.reach st.world = some v) : st.InUse v :=
    State.inUse_iff.mpr (.inl ⟨t, _, ht, h⟩)
  rcases State.inUse_iff.mp hv with ⟨j, y, hj, hv⟩ | ⟨r, c, hr, hv⟩
  · rcases getElem?_set_cases hj with ⟨-, rfl⟩ | ⟨-, hj⟩
    · rcases hmove.reach_cases hv with h | ⟨c, hl, hc⟩ | ⟨c, b, p, p', rfl, hp, hvm⟩
      · exact .inl (hself h)
      · exact .inl (State.inUse_iff.mpr (.inr ⟨s, c, hl, hc⟩))
      · by_cases hpv : p.vm = some v
        · exact .inl (hself hpv)
        · refine .inr ?_
          simp only [State.takes, ht, hp, Option.bind_some, hvm]
          rw [if_neg (Ne.symm hpv)]
    · cases y with
      | checkout r p =>
        rcases hmove.other_reach hsound.world (hsound.fits j _ hj).1 hv with h | h
        · exact .inl (State.inUse_iff.mpr (.inl ⟨j, _, hj, h⟩))
        · exact .inl (hself h)
      | offload | reapIdle | reapUntracked | purge => cases hv
  · rcases hmove.mapped hr with hr | hc
    · rcases hmove.cell_vm hsound.world hv with h | h
      · exact .inl (State.inUse_iff.mpr (.inr ⟨r, c, hr, h⟩))
      · exact .inl (hself h)
    · simp [hc, Cell.vm] at hv

/-- A VM comes into use only when a bring-up takes it in hand. -/
theorem State.InUse.of_step (hsound : st.Sound) (hs : Step cfg st l st') (hv : st'.InUse v) :
    st.InUse v ∨ ∃ t a, l = .run t a ∧ st.takes t a = some v := by
  have hset {t : ℕ} {x : Task} {w' : World} (hx : x.reach w' = none) (j : ℕ) (y : Task)
      (hj : (st.tasks.set t x)[j]? = some y) : y.reach w' = none ∨ st.tasks[j]? = some y := by
    rcases getElem?_set_cases hj with ⟨-, rfl⟩ | ⟨-, hj⟩
    · exact .inl hx
    · exact .inr hj
  cases hs with
  | @spawn x hx =>
    refine .inl (hv.of_shrinks (World.SameMap.refl _).shrinks fun j y hj ↦ ?_)
    rcases getElem?_append_cases hj with ⟨-, rfl⟩ | hj
    · left
      obtain ⟨_, rfl⟩ | ⟨_, _, rfl⟩ | rfl | rfl | rfl := Task.initial_cases hx <;> rfl
    · exact .inr hj
  | checkout ht hck =>
    exact (State.InUse.of_checkout hsound ht hck hv).imp_right fun h ↦ ⟨_, _, rfl, h⟩
  | offload ht ho => exact .inl (hv.of_shrinks (offStep_shrinks ho) (hset rfl))
  | reapIdle ht hi => exact .inl (hv.of_shrinks (idleStep_shrinks hi) (hset rfl))
  | reapUntracked ht hu => exact .inl (hv.of_shrinks (untrackedStep_shrinks hu) (hset rfl))
  | purge ht hp => exact .inl (hv.of_shrinks (purgeStep_shrinks hp) (hset rfl))
  | outside hw => exact .inl (hv.of_shrinks (worldStep_shrinks hw) fun j y hj ↦ .inr hj)

end Steps

end PgVmPool
