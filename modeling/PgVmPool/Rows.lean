import PgVmPool.Guards

namespace PgVmPool

open Function Transition

/-- The row a task is about to write, when it binds a VM. -/
def Task.puts (w : World) : Task → Option (Schema × SandboxId)
  | .checkout s (.recordBinding e _) => some (s, (w.ents e).sandbox)
  | .offload s _ (.ensureRow id) => if (w.store.record s).isNone then some (s, id) else none
  | _ => none

section Steps

variable {cfg : Config} {a : Answer} {t : ℕ} {r s : Schema} {w w' : World} {st st' : State} {l : Label}

theorem OffMove.record_ne {p p' : OffPc} (h : OffMove a r w w' p p') (hs : s ≠ r) :
    w'.store.record s = w.store.record s := by
  cases h with
  | other hw => rw [hw]
  | claim _ hw | missing _ hw => subst hw; rfl
  | @evict q _ h =>
    obtain rfl : (offEvict r q w).1 = w' := by rw [h]
    rw [offEvict_frame]
  | ensure h => rw [ensureStep_frame h]
  | bind _ hw =>
    subst hw
    exact Store.record_put_ne hs _ _
  | flip hset hw =>
    subst hw
    exact Store.record_setTier_ne hset hs
  | write _ _ hw =>
    subst hw
    exact congrArg (AList.lookup s) (Store.writeLatest_map ..)

theorem OffMove.idOf_cases {p p' : OffPc} (h : OffMove a s w w' p p') (kind : OffloadKind) :
    w'.store.idOf s = w.store.idOf s ∨
      ∃ id, (Task.offload s kind p).puts w = some (s, id) ∧ w.store.idOf s = none ∧
        w'.store.idOf s = some id := by
  cases h with
  | other hw => exact .inl (by rw [hw])
  | claim _ hw | missing _ hw =>
    subst hw
    exact .inl rfl
  | @evict q _ h =>
    obtain rfl : (offEvict s q w).1 = w' := by rw [h]
    exact .inl (by rw [offEvict_frame])
  | ensure h => exact .inl (by rw [ensureStep_frame h])
  | @bind id hnone hw =>
    subst hw
    exact .inr ⟨id, by simp [Task.puts, hnone], by simp [Store.idOf, hnone], Store.idOf_put _ _ _ _⟩
  | flip hset hw =>
    subst hw
    exact .inl (Store.idOf_setTier hset)
  | write _ _ hw =>
    subst hw
    exact .inl (Store.idOf_of_map (Store.writeLatest_map ..) s)

theorem ckStep_record_ne {pc pc' : CkPc} (h : ckStep cfg t r w pc a = some (w', pc')) (hs : s ≠ r) :
    w'.store.record s = w.store.record s := by
  rcases ckStep_store h with hst | hst | ⟨e, q, -, hst⟩ <;> rw [hst]
  · exact Store.record_touch_ne hs _
  · exact Store.record_put_ne hs _ _

theorem ckStep_idOf_cases {pc pc' : CkPc} (h : ckStep cfg t s w pc a = some (w', pc')) :
    w'.store.idOf s = w.store.idOf s ∨
      ∃ id, (Task.checkout s pc).puts w = some (s, id) ∧ w'.store.idOf s = some id := by
  rcases ckStep_store h with hst | hst | ⟨e, q, rfl, hst⟩
  · exact .inl (by rw [hst])
  · exact .inl (by rw [hst, Store.idOf_touch])
  · exact .inr ⟨_, rfl, by rw [hst, Store.idOf_put]⟩

/-- A row changes hands only through the task that is about to write it. -/
theorem Step.idOf (hs : Step cfg st l st') (s : Schema) :
    st'.world.store.idOf s = st.world.store.idOf s ∨
      ∃ t a x id, l = .run t a ∧ st.tasks[t]? = some x ∧ x.puts st.world = some (s, id) ∧
        st'.world.store.idOf s = some id := by
  cases hs with
  | spawn => exact .inl rfl
  | @checkout t a r pc pc' w' ht hck =>
    by_cases hr : s = r
    · subst hr
      rcases ckStep_idOf_cases hck with heq | ⟨id, hput, heq⟩
      · exact .inl heq
      · exact .inr ⟨t, a, _, id, rfl, ht, hput, heq⟩
    · exact .inl (congrArg (Option.map _) (ckStep_record_ne hck hr))
  | @offload t a r kind pc pc' w' ht ho =>
    obtain ⟨u, hu, x, rfl⟩ := offStep_eq ho
    have hmove := offCore_move hu
    by_cases hr : s = r
    · subst hr
      rcases hmove.idOf_cases kind with heq | ⟨id, hput, -, heq⟩
      · exact .inl heq
      · exact .inr ⟨t, a, _, id, rfl, ht, hput, heq⟩
    · exact .inl (congrArg (Option.map _) (hmove.record_ne hr))
  | reapIdle _ hi => exact .inl (by rw [idleStep_frame hi])
  | reapUntracked _ hu => exact .inl (by rw [untrackedStep_world hu])
  | purge _ hp => exact .inl (by rw [purgeStep_frame hp])
  | outside hw => exact .inl (Store.idOf_of_map (worldStep_map hw) s)

theorem Step.bound {v : SandboxId} (hs : Step cfg st l st') (hv : v ∈ st'.world.store.boundIds) :
    v ∈ st.world.store.boundIds ∨
      ∃ t a x s, l = .run t a ∧ st.tasks[t]? = some x ∧ x.puts st.world = some (s, v) := by
  obtain ⟨s, hid⟩ := Store.mem_boundIds.mp hv
  rcases hs.idOf s with heq | ⟨t, a, x, id, rfl, ht, hput, heq⟩
  · exact .inl (Store.mem_boundIds.mpr ⟨s, heq ▸ hid⟩)
  · obtain rfl : id = v := Option.some.inj (heq.symm.trans hid)
    exact .inr ⟨t, a, x, s, rfl, ht, hput⟩

/-- A VM loses its last row only to the task that binds the schema of that row to another VM. -/
theorem Step.unbound {v : SandboxId} (hs : Step cfg st l st') (hv : v ∈ st.world.store.boundIds)
    (hv' : v ∉ st'.world.store.boundIds) :
    ∃ t a x s id, l = .run t a ∧ st.tasks[t]? = some x ∧ x.puts st.world = some (s, id) ∧ id ≠ v ∧
      st.world.store.idOf s = some v ∧ ∀ q, st.world.store.idOf q = some v → q = s := by
  obtain ⟨s, hid⟩ := Store.mem_boundIds.mp hv
  have hlost {q : Schema} (hq : st.world.store.idOf q = some v) :
      st'.world.store.idOf q ≠ st.world.store.idOf q :=
    fun heq ↦ hv' (Store.mem_boundIds.mpr ⟨q, heq.trans hq⟩)
  rcases hs.idOf s with heq | ⟨t, a, x, id, rfl, ht, hput, heq⟩
  · exact absurd heq (hlost hid)
  refine ⟨t, a, x, s, id, rfl, ht, hput, ?_, hid, fun q hq ↦ ?_⟩
  · rintro rfl
    exact hv' (Store.mem_boundIds.mpr ⟨s, heq⟩)
  · rcases hs.idOf q with hsame | ⟨t', a', x', id', hl, ht', hput', -⟩
    · exact absurd hsame (hlost hq)
    · cases hl
      cases ht.symm.trans ht'
      cases hput.symm.trans hput'
      rfl

end Steps

end PgVmPool
