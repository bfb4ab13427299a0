import PgVmPool.Guards

namespace PgVmPool

open Function Transition

def Store.Live (st : Store) (v : SandboxId) : Prop :=
  ∃ s r, st.record s = some r ∧ r.tier = .live ∧ r.sandboxId = v

section Rows

variable {st st' : Store} {s : Schema} {id v : SandboxId} {now : UInt64}

theorem Store.Live.of_map (h : st'.Live v) (hm : st'.map = st.map) : st.Live v := by
  obtain ⟨s, r, hr, hrest⟩ := h
  exact ⟨s, r, by rw [Store.record, ← hm]; exact hr, hrest⟩

theorem Store.Live.of_insert {r : StoreRecord} (hm : st'.map = st.map.insert s r) (h : st'.Live v) :
    st.Live v ∨ r.tier = .live ∧ r.sandboxId = v := by
  obtain ⟨q, x, hx, htier, hid⟩ := h
  rw [Store.record, hm] at hx
  by_cases hq : q = s
  · subst hq
    obtain rfl : r = x := by simpa using hx
    exact .inr ⟨htier, hid⟩
  · exact .inl ⟨q, x, by rwa [AList.lookup_insert_ne hq] at hx, htier, hid⟩

theorem Store.Live.of_put (h : (st.put s id now).Live v) : st.Live v ∨ v = id := by
  unfold Store.put at h
  split at h
  · split at h
    · rename_i r _ hr
      exact (Store.Live.of_insert rfl h).imp_right fun h ↦ by rw [← h.2, ← hr.1]
    · exact (Store.Live.of_insert rfl h).imp_right fun h ↦ h.2.symm
  · exact (Store.Live.of_insert rfl h).imp_right fun h ↦ h.2.symm

theorem Store.Live.of_touch (h : (st.touch s now).Live v) : st.Live v := by
  unfold Store.touch at h
  split at h
  · rename_i r hr
    rcases Store.Live.of_insert rfl h with h | ⟨htier, hid⟩
    · exact h
    · exact ⟨s, r, hr, htier, hid⟩
  · exact h

theorem Store.Live.of_setTier {tier : Tier} (hset : st.setTier s tier = some st') (ht : tier ≠ .live)
    (h : st'.Live v) : st.Live v := by
  obtain ⟨r, hr, rfl⟩ := Option.map_eq_some_iff.mp hset
  rcases Store.Live.of_insert rfl h with h | ⟨htier, -⟩
  · exact h
  · exact absurd htier ht

end Rows

def EnsurePc.spare (b : BringUp) (w : World) : EnsurePc → Option SandboxId
  | .takeSpare (_ + 1) => (popReady (b.spares.getD []) w.claimed w.ready).1
  | _ => none

def Task.binds (w : World) : Task → Option SandboxId
  | .checkout _ (.recordBinding e _) => some (w.ents e).sandbox
  | .offload s _ (.ensureRow id) => if (w.store.record s).isNone then some id else none
  | _ => none

def Task.spare (w : World) : Task → Option SandboxId
  | .checkout _ (.bringUp _ b p) => p.spare b w
  | .offload s _ (.bringUp _ known p) => p.spare ⟨s, known, none, none⟩ w
  | _ => none

def Task.marked : Task → List SandboxId
  | .purge pc => pc.marked
  | .checkout _ _ | .offload _ _ _ | .reapIdle _ | .reapUntracked _ => []

def Task.unbound : Task → List SandboxId
  | .purge pc => pc.unbound
  | .checkout _ _ | .offload _ _ _ | .reapIdle _ | .reapUntracked _ => []

def Task.snapshots : Task → Bool
  | .purge (.records _) => true
  | _ => false

/-- What the next step of a task asks of the registry and the passes. -/
def State.Unmarked (st : State) (x : Task) : Prop :=
  (x.snapshots = true → ∀ p ∈ st.world.store.records, p.2.offloaded = true →
    st.world.claimed p.2.sandboxId = false ∧
      ∀ q ∈ st.world.store.records, q.2.tier = .live → q.2.sandboxId ≠ p.2.sandboxId) ∧
  (∀ v ∈ x.binds st.world, ∀ y ∈ st.tasks, v ∉ y.unbound) ∧
  ∀ v ∈ x.spare st.world, ∀ y ∈ st.tasks, v ∉ y.marked

/-- A purge pass takes its rows only when the VMs of the offloaded ones are neither live nor claimed,
and until the pass is past a VM nobody binds it and the spare pool does not claim it. -/
def PurgesOffloaded (st : State) : Label → Prop :=
  OnRun fun t _ ↦ ∀ x ∈ st.tasks[t]?, st.Unmarked x

instance (st : State) (x : Task) : Decidable (st.Unmarked x) :=
  inferInstanceAs (Decidable (_ ∧ _))

instance (st : State) (l : Label) : Decidable (PurgesOffloaded st l) :=
  inferInstanceAs (Decidable (OnRun _ l))

/-- A VM that a purge pass deletes belongs to no live row and is not claimed. -/
def State.PurgesDead (st : State) : Prop :=
  ∀ (t : ℕ) (pc : PurgePc) (v : SandboxId), st.tasks[t]? = some (.purge pc) → pc.victim = some v →
    ¬ st.world.store.Live v ∧ st.world.claimed v = false

section Effects

variable {cfg : Config} {a : Answer} {w w' : World} {v : SandboxId}

theorem ensureStep_claimed {b : BringUp} {p p' : EnsurePc} (h : ensureStep b w p a = some (w', p'))
    (hv : w'.claimed v = true) : w.claimed v = true ∨ p.spare b w = some v := by
  have hun {u : World} {id : SandboxId} (h : (u.unclaim id).claimed v = true) : u.claimed v = true := by
    by_cases hid : v = id
    · simp [World.unclaim, hid] at h
    · simpa [World.unclaim, hid] using h
  revert h
  fun_cases ensureStep b w p a <;> intro h <;> (try cases h)
  case case19 id rest hpop =>
    by_cases hid : v = id
    · exact .inr (by simp [EnsurePc.spare, hpop, hid])
    · exact .inl (by simpa [hid] using hv)
  case case35 | case38 | case51 =>
    obtain ⟨_, -, heq⟩ := Option.map_eq_some_iff.mp h
    cases heq
    exact .inl hv
  case case45 =>
    rw [BringUp.dropScratch_frame] at hv
    exact .inl (hun hv)
  all_goals first
    | exact .inl hv
    | exact .inl (hun hv)
    | (rw [BringUp.dropScratch_frame] at hv; exact .inl hv)

theorem ckStep_claimed {t : ℕ} {s : Schema} {pc pc' : CkPc}
    (h : ckStep cfg t s w pc a = some (w', pc')) (hv : w'.claimed v = true) :
    w.claimed v = true ∨ (Task.checkout s pc).spare w = some v := by
  revert h
  fun_cases ckStep cfg t s w pc a <;> intro h <;> (try cases h)
  case case11 => split at hv <;> exact .inl hv
  case case24 =>
    obtain ⟨_, hx, heq⟩ := Option.map_eq_some_iff.mp h
    cases heq
    exact ensureStep_claimed hx hv
  case case27 =>
    rw [World.dropThawed_frame] at hv
    exact .inl hv
  all_goals exact .inl hv

theorem OffMove.claimed {s : Schema} {kind : OffloadKind} {pc pc' : OffPc}
    (h : OffMove a s w w' pc pc') (hv : w'.claimed v = true) :
    w.claimed v = true ∨ (Task.offload s kind pc).spare w = some v := by
  cases h with
  | other hw =>
    rw [hw] at hv
    exact .inl hv
  | @evict r _ h =>
    obtain rfl : (offEvict s r w).1 = w' := by rw [h]
    rw [offEvict_frame] at hv
    exact .inl hv
  | ensure h => exact ensureStep_claimed h hv
  | claim _ hw | bind _ hw | flip _ hw | missing _ hw | write _ _ hw =>
    subst hw
    exact .inl hv

theorem ckStep_live {t : ℕ} {s : Schema} {pc pc' : CkPc}
    (h : ckStep cfg t s w pc a = some (w', pc')) (hv : w'.store.Live v) :
    w.store.Live v ∨ (Task.checkout s pc).binds w = some v := by
  revert h
  fun_cases ckStep cfg t s w pc a <;> intro h <;> (try cases h)
  case case1 => exact .inl hv.of_touch
  case case11 => split at hv <;> exact .inl hv
  case case24 =>
    obtain ⟨_, hx, heq⟩ := Option.map_eq_some_iff.mp h
    cases heq
    rw [ensureStep_frame hx] at hv
    exact .inl hv
  case case25 => exact hv.of_put.imp_right fun h ↦ congrArg some h.symm
  case case27 =>
    rw [World.dropThawed_frame] at hv
    exact .inl hv
  all_goals exact .inl hv

theorem OffMove.live {s : Schema} {kind : OffloadKind} {pc pc' : OffPc}
    (h : OffMove a s w w' pc pc') (hpc : ∀ fin, pc ≠ .setTier .live fin)
    (hv : w'.store.Live v) : w.store.Live v ∨ (Task.offload s kind pc).binds w = some v := by
  cases h with
  | other hw =>
    rw [hw] at hv
    exact .inl hv
  | @evict r _ h =>
    obtain rfl : (offEvict s r w).1 = w' := by rw [h]
    rw [offEvict_frame] at hv
    exact .inl hv
  | ensure h =>
    rw [ensureStep_frame h] at hv
    exact .inl hv
  | claim _ hw | missing _ hw =>
    subst hw
    exact .inl hv
  | bind hnone hw =>
    subst hw
    exact hv.of_put.imp_right fun h ↦ by simp [Task.binds, hnone, h]
  | @flip tier fin _ hset hw =>
    subst hw
    exact .inl (hv.of_setTier hset fun heq ↦ hpc fin (by rw [heq]))
  | write _ _ hw =>
    subst hw
    exact .inl (hv.of_map (Store.writeLatest_map _ _ _ _))

theorem mem_boundIds_of_live {st : Store} (h : st.Live v) : v ∈ st.boundIds := by
  obtain ⟨s, r, hr, -, rfl⟩ := h
  exact List.mem_map.mpr ⟨(s, r), Store.mem_records.mpr hr, rfl⟩

theorem marked_snapshot {view : PurgeView} {keys : List Schema}
    (hv : v ∈ (PurgePc.visit view (keys.filterMap w.store.record)).marked) :
    ∃ s r, w.store.record s = some r ∧ r.offloaded = true ∧ r.sandboxId = v := by
  obtain ⟨r, hr, hid⟩ := List.mem_map.mp hv
  obtain ⟨hmem, hoff⟩ := List.mem_filter.mp hr
  obtain ⟨s, -, hs⟩ := List.mem_filterMap.mp hmem
  exact ⟨s, r, hs, hoff, hid⟩

theorem marked_visit {view : PurgeView} {r : StoreRecord} {recs : List StoreRecord} :
    v ∈ (PurgePc.visit view (r :: recs)).marked ↔
      (r.tier ≠ .live ∧ v = r.sandboxId) ∨ v ∈ (PurgePc.visit view recs).marked := by
  simp only [PurgePc.marked, List.filter_cons, StoreRecord.offloaded]
  by_cases ht : r.tier = .live <;> simp [ht]

/-- A pass marks the rows of its snapshot, and a spare once it has read both sets again. -/
theorem purgeStep_marked {pc pc' : PurgePc} (h : purgeStep w pc a = some (w', pc'))
    (hv : v ∈ pc'.marked) : v ∈ pc.marked ∨ (v ∈ pc.unbound ∧ w.claimed v = false) ∨
      ((Task.purge pc).snapshots = true ∧
        ∃ s r, w.store.record s = some r ∧ r.offloaded = true ∧ r.sandboxId = v) := by
  revert h
  fun_cases purgeStep w pc a <;> intro h <;> cases h
  case case5 => exact .inr (.inr ⟨rfl, marked_snapshot hv⟩)
  case case8 r recs =>
    refine .inl (marked_visit.mpr ?_)
    repeat' split at hv
    · exact .inr hv
    all_goals exact (List.mem_cons.mp hv).imp_left fun h ↦ ⟨‹_›, h⟩
  case case10 | case11 | case12 | case13 => exact .inl (List.mem_cons_of_mem _ hv)
  case case15 | case16 => split at hv <;> cases hv
  case case17 id _ =>
    split at hv
    · cases hv
    · rename_i hc
      obtain rfl := List.mem_singleton.mp hv
      exact .inr (.inl ⟨List.mem_singleton_self _, by simpa using hc⟩)
  all_goals first | exact .inl hv | cases hv

theorem purgeStep_unbound {pc pc' : PurgePc} (h : purgeStep w pc a = some (w', pc'))
    (hv : v ∈ pc'.unbound) : v ∈ pc.unbound ∨ ¬ w.store.Live v ∨
      ((Task.purge pc).snapshots = true ∧
        ∃ s r, w.store.record s = some r ∧ r.offloaded = true ∧ r.sandboxId = v) := by
  have hmarked := @purgeStep_marked a w w' v pc pc' h
  revert h
  fun_cases purgeStep w pc a <;> intro h <;> cases h
  case case16 id _ =>
    split at hv
    · cases hv
    · rename_i hb
      obtain rfl := List.mem_singleton.mp hv
      exact .inr (.inl fun hl ↦ hb (mem_boundIds_of_live hl))
  case case17 =>
    split at hv
    · cases hv
    · exact .inl hv
  all_goals
    rcases hmarked (by revert hv; (repeat' split) <;> exact id) with h | h | h
    · exact .inl h
    · exact .inl h.1
    · exact .inr (.inr h)

end Effects

section Runs

variable {cfg : Config} {st st' : State} {l : Label} {v : SandboxId}

def Task.Offloads : Task → Prop
  | .offload _ _ pc => ∀ fin, pc ≠ .setTier .live fin
  | .checkout _ _ | .reapIdle _ | .reapUntracked _ | .purge _ => True

theorem OffMove.offloads {a : Answer} {s : Schema} {w w' : World} {pc pc' : OffPc}
    (h : OffMove a s w w' pc pc') (fin : Final) : pc' ≠ .setTier .live fin := by
  cases h with
  | other _ _ _ _ tier => exact tier fin
  | @claim r => cases r <;> simp [Route.afterClaim]
  | @evict r _ h =>
    obtain rfl : (offEvict s r w).2 = pc' := by rw [h]
    unfold offEvict Route.afterEvict
    repeat' split
    all_goals simp
  | ensure | bind | flip | missing | write => simp

theorem Reaches.offloads {ok : State → Label → Prop} {w : World} (h : Reaches cfg ok w st) :
    ∀ (t : ℕ) (x : Task), st.tasks[t]? = some x → x.Offloads := by
  refine Run.invariant (I := fun s ↦ ∀ (t : ℕ) (x : Task), s.tasks[t]? = some x → x.Offloads) h
    (fun t x ht ↦ by simp [State.boot] at ht) fun a l b ha _ hstep ↦ ?_
  cases step_sound hstep with
  | spawn hx =>
    refine forall_append ?_ ha
    obtain ⟨_, rfl⟩ | ⟨_, _, rfl⟩ | rfl | rfl | rfl := Task.initial_cases hx <;> simp [Task.Offloads]
  | checkout | reapIdle | reapUntracked | purge => exact forall_set trivial fun j y _ ↦ ha j y
  | offload ht ho =>
    obtain ⟨_, hu, heq⟩ := Option.map_eq_some_iff.mp ho
    cases heq
    exact forall_set (fun fin ↦ (offCore_move hu).offloads fin) fun j y _ ↦ ha j y
  | outside => exact ha

theorem Step.live (hs : Step cfg st l st')
    (hoff : ∀ (t : ℕ) (x : Task), st.tasks[t]? = some x → x.Offloads)
    (hv : st'.world.store.Live v) : st.world.store.Live v ∨
      ∃ t a x, l = .run t a ∧ st.tasks[t]? = some x ∧ x.binds st.world = some v := by
  cases hs with
  | spawn => exact .inl hv
  | checkout ht hck => exact (ckStep_live hck hv).imp_right fun h ↦ ⟨_, _, _, rfl, ht, h⟩
  | offload ht ho =>
    obtain ⟨⟨u, p⟩, hu, heq⟩ := Option.map_eq_some_iff.mp ho
    cases heq
    have hv : u.store.Live v := by split at hv <;> exact hv
    exact ((offCore_move hu).live (hoff _ _ ht) hv).imp_right fun h ↦ ⟨_, _, _, rfl, ht, h⟩
  | reapIdle _ hi =>
    rw [idleStep_frame hi] at hv
    exact .inl hv
  | reapUntracked _ hu =>
    rw [untrackedStep_world hu] at hv
    exact .inl hv
  | purge _ hp =>
    rw [purgeStep_frame hp] at hv
    exact .inl hv
  | outside hw => exact .inl (hv.of_map (worldStep_map hw))

theorem Step.claimed (hs : Step cfg st l st') (hv : st'.world.claimed v = true) :
    st.world.claimed v = true ∨
      ∃ t a x, l = .run t a ∧ st.tasks[t]? = some x ∧ x.spare st.world = some v := by
  cases hs with
  | spawn => exact .inl hv
  | checkout ht hck => exact (ckStep_claimed hck hv).imp_right fun h ↦ ⟨_, _, _, rfl, ht, h⟩
  | offload ht ho =>
    obtain ⟨⟨u, p⟩, hu, heq⟩ := Option.map_eq_some_iff.mp ho
    cases heq
    have hv : u.claimed v = true := by split at hv <;> exact hv
    exact ((offCore_move hu).claimed hv).imp_right fun h ↦ ⟨_, _, _, rfl, ht, h⟩
  | reapIdle _ hi =>
    rw [idleStep_frame hi] at hv
    exact .inl hv
  | reapUntracked _ hu =>
    rw [untrackedStep_world hu] at hv
    exact .inl hv
  | purge _ hp =>
    rw [purgeStep_frame hp] at hv
    exact .inl hv
  | outside hw =>
    rw [worldStep_frame hw] at hv
    exact .inl hv

theorem Step.marks (hs : Step cfg st l st') {x : Task} (hx : x ∈ st'.tasks)
    (hv : v ∈ x.unbound) : x ∈ st.tasks ∨ ∃ t a pc pc', l = .run t a ∧
      st.tasks[t]? = some (.purge pc) ∧ x = .purge pc' ∧
      purgeStep st.world pc a = some (st'.world, pc') := by
  rcases hs.mem_cases hx with hx | hi | ⟨t, a, y, rfl, ht, hy, -⟩
  · exact .inl hx
  · obtain ⟨_, rfl⟩ | ⟨_, _, rfl⟩ | rfl | rfl | rfl := Task.initial_cases hi <;> cases hv
  · cases x with
    | purge pc' =>
      obtain ⟨pc, rfl, hp⟩ := taskStep_purge hy
      exact .inr ⟨t, a, pc, pc', rfl, ht, rfl, hp⟩
    | checkout | offload | reapIdle | reapUntracked => cases hv

theorem Task.unbound_of_marked {x : Task} (h : v ∈ x.marked) : v ∈ x.unbound := by
  cases x with
  | purge pc => cases pc <;> first | exact h | cases h
  | checkout | offload | reapIdle | reapUntracked => cases h

/-- The ids of live rows and the claimed spares, against the ids a pass may still kill. -/
def State.purgeCustody (st : State) : Custody (SandboxId ⊕ SandboxId) where
  held := {r | r.elim st.world.store.Live fun v ↦ st.world.claimed v = true}
  doomed := {r | r.elim (fun v ↦ ∃ x ∈ st.tasks, v ∈ x.unbound) fun v ↦ ∃ x ∈ st.tasks, v ∈ x.marked}

theorem State.unbound_of_step (hok : PurgesOffloaded st l) (hs : Step cfg st l st') {x : Task}
    (hx : x ∈ st'.tasks) (hv : v ∈ x.unbound) :
    (∃ y ∈ st.tasks, v ∈ y.unbound) ∨ ¬ st'.world.store.Live v := by
  rcases hs.marks hx hv with hx | ⟨t, a, pc, pc', rfl, ht, rfl, hp⟩
  · exact .inl ⟨x, hx, hv⟩
  rw [purgeStep_frame hp]
  rcases purgeStep_unbound hp hv with h | h | ⟨hsnap, s, r, hr, hoff, rfl⟩
  · exact .inl ⟨_, List.mem_of_getElem? ht, h⟩
  · exact .inr h
  · refine .inr fun ⟨q, z, hz, htier, hid⟩ ↦ ?_
    have hrows := ((hok _ ht).1 hsnap (s, r) (Store.mem_records.mpr hr) hoff).2
    exact hrows (q, z) (Store.mem_records.mpr hz) htier hid

theorem State.marked_of_step (hok : PurgesOffloaded st l) (hs : Step cfg st l st') {x : Task}
    (hx : x ∈ st'.tasks) (hv : v ∈ x.marked) :
    (∃ y ∈ st.tasks, v ∈ y.marked) ∨ ¬ st'.world.claimed v = true := by
  rcases hs.marks hx (Task.unbound_of_marked hv) with hx | ⟨t, a, pc, pc', rfl, ht, rfl, hp⟩
  · exact .inl ⟨x, hx, hv⟩
  rw [purgeStep_frame hp]
  rcases purgeStep_marked hp hv with h | ⟨-, h⟩ | ⟨hsnap, s, r, hr, hoff, rfl⟩
  · exact .inl ⟨_, List.mem_of_getElem? ht, h⟩
  · exact .inr (by simp [h])
  · have hclaim := ((hok _ ht).1 hsnap (s, r) (Store.mem_records.mpr hr) hoff).1
    exact .inr (by simp [hclaim])

theorem State.purgeCustody_step (hoff : ∀ (t : ℕ) (x : Task), st.tasks[t]? = some x → x.Offloads)
    (hok : PurgesOffloaded st l) (hs : Step cfg st l st') :
    Custody.Step st.purgeCustody st'.purgeCustody := by
  refine ⟨fun r hr ↦ ?_, fun r hr ↦ ?_⟩
  · cases r with
    | inl v =>
      rcases hs.live hoff hr with h | ⟨t, a, x, rfl, ht, hbind⟩
      · exact .inl h
      · refine .inr fun ⟨y, hy, hd⟩ ↦ ?_
        rcases State.unbound_of_step hok hs hy hd with ⟨z, hz, hzv⟩ | h
        · exact (hok x ht).2.1 v hbind z hz hzv
        · exact h hr
    | inr v =>
      rcases hs.claimed hr with h | ⟨t, a, x, rfl, ht, hspare⟩
      · exact .inl h
      · refine .inr fun ⟨y, hy, hd⟩ ↦ ?_
        rcases State.marked_of_step hok hs hy hd with ⟨z, hz, hzv⟩ | h
        · exact (hok x ht).2.2 v hspare z hz hzv
        · exact h hr
  · cases r with
    | inl v =>
      obtain ⟨x, hx, hv⟩ := hr
      exact State.unbound_of_step hok hs hx hv
    | inr v =>
      obtain ⟨x, hx, hv⟩ := hr
      exact State.marked_of_step hok hs hx hv

theorem PurgePc.marked_of_victim {pc : PurgePc} (h : pc.victim = some v) : v ∈ pc.marked := by
  cases pc <;> simp_all [PurgePc.victim, PurgePc.marked]

/-- In every run whose purge passes find the VMs of offloaded rows neither live nor claimed, and
where nobody binds or claims a VM a pass still has to visit, only dead VMs are deleted. -/
theorem purge_deletes_dead {w : World} (h : Reaches cfg PurgesOffloaded w st) : st.PurgesDead := by
  have hsafe : st.purgeCustody.Safe := by
    refine Run.custody (I := fun s ↦ ∀ (t : ℕ) (x : Task), s.tasks[t]? = some x → x.Offloads)
      State.purgeCustody h ?_ (fun _ ↦ Reaches.offloads) ?_
    · rintro (v | v) ⟨x, hx, -⟩ <;> simp [State.boot] at hx
    · exact fun _ _ _ hI hok hstep ↦ State.purgeCustody_step hI hok (step_sound hstep)
  intro t pc v ht hv
  have hmem := List.mem_of_getElem? ht
  have hmark := PurgePc.marked_of_victim hv
  refine ⟨hsafe (.inl v) ⟨_, hmem, Task.unbound_of_marked (x := .purge pc) hmark⟩, ?_⟩
  have hfree : ¬ st.world.claimed v = true := hsafe (.inr v) ⟨_, hmem, hmark⟩
  simpa using hfree

def leftoverHost : World :=
  { World.recorded .archived with s3Dump := fun s ↦ if s = app then some ⟨[], 1000⟩ else none }

def purgeSnapshot (t : ℕ) : List Label :=
  runs t [.listing [⟨sb1, vmName app, false⟩], .go, .go, .order [app]]

def State.deletes (st : State) (t : ℕ) (v : SandboxId) : Bool :=
  match st.tasks[t]? with
  | some (.purge pc) => pc.victim = some v
  | _ => false

theorem purge_deletes_dead_run : ∃ st, Reaches .full PurgesOffloaded leftoverHost st ∧
    st.deletes 0 sb1 = true ∧ st.PurgesDead := by
  obtain ⟨st, hr, hst⟩ := Run.exists_of_exec (step .full) PurgesOffloaded (.boot leftoverHost)
    ([.spawn (.purge .list)] ++ purgeSnapshot 0 ++ [.spawn (.checkout app .touch)] ++ goes 1 5 ++
      [.run 0 .go])
    (fun st ↦ st.deletes 0 sb1) (by decide +kernel) (by decide +kernel)
  exact ⟨st, hr, hst, purge_deletes_dead hr⟩

def State.deletesLive (st : State) (t : ℕ) (s : Schema) : Bool :=
  (st.world.store.record s).any fun r ↦ r.tier = .live && st.deletes t r.sandboxId

theorem State.not_purgesDead {t : ℕ} {s : Schema} (h : st.deletesLive t s = true) :
    ¬ st.PurgesDead := by
  obtain ⟨r, hr, hlive⟩ := (Option.any_eq_true _ _).mp h
  simp only [Bool.and_eq_true, decide_eq_true_eq, State.deletes] at hlive
  obtain ⟨htier, hdel⟩ := hlive
  split at hdel
  · rename_i pc ht
    exact fun hdead ↦ (hdead t pc _ ht (of_decide_eq_true hdel)).1 ⟨s, r, hr, htier, rfl⟩
  · cases hdel

/-- A schema restored onto its leftover VM after the snapshot loses the VM to the pass. -/
theorem purge_deletes_live : ∃ st, Reaches .full Always leftoverHost st ∧ ¬ st.PurgesDead := by
  obtain ⟨st, hr, hst⟩ := Run.exists_of_exec (step .full) Always (.boot leftoverHost)
    ([.spawn (.purge .list)] ++ purgeSnapshot 0 ++ [.spawn (.checkout app .touch)] ++ goes 1 5 ++
      [.run 1 (.heads true true)] ++ goes 1 4 ++
      runs 1 [.ok, .ok, .ok, .ok, .ok, .slots 10, .go, .go] ++ [.run 0 .go])
    (fun st ↦ st.deletesLive 0 app) (by decide +kernel) (by decide +kernel)
  exact ⟨st, hr, State.not_purgesDead hst⟩

end Runs

end PgVmPool
