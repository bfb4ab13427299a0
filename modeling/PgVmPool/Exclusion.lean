import PgVmPool.Guards

namespace PgVmPool

open Function Transition

/-- A checkout of `s` past its `archiving` test is counted at the entry in the map. -/
def Task.settled (w : World) (s : Schema) : Task → Bool
  | .checkout r pc =>
    r ≠ s || (!pc.inFlight && pc.guard.all fun e ↦ (w.entries.lookup s).map w.cells = some (.full e))
  | .offload _ _ _ | .reapIdle _ | .reapUntracked _ | .purge _ => true

def Task.evicts : Task → Option Schema
  | .offload s _ (.evict _) => some s
  | _ => none

/-- An offload reaches its critical section only when every checkout of its schema that is past
its `archiving` test is counted at the entry in the map. -/
def EvictsSettled (st : State) : Label → Prop :=
  OnRun fun t _ ↦ ∀ x ∈ st.tasks[t]?, ∀ s ∈ x.evicts, ∀ y ∈ st.tasks, y.settled st.world s = true

instance (st : State) (l : Label) : Decidable (EvictsSettled st l) :=
  inferInstanceAs (Decidable (OnRun _ l))

/-- While an offload is past its critical section no checkout of its schema has a guard on the VM
it reads and deletes, and no checkout step changes the schema's tier. -/
def State.OffloadAlone (cfg : Config) (st : State) : Prop :=
  ∀ (t j : ℕ) (s : Schema) (kind : OffloadKind) (pc : OffPc) (ck : CkPc),
    st.tasks[t]? = some (.offload s kind pc) → pc.past = true →
    st.tasks[j]? = some (.checkout s ck) →
      (∀ e, ck.guard = some e → pc.target ≠ some (st.world.ents e).sandbox) ∧
      ∀ a w' ck', ckStep cfg j s st.world ck a = some (w', ck') →
        w'.store.tierOf s = st.world.store.tierOf s

section Steps

variable {cfg : Config} {t : ℕ} {s : Schema} {w w' : World} {a : Answer}

theorem ckStep_shut {pc pc' : CkPc} (h : ckStep cfg t s w pc a = some (w', pc'))
    (hs : w.archiving s = true) (hp : pc.inFlight = false) (hg : pc.guard = none) :
    pc'.inFlight = false ∧ pc'.guard = none := by
  revert h
  fun_cases ckStep cfg t s w pc a <;> intro h <;> (try cases h)
  case case2 => simp [hs, CkPc.inFlight, CkPc.guard]
  case case24 => simp [CkPc.inFlight] at hp
  all_goals simp_all [CkPc.inFlight, CkPc.guard]

theorem ckStep_tierOf {pc pc' : CkPc} (h : ckStep cfg t s w pc a = some (w', pc'))
    (hp : pc.inFlight = false) : w'.store.tierOf s = w.store.tierOf s := by
  revert h
  fun_cases ckStep cfg t s w pc a <;> intro h <;> (try cases h)
  case case1 => exact Store.tierOf_touch _ _ _ _
  case case11 => split <;> rfl
  case case24 | case25 | case27 => simp [CkPc.inFlight] at hp
  all_goals rfl

theorem offEvict_past {r : Route} (hp : (offEvict s r w).2.past = true) {e : ℕ}
    (he : (w.entries.lookup s).map w.cells = some (.full e)) : (w.ents e).active = 0 := by
  simp only [offEvict, he] at hp
  split at hp
  · cases hp
  · rename_i hr
    exact Nat.eq_zero_of_not_pos fun hpos ↦ hr (.inr hpos)

theorem OffMove.past {pc pc' : OffPc} (h : OffMove a s w w' pc pc') (hp : pc'.past = true) :
    pc.past = true ∨ ∃ r, pc = .evict r ∧
      ∀ e, (w.entries.lookup s).map w.cells = some (.full e) → (w.ents e).active = 0 := by
  cases h with
  | other _ _ past => exact .inl (past hp)
  | @claim r => cases r <;> cases hp
  | @evict r _ h =>
    obtain rfl : (offEvict s r w).2 = pc' := by rw [h]
    exact .inr ⟨r, rfl, fun e ↦ offEvict_past hp⟩
  | ensure | bind => exact .inl rfl
  | flip | missing | write => exact .inl hp

end Steps

section Runs

variable {cfg : Config} {st st' : State} {l : Label}

/-- No checkout of `s` holds a guard or is on its way to one. -/
def State.Shut (st : State) (s : Schema) : Prop :=
  ∀ (j : ℕ) (ck : CkPc), st.tasks[j]? = some (.checkout s ck) → ck.inFlight = false ∧ ck.guard = none

def State.Fenced (st : State) : Prop :=
  ∀ (t : ℕ) (s : Schema) (kind : OffloadKind) (pc : OffPc),
    st.tasks[t]? = some (.offload s kind pc) → pc.past = true → st.Shut s

theorem OffPc.holds_of_past {pc : OffPc} (h : pc.past = true) : pc.holds = true := by
  cases pc <;> simp_all [OffPc.past, OffPc.holds]

theorem State.Sound.shut_of_settled (h : st.Sound) {s : Schema}
    (hs : ∀ x ∈ st.tasks, x.settled st.world s = true)
    (hidle : ∀ e, (st.world.entries.lookup s).map st.world.cells = some (.full e) →
      (st.world.ents e).active = 0) : st.Shut s := by
  intro j ck hj
  have hck := hs _ (List.mem_of_getElem? hj)
  simp only [Task.settled, ne_eq, not_true_eq_false, decide_false, Bool.false_or, Bool.and_eq_true,
    Bool.not_eq_true'] at hck
  refine ⟨hck.1, ?_⟩
  cases hg : ck.guard with
  | none => rfl
  | some e =>
    have hfull : (st.world.entries.lookup s).map st.world.cells = some (.full e) := by
      simpa [hg] using hck.2
    exact absurd (hidle e hfull) (h.active_pos hj hg).ne'

theorem State.Shut.set {s : Schema} (h : st.Shut s) {w' : World} {t : ℕ} {x : Task}
    (hx : ∀ ck, x ≠ .checkout s ck) : State.Shut ⟨w', st.tasks.set t x⟩ s := by
  intro j ck hj
  rcases getElem?_set_cases hj with ⟨-, rfl⟩ | ⟨-, hj⟩
  · exact absurd rfl (hx ck)
  · exact h j ck hj

theorem State.Fenced.set (h : st.Fenced) {w' : World} {t : ℕ} {x : Task}
    (hx : ∀ s ck, x ≠ .checkout s ck) (hx' : ∀ s kind pc, x ≠ .offload s kind pc) :
    State.Fenced ⟨w', st.tasks.set t x⟩ := by
  intro i s kind pc hi hp
  rcases getElem?_set_cases hi with ⟨-, rfl⟩ | ⟨-, hi⟩
  · exact absurd rfl (hx' s kind pc)
  · exact (h i s kind pc hi hp).set (hx s)

theorem State.Fenced.spawn (h : st.Fenced) {x : Task} (hx : x.initial = true) :
    State.Fenced ⟨st.world, st.tasks ++ [x]⟩ := by
  intro i s kind pc hi hp j ck hj
  rcases getElem?_append_cases hi with ⟨-, rfl⟩ | hi
  · cases Task.eq_begin_of_initial hx
    cases hp
  · rcases getElem?_append_cases hj with ⟨-, rfl⟩ | hj
    · cases Task.eq_touch_of_initial hx
      exact ⟨rfl, rfl⟩
    · exact h i s kind pc hi hp j ck hj

theorem State.Fenced.checkout (h : st.Fenced) (hex : st.Exclusive) {t : ℕ} {a : Answer} {s : Schema}
    {ck ck' : CkPc} {w' : World} (ht : st.tasks[t]? = some (.checkout s ck))
    (hck : ckStep cfg t s st.world ck a = some (w', ck')) :
    State.Fenced ⟨w', st.tasks.set t (.checkout s ck')⟩ := by
  intro i r kind pc hi hp j c hj
  obtain ⟨-, heq⟩ | ⟨-, hoff⟩ := getElem?_set_cases hi
  · cases heq
  obtain ⟨rfl, heq⟩ | ⟨-, hj⟩ := getElem?_set_cases hj
  · cases heq
    have hmark : st.world.archiving s = true :=
      (hex i _ s hoff (by simp [Task.archives, OffPc.holds_of_past hp])).1
    obtain ⟨hfl, hg⟩ := h i s kind pc hoff hp j ck ht
    exact ckStep_shut hck hmark hfl hg
  · exact h i r kind pc hoff hp j c hj

theorem State.Fenced.offload (h : st.Fenced) (hsound : st.Sound) {t : ℕ} {a : Answer} {s : Schema}
    {kind : OffloadKind} {pc pc' : OffPc} {w' : World} (hok : EvictsSettled st (.run t a))
    (ht : st.tasks[t]? = some (.offload s kind pc))
    (ho : offStep cfg s kind st.world pc a = some (w', pc')) :
    State.Fenced ⟨w', st.tasks.set t (.offload s kind pc')⟩ := by
  obtain ⟨⟨u, p⟩, hu, heq⟩ := Option.map_eq_some_iff.mp ho
  cases heq
  intro i r k q hi hp
  rcases getElem?_set_cases hi with ⟨-, heq⟩ | ⟨-, hi⟩
  · cases heq
    refine State.Shut.set ?_ (by simp)
    rcases (offCore_move hu).past hp with hp | ⟨r, rfl, hidle⟩
    · exact h t s kind pc ht hp
    · exact hsound.shut_of_settled (hok _ ht s rfl) hidle
  · exact (h i r k q hi hp).set (by simp)

theorem State.Fenced.step (h : st.Fenced) (hsound : st.Sound) (hex : st.Exclusive)
    (hok : EvictsSettled st l) (hs : Step cfg st l st') : st'.Fenced := by
  cases hs with
  | spawn hx => exact h.spawn hx
  | checkout ht hck => exact h.checkout hex ht hck
  | offload ht ho => exact h.offload hsound hok ht ho
  | reapIdle | reapUntracked | purge => exact h.set (by simp) (by simp)
  | outside hw => exact h

/-- In every run whose offloads reach their critical section only when the checkouts of the schema
are counted in the map, an offload is alone with its VM and its row. -/
theorem offload_alone {w : World} (h : Reaches cfg EvictsSettled w st) : st.OffloadAlone cfg := by
  have hfenced : st.Fenced := by
    refine Run.invariant_of (J := fun s ↦ s.Sound ∧ s.Exclusive) h
      (fun _ hr ↦ ⟨Reaches.sound hr, Reaches.exclusive hr⟩) ?_ ?_
    · intro t s kind pc ht
      simp [State.boot] at ht
    · intro a l b ha hJ _ hok hstep
      exact ha.step hJ.1 hJ.2 hok (step_sound hstep)
  intro t j s kind pc ck ht hp hj
  obtain ⟨hfl, hg⟩ := hfenced t s kind pc ht hp j ck hj
  exact ⟨by simp [hg], fun a w' ck' hck ↦ ckStep_tierOf hck hfl⟩

def State.offloading (st : State) (t j : ℕ) : Bool :=
  match st.tasks[t]?, st.tasks[j]? with
  | some (.offload s _ pc), some (.checkout r _) => s = r && pc.past
  | _, _ => false

theorem offload_alone_run : ∃ st, Reaches .full EvictsSettled (.recorded .live) st ∧
    st.offloading 1 2 = true ∧ st.OffloadAlone .full := by
  obtain ⟨st, hr, hst⟩ := Run.exists_of_exec (step .full) EvictsSettled (.boot (.recorded .live))
    ([.spawn (.checkout app .touch)] ++ goes 0 8 ++ attaches 0 ++ goes 0 6 ++
      [.spawn (.offload app .archive .begin)] ++ goes 1 5 ++
      [.spawn (.checkout app .touch)] ++ goes 2 2 ++ attaches 1)
    (fun st ↦ st.offloading 1 2) (by decide +kernel) (by decide +kernel)
  exact ⟨st, hr, hst, offload_alone hr⟩

def State.clashes (st : State) (t j : ℕ) : Bool :=
  match st.tasks[t]?, st.tasks[j]? with
  | some (.offload s _ pc), some (.checkout r ck) =>
    s = r && pc.past && ck.guard.any fun e ↦ pc.target = some (st.world.ents e).sandbox
  | _, _ => false

theorem State.not_offloadAlone_of_clashes {t j : ℕ} (h : st.clashes t j = true) :
    ¬ st.OffloadAlone cfg := by
  unfold State.clashes at h
  split at h
  · rename_i s kind pc r ck ht hj
    simp only [Bool.and_eq_true, decide_eq_true_eq, Option.any_eq_true] at h
    obtain ⟨⟨rfl, hp⟩, e, he, htarget⟩ := h
    exact fun halone ↦ (halone t j s kind pc ck ht hp hj).1 e he htarget
  · cases h

/-- A checkout in its bring-up is invisible to the critical section: both end up on one VM. -/
theorem offload_not_alone : ∃ st, Reaches .full Always (.recorded .live) st ∧
    ¬ st.OffloadAlone .full := by
  obtain ⟨st, hr, hst⟩ := Run.exists_of_exec (step .full) Always (.boot (.recorded .live))
    ([.spawn (.checkout app .touch)] ++ goes 0 8 ++ [.spawn (.offload app .archive .begin)] ++
      goes 1 5 ++ attaches 0 ++ attaches 1 ++ goes 0 5)
    (fun st ↦ st.clashes 1 0) (by decide +kernel) (by decide +kernel)
  exact ⟨st, hr, State.not_offloadAlone_of_clashes hst⟩

end Runs

end PgVmPool
