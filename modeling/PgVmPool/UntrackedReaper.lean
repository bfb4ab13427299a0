import PgVmPool.InUse

namespace PgVmPool

open Function Transition

/-- The VM a pass will stop unless its ledger check spares it. -/
def UntrackedPc.dooms (w : World) : UntrackedPc → Option SandboxId
  | .checkArchiving x | .checkPending x =>
    if x.id ∈ x.view.suspects ∧ (w.pending x.schema).map (·.1) ≠ some x.id then some x.id else none
  | .stop x => some x.id
  | _ => none

/-- The schema a pass has found free of offloads before it stops a VM of it. -/
def UntrackedPc.cleared : UntrackedPc → Option Schema
  | .checkPending x => if x.id ∈ x.view.suspects then some x.schema else none
  | .stop x => some x.schema
  | _ => none

def Task.dooms (w : World) : Task → Option SandboxId
  | .reapUntracked pc => pc.dooms w
  | .checkout _ _ | .offload _ _ _ | .reapIdle _ | .purge _ => none

def Task.cleared : Task → Option Schema
  | .reapUntracked pc => pc.cleared
  | .checkout _ _ | .offload _ _ _ | .reapIdle _ | .purge _ => none

/-- The schema whose ledger entry a task is about to drop or replace. -/
def Task.ledger : Task → Option Schema
  | .checkout s (.clearPending _ _ _) => some s
  | .checkout _ (.bringUp _ b (.recordPending _)) | .checkout _ (.bringUp _ b .clearHalfBuilt)
  | .checkout _ (.bringUp _ b (.disposeClear _)) => some b.schema
  | .offload s _ (.bringUp _ _ (.recordPending _)) | .offload s _ (.bringUp _ _ .clearHalfBuilt)
  | .offload s _ (.bringUp _ _ (.disposeClear _)) => some s
  | _ => none

/-- The VM of `s` between a pass's `entries` check and its ledger check that the ledger names. -/
def Task.spares (w : World) (s : Schema) : Task → Option SandboxId
  | .reapUntracked (.checkArchiving x) | .reapUntracked (.checkPending x) =>
    if x.schema = s ∧ x.id ∈ x.view.suspects ∧ (w.pending s).map (·.1) = some x.id then some x.id
    else none
  | _ => none

def State.Suspected (st : State) (v : SandboxId) : Prop := ∃ x ∈ st.tasks, x.dooms st.world = some v

def State.Cleared (st : State) (s : Schema) : Prop := ∃ x ∈ st.tasks, x.cleared = some s

instance (st : State) (v : SandboxId) : Decidable (st.Suspected v) := by
  unfold State.Suspected
  infer_instance

instance (st : State) (s : Schema) : Decidable (st.Cleared s) := by
  unfold State.Cleared
  infer_instance

def Task.checks : Task → Option Scrutiny
  | .reapUntracked (.checkEntries x) => some x
  | _ => none

def Task.claims : Task → Option Schema
  | .offload s _ (.claim _) => some s
  | _ => none

def State.Unsuspected (st : State) (x : Task) : Prop :=
  (∀ y ∈ x.checks, y.id ∈ y.view.suspects → st.InUse y.id →
    (y.superseded = false ∧ y.schema ∈ st.world.entries) ∨
      (st.world.pending y.schema).map (·.1) = some y.id) ∧
  (∀ s ∈ x.claims, ¬ st.Cleared s) ∧
  ∀ s ∈ x.ledger, ∀ y ∈ st.tasks, ∀ v ∈ y.spares st.world s, ¬ st.InUse v

/-- A pass looks up a VM that it has seen before only when every use of the VM shows in the map or
in the ledger; until the VM is stopped or let go no bring-up takes it, no ledger entry of it is
dropped before the ledger check, and no offload claims its schema after the `archiving` check. -/
def ReapsUntracked (st : State) : Label → Prop :=
  OnRun fun t a ↦ (∀ v ∈ st.takes t a, ¬ st.Suspected v) ∧ ∀ x ∈ st.tasks[t]?, st.Unsuspected x

instance (st : State) (x : Task) : Decidable (st.Unsuspected x) :=
  inferInstanceAs (Decidable (_ ∧ _))

instance (st : State) (l : Label) : Decidable (ReapsUntracked st l) :=
  inferInstanceAs (Decidable (OnRun _ l))

/-- When a pass stops a VM no checkout uses it and no offload of its schema is in flight. -/
def State.StopsUntracked (st : State) : Prop :=
  ∀ (t : ℕ) (x : Scrutiny), st.tasks[t]? = some (.reapUntracked (.stop x)) →
    (∀ (j : ℕ) (s : Schema) (ck : CkPc), st.tasks[j]? = some (.checkout s ck) →
      ck.vm st.world ≠ some x.id) ∧
    ∀ (j : ℕ) (y : Task), st.tasks[j]? = some y → y.archives ≠ some x.schema

section Ledger

variable {cfg : Config} {a : Answer} {w w' : World}

def EnsurePc.ledger : EnsurePc → Bool
  | .recordPending _ | .clearHalfBuilt | .disposeClear _ => true
  | _ => false

theorem ensureStep_pending {b : BringUp} {p p' : EnsurePc} (h : ensureStep b w p a = some (w', p'))
    {s : Schema} (hs : w'.pending s ≠ w.pending s) : p.ledger = true ∧ s = b.schema := by
  revert h
  fun_cases ensureStep b w p a <;> intro h <;> (try cases h)
  case case28 | case60 => exact ⟨rfl, by_contra fun hne ↦ hs (update_of_ne hne _ _)⟩
  case case34 =>
    rw [BringUp.dropScratch_frame] at hs
    exact ⟨rfl, by_contra fun hne ↦ hs (update_of_ne hne _ _)⟩
  case case35 | case38 | case51 =>
    obtain ⟨_, -, heq⟩ := Option.map_eq_some_iff.mp h
    cases heq
    exact absurd rfl hs
  all_goals first
    | exact absurd rfl hs
    | (rw [BringUp.dropScratch_frame] at hs; exact absurd rfl hs)

theorem ckStep_pending {t : ℕ} {r : Schema} {pc pc' : CkPc}
    (h : ckStep cfg t r w pc a = some (w', pc')) {s : Schema} (hs : w'.pending s ≠ w.pending s) :
    (Task.checkout r pc).ledger = some s := by
  revert h
  fun_cases ckStep cfg t r w pc a <;> intro h <;> (try cases h)
  case case11 => split at hs <;> exact absurd rfl hs
  case case24 b p _ _ =>
    obtain ⟨x, hx, heq⟩ := Option.map_eq_some_iff.mp h
    cases heq
    obtain ⟨hp, rfl⟩ := ensureStep_pending hx hs
    cases p <;> first | rfl | cases hp
  case case26 => exact congrArg some (by_contra fun hne ↦ hs (update_of_ne (Ne.symm hne) _ _))
  case case27 =>
    rw [World.dropThawed_frame] at hs
    exact absurd rfl hs
  all_goals exact absurd rfl hs

theorem OffMove.pending {r : Schema} {kind : OffloadKind} {pc pc' : OffPc}
    (h : OffMove a r w w' pc pc') {s : Schema} (hs : w'.pending s ≠ w.pending s) :
    (Task.offload r kind pc).ledger = some s := by
  cases h with
  | other hw =>
    rw [hw] at hs
    exact absurd rfl hs
  | @evict x _ h =>
    obtain rfl : (offEvict r x w).1 = w' := by rw [h]
    rw [offEvict_frame] at hs
    exact absurd rfl hs
  | @ensure _ _ p _ h =>
    obtain ⟨hp, rfl⟩ := ensureStep_pending h hs
    cases p <;> first | rfl | cases hp
  | claim _ hw | bind _ hw | flip _ hw | missing _ hw | write _ _ hw =>
    subst hw
    exact absurd rfl hs

theorem offStep_pending {r : Schema} {kind : OffloadKind} {pc pc' : OffPc}
    (h : offStep cfg r kind w pc a = some (w', pc')) {s : Schema} (hs : w'.pending s ≠ w.pending s) :
    (Task.offload r kind pc).ledger = some s := by
  obtain ⟨⟨u, p⟩, hu, heq⟩ := Option.map_eq_some_iff.mp h
  cases heq
  refine (offCore_move hu).pending ?_
  split at hs <;> exact hs

theorem Step.pending {st st' : State} {l : Label} (hs : Step cfg st l st') {s : Schema}
    (hne : st'.world.pending s ≠ st.world.pending s) :
    ∃ t a x, l = .run t a ∧ st.tasks[t]? = some x ∧ x.ledger = some s := by
  cases hs with
  | spawn => exact absurd rfl hne
  | checkout ht hck => exact ⟨_, _, _, rfl, ht, ckStep_pending hck hne⟩
  | offload ht ho => exact ⟨_, _, _, rfl, ht, offStep_pending ho hne⟩
  | reapIdle _ hi => exact absurd (by rw [idleStep_frame hi]) hne
  | reapUntracked _ hu => exact absurd (by rw [untrackedStep_world hu]) hne
  | purge _ hp => exact absurd (by rw [purgeStep_frame hp]) hne
  | outside hw => exact absurd (by rw [worldStep_frame hw]) hne

/-- A task takes no VM in hand while it changes the ledger. -/
theorem State.takes_of_ledger {st : State} {t : ℕ} {x : Task} {s : Schema}
    (ht : st.tasks[t]? = some x) (hx : x.ledger = some s) : st.takes t a = none := by
  simp only [State.takes, ht]
  split
  · rename_i r c b p heq
    cases heq
    cases p <;> cases hx <;> cases a <;> simp [ensureStep, EnsurePc.vm]
  · rfl

end Ledger

section Runs

variable {cfg : Config} {st st' : State} {l : Label}

theorem untrackedStep_dooms {w w' : World} {pc pc' : UntrackedPc} {a : Answer} {v : SandboxId}
    (h : untrackedStep w pc a = some (w', pc')) (hv : pc'.dooms w' = some v) :
    pc.dooms w = some v ∨ ∃ x, pc = .checkEntries x ∧ x.id = v ∧ x.id ∈ x.view.suspects ∧
      (w.pending x.schema).map (·.1) ≠ some x.id ∧ ¬ (x.superseded = false ∧ x.schema ∈ w.entries) := by
  revert h
  fun_cases untrackedStep w pc a <;> intro h <;> cases h
  case case9 x =>
    split at hv
    · cases hv
    · rename_i hx
      simp only [UntrackedPc.dooms, Option.ite_none_right_eq_some, Option.some.injEq] at hv
      obtain ⟨⟨hmem, hpend⟩, rfl⟩ := hv
      exact .inr ⟨x, rfl, rfl, hmem, hpend, fun h ↦ hx h.symm⟩
  case case10 x =>
    split at hv
    · cases hv
    · exact .inl hv
  case case12 x hpend hmem =>
    obtain rfl : x.id = v := by simpa [UntrackedPc.dooms] using hv
    exact .inl (by simp [UntrackedPc.dooms, hmem, hpend])
  all_goals cases hv

theorem Task.dooms_of_step (hsound : st.Sound) (hok : ReapsUntracked st l) (hs : Step cfg st l st')
    {x : Task} (hx : x ∈ st.tasks) {v : SandboxId} (hv : x.dooms st'.world = some v) :
    x.dooms st.world = some v ∨ ¬ st'.InUse v := by
  by_cases hold : x.dooms st.world = some v
  · exact .inl hold
  have hspares : ∃ s, x.spares st.world s = some v ∧ st'.world.pending s ≠ st.world.pending s := by
    cases x with
    | checkout | offload | reapIdle | purge => cases hv
    | reapUntracked pc =>
      cases pc with
      | checkArchiving y | checkPending y =>
        simp only [Task.dooms, UntrackedPc.dooms, Option.ite_none_right_eq_some] at hv hold
        obtain ⟨⟨hmem, hpend⟩, hid⟩ := hv
        obtain rfl := Option.some.inj hid
        have hnow : (st.world.pending y.schema).map (·.1) = some y.id := by
          by_contra hne
          exact hold ⟨⟨hmem, hne⟩, rfl⟩
        refine ⟨y.schema, by simp [Task.spares, hmem, hnow], fun heq ↦ ?_⟩
        exact hpend (by rw [heq, hnow])
      | stop y => exact absurd hv hold
      | list | liveRows | claimedIds | scan | checkEntries | done => cases hv
  obtain ⟨s, hspare, hne⟩ := hspares
  obtain ⟨t, a, z, rfl, ht, hledger⟩ := hs.pending hne
  have hunused := (hok.2 z ht).2.2 s hledger x hx v hspare
  refine .inr fun huse ↦ ?_
  rcases State.InUse.of_step hsound hs huse with h | ⟨t', a', heq, htake⟩
  · exact hunused h
  · cases heq
    simp [State.takes_of_ledger ht hledger] at htake

theorem State.Suspected.of_step (hsound : st.Sound) (hok : ReapsUntracked st l)
    (hs : Step cfg st l st') {v : SandboxId} (hv : st'.Suspected v) :
    st.Suspected v ∨ ¬ st'.InUse v := by
  obtain ⟨x, hx, hd⟩ := hv
  have hold (hx : x ∈ st.tasks) : st.Suspected v ∨ ¬ st'.InUse v :=
    (Task.dooms_of_step hsound hok hs hx hd).imp_left fun h ↦ ⟨x, hx, h⟩
  rcases hs.mem_cases hx with hx | hi | ⟨t, a, y, rfl, ht, hy, -⟩
  · exact hold hx
  · obtain ⟨_, rfl⟩ | ⟨_, _, rfl⟩ | rfl | rfl | rfl := Task.initial_cases hi <;> cases hd
  · cases x with
    | reapUntracked pc' =>
      obtain ⟨pc, rfl, hu⟩ := taskStep_reapUntracked hy
      rcases untrackedStep_dooms hu hd with h | ⟨y, rfl, rfl, hmem, hpend, hmap⟩
      · exact .inl ⟨_, List.mem_of_getElem? ht, h⟩
      · refine .inr fun huse ↦ ?_
        rcases State.InUse.of_step hsound hs huse with h | ⟨t', a', heq, htake⟩
        · exact ((hok.2 _ ht).1 y rfl hmem h).elim hmap hpend
        · cases heq
          simp [State.takes, ht] at htake
    | checkout | offload | reapIdle | purge => cases hd

def State.Archiving (st : State) (s : Schema) : Prop := ∃ x ∈ st.tasks, x.archives = some s

theorem State.Archiving.of_step (hs : Step cfg st l st') {s : Schema} (h : st'.Archiving s) :
    st.Archiving s ∨ ∃ t a x, l = .run t a ∧ st.tasks[t]? = some x ∧ x.claims = some s := by
  obtain ⟨x, hx, ha⟩ := h
  rcases hs.mem_cases hx with hx | hi | ⟨t, a, y, rfl, ht, hy, -⟩
  · exact .inl ⟨x, hx, ha⟩
  · simp [Task.archives_of_initial hi] at ha
  · cases x with
    | offload r kind pc' =>
      obtain ⟨pc, rfl, ho⟩ := taskStep_offload hy
      simp only [Task.archives, Option.ite_none_right_eq_some, Option.some.injEq] at ha
      obtain ⟨hp, rfl⟩ := ha
      rcases offStep_archiving ho with ⟨heq, -⟩ | ⟨⟨r, rfl⟩, -⟩ | ⟨hp', -⟩
      · exact .inl ⟨_, List.mem_of_getElem? ht, by simp [Task.archives, ← heq, hp]⟩
      · exact .inr ⟨t, a, _, rfl, ht, rfl⟩
      · simp [hp] at hp'
    | checkout | reapIdle | reapUntracked | purge => cases ha

theorem untrackedStep_cleared {w w' : World} {pc pc' : UntrackedPc} {a : Answer} {s : Schema}
    (h : untrackedStep w pc a = some (w', pc')) (hs : pc'.cleared = some s) :
    pc.cleared = some s ∨ w.archiving s = false := by
  revert h
  fun_cases untrackedStep w pc a <;> intro h <;> cases h
  case case9 => split at hs <;> cases hs
  case case10 x =>
    split at hs
    · cases hs
    · rename_i harch
      simp only [UntrackedPc.cleared, Option.ite_none_right_eq_some, Option.some.injEq] at hs
      obtain ⟨-, rfl⟩ := hs
      exact .inr (by simpa using harch)
  case case12 x _ hmem =>
    obtain rfl : x.schema = s := by simpa [UntrackedPc.cleared] using hs
    exact .inl (by simp [UntrackedPc.cleared, hmem])
  all_goals cases hs

theorem State.Cleared.of_step (hex : st.Exclusive) (hs : Step cfg st l st') {s : Schema}
    (h : st'.Cleared s) : st.Cleared s ∨ ¬ st'.Archiving s := by
  obtain ⟨x, hx, hc⟩ := h
  rcases hs.mem_cases hx with hx | hi | ⟨t, a, y, rfl, ht, hy, -⟩
  · exact .inl ⟨x, hx, hc⟩
  · obtain ⟨_, rfl⟩ | ⟨_, _, rfl⟩ | rfl | rfl | rfl := Task.initial_cases hi <;> cases hc
  · cases x with
    | reapUntracked pc' =>
      obtain ⟨pc, rfl, hu⟩ := taskStep_reapUntracked hy
      rcases untrackedStep_cleared hu hc with h | harch
      · exact .inl ⟨_, List.mem_of_getElem? ht, h⟩
      · refine .inr fun hheld ↦ ?_
        rcases State.Archiving.of_step hs hheld with ⟨y, hy, hya⟩ | ⟨t', a', z, heq, hz, hzc⟩
        · obtain ⟨j, hj⟩ := List.getElem?_of_mem hy
          simp [(hex j y s hj hya).1] at harch
        · cases heq
          cases ht.symm.trans hz
          cases hzc
    | checkout | offload | reapIdle | purge => cases hc

/-- VMs are used by checkouts and stopped by passes; schemas are held by offloads and relied on by
passes. -/
def State.untrackedCustody (st : State) : Custody (SandboxId ⊕ Schema) where
  held := {r | r.elim st.InUse st.Archiving}
  doomed := {r | r.elim st.Suspected st.Cleared}

theorem State.untrackedCustody_step (hsound : st.Sound) (hex : st.Exclusive)
    (hok : ReapsUntracked st l) (hs : Step cfg st l st') :
    Custody.Step st.untrackedCustody st'.untrackedCustody := by
  refine ⟨fun r hr ↦ ?_, fun r hr ↦ ?_⟩
  · cases r with
    | inl v =>
      rcases State.InUse.of_step hsound hs hr with h | ⟨t, a, rfl, htake⟩
      · exact .inl h
      · refine .inr fun hd ↦ ?_
        exact (State.Suspected.of_step hsound hok hs hd).elim (hok.1 v htake) fun h ↦ h hr
    | inr s =>
      rcases State.Archiving.of_step hs hr with h | ⟨t, a, x, rfl, ht, hclaim⟩
      · exact .inl h
      · refine .inr fun hd ↦ ?_
        exact (State.Cleared.of_step hex hs hd).elim ((hok.2 x ht).2.1 s hclaim) fun h ↦ h hr
  · cases r with
    | inl v => exact State.Suspected.of_step hsound hok hs hr
    | inr s => exact State.Cleared.of_step hex hs hr

/-- In every run whose passes see every use of the VMs they suspect, and whose bring-ups, ledger
writes and offloads keep off these VMs until they are stopped, no VM in use is stopped. -/
theorem reap_untracked_stops_unused {w : World} (h : Reaches cfg ReapsUntracked w st) :
    st.StopsUntracked := by
  have hsafe : st.untrackedCustody.Safe := by
    refine Run.custody (I := fun s ↦ s.Sound ∧ s.Exclusive) State.untrackedCustody h ?_
      (fun _ hr ↦ ⟨Reaches.sound hr, Reaches.exclusive hr⟩) ?_
    · rintro (v | s) ⟨x, hx, -⟩ <;> simp [State.boot] at hx
    · exact fun _ _ _ hI hok hstep ↦ State.untrackedCustody_step hI.1 hI.2 hok (step_sound hstep)
  intro t x ht
  have hx := List.mem_of_getElem? ht
  refine ⟨fun j s ck hj hv ↦ ?_, fun j y hj hy ↦ ?_⟩
  · refine hsafe (.inl x.id) ⟨_, hx, rfl⟩ ?_
    exact .inl ⟨_, List.mem_of_getElem? hj, CkPc.reach_of_vm hv⟩
  · exact hsafe (.inr x.schema) ⟨_, hx, rfl⟩ ⟨y, List.mem_of_getElem? hj, hy⟩

def leftover : List Info := [⟨sb2, vmName app, true⟩]

def untrackedPass (t : ℕ) : List Label := runs t [.listing leftover, .order [app]] ++ goes t 5

def State.stoppingUntracked (st : State) (t j : ℕ) : Bool :=
  match st.tasks[t]?, st.tasks[j]? with
  | some (.reapUntracked (.stop x)), some (.checkout s _) => x.schema = s
  | _, _ => false

theorem reap_untracked_stops_unused_run :
    ∃ st, Reaches .full ReapsUntracked (.recorded .archived) st ∧
      st.stoppingUntracked 0 1 = true ∧ st.StopsUntracked := by
  obtain ⟨st, hr, hst⟩ := Run.exists_of_exec (step .full) ReapsUntracked (.boot (.recorded .archived))
    ([.spawn (.reapUntracked (.list []))] ++ untrackedPass 0 ++ goes 0 2 ++
      [.spawn (.checkout app .touch)] ++ goes 1 5 ++ untrackedPass 0)
    (fun st ↦ st.stoppingUntracked 0 1) (by decide +kernel) (by decide +kernel)
  exact ⟨st, hr, hst, reap_untracked_stops_unused hr⟩

def State.stopsUntrackedUnder (st : State) (t j : ℕ) : Bool :=
  match st.tasks[t]?, st.tasks[j]? with
  | some (.reapUntracked (.stop x)), some (.checkout _ ck) => ck.vm st.world = some x.id
  | _, _ => false

theorem State.not_stopsUntracked {t j : ℕ} (h : st.stopsUntrackedUnder t j = true) :
    ¬ st.StopsUntracked := by
  unfold State.stopsUntrackedUnder at h
  split at h
  · rename_i x s ck ht hj
    exact fun hun ↦ (hun t x ht).1 j s ck hj (of_decide_eq_true h)
  · cases h

/-- A restore that reuses a leftover found by name is stopped in the middle. -/
theorem reap_untracked_stops_restore :
    ∃ st, Reaches .full Always (.recorded .archived) st ∧ ¬ st.StopsUntracked := by
  obtain ⟨st, hr, hst⟩ := Run.exists_of_exec (step .full) Always (.boot (.recorded .archived))
    ([.spawn (.reapUntracked (.list []))] ++ untrackedPass 0 ++ goes 0 2 ++
      [.spawn (.checkout app .touch)] ++ goes 1 5 ++ [.run 1 (.heads false false)] ++ goes 1 4 ++
      runs 1 [.listing leftover, .ok, .ok, .ok, .ok] ++ untrackedPass 0)
    (fun st ↦ st.stopsUntrackedUnder 0 1) (by decide +kernel) (by decide +kernel)
  exact ⟨st, hr, State.not_stopsUntracked hst⟩

end Runs

end PgVmPool
