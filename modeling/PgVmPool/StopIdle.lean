import PgVmPool.Dashboard

namespace PgVmPool

open Function Transition

def OffPc.dumping : OffPc → Option SandboxId
  | .dump _ id => some id
  | _ => none

/-- The VM that a task must not lose: a client is served there, an unset cell is brought up with it,
or an offload dumps it. -/
def Task.occupies (w : World) : Task → Option SandboxId
  | .checkout _ (.bringUp _ _ p) => p.vm
  | .checkout _ pc => pc.guard.map fun e ↦ (w.ents e).sandbox
  | .offload _ _ pc => pc.dumping
  | .reapIdle _ | .reapUntracked _ | .purge _ => none

/-- The VM of a schema, by its row or by its warm entry. -/
def World.Belongs (w : World) (s : Schema) (v : SandboxId) : Prop :=
  w.store.idOf s = some v ∨ ∃ c, w.entries.lookup s = some c ∧ (w.cells c).vm w = some v

def State.Kept (cfg : Config) (st : State) (v : SandboxId) : Prop :=
  (∃ r ∈ st.world.store.records, cfg.keepalive r.1 = true ∧ r.2.sandboxId = v) ∨
    ∃ p ∈ st.world.entries.entries, cfg.keepalive p.1 = true ∧ (st.world.cells p.2).vm st.world = some v

def State.Wanted (cfg : Config) (st : State) (v : SandboxId) : Prop :=
  (∃ x ∈ st.tasks, x.occupies st.world = some v) ∨ st.Kept cfg v

instance (cfg : Config) (st : State) (v : SandboxId) : Decidable (st.Wanted cfg v) := by
  unfold State.Wanted State.Kept
  infer_instance

/-- The VM that a task takes up when it resumes with `a`, or is about to give to a keep-alive schema. -/
def Task.takesUp (cfg : Config) (w : World) (a : Answer) : Task → Option SandboxId
  | .checkout _ (.admitWarm _ e) | .checkout _ (.admitCold e) =>
    if a = .go then some (w.ents e).sandbox else none
  | .checkout _ (.bringUp _ b p) =>
    (ensureStep b w p a).bind fun r ↦ if r.2.vm = p.vm then none else r.2.vm
  | .checkout s (.recordBinding e _) => if cfg.keepalive s then some (w.ents e).sandbox else none
  | .offload _ _ (.bringUp _ _ (.ok id _)) => some id
  | .offload s _ (.ensureRow id) => if cfg.keepalive s then some id else none
  | _ => none

def chosen (rows : List VmRow) : List VmRow := rows.filter (!·.skipped)

def Act.queue : Act → List VmRow
  | .stopIdle (.rows (.rows rows)) | .stopIdle (.visit rows) => chosen rows
  | .stopIdle (.stop r rows) => r :: chosen rows
  | _ => []

def Dash.Doomed (d : Dash) (v : SandboxId) : Prop := ∃ x ∈ d.acts, ∃ r ∈ x.queue, r.id = v

def Dash.DoomedOf (d : Dash) (s : Schema) : Prop := ∃ x ∈ d.acts, ∃ r ∈ x.queue, r.schema = some s

instance (d : Dash) (v : SandboxId) : Decidable (d.Doomed v) := by
  unfold Dash.Doomed
  infer_instance

/-- The inventory and the warm entries that a bulk stop is about to join. -/
def Act.joins : Act → Option (List Info × List EntrySnapshot)
  | .stopIdle (.rows (.records list snap)) => some (list, snap)
  | _ => none

/-- The VM has a warm entry, and the entry that the join takes shows why it must not be stopped. -/
def Shown (snap : List EntrySnapshot) (v : SandboxId) : Prop :=
  ∃ e ∈ (snapById snap).lookup v, e.keepalive = true ∨ 0 < e.active

instance (snap : List EntrySnapshot) (v : SandboxId) : Decidable (Shown snap v) :=
  inferInstanceAs (Decidable (∃ _ ∈ _, _))

/-- A bulk stop joins its inventory when every running VM in it that is wanted, or that the join gives
to a keep-alive schema, shows it; and until it has stopped a VM nobody takes the VM up. -/
def StopsUnwanted (cfg : Config) (d : Dash) : DashLabel → Prop
  | .sys l =>
    OnRun (fun t a ↦ ∀ x ∈ d.sys.tasks[t]?, ∀ v ∈ x.takesUp cfg d.sys.world a, ¬ d.Doomed v) l
  | .act k (.order keys) => ∀ x ∈ d.acts[k]?, ∀ j ∈ x.joins, ∀ i ∈ j.1, i.running = true →
    (d.sys.Wanted cfg i.id ∨
      ∃ s ∈ joinSchema (snapById j.2) (storeById (d.sys.world.store.recordsIn keys)) i,
        cfg.keepalive s = true) → Shown j.2 i.id
  | .act _ _ | .post _ | .refresh _ => True

instance (cfg : Config) (d : Dash) : (l : DashLabel) → Decidable (StopsUnwanted cfg d l)
  | .sys l => inferInstanceAs (Decidable (OnRun _ l))
  | .act k a => by
    unfold StopsUnwanted
    cases a <;> infer_instance
  | .post _ | .refresh _ => isTrue trivial

/-- At the moment of a bulk stop its VM serves no `ConnGuard`, no bring-up of an unset cell has it in
hand, no offload dumps it, and it is no keep-alive schema's. -/
def Dash.StopsSpare (cfg : Config) (d : Dash) : Prop :=
  ∀ (k : ℕ) (r : VmRow) (rows : List VmRow), d.acts[k]? = some (.stopIdle (.stop r rows)) →
    (∀ (t : ℕ) (s : Schema) (ck : CkPc), d.sys.tasks[t]? = some (.checkout s ck) →
      (∀ e, ck.guard = some e → (d.sys.world.ents e).sandbox ≠ r.id) ∧
        ∀ c b p, ck = .bringUp c b p → p.vm ≠ some r.id) ∧
    (∀ (t : ℕ) (s : Schema) (kind : OffloadKind) (route : Route) (id : SandboxId),
      d.sys.tasks[t]? = some (.offload s kind (.dump route id)) → id ≠ r.id) ∧
    ∀ s, r.schema = some s ∨ d.sys.world.Belongs s r.id → cfg.keepalive s = false

section Steps

variable {cfg : Config} {st st' : State} {l : Label} {v : SandboxId} {a : Answer} {t : ℕ} {s : Schema}
  {w w' : World}

theorem taskStep_checkout {y : Task} {pc' : CkPc}
    (h : taskStep cfg t w a y = some (w', .checkout s pc')) :
    ∃ pc, y = .checkout s pc ∧ ckStep cfg t s w pc a = some (w', pc') := by
  cases y <;> obtain ⟨_, hp, heq⟩ := Option.map_eq_some_iff.mp h <;> cases heq
  exact ⟨_, rfl, hp⟩

theorem occupies_checkout {pc : CkPc} : (Task.checkout s pc).occupies w = some v ↔
    (∃ e, pc.guard = some e ∧ (w.ents e).sandbox = v) ∨
      ∃ c b p, pc = .bringUp c b p ∧ p.vm = some v := by
  cases pc with
  | bringUp => simp [Task.occupies, CkPc.guard]
  | _ => simp [Task.occupies, Option.map_eq_some_iff]

theorem ckStep_guard {pc pc' : CkPc} {e : ℕ} (h : ckStep cfg t s w pc a = some (w', pc'))
    (hg : pc'.guard = some e) : pc.guard = some e ∨ pc.admits = some e ∧ a = .go := by
  have hadmits (hn : pc.guard = none) : pc.admits = some e ∧ a = .go :=
    ⟨(ckStep_admits h hn hg).1, (ckStep_admits h hn hg).2.1⟩
  cases ckStep_move h with
  | keep _ guard => exact .inl (guard ▸ hg)
  | acquire _ hn => exact .inr (hadmits hn)
  | release _ _ guard' => cases guard'.symm.trans hg
  | ensure | miss | warm | evict | start | fill | reset => cases hg

theorem ckStep_bringUp {pc : CkPc} {c : ℕ} {b : BringUp} {p' : EnsurePc}
    (h : ckStep cfg t s w pc a = some (w', .bringUp c b p')) (hv : p'.vm = some v) :
    ∃ p, pc = .bringUp c b p ∧ ensureStep b w p a = some (w', p') := by
  cases ckStep_move h with
  | keep _ _ _ _ _ fresh => exact absurd rfl (fresh c b p')
  | ensure h => exact ⟨_, rfl, h⟩
  | acquire _ _ entry' => cases entry'
  | release _ _ _ _ reach => cases hv.symm.trans reach
  | start => cases hv

theorem offEvict_dumping (s : Schema) (r : Route) (w : World) : (offEvict s r w).2.dumping = none := by
  unfold offEvict
  cases r <;> (split <;> (try split) <;> rfl)

theorem offCore_dumping {kind : OffloadKind} {pc pc' : OffPc}
    (h : offCore cfg s kind w pc a = some (w', pc')) (hv : pc'.dumping = some v) :
    ∃ r known n, pc = .bringUp r known (.ok v n) := by
  revert h
  fun_cases offCore cfg s kind w pc a <;> intro h <;> (try cases h) <;> (try cases hv)
  case case1 =>
    rcases offBegin_cases cfg (w.store.tierOf s) kind with heq | ⟨_, heq⟩ | ⟨_, heq⟩ <;>
      (rw [heq] at hv; cases hv)
  case case5 r _ => cases r <;> cases hv
  case case6 r =>
    obtain rfl : (offEvict s r w).2 = pc' := by rw [Option.some.inj h]
    cases (offEvict_dumping s r w).symm.trans hv
  case case10 => exact ⟨_, _, _, rfl⟩
  case case12 =>
    obtain ⟨_, -, heq⟩ := Option.map_eq_some_iff.mp h
    cases heq
    cases hv
  case case15 r known | case19 r known =>
    rcases imageFallback_cases cfg r known with heq | ⟨_, -, heq⟩ <;> (rw [heq] at hv; cases hv)
  case case27 r id | case28 r id =>
    rcases imageFallback_cases cfg r (some id) with heq | ⟨_, -, heq⟩ <;> (rw [heq] at hv; cases hv)
  case case20 | case21 | case23 | case33 | case36 | case41 | case45 =>
    obtain ⟨_, -, heq⟩ := Option.map_eq_some_iff.mp h
    (try split at heq) <;> cases heq <;> cases hv
  all_goals split at hv <;> cases hv

theorem Step.occupies (hsound : st.Sound) (hs : Step cfg st l st') {x : Task} (hx : x ∈ st'.tasks)
    (hv : x.occupies st'.world = some v) : (∃ y ∈ st.tasks, y.occupies st.world = some v) ∨
      ∃ t a y, l = .run t a ∧ st.tasks[t]? = some y ∧ y.takesUp cfg st.world a = some v := by
  have hguard {t : ℕ} {s : Schema} {pc : CkPc} {e : ℕ} (ht : st.tasks[t]? = some (.checkout s pc))
      (he : pc.entry = some e) : (st'.world.ents e).sandbox = (st.world.ents e).sandbox :=
    hs.sandbox ((hsound.fits t _ ht).1.2 e he)
  rcases hs.mem_cases hx with hx | hi | ⟨t, a, y, rfl, ht, hy, -⟩
  · refine .inl ⟨x, hx, ?_⟩
    obtain ⟨t, ht⟩ := List.getElem?_of_mem hx
    cases x with
    | checkout s pc =>
      rcases occupies_checkout.mp hv with ⟨e, he, rfl⟩ | hbring
      · exact occupies_checkout.mpr (.inl ⟨e, he, (hguard ht (CkPc.entry_of_guard he)).symm⟩)
      · exact occupies_checkout.mpr (.inr hbring)
    | offload => exact hv
    | reapIdle | reapUntracked | purge => cases hv
  · obtain ⟨_, rfl⟩ | ⟨_, _, rfl⟩ | rfl | rfl | rfl := Task.initial_cases hi <;> cases hv
  · cases x with
    | checkout s pc' =>
      obtain ⟨pc, rfl, hck⟩ := taskStep_checkout hy
      rcases occupies_checkout.mp hv with ⟨e, he, rfl⟩ | ⟨c, b, p', rfl, hp⟩
      · rcases ckStep_guard hck he with hg | ⟨hadm, rfl⟩
        · refine .inl ⟨_, List.mem_of_getElem? ht, occupies_checkout.mpr (.inl ⟨e, hg, ?_⟩)⟩
          exact (hguard ht (CkPc.entry_of_guard hg)).symm
        · refine .inr ⟨t, _, _, rfl, ht, ?_⟩
          cases pc <;> cases hadm <;> exact congrArg some (hguard ht rfl).symm
      · obtain ⟨p, rfl, hstep⟩ := ckStep_bringUp hck hp
        by_cases hpv : p.vm = some v
        · exact .inl ⟨_, List.mem_of_getElem? ht, hpv⟩
        · refine .inr ⟨t, a, _, rfl, ht, ?_⟩
          simp only [Task.takesUp, hstep, Option.bind_some, hp]
          rw [if_neg (Ne.symm hpv)]
    | offload s kind pc' =>
      obtain ⟨pc, rfl, ho⟩ := taskStep_offload hy
      obtain ⟨u, hu, -⟩ := offStep_eq ho
      obtain ⟨r, known, n, rfl⟩ := offCore_dumping hu hv
      exact .inr ⟨t, a, _, rfl, ht, rfl⟩
    | reapIdle | reapUntracked | purge => cases hv

theorem State.kept_iff : st.Kept cfg v ↔ ∃ s, cfg.keepalive s = true ∧ st.world.Belongs s v := by
  constructor
  · rintro (⟨⟨s, r⟩, hr, hkeep, rfl⟩ | ⟨⟨s, c⟩, hc, hkeep, hv⟩)
    · exact ⟨s, hkeep, .inl (by simp [Store.idOf, Store.mem_records.mp hr])⟩
    · exact ⟨s, hkeep, .inr ⟨c, AList.mem_lookup_iff.mpr hc, hv⟩⟩
  · rintro ⟨s, hkeep, hid | ⟨c, hc, hv⟩⟩
    · obtain ⟨r, hr, rfl⟩ := Option.map_eq_some_iff.mp hid
      exact .inl ⟨(s, r), Store.mem_records.mpr hr, hkeep, rfl⟩
    · exact .inr ⟨⟨s, c⟩, AList.mem_lookup_iff.mp hc, hkeep, hv⟩

theorem Step.belongs (hsound : st.Sound) (hs : Step cfg st l st') (hkeep : cfg.keepalive s = true)
    (hv : st'.world.Belongs s v) : st.Wanted cfg v ∨
      ∃ t a x, l = .run t a ∧ st.tasks[t]? = some x ∧ x.takesUp cfg st.world a = some v := by
  have hold (h : st.world.Belongs s v) : st.Wanted cfg v := .inr (State.kept_iff.mpr ⟨s, hkeep, h⟩)
  have hshrinks (hw : st.world.Shrinks st'.world) {c : ℕ} (hc : st'.world.entries.lookup s = some c)
      (hv : (st'.world.cells c).vm st'.world = some v) : st.Wanted cfg v :=
    hold (.inr ⟨c, hw.entries s c hc, by rwa [hw.cells, hw.vm] at hv⟩)
  rcases hv with hid | ⟨c, hc, hv⟩
  · rcases hs.idOf s with heq | ⟨t, a, x, id, rfl, ht, hput, heq⟩
    · exact .inl (hold (.inl (heq ▸ hid)))
    · obtain rfl : id = v := Option.some.inj (heq.symm.trans hid)
      refine .inr ⟨t, a, x, rfl, ht, ?_⟩
      cases x with
      | checkout r pc =>
        cases pc <;> cases hput
        simp [Task.takesUp, hkeep]
      | offload r kind pc =>
        cases pc <;> try cases hput
        simp only [Task.puts, Option.ite_none_right_eq_some, Option.some.injEq, Prod.mk.injEq] at hput
        obtain ⟨-, rfl, rfl⟩ := hput
        simp [Task.takesUp, hkeep]
      | reapIdle | reapUntracked | purge => cases hput
  · refine .inl ?_
    cases hs with
    | spawn => exact hold (.inr ⟨c, hc, hv⟩)
    | checkout ht hck =>
      have hmove := ckStep_move hck
      rcases hmove.published hsound.world hv with hv | ⟨b, n, rfl⟩
      · rcases hmove.mapped hc with hc | hempty
        · exact hold (.inr ⟨c, hc, hv⟩)
        · simp_all [Cell.vm]
      · exact .inl ⟨_, List.mem_of_getElem? ht, rfl⟩
    | offload _ ho => exact hshrinks (offStep_shrinks ho) hc hv
    | reapIdle _ hi => exact hshrinks (idleStep_shrinks hi) hc hv
    | reapUntracked _ hu => exact hshrinks (untrackedStep_shrinks hu) hc hv
    | purge _ hp => exact hshrinks (purgeStep_shrinks hp) hc hv
    | outside hw => exact hshrinks (worldStep_shrinks hw) hc hv

/-- A VM comes to be wanted only when a task takes it up. -/
theorem State.Wanted.of_step (hsound : st.Sound) (hs : Step cfg st l st') (hv : st'.Wanted cfg v) :
    st.Wanted cfg v ∨
      ∃ t a x, l = .run t a ∧ st.tasks[t]? = some x ∧ x.takesUp cfg st.world a = some v := by
  rcases hv with ⟨x, hx, hv⟩ | hkept
  · exact (hs.occupies hsound hx hv).imp_left .inl
  · obtain ⟨s, hkeep, hv⟩ := State.kept_iff.mp hkept
    exact hs.belongs hsound hkeep hv

end Steps

section Runs

variable {cfg : Config} {d d' : Dash} {l : DashLabel} {v : SandboxId} {a : Answer}

theorem VmRow.of_not_skipped {r : VmRow} (h : r.skipped = false) :
    r.running = true ∧ r.keepalive = false ∧ r.liveSessions.getD 0 = 0 := by
  simp only [VmRow.skipped, Bool.or_eq_false_iff, Bool.not_eq_false', decide_eq_false_iff_not,
    not_lt, Nat.le_zero] at h
  exact ⟨h.1.1.1, h.1.1.2, h.1.2⟩

theorem mem_chosen {rows : List VmRow} {r : VmRow} :
    r ∈ chosen rows ↔ r ∈ rows ∧ r.skipped = false := by
  simp [chosen]

/-- A row that is chosen shows no session and no keep-alive entry. -/
theorem not_shown_of_chosen {list : List Info} {snap : List EntrySnapshot}
    {records : List (Schema × StoreRecord)} {r : VmRow}
    (h : r ∈ chosen (buildRows list snap records)) :
    ∃ i ∈ list, i.running = true ∧ r = joinRow (snapById snap) (storeById records) i ∧
      ¬ Shown snap i.id := by
  obtain ⟨hr, hskip⟩ := mem_chosen.mp h
  obtain ⟨hrun, hkeep, hlive⟩ := VmRow.of_not_skipped hskip
  obtain ⟨i, hi, hirun, rfl⟩ := mem_buildRows hr hrun
  refine ⟨i, hi, hirun, rfl, ?_⟩
  rintro ⟨e, he, hshow⟩
  rw [Option.mem_def] at he
  simp only [joinRow, he, Option.map_some, Option.getD_some] at hkeep hlive
  rcases hshow with hshow | hshow
  · cases hkeep.symm.trans hshow
  · omega

theorem bulkStep_queue {w : World} {c c' : InventoryCache} {pc pc' : BulkPc}
    (h : bulkStep w c pc a = some (c', pc')) {r : VmRow} (hr : r ∈ (Act.stopIdle pc').queue) :
    r ∈ (Act.stopIdle pc).queue ∨ ∃ list snap keys, a = .order keys ∧
      (Act.stopIdle pc).joins = some (list, snap) ∧
      r ∈ chosen (buildRows list snap (w.store.recordsIn keys)) := by
  revert h
  fun_cases bulkStep w c pc a <;> intro h <;> (try cases h)
  case case1 => exact .inl hr
  case case3 pc _ _ =>
    obtain ⟨⟨c, p⟩, hp, heq⟩ := Option.map_eq_some_iff.mp h
    cases heq
    cases p with
    | rows rows =>
      obtain ⟨list, snap, keys, rfl, rfl, -, rfl⟩ := rowsStep_rows hp
      exact .inr ⟨list, snap, keys, rfl, rfl, hr⟩
    | _ => cases hr
  case case5 r' rows =>
    left
    split at hr
    · exact mem_chosen.mpr ⟨List.mem_cons_of_mem _ (mem_chosen.mp hr).1, (mem_chosen.mp hr).2⟩
    · rename_i hskip
      rcases List.mem_cons.mp hr with rfl | hr
      · exact mem_chosen.mpr ⟨List.mem_cons_self, by simpa using hskip⟩
      · exact mem_chosen.mpr ⟨List.mem_cons_of_mem _ (mem_chosen.mp hr).1, (mem_chosen.mp hr).2⟩
  case case6 | case7 => exact .inl (List.mem_cons_of_mem _ hr)
  all_goals cases hr

theorem DashStep.queue (hs : DashStep cfg d l d') {x : Act} (hx : x ∈ d'.acts) {r : VmRow}
    (hr : r ∈ x.queue) : (∃ y ∈ d.acts, r ∈ y.queue) ∨
      ∃ k keys y list snap, l = .act k (.order keys) ∧ d'.sys = d.sys ∧ d.acts[k]? = some y ∧
        y.joins = some (list, snap) ∧
        r ∈ chosen (buildRows list snap (d.sys.world.store.recordsIn keys)) := by
  cases hs with
  | sys | refresh => exact .inl ⟨x, hx, hr⟩
  | @post y hy =>
    rcases List.mem_append.mp hx with hx | hx
    · exact .inl ⟨x, hx, hr⟩
    · obtain rfl := List.mem_singleton.mp hx
      unfold Act.initial at hy
      split at hy <;> first | cases hr | cases hy
  | @stopIdle k a pc pc' c hk h =>
    rcases List.mem_or_eq_of_mem_set hx with hx | rfl
    · exact .inl ⟨x, hx, hr⟩
    · rcases bulkStep_queue h hr with hold | ⟨list, snap, keys, rfl, hj, hnew⟩
      · exact .inl ⟨_, List.mem_of_getElem? hk, hold⟩
      · exact .inr ⟨k, keys, _, list, snap, rfl, rfl, hk, hj, hnew⟩
  | reap =>
    rcases List.mem_or_eq_of_mem_set hx with hx | rfl
    · exact .inl ⟨x, hx, hr⟩
    · cases hr

/-- VMs are wanted by the pooler and doomed by bulk stops, keep-alive schemas by their rows there. -/
def Dash.bulkCustody (cfg : Config) (d : Dash) : Custody (SandboxId ⊕ Schema) where
  held := {x | x.elim (d.sys.Wanted cfg) fun s ↦ cfg.keepalive s = true}
  doomed := {x | x.elim d.Doomed d.DoomedOf}

theorem Dash.bulkCustody_step (hsound : d.sys.Sound) (hok : StopsUnwanted cfg d l)
    (hs : DashStep cfg d l d') : Custody.Step (d.bulkCustody cfg) (d'.bulkCustody cfg) := by
  refine ⟨fun x hx ↦ ?_, fun x hx ↦ ?_⟩
  · cases x with
    | inr s => exact .inl hx
    | inl v =>
      have hv : d'.sys.Wanted cfg v := hx
      rcases hs.sys_cases with heq | ⟨k, hk, hstep⟩
      · rw [heq] at hv
        exact .inl hv
      · rcases State.Wanted.of_step hsound (step_sound hstep) hv with
          hold | ⟨t, a, y, rfl, ht, htake⟩
        · exact .inl hold
        · obtain rfl : l = .sys (.run t a) := by simpa using hk
          have hfree := hok y ht v htake
          cases hs
          exact .inr hfree
  · have hjoin {r : VmRow} {y : Act} (hy : y ∈ d'.acts) (hr : r ∈ y.queue) :
        (∃ y ∈ d.acts, r ∈ y.queue) ∨
          ¬ d'.sys.Wanted cfg r.id ∧ ∀ s, r.schema = some s → cfg.keepalive s ≠ true := by
      refine (hs.queue hy hr).imp_right ?_
      rintro ⟨k, keys, z, list, snap, rfl, hsame, hz, hj, hnew⟩
      obtain ⟨i, hi, hrun, rfl, hhidden⟩ := not_shown_of_chosen hnew
      have hfree := mt (hok z hz _ hj i hi hrun) hhidden
      rw [not_or] at hfree
      exact ⟨hsame ▸ hfree.1, fun s hs hkeep ↦ hfree.2 ⟨s, hs, hkeep⟩⟩
    cases x with
    | inl v =>
      obtain ⟨y, hy, r, hr, rfl⟩ := hx
      exact (hjoin hy hr).imp (fun ⟨z, hz, hrz⟩ ↦ ⟨z, hz, r, hrz, rfl⟩) And.left
    | inr s =>
      obtain ⟨y, hy, r, hr, hrs⟩ := hx
      exact (hjoin hy hr).imp (fun ⟨z, hz, hrz⟩ ↦ ⟨z, hz, r, hrz, hrs⟩) fun h ↦ h.2 s hrs

/-- In every run whose bulk stops join an inventory in which every wanted VM shows, and whose bring-ups,
checkouts and offloads keep off the VMs that are still to be stopped, no VM in use is stopped. -/
theorem stop_idle_spares {w : World} (h : DashReaches cfg (StopsUnwanted cfg) w d) :
    d.StopsSpare cfg := by
  have hsafe : (d.bulkCustody cfg).Safe := by
    refine Run.custody (I := fun d ↦ d.sys.Sound) (Dash.bulkCustody cfg) h ?_
      (fun _ hr ↦ Reaches.sound (DashReaches.sys hr)) ?_
    · rintro (v | s) ⟨x, hx, -⟩ <;> simp [Dash.boot] at hx
    · exact fun _ _ _ hI hok hs ↦ Dash.bulkCustody_step hI hok (dashStep_sound hs)
  intro k r rows hk
  have hmem := List.mem_of_getElem? hk
  have hunwanted : ¬ d.sys.Wanted cfg r.id := hsafe (.inl r.id) ⟨_, hmem, r, List.mem_cons_self, rfl⟩
  have hfree {t : ℕ} {x : Task} (ht : d.sys.tasks[t]? = some x) :
      x.occupies d.sys.world ≠ some r.id :=
    fun hx ↦ hunwanted (.inl ⟨x, List.mem_of_getElem? ht, hx⟩)
  refine ⟨fun t s ck ht ↦ ⟨fun e he hv ↦ ?_, ?_⟩, ?_, fun s hs ↦ ?_⟩
  · exact hfree ht (occupies_checkout.mpr (.inl ⟨e, he, hv⟩))
  · rintro c b p rfl hv
    exact hfree ht (occupies_checkout.mpr (.inr ⟨c, b, p, rfl, hv⟩))
  · rintro t s kind route id ht rfl
    exact hfree ht rfl
  · rw [Bool.eq_false_iff]
    intro hkeep
    rcases hs with hs | hbelongs
    · exact hsafe (.inr s) ⟨_, hmem, r, List.mem_cons_self, hs⟩ hkeep
    · exact hunwanted (.inr (State.kept_iff.mpr ⟨s, hkeep, hbelongs⟩))

def Dash.stopping (d : Dash) (k : ℕ) (v : SandboxId) : Bool :=
  match d.acts[k]? with
  | some (.stopIdle (.stop r _)) => r.id = v
  | _ => false

/-- A bulk stop of the one VM the daemon reports, up to the stop. -/
def stopIdleOn (keys : List Schema) : List DashLabel :=
  .post (.stopIdle (.rows .inventory)) ::
    onAct 0 [.go, .listing [⟨sb1, vmName app, true⟩], .order keys, .order [app], .go, .go]

theorem stop_idle_spares_run : ∃ d, DashReaches .full (StopsUnwanted .full) (.recorded .live) d ∧
    d.stopping 0 sb1 = true ∧ d.StopsSpare .full := by
  obtain ⟨d, hr, hd⟩ := Run.exists_of_exec (dashStep .full) (StopsUnwanted .full) (.boot (.recorded .live))
    (onSys ([.spawn (.checkout app .touch)] ++ goes 0 8 ++ attaches 0 ++ goes 0 6) ++ stopIdleOn [app])
    (fun d ↦ d.stopping 0 sb1) (by decide +kernel) (by decide +kernel)
  exact ⟨d, hr, hd, stop_idle_spares hr⟩

def Dash.stopsServed (d : Dash) (k t : ℕ) : Bool :=
  match d.acts[k]?, d.sys.tasks[t]? with
  | some (.stopIdle (.stop r _)), some (.checkout _ ck) =>
    ck.guard.map (fun e ↦ (d.sys.world.ents e).sandbox) = some r.id
  | _, _ => false

theorem Dash.not_stopsSpare {k t : ℕ} (h : d.stopsServed k t = true) : ¬ d.StopsSpare cfg := by
  unfold Dash.stopsServed at h
  split at h
  · rename_i r rows s ck hk ht
    obtain ⟨e, he, hv⟩ := Option.map_eq_some_iff.mp (of_decide_eq_true h)
    exact fun hspare ↦ ((hspare k r rows hk).1 t s ck ht).1 e he hv
  · cases h

/-- A client connects after the rows were joined; its VM is stopped under it. -/
theorem stop_idle_stops_served : ∃ d, DashReaches .full (fun _ _ ↦ True) (.recorded .live) d ∧
    ¬ d.StopsSpare .full := by
  obtain ⟨d, hr, hd⟩ := Run.exists_of_exec (dashStep .full) (fun _ _ ↦ True) (.boot (.recorded .live))
    (stopIdleOn [] ++ onSys ([.spawn (.checkout app .touch)] ++ goes 0 8 ++ attaches 0 ++ goes 0 5))
    (fun d ↦ d.stopsServed 0 0) (by decide +kernel) (by decide +kernel)
  exact ⟨d, hr, Dash.not_stopsSpare hd⟩

end Runs

end PgVmPool
