import PgVmPool.Guards

namespace PgVmPool

open Finset Function Transition

/-- The entry that the map holds for a schema. -/
def World.shown (w : World) (s : Schema) : Option ℕ :=
  (w.entries.lookup s).bind fun c ↦ match w.cells c with
    | .full e => some e
    | .empty | .busy _ => none

/-- No later entry was made for the same VM; its slot limit is the one measured last. -/
def World.Newest (w : World) (e : ℕ) : Prop :=
  ∀ d < w.nextEntry, (w.ents d).sandbox = (w.ents e).sandbox → d ≤ e

/-- The live guards of a VM, over all the entries it has had. -/
def World.guardsOn (w : World) (id : SandboxId) : ℕ :=
  ∑ e ∈ (range w.nextEntry).filter fun e ↦ (w.ents e).sandbox = id, (w.ents e).guards.length

def World.WithinBudget (w : World) : Prop :=
  ∀ e < w.nextEntry, w.Newest e → w.guardsOn (w.ents e).sandbox ≤ (w.ents e).slotLimit

/-- The guard that a task holds as a client of `s`. -/
def Task.guardFor (s : Schema) : Task → Option ℕ
  | .checkout r pc => if r = s then pc.guard else none
  | .offload _ _ _ | .reapIdle _ | .reapUntracked _ | .purge _ => none

/-- A client whose schema has the cell in the map. -/
def Task.Behind (w : World) (c : ℕ) : Task → Prop
  | .checkout r pc => w.entries.lookup r = some c ∧ pc.guard ≠ none
  | .offload _ _ _ | .reapIdle _ | .reapUntracked _ | .purge _ => False

instance (w : World) (c : ℕ) : (x : Task) → Decidable (x.Behind w c)
  | .checkout r pc => inferInstanceAs (Decidable (w.entries.lookup r = some c ∧ pc.guard ≠ none))
  | .offload _ _ _ | .reapIdle _ | .reapUntracked _ | .purge _ => inferInstanceAs (Decidable False)

instance (w : World) (e : ℕ) : Decidable (w.Newest e) :=
  inferInstanceAs (Decidable (∀ d < w.nextEntry, _ → _))

/-- While a client of a schema is connected, the map's entry for it counts somebody. -/
def State.InView (st : State) : Prop :=
  ∀ x ∈ st.tasks, ∀ s e d, x.guardFor s = some e → st.world.shown s = some d → 0 < (st.world.ents d).active

/-- A dropped guard gives back one permit and one count, of its own entry. -/
def State.ReleasesOnce (cfg : Config) (st : State) : Prop :=
  ∀ l st', step cfg l st = some st' → ∀ (t : ℕ) (x y : Task) (s : Schema) (e : ℕ),
    st.tasks[t]? = some x → st'.tasks[t]? = some y → x.guardFor s = some e → y.guardFor s ≠ some e →
    (st'.world.ents e).free = (st.world.ents e).free + 1 ∧
      (st'.world.ents e).active + 1 = (st.world.ents e).active ∧
      ∀ d, d ≠ e → st'.world.ents d = st.world.ents d

namespace CkPc

/-- The entry whose admission a checkout waits for. -/
def admits : CkPc → Option ℕ
  | .admitWarm _ e | .admitCold e => some e
  | _ => none

/-- The cell and the VM of a bring-up that is about to make its entry. -/
def publishes : CkPc → Option (ℕ × SandboxId)
  | .bringUp c _ (.ok id _) => some (c, id)
  | _ => none

end CkPc

/-- A client is admitted to the VM's last entry, with no other entry in the map; an entry is made while
nobody is connected to its VM, nor to the schema that gets it. -/
def OnePerVm (st : State) : Label → Prop
  | .run t a => match st.tasks[t]? with
    | some (.checkout s pc) =>
      (∀ e ∈ pc.admits, a = .go → st.world.Newest e ∧ ∀ d ∈ st.world.shown s, d = e) ∧
      ∀ p ∈ pc.publishes,
        (∀ e < st.world.nextEntry, (st.world.ents e).sandbox = p.2 → (st.world.ents e).guards = []) ∧
        ∀ x ∈ st.tasks, ¬ x.Behind st.world p.1
    | _ => True
  | _ => True

instance (st : State) (l : Label) : Decidable (OnePerVm st l) := by
  unfold OnePerVm
  split
  · split <;> infer_instance
  · infer_instance

section Moves

variable {cfg : Config} {a : Answer} {t : ℕ} {s : Schema} {w w' : World} {pc pc' : CkPc}

def World.Balanced (w : World) : Prop := ∀ e, (w.ents e).free + (w.ents e).active = (w.ents e).slotLimit

/-- Only the last entry of a VM has guards. -/
def World.Fresh (w : World) : Prop := ∀ e < w.nextEntry, (w.ents e).guards ≠ [] → w.Newest e

theorem ckStep_admits {e : ℕ} (h : ckStep cfg t s w pc a = some (w', pc')) (hg : pc.guard = none)
    (hg' : pc'.guard = some e) : pc.admits = some e ∧ a = .go ∧ 0 < (w.ents e).free := by
  revert h
  fun_cases ckStep cfg t s w pc a <;> intro h <;> (try cases h)
  case case6 hfree | case30 hfree =>
    obtain rfl := Option.some_inj.mp hg'
    exact ⟨rfl, rfl, hfree⟩
  case case2 | case12 => split at hg' <;> cases hg'
  case case24 =>
    obtain ⟨r, -, heq⟩ := Option.map_eq_some_iff.mp h
    cases heq
    cases hg'
  all_goals simp [CkPc.guard] at hg hg'

theorem CkMove.balanced (h : CkMove a t s w w' pc pc') (hw : w.Balanced) (hcount : w.Counted)
    (hx : (Task.checkout s pc).Registered w t)
    (hfree : ∀ e, pc.guard = none → pc'.guard = some e → 0 < (w.ents e).free) : w'.Balanced := by
  intro d
  cases h with
  | keep hs => rw [hs.ents, hw d]
  | ensure h => rw [(ensureStep_sameMap h).ents, hw d]
  | miss _ heq | evict _ heq | start _ heq | reset heq =>
    subst heq
    exact hw d
  | warm _ _ heq =>
    subst heq
    simp only [World.modEntry, update_apply]
    split
    · subst d
      exact hw _
    · exact hw d
  | acquire _ guard _ guard' _ _ heq =>
    subst heq
    simp only [World.modEntry, update_apply]
    split
    · next hd =>
      subst hd
      have hpos := hfree d guard guard'
      have hsum := hw d
      simp only [SchemaEntry.acquire]
      omega
    · exact hw d
  | release guard _ _ _ _ _ heq =>
    subst heq
    simp only [World.modEntry, update_apply]
    split
    · next hd =>
      subst hd
      have hpos : 0 < (w.ents d).active := hcount d ▸ List.length_pos_of_mem (hx d guard)
      have hsum := hw d
      simp only [SchemaEntry.release]
      omega
    · exact hw d
  | fill heq =>
    subst heq
    simp only [World.openEntry, update_apply]
    split
    · rfl
    · exact hw d

theorem World.shown_iff {d : ℕ} :
    w.shown s = some d ↔ ∃ c, w.entries.lookup s = some c ∧ w.cells c = .full d := by
  constructor
  · intro h
    obtain ⟨c, hc, h⟩ := Option.bind_eq_some_iff.mp h
    split at h
    · next e hfull =>
      obtain rfl := Option.some_inj.mp h
      exact ⟨c, hc, hfull⟩
    · cases h
    · cases h
  · rintro ⟨c, hc, hfull⟩
    rw [World.shown, hc, Option.bind_some, hfull]

/-- Only a bring-up that ends puts another entry into the map. -/
theorem CkMove.shown (h : CkMove a t s w w' pc pc') {r : Schema} {d : ℕ}
    (hd : w'.shown r = some d) :
    w.shown r = some d ∨ ∃ p ∈ pc.publishes, w.entries.lookup r = some p.1 := by
  obtain ⟨c, hc, hfull⟩ := World.shown_iff.mp hd
  cases h with
  | keep hs => exact .inl (World.shown_iff.mpr ⟨c, hs.entries ▸ hc, hs.cells ▸ hfull⟩)
  | ensure h =>
    have hs := ensureStep_sameMap h
    exact .inl (World.shown_iff.mpr ⟨c, hs.entries ▸ hc, hs.cells ▸ hfull⟩)
  | miss _ heq =>
    subst heq
    have hne : c ≠ w.nextCell := by
      rintro rfl
      simp [World.openCell] at hfull
    simp only [World.openCell, update_of_ne hne] at hc hfull
    have hrs : r ≠ s := by
      rintro rfl
      rw [AList.lookup_insert] at hc
      exact hne (Option.some_inj.mp hc).symm
    rw [AList.lookup_insert_ne hrs] at hc
    exact .inl (World.shown_iff.mpr ⟨c, hc, hfull⟩)
  | warm _ _ heq | acquire _ _ _ _ _ _ heq | release _ _ _ _ _ _ heq =>
    subst heq
    exact .inl (World.shown_iff.mpr ⟨c, hc, hfull⟩)
  | evict _ heq =>
    subst heq
    exact .inl (World.shown_iff.mpr ⟨c, lookup_of_lookup_erase hc, hfull⟩)
  | start _ heq | reset heq =>
    subst heq
    simp only [update_apply] at hfull
    split at hfull
    · cases hfull
    · exact .inl (World.shown_iff.mpr ⟨c, hc, hfull⟩)
  | @fill c₀ n b id k heq =>
    subst heq
    by_cases hcc : c = c₀
    · subst hcc
      exact .inr ⟨(c, id), rfl, hc⟩
    · simp only [World.openEntry, update_of_ne hcc] at hfull
      exact .inl (World.shown_iff.mpr ⟨c, hc, hfull⟩)

/-- The entry a client is connected through is the one in the map, if there is one. -/
def Task.Views (w : World) (x : Task) : Prop :=
  ∀ s e d, x.guardFor s = some e → w.shown s = some d → d = e

theorem Task.guardFor_cases {x : Task} {e : ℕ} (h : x.guardFor s = some e) :
    ∃ pc, x = .checkout s pc ∧ pc.guard = some e := by
  cases x with
  | checkout r pc =>
    obtain ⟨rfl, hg⟩ := Option.ite_none_right_eq_some.mp h
    exact ⟨pc, rfl, hg⟩
  | offload | reapIdle | reapUntracked | purge => cases h

theorem CkMove.views_of_guard (h : CkMove a t s w w' pc pc') {x : Task} (hx : x.Views w)
    (hpub : ∀ p ∈ pc.publishes, ¬ x.Behind w p.1) : x.Views w' := by
  intro r e d he hd
  rcases h.shown hd with hold | ⟨p, hp, hlook⟩
  · exact hx r e d he hold
  · obtain ⟨q, rfl, hq⟩ := Task.guardFor_cases he
    exact absurd ⟨hlook, by simp [hq]⟩ (hpub p hp)

theorem CkMove.views (h : CkMove a t s w w' pc pc') (hx : (Task.checkout s pc).Views w)
    (hpub : ∀ p ∈ pc.publishes, ¬ (Task.checkout s pc).Behind w p.1)
    (hentry : ∀ e, pc.guard = none → pc'.guard = some e → ∀ d ∈ w.shown s, d = e) :
    (Task.checkout s pc').Views w' := by
  intro r e d he hd
  have hold := h.views_of_guard hx hpub
  obtain ⟨q, heq, hq⟩ := Task.guardFor_cases he
  cases heq
  cases h with
  | keep _ guard => exact hold s e d (by simp [Task.guardFor, ← guard, hq]) hd
  | acquire _ guard _ guard' _ _ heq =>
    subst heq
    exact hentry e guard hq d hd
  | release _ _ guard' => simp [guard'] at hq
  | ensure | miss | warm | evict | start | fill | reset => simp [CkPc.guard] at hq

theorem World.Newest.of_sandbox {e : ℕ} (h : w.Newest e)
    (hents : ∀ d, (w'.ents d).sandbox = (w.ents d).sandbox)
    (hn : w'.nextEntry = w.nextEntry) : w'.Newest e := by
  intro d hd heq
  rw [hents, hents] at heq
  exact h d (hn ▸ hd) heq

theorem World.Newest.modEntry {d e : ℕ} {f : SchemaEntry → SchemaEntry} (h : w.Newest e)
    (hf : ∀ x, (f x).sandbox = x.sandbox) : (w.modEntry d f).Newest e :=
  h.of_sandbox (World.modEntry_sandbox hf w) rfl

theorem CkMove.fresh (h : CkMove a t s w w' pc pc') (hw : w.Fresh)
    (hentry : ∀ e, pc.guard = none → pc'.guard = some e → w.Newest e)
    (hpub : ∀ p ∈ pc.publishes, ∀ e < w.nextEntry, (w.ents e).sandbox = p.2 → (w.ents e).guards = []) :
    w'.Fresh := by
  intro d hd hg
  cases h with
  | keep hs =>
    rw [hs.ents] at hg
    exact (hw d (hs.nextEntry ▸ hd) hg).of_sandbox (fun _ ↦ by rw [hs.ents]) hs.nextEntry
  | ensure h =>
    have hs := ensureStep_sameMap h
    rw [hs.ents] at hg
    exact (hw d (hs.nextEntry ▸ hd) hg).of_sandbox (fun _ ↦ by rw [hs.ents]) hs.nextEntry
  | miss _ heq | evict _ heq | start _ heq | reset heq =>
    subst heq
    exact hw d hd hg
  | warm _ _ heq =>
    subst heq
    refine (hw d hd fun hnil ↦ hg ?_).modEntry fun _ ↦ rfl
    simp only [World.modEntry, update_apply]
    split
    · next h => exact h ▸ hnil
    · exact hnil
  | @acquire _ _ e _ guard _ guard' _ _ heq =>
    subst heq
    by_cases hde : d = e
    · subst hde
      exact (hentry d guard guard').modEntry fun _ ↦ rfl
    · refine (hw d hd ?_).modEntry fun _ ↦ rfl
      simpa only [World.modEntry, update_of_ne hde] using hg
  | @release _ _ e _ _ _ _ _ _ heq =>
    subst heq
    refine (hw d hd fun hnil ↦ hg ?_).modEntry fun _ ↦ rfl
    simp only [World.modEntry, update_apply]
    split
    · next h =>
      subst h
      simp [SchemaEntry.release, hnil]
    · exact hnil
  | @fill c n b id k heq =>
    subst heq
    have hne : d ≠ w.nextEntry := by
      rintro rfl
      exact hg (by simp [World.openEntry, SchemaEntry.new])
    have hlt : d < w.nextEntry := lt_of_le_of_ne (Nat.le_of_lt_succ hd) hne
    simp only [World.openEntry, update_of_ne hne] at hg
    intro f hf hsame
    by_cases hfn : f = w.nextEntry
    · subst hfn
      simp only [World.openEntry, update_self, update_of_ne hne, SchemaEntry.new] at hsame
      exact absurd (hpub (c, id) rfl d hlt hsame.symm) hg
    · simp only [World.openEntry, update_of_ne hfn, update_of_ne hne] at hsame
      exact hw d hlt hg f (lt_of_le_of_ne (Nat.le_of_lt_succ hf) hfn) hsame

theorem World.Fresh.withinBudget (hw : w.Fresh) (hb : w.Balanced) (hc : w.Counted) : w.WithinBudget := by
  intro e he hnew
  have hmem : e ∈ (range w.nextEntry).filter fun d ↦ (w.ents d).sandbox = (w.ents e).sandbox := by
    simp [he]
  have hsum : w.guardsOn (w.ents e).sandbox = (w.ents e).guards.length := by
    refine sum_eq_single_of_mem e hmem fun d hd hne ↦ ?_
    obtain ⟨hlt, hsame⟩ := mem_filter.mp hd
    rw [List.length_eq_zero_iff]
    by_contra hg
    have hle := hw d (mem_range.mp hlt) hg e he hsame.symm
    exact hne (le_antisymm (hnew d (mem_range.mp hlt) hsame) hle)
  have hbal := hb e
  rw [hsum, ← hc e]
  omega

end Moves

section Runs

variable {cfg : Config} {st st' : State} {l : Label} {w w' : World}

structure State.Budgeted (st : State) : Prop where
  balanced : st.world.Balanced
  fresh : st.world.Fresh
  views : ∀ x ∈ st.tasks, x.Views st.world

theorem World.Shrinks.shown (h : w.Shrinks w') {s : Schema} {d : ℕ} (hd : w'.shown s = some d) :
    w.shown s = some d := by
  obtain ⟨c, hc, hfull⟩ := World.shown_iff.mp hd
  exact World.shown_iff.mpr ⟨c, h.entries s c hc, h.cells ▸ hfull⟩

theorem World.Shrinks.fresh (h : w.Shrinks w') (hw : w.Fresh) : w'.Fresh := by
  intro e he hg
  rw [h.ents] at hg
  exact (hw e (h.nextEntry ▸ he) hg).of_sandbox (fun _ ↦ by rw [h.ents]) h.nextEntry

theorem Task.Views.of_shrinks {x : Task} (hx : x.Views w) (h : w.Shrinks w') : x.Views w' :=
  fun s e d he hd ↦ hx s e d he (h.shown hd)

theorem Task.Views.of_unguarded {x : Task} (hx : ∀ s, x.guardFor s = none) : x.Views w := by
  intro s e d he
  cases (hx s).symm.trans he

theorem Task.guardFor_of_initial {x : Task} (h : x.initial = true) (s : Schema) : x.guardFor s = none := by
  obtain ⟨_, rfl⟩ | ⟨_, _, rfl⟩ | rfl | rfl | rfl := Task.initial_cases h <;>
    simp [Task.guardFor, CkPc.guard]

theorem State.Budgeted.of_shrinks (h : st.Budgeted) (hw : st.world.Shrinks w') {t : ℕ} {x : Task}
    (hx : ∀ s, x.guardFor s = none) : State.Budgeted ⟨w', st.tasks.set t x⟩ where
  balanced e := by rw [hw.ents, h.balanced e]
  fresh := hw.fresh h.fresh
  views y hy := by
    rcases List.mem_or_eq_of_mem_set hy with hy | rfl
    · exact (h.views y hy).of_shrinks hw
    · exact .of_unguarded hx

theorem State.Budgeted.step (h : st.Budgeted) (hsound : st.Sound) (hok : OnePerVm st l)
    (hs : Step cfg st l st') : st'.Budgeted := by
  cases hs with
  | spawn hx =>
    refine ⟨h.balanced, h.fresh, fun y hy ↦ ?_⟩
    rcases List.mem_append.mp hy with hy | hy
    · exact h.views y hy
    · obtain rfl := List.mem_singleton.mp hy
      exact .of_unguarded (Task.guardFor_of_initial hx)
  | @checkout t a s pc pc' w' ht hck =>
    have hmove := ckStep_move hck
    simp only [OnePerVm, ht] at hok
    obtain ⟨hentry, hpub⟩ := hok
    have hown : ∀ e, pc.guard = none → pc'.guard = some e →
        st.world.Newest e ∧ ∀ d ∈ st.world.shown s, d = e := by
      intro e hg hg'
      obtain ⟨he, hgo, -⟩ := ckStep_admits hck hg hg'
      exact hentry e he hgo
    have hfree : ∀ e, pc.guard = none → pc'.guard = some e → 0 < (st.world.ents e).free :=
      fun e hg hg' ↦ (ckStep_admits hck hg hg').2.2
    have hmem := List.mem_of_getElem? ht
    refine ⟨hmove.balanced h.balanced hsound.counted (hsound.fits _ _ ht).2 hfree, ?_, fun y hy ↦ ?_⟩
    · exact hmove.fresh h.fresh (fun e hg hg' ↦ (hown e hg hg').1) fun p hp ↦ (hpub p hp).1
    · rcases List.mem_or_eq_of_mem_set hy with hy | rfl
      · exact hmove.views_of_guard (h.views y hy) fun p hp ↦ (hpub p hp).2 y hy
      · exact hmove.views (h.views _ hmem) (fun p hp ↦ (hpub p hp).2 _ hmem) fun e hg hg' ↦ (hown e hg hg').2
  | offload ht ho => exact h.of_shrinks (offStep_shrinks ho) fun _ ↦ rfl
  | reapIdle ht hi => exact h.of_shrinks (idleStep_shrinks hi) fun _ ↦ rfl
  | reapUntracked ht hu => exact h.of_shrinks (untrackedStep_shrinks hu) fun _ ↦ rfl
  | purge ht hp => exact h.of_shrinks (purgeStep_shrinks hp) fun _ ↦ rfl
  | outside hw =>
    have hshrinks := worldStep_shrinks hw
    exact ⟨fun e ↦ by rw [hshrinks.ents, h.balanced e], hshrinks.fresh h.fresh,
      fun y hy ↦ (h.views y hy).of_shrinks hshrinks⟩

theorem State.budgeted_boot (w : World) : (State.boot w).Budgeted where
  balanced _ := rfl
  fresh e he := absurd he (Nat.not_lt_zero e)
  views _ hx := absurd hx List.not_mem_nil

theorem Reaches.budgeted (h : Reaches cfg OnePerVm w st) : st.Budgeted :=
  Run.invariant_of h (fun _ ↦ Reaches.sound) (State.budgeted_boot w)
    fun _ _ _ hI hJ _ hl hstep ↦ hI.step hJ hl (step_sound hstep)

theorem State.Budgeted.inView (h : st.Budgeted) (hsound : st.Sound) : st.InView := by
  intro x hx s e d he hd
  obtain rfl := h.views x hx s e d he hd
  obtain ⟨pc, rfl, hg⟩ := Task.guardFor_cases he
  obtain ⟨t, ht⟩ := List.mem_iff_getElem?.mp hx
  exact hsound.active_pos ht hg

theorem State.Sound.releasesOnce (h : st.Sound) : st.ReleasesOnce cfg := by
  intro l st' hstep t x y s e hx hy he hne
  obtain ⟨pc, rfl, hg⟩ := Task.guardFor_cases he
  rcases step_task hstep hx with ⟨a, z, -, hz, hz'⟩ | hsame
  · obtain rfl : z = y := Option.some_inj.mp (hz'.symm.trans hy)
    obtain ⟨⟨w', pc'⟩, hck, heq⟩ := Option.map_eq_some_iff.mp hz
    obtain ⟨rfl, rfl⟩ := Prod.mk.inj heq
    have hmem := (h.fits t _ hx).2 e hg
    have hpos : 0 < (st.world.ents e).active := h.active_pos hx hg
    have hlost : pc'.guard ≠ some e := by simpa [Task.guardFor] using hne
    have hmove := ckStep_move hck
    cases hmove with
    | keep _ guard => exact absurd (guard.trans hg) hlost
    | acquire _ guard => cases guard.symm.trans hg
    | release guard _ _ _ _ _ heq =>
      obtain rfl := Option.some_inj.mp (guard.symm.trans hg)
      simp only [heq, World.modEntry, update_self, SchemaEntry.release]
      exact ⟨trivial, Nat.sub_add_cancel hpos, fun d hd ↦ update_of_ne hd _ _⟩
    | ensure | miss | warm | evict | start | fill | reset => cases hg
  · obtain rfl := Option.some_inj.mp (hsame.symm.trans hy)
    exact absurd he hne

/-- Where a VM has guards on its last entry only, its sessions stay within its measured slots and in
the view of the map; a dropped guard gives back what it took in any case. -/
theorem sessions_within_budget (cfg : Config) (w : World) :
    (∀ st, Reaches cfg OnePerVm w st → st.world.WithinBudget ∧ st.InView) ∧
      ∀ ok st, Reaches cfg ok w st → st.ReleasesOnce cfg := by
  refine ⟨fun st h ↦ ?_, fun ok st h ↦ h.sound.releasesOnce⟩
  have hsound := h.sound
  have hb := h.budgeted
  exact ⟨hb.fresh.withinBudget hb.balanced hsound.counted, hb.inView hsound⟩

/-- A cold start to the moment its guard is due, on a VM with two slots. -/
def coldStart (t : ℕ) : List Label := runs t [.ok, .ok, .ok, .ok, .slots 2] ++ goes t 5

/-- The second client finds the first one's entry dead and brings the same VM up again. -/
def reentered : List Label :=
  [.spawn (.checkout app .touch)] ++ goes 0 8 ++ coldStart 0 ++ goes 0 1 ++
    [.spawn (.checkout app .touch)] ++ goes 1 4 ++ [.run 1 .failed] ++ goes 1 8 ++ coldStart 1

def State.crowded (st : State) : Bool :=
  st.world.nextEntry = 2 && (st.world.ents 0).sandbox = sb1 && (st.world.ents 1).sandbox = sb1 &&
    (st.world.ents 1).slotLimit < (st.world.ents 0).guards.length + (st.world.ents 1).guards.length

theorem State.not_withinBudget_of_crowded (h : st.crowded = true) : ¬ st.world.WithinBudget := by
  simp only [State.crowded, Bool.and_eq_true, decide_eq_true_eq] at h
  obtain ⟨⟨⟨hn, h0⟩, h1⟩, hlt⟩ := h
  intro hbudget
  have hnew : st.world.Newest 1 := by
    intro d hd _
    omega
  have hle := hbudget 1 (by omega) hnew
  rw [h1] at hle
  have hsum : st.world.guardsOn sb1 =
      (st.world.ents 0).guards.length + (st.world.ents 1).guards.length := by
    simp [World.guardsOn, sum_filter, hn, sum_range_succ, h0, h1]
  omega

def State.unseen (st : State) : Bool :=
  st.world.shown app = some 1 && (st.world.ents 1).active = 0 && st.tasks.any fun x ↦ x.guardFor app = some 0

theorem State.not_inView_of_unseen (h : st.unseen = true) : ¬ st.InView := by
  simp only [State.unseen, Bool.and_eq_true, decide_eq_true_eq, List.any_eq_true] at h
  obtain ⟨⟨hshown, hactive⟩, x, hx, hg⟩ := h
  intro hview
  exact absurd (hview x hx app 0 1 hg hshown) (by omega)

/-- Three clients on two slots; and a client that the entry in the map does not count. -/
theorem sessions_exceed_budget :
    (∃ st, Reaches .full Always (.recorded .live) st ∧ ¬ st.world.WithinBudget) ∧
      ∃ st, Reaches .full Always (.recorded .live) st ∧ ¬ st.InView := by
  constructor
  · obtain ⟨st, hr, hst⟩ := Run.exists_of_exec (step .full) Always (.boot (.recorded .live))
      (reentered ++ goes 1 1 ++ [.spawn (.checkout app .touch)] ++ goes 2 4) State.crowded
      (by decide +kernel) (by decide +kernel)
    exact ⟨st, hr, State.not_withinBudget_of_crowded hst⟩
  · obtain ⟨st, hr, hst⟩ := Run.exists_of_exec (step .full) Always (.boot (.recorded .live))
      reentered State.unseen (by decide +kernel) (by decide +kernel)
    exact ⟨st, hr, State.not_inView_of_unseen hst⟩

def State.shared (st : State) : Bool :=
  st.world.shown app = some 0 && (st.world.ents 0).active = 2 && (st.world.ents 0).free = 0

theorem sessions_within_budget_run : ∃ st, Reaches .full OnePerVm (.recorded .live) st ∧
    st.shared = true ∧ st.world.WithinBudget ∧ st.InView ∧ st.ReleasesOnce .full := by
  obtain ⟨st, hr, hst⟩ := Run.exists_of_exec (step .full) OnePerVm (.boot (.recorded .live))
    ([.spawn (.checkout app .touch)] ++ goes 0 8 ++ coldStart 0 ++ goes 0 1 ++
      [.spawn (.checkout app .touch)] ++ goes 1 4 ++ [.run 1 .ok])
    State.shared (by decide +kernel) (by decide +kernel)
  obtain ⟨hkept, hreleases⟩ := sessions_within_budget .full (.recorded .live)
  exact ⟨st, hr, hst, (hkept st hr).1, (hkept st hr).2, hreleases OnePerVm st hr⟩

end Runs

end PgVmPool
