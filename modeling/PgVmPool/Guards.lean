import PgVmPool.Moves

namespace PgVmPool

open Function Transition

/-- A step that at most takes schemas out of the map. -/
structure World.Shrinks (w w' : World) : Prop where
  entries : ∀ s c, w'.entries.lookup s = some c → w.entries.lookup s = some c
  cells : w'.cells = w.cells
  ents : w'.ents = w.ents
  nextCell : w'.nextCell = w.nextCell
  nextEntry : w'.nextEntry = w.nextEntry

theorem World.SameMap.shrinks {w w' : World} (h : w.SameMap w') : w.Shrinks w' :=
  ⟨fun s c hc ↦ by rwa [h.entries] at hc, h.cells, h.ents, h.nextCell, h.nextEntry⟩

theorem lookup_of_lookup_erase {m : AList (fun _ : Schema ↦ ℕ)} {s r : Schema} {c : ℕ}
    (h : (m.erase r).lookup s = some c) : m.lookup s = some c := by
  by_cases hs : s = r
  · subst hs
    simp at h
  · rwa [AList.lookup_erase_ne hs] at h

theorem lookup_of_lookup_eraseAll {m : AList (fun _ : Schema ↦ ℕ)} {rs : List Schema} {s : Schema}
    {c : ℕ} (h : (rs.foldl (fun m s ↦ m.erase s) m).lookup s = some c) : m.lookup s = some c := by
  induction rs generalizing m with
  | nil => exact h
  | cons r rs ih => exact lookup_of_lookup_erase (ih h)

theorem offEvict_shrinks (s : Schema) (r : Route) (w : World) : w.Shrinks (offEvict s r w).1 := by
  have hout : w.Shrinks { w with entries := w.entries.erase s } :=
    ⟨fun _ _ ↦ lookup_of_lookup_erase, rfl, rfl, rfl, rfl⟩
  unfold offEvict
  split
  · split
    · exact (World.SameMap.refl w).shrinks
    · exact hout
  · exact hout

theorem OffMove.shrinks {a : Answer} {s : Schema} {w w' : World} {pc pc' : OffPc}
    (h : OffMove a s w w' pc pc') : w.Shrinks w' := by
  cases h with
  | other hw =>
    rw [hw]
    exact World.SameMap.shrinks ⟨rfl, rfl, rfl, rfl, rfl⟩
  | claim _ hw | bind _ hw | flip _ hw | missing _ hw | write _ _ hw =>
    subst hw
    exact World.SameMap.shrinks ⟨rfl, rfl, rfl, rfl, rfl⟩
  | @evict r _ h =>
    obtain rfl : (offEvict s r w).1 = w' := by rw [h]
    exact offEvict_shrinks s r w
  | ensure h => exact (ensureStep_sameMap h).shrinks

theorem offStep_shrinks {cfg : Config} {s : Schema} {kind : OffloadKind} {w w' : World}
    {pc pc' : OffPc} {a : Answer} (h : offStep cfg s kind w pc a = some (w', pc')) :
    w.Shrinks w' := by
  obtain ⟨u, hu, x, rfl⟩ := offStep_eq h
  have hs := (offCore_move hu).shrinks
  exact ⟨hs.entries, hs.cells, hs.ents, hs.nextCell, hs.nextEntry⟩

theorem OffMove.frame {a : Answer} {s : Schema} {w w' : World} {pc pc' : OffPc}
    (h : OffMove a s w w' pc pc') :
    w' = { w with
      store := w'.store, entries := w'.entries, archiving := w'.archiving, pending := w'.pending
      inventory := w'.inventory, claimed := w'.claimed, ready := w'.ready, disks := w'.disks
      dumps := w'.dumps, images := w'.images, scratch := w'.scratch, s3Dump := w'.s3Dump
      s3Image := w'.s3Image } := by
  cases h with
  | other hw => rw [hw]
  | claim _ hw | bind _ hw | flip _ hw | missing _ hw | write _ _ hw =>
    subst hw
    rfl
  | @evict r _ h =>
    obtain rfl : (offEvict s r w).1 = w' := by rw [h]
    rw [offEvict_frame]
  | ensure h => rw [ensureStep_frame h]

theorem offStep_frame {cfg : Config} {s : Schema} {kind : OffloadKind} {w w' : World}
    {pc pc' : OffPc} {a : Answer} (h : offStep cfg s kind w pc a = some (w', pc')) :
    w' = { w with
      store := w'.store, entries := w'.entries, archiving := w'.archiving, pending := w'.pending
      inventory := w'.inventory, claimed := w'.claimed, ready := w'.ready, disks := w'.disks
      dumps := w'.dumps, images := w'.images, scratch := w'.scratch, s3Dump := w'.s3Dump
      s3Image := w'.s3Image } := by
  obtain ⟨u, hu, x, rfl⟩ := offStep_eq h
  rw [(offCore_move hu).frame]

/-- Outside its bring-up an offload leaves the ledger, the claims and the shelf alone. -/
structure OffPc.Apart (w w' : World) (pc pc' : OffPc) : Prop where
  ended : ∀ r known p, pc = .bringUp r known p → p = .err ∨ ∃ id n, p = .ok id n
  started : ∀ r known p, pc' = .bringUp r known p → p = .admission
  pending : w'.pending = w.pending
  claimed : w'.claimed = w.claimed
  ready : w'.ready = w.ready

theorem OffPc.Apart.of_ne {w w' : World} {pc pc' : OffPc} (hpc : ∀ r known p, pc ≠ .bringUp r known p)
    (hpc' : ∀ r known p, pc' ≠ .bringUp r known p) (pending : w'.pending = w.pending)
    (claimed : w'.claimed = w.claimed) (ready : w'.ready = w.ready) : OffPc.Apart w w' pc pc' where
  ended r known p h := absurd h (hpc r known p)
  started r known p h := absurd h (hpc' r known p)
  pending := pending
  claimed := claimed
  ready := ready

theorem offEvict_started {s : Schema} {r : Route} {w : World} {q : Route} {known : Option SandboxId}
    {p : EnsurePc} (h : (offEvict s r w).2 = .bringUp q known p) : p = .admission := by
  unfold offEvict at h
  cases r <;> (split at h <;> (try split at h) <;> cases h)

/-- A step of an offload is one of its bring-up, or apart from it. -/
theorem offCore_ensure_or {cfg : Config} {s : Schema} {kind : OffloadKind} {w w' : World}
    {pc pc' : OffPc} {a : Answer} (h : offCore cfg s kind w pc a = some (w', pc')) :
    (∃ r known p p', pc = .bringUp r known p ∧ pc' = .bringUp r known p' ∧
      ensureStep ⟨s, known, none, none⟩ w p a = some (w', p')) ∨ OffPc.Apart w w' pc pc' := by
  revert h
  fun_cases offCore cfg s kind w pc a <;> intro h <;> (try cases h)
  case case1 =>
    rcases offBegin_cases cfg (w.store.tierOf s) kind with heq | ⟨_, heq⟩ | ⟨_, heq⟩ <;> rw [heq] <;>
      exact .inr (.of_ne (by simp) (by simp) rfl rfl rfl)
  case case5 r _ => cases r <;> exact .inr (.of_ne (by simp) (by simp [Route.afterClaim]) rfl rfl rfl)
  case case6 r =>
    obtain rfl : (offEvict s r w).1 = w' := by rw [Option.some.inj h]
    obtain rfl : (offEvict s r w).2 = pc' := by rw [Option.some.inj h]
    refine .inr ⟨by simp, fun _ _ _ h ↦ offEvict_started h, ?_, ?_, ?_⟩ <;> rw [offEvict_frame]
  case case9 => exact .inr ⟨by simp, fun _ _ _ h ↦ by cases h; rfl, rfl, rfl, rfl⟩
  case case10 => exact .inr ⟨fun _ _ _ h ↦ by cases h; exact .inr ⟨_, _, rfl⟩, by simp, rfl, rfl, rfl⟩
  case case11 => exact .inr ⟨fun _ _ _ h ↦ by cases h; exact .inl rfl, by simp, rfl, rfl, rfl⟩
  case case12 =>
    obtain ⟨⟨u, p'⟩, hp, heq⟩ := Option.map_eq_some_iff.mp h
    cases heq
    exact .inl ⟨_, _, _, p', rfl, rfl, hp⟩
  case case15 r known | case19 r known =>
    rcases imageFallback_cases cfg r known with heq | ⟨_, -, heq⟩ <;> rw [heq] <;>
      exact .inr (.of_ne (by simp) (by simp) rfl rfl rfl)
  case case27 r id | case28 r id =>
    rcases imageFallback_cases cfg r (some id) with heq | ⟨_, -, heq⟩ <;> rw [heq] <;>
      exact .inr (.of_ne (by simp) (by simp) rfl rfl rfl)
  case case20 | case21 | case23 | case33 | case36 | case41 | case45 =>
    obtain ⟨_, -, heq⟩ := Option.map_eq_some_iff.mp h
    (try split at heq) <;> cases heq <;> exact .inr (.of_ne (by simp) (by simp) rfl rfl rfl)
  all_goals (try split) <;> exact .inr (.of_ne (by simp) (by simp) rfl rfl rfl)

theorem idleStep_shrinks {cfg : Config} {w w' : World} {pc pc' : IdlePc} {a : Answer}
    (h : idleStep cfg w pc a = some (w', pc')) : w.Shrinks w' := by
  revert h
  fun_cases idleStep cfg w pc a <;> intro h <;> cases h
  case case1 => exact ⟨fun _ _ ↦ lookup_of_lookup_eraseAll, rfl, rfl, rfl, rfl⟩
  all_goals exact (World.SameMap.refl w).shrinks

theorem idleStep_frame {cfg : Config} {w w' : World} {pc pc' : IdlePc} {a : Answer}
    (h : idleStep cfg w pc a = some (w', pc')) : w' = { w with entries := w'.entries } := by
  revert h
  fun_cases idleStep cfg w pc a <;> intro h <;> cases h <;> rfl

theorem untrackedStep_world {w w' : World} {pc pc' : UntrackedPc} {a : Answer}
    (h : untrackedStep w pc a = some (w', pc')) : w' = w := by
  revert h
  fun_cases untrackedStep w pc a <;> intro h <;> cases h <;> rfl

theorem purgeStep_frame {w w' : World} {pc pc' : PurgePc} {a : Answer}
    (h : purgeStep w pc a = some (w', pc')) :
    w' = { w with inventory := w'.inventory, disks := w'.disks } := by
  revert h
  fun_cases purgeStep w pc a <;> intro h <;> cases h <;> rfl

theorem untrackedStep_shrinks {w w' : World} {pc pc' : UntrackedPc} {a : Answer}
    (h : untrackedStep w pc a = some (w', pc')) : w.Shrinks w' := by
  rw [untrackedStep_world h]
  exact (World.SameMap.refl w).shrinks

theorem purgeStep_shrinks {w w' : World} {pc pc' : PurgePc} {a : Answer}
    (h : purgeStep w pc a = some (w', pc')) : w.Shrinks w' := by
  rw [purgeStep_frame h]
  exact World.SameMap.shrinks ⟨rfl, rfl, rfl, rfl, rfl⟩

theorem worldStep_frame {w w' : World} {l : Label} (h : worldStep w l = some w') :
    w' = { w with now := w'.now, store := w'.store, ready := w'.ready } := by
  revert h
  fun_cases worldStep w l <;> intro h
  case case1 =>
    obtain ⟨_, -, rfl⟩ := Option.map_eq_some_iff.mp h
    rfl
  all_goals cases h <;> rfl

theorem worldStep_now_le {w w' : World} {l : Label} (h : worldStep w l = some w') : w.now ≤ w'.now := by
  revert h
  fun_cases worldStep w l <;> intro h
  case case1 =>
    obtain ⟨_, -, rfl⟩ := Option.map_eq_some_iff.mp h
    exact le_rfl
  case case2 =>
    cases h
    exact Nat.le_add_right _ _
  all_goals cases h <;> exact le_rfl

theorem Store.writeLatest_map (st : Store) (g : ℕ) (c : String) (ok : Bool) :
    (st.writeLatest g c ok).map = st.map := by
  unfold Store.writeLatest
  split
  · rfl
  · split <;> rfl

theorem Store.flushDirty_map (st : Store) : st.flushDirty.map = st.map := by
  unfold Store.flushDirty
  split <;> rfl

theorem Store.land_map {st st' : Store} {k : ℕ} {ok : Bool} (h : st.land k ok = some st') :
    st'.map = st.map := by
  obtain ⟨q, -, rfl⟩ := Option.map_eq_some_iff.mp h
  exact Store.writeLatest_map _ _ _ _

theorem worldStep_map {w w' : World} {l : Label} (h : worldStep w l = some w') :
    w'.store.map = w.store.map := by
  revert h
  fun_cases worldStep w l <;> intro h
  case case1 =>
    obtain ⟨_, hl, rfl⟩ := Option.map_eq_some_iff.mp h
    exact Store.land_map hl
  case case4 =>
    cases h
    exact Store.flushDirty_map _
  all_goals cases h <;> rfl

theorem worldStep_shrinks {w w' : World} {l : Label} (h : worldStep w l = some w') : w.Shrinks w' := by
  rw [worldStep_frame h]
  exact World.SameMap.shrinks ⟨rfl, rfl, rfl, rfl, rfl⟩

section Bounds

structure World.Bounded (w : World) : Prop where
  mapped : ∀ s c, w.entries.lookup s = some c → c < w.nextCell
  full : ∀ c e, w.cells c = .full e → e < w.nextEntry

def Task.Bounded (w : World) : Task → Prop
  | .checkout _ pc =>
    (∀ c, pc.cell = some c → c < w.nextCell) ∧ ∀ e, pc.entry = some e → e < w.nextEntry
  | .reapIdle pc => ∀ e ∈ pc.victims, e < w.nextEntry
  | .offload _ _ _ | .reapUntracked _ | .purge _ => True

structure World.Extends (w w' : World) : Prop where
  nextCell : w.nextCell ≤ w'.nextCell
  nextEntry : w.nextEntry ≤ w'.nextEntry

theorem World.Shrinks.extends {w w' : World} (h : w.Shrinks w') : w.Extends w' :=
  ⟨h.nextCell.ge, h.nextEntry.ge⟩

theorem World.Shrinks.bounded {w w' : World} (h : w.Shrinks w') (hw : w.Bounded) : w'.Bounded where
  mapped s c hc := h.nextCell ▸ hw.mapped s c (h.entries s c hc)
  full c e hc := h.nextEntry ▸ hw.full c e (h.cells ▸ hc)

theorem Task.Bounded.mono {x : Task} {w w' : World} (hx : x.Bounded w) (h : w.Extends w') :
    x.Bounded w' := by
  cases x with
  | checkout s pc =>
    exact ⟨fun c hc ↦ (hx.1 c hc).trans_le h.nextCell, fun e he ↦ (hx.2 e he).trans_le h.nextEntry⟩
  | reapIdle pc => exact fun e he ↦ (hx e he).trans_le h.nextEntry
  | offload | reapUntracked | purge => trivial

variable {a : Answer} {t : ℕ} {s : Schema} {w w' : World} {pc pc' : CkPc}

theorem CkMove.extends (h : CkMove a t s w w' pc pc') : w.Extends w' := by
  cases h with
  | keep hw => exact hw.shrinks.extends
  | ensure h => exact (ensureStep_sameMap h).shrinks.extends
  | miss _ hw =>
    subst hw
    exact ⟨Nat.le_succ _, le_rfl⟩
  | fill hw =>
    subst hw
    exact ⟨le_rfl, Nat.le_succ _⟩
  | warm _ _ hw | acquire _ _ _ _ _ _ hw | release _ _ _ _ _ _ hw | evict _ hw | start _ hw | reset hw =>
    subst hw
    exact ⟨le_rfl, le_rfl⟩

theorem CkMove.world_bounded (h : CkMove a t s w w' pc pc') (hw : w.Bounded) : w'.Bounded := by
  cases h with
  | keep hs => exact hs.shrinks.bounded hw
  | ensure h => exact (ensureStep_sameMap h).shrinks.bounded hw
  | miss _ heq =>
    subst heq
    constructor
    · intro r c hc
      by_cases hr : r = s
      · subst hr
        obtain rfl : w.nextCell = c := by simpa [World.openCell] using hc
        exact Nat.lt_succ_self _
      · rw [World.openCell, AList.lookup_insert_ne hr] at hc
        exact (hw.mapped r c hc).trans (Nat.lt_succ_self _)
    · intro c e hc
      by_cases hn : c = w.nextCell
      · simp [World.openCell, hn] at hc
      · exact hw.full c e (by simpa [World.openCell, hn] using hc)
  | warm _ _ heq | acquire _ _ _ _ _ _ heq | release _ _ _ _ _ _ heq =>
    subst heq
    exact ⟨hw.mapped, hw.full⟩
  | evict _ heq =>
    subst heq
    exact ⟨fun r c hc ↦ hw.mapped r c (lookup_of_lookup_erase hc), hw.full⟩
  | start _ heq | reset heq =>
    subst heq
    refine ⟨hw.mapped, fun d e hd ↦ ?_⟩
    simp only [update_apply] at hd
    split at hd
    · cases hd
    · exact hw.full d e hd
  | fill heq =>
    subst heq
    refine ⟨hw.mapped, fun d e hd ↦ ?_⟩
    simp only [World.openEntry, update_apply] at hd
    split at hd
    · cases hd
      exact Nat.lt_succ_self _
    · exact (hw.full d e hd).trans (Nat.lt_succ_self _)

theorem CkMove.task_bounded (h : CkMove a t s w w' pc pc') (hw : w.Bounded)
    (hx : (Task.checkout s pc).Bounded w) : (Task.checkout s pc').Bounded w' := by
  have hext := h.extends
  obtain ⟨hcell, hentry⟩ := hx
  cases h with
  | keep hs _ entry cell =>
    refine ⟨fun c hc ↦ hs.nextCell ▸ ?_, fun e he ↦ hs.nextEntry ▸ ?_⟩
    · exact (cell c hc).elim (hcell c) (hw.mapped s c)
    · exact (entry e he).elim (hentry e) fun ⟨c, _, hc⟩ ↦ hw.full c e hc
  | ensure h => exact ⟨fun c hc ↦ (hcell c hc).trans_le hext.nextCell, by simp [CkPc.entry]⟩
  | miss _ heq =>
    subst heq
    exact ⟨by simp [CkPc.cell, World.openCell], by simp [CkPc.entry]⟩
  | warm _ hc heq =>
    subst heq
    refine ⟨by simp [CkPc.cell], fun e he ↦ ?_⟩
    obtain rfl : _ = e := by simpa [CkPc.entry] using he
    exact hw.full _ _ hc
  | acquire entry _ entry' _ cell _ heq =>
    subst heq
    exact ⟨by simp [cell], fun e he ↦ hentry e (by rw [entry, ← entry', he])⟩
  | release _ entry' _ cell _ _ heq => exact ⟨by simp [cell], by simp [entry']⟩
  | evict | reset => exact ⟨by simp [CkPc.cell], by simp [CkPc.entry]⟩
  | start hc heq =>
    subst heq
    exact ⟨hcell, by simp [CkPc.entry]⟩
  | fill heq =>
    subst heq
    exact ⟨by simp [CkPc.cell], by simp [CkPc.entry, World.openEntry]⟩

end Bounds

section Counting

theorem CkPc.entry_of_guard {pc : CkPc} {e : ℕ} (h : pc.guard = some e) : pc.entry = some e := by
  cases pc <;> simp_all [CkPc.guard, CkPc.entry]

/-- `active` counts the guards of every entry. -/
def World.Counted (w : World) : Prop := ∀ e, (w.ents e).active = (w.ents e).guards.length

def Task.Registered (w : World) (t : ℕ) : Task → Prop
  | .checkout _ pc => ∀ e, pc.guard = some e → t ∈ (w.ents e).guards
  | .offload _ _ _ | .reapIdle _ | .reapUntracked _ | .purge _ => True

theorem Task.Registered.congr {w w' : World} {t : ℕ} {x : Task} (hx : x.Registered w t)
    (h : w'.ents = w.ents) : x.Registered w' t := by
  cases x with
  | checkout s pc => exact fun e he ↦ h ▸ hx e he
  | offload | reapIdle | reapUntracked | purge => trivial

variable {a : Answer} {t : ℕ} {s : Schema} {w w' : World} {pc pc' : CkPc}

theorem CkMove.counted (h : CkMove a t s w w' pc pc') (hw : w.Counted)
    (hx : (Task.checkout s pc).Registered w t) : w'.Counted := by
  intro d
  cases h with
  | keep hs => rw [hs.ents, hw d]
  | ensure h => rw [(ensureStep_sameMap h).ents, hw d]
  | miss _ heq | evict _ heq | start _ heq | reset heq =>
    subst heq
    exact hw d
  | warm _ _ heq =>
    subst heq
    simp only [World.modEntry, update_apply]
    split
    · subst d
      exact hw _
    · exact hw d
  | acquire _ _ _ _ _ _ heq =>
    subst heq
    simp only [World.modEntry, update_apply]
    split
    · simp [SchemaEntry.acquire, hw _]
    · exact hw d
  | release guard _ _ _ _ _ heq =>
    subst heq
    simp only [World.modEntry, update_apply]
    split
    · simp [SchemaEntry.release, hw _, List.length_erase_of_mem (hx _ guard)]
    · exact hw d
  | fill heq =>
    subst heq
    simp only [World.openEntry, update_apply]
    split
    · rfl
    · exact hw d

theorem CkMove.registered (h : CkMove a t s w w' pc pc')
    (hb : (Task.checkout s pc).Bounded w) (hx : (Task.checkout s pc).Registered w t) :
    (Task.checkout s pc').Registered w' t := by
  intro d hd
  cases h with
  | keep hs guard => exact hs.ents ▸ hx d (guard ▸ hd)
  | acquire _ _ _ guard' _ _ heq =>
    subst heq
    obtain rfl := Option.some.inj (guard'.symm.trans hd)
    simp [World.modEntry, SchemaEntry.acquire]
  | release _ _ guard' => simp [guard'] at hd
  | ensure | miss | warm | evict | start | fill | reset => simp [CkPc.guard] at hd

theorem CkMove.registered_of_ne (h : CkMove a t s w w' pc pc') {j : ℕ} (hj : j ≠ t) {x : Task}
    (hb : x.Bounded w) (hx : x.Registered w j) : x.Registered w' j := by
  cases x with
  | offload | reapIdle | reapUntracked | purge => trivial
  | checkout r p =>
    intro d hd
    have hmem := hx d hd
    cases h with
    | keep hs => exact hs.ents ▸ hmem
    | ensure h => exact (ensureStep_sameMap h).ents ▸ hmem
    | miss _ heq | evict _ heq | start _ heq | reset heq =>
      subst heq
      exact hmem
    | warm _ _ heq =>
      subst heq
      simp only [World.modEntry, update_apply]
      split
      · subst d
        exact hmem
      · exact hmem
    | acquire _ _ _ _ _ _ heq =>
      subst heq
      simp only [World.modEntry, update_apply]
      split
      · subst d
        exact List.mem_cons_of_mem _ hmem
      · exact hmem
    | release _ _ _ _ _ _ heq =>
      subst heq
      simp only [World.modEntry, update_apply]
      split
      · subst d
        exact (List.mem_erase_of_ne hj).mpr hmem
      · exact hmem
    | fill heq =>
      subst heq
      have hlt := hb.2 d (CkPc.entry_of_guard hd)
      simpa [World.openEntry, hlt.ne] using hmem

end Counting

section Holders

variable {cfg : Config} {s : Schema} {kind : OffloadKind} {w w' : World} {pc pc' : OffPc} {a : Answer}

theorem Route.afterClaim_holds (r : Route) : r.afterClaim.holds = true := by
  cases r <;> rfl

theorem OffMove.archiving (h : OffMove a s w w' pc pc') :
    (w'.archiving = w.archiving ∧ (pc'.holds = true → pc.holds = true)) ∨
      ((∃ r, pc = .claim r) ∧ pc'.holds = true ∧ w.archiving s = false ∧
        w'.archiving = update w.archiving s true) := by
  cases h with
  | other hw holds =>
    rw [hw]
    exact .inl ⟨rfl, holds⟩
  | @claim r hs hw =>
    subst hw
    exact .inr ⟨⟨r, rfl⟩, r.afterClaim_holds, hs, rfl⟩
  | @evict r _ h =>
    obtain rfl : (offEvict s r w).1 = w' := by rw [h]
    rw [offEvict_frame]
    exact .inl ⟨rfl, fun _ ↦ rfl⟩
  | ensure h =>
    rw [ensureStep_frame h]
    exact .inl ⟨rfl, fun _ ↦ rfl⟩
  | bind _ hw | flip _ hw | missing _ hw | write _ _ hw =>
    subst hw
    exact .inl ⟨rfl, fun _ ↦ rfl⟩

theorem offStep_archiving (h : offStep cfg s kind w pc a = some (w', pc')) :
    (pc'.holds = pc.holds ∧ w'.archiving = w.archiving) ∨
    ((∃ r, pc = .claim r) ∧ pc'.holds = true ∧ w.archiving s = false ∧
      w'.archiving = update w.archiving s true) ∨
    (pc'.holds = false ∧ pc.holds = true ∧ w'.archiving = update w.archiving s false) := by
  obtain ⟨⟨u, p⟩, hu, heq⟩ := Option.map_eq_some_iff.mp h
  cases heq
  rcases (offCore_move hu).archiving with ⟨hw, hh⟩ | ⟨⟨r, rfl⟩, hp', hs, hw⟩
  · cases hp : pc.holds <;> cases hp' : p.holds <;> simp_all
  · simp [show (OffPc.claim r).holds = false from rfl, hp', hs, hw]

end Holders

section Sound

/-- What every task keeps: its references are allocated and its guard is counted. -/
def Task.Fits (w : World) (t : ℕ) (x : Task) : Prop := x.Bounded w ∧ x.Registered w t

theorem Task.fits_of_initial {x : Task} (h : x.initial = true) (w : World) (t : ℕ) : x.Fits w t := by
  obtain ⟨_, rfl⟩ | ⟨_, _, rfl⟩ | rfl | rfl | rfl := Task.initial_cases h
  · exact ⟨⟨by simp [CkPc.cell], by simp [CkPc.entry]⟩, by simp [Task.Registered, CkPc.guard]⟩
  · exact ⟨trivial, trivial⟩
  · exact ⟨by simp [Task.Bounded, IdlePc.victims], trivial⟩
  · exact ⟨trivial, trivial⟩
  · exact ⟨trivial, trivial⟩

theorem Task.Fits.of_shrinks {w w' : World} {t : ℕ} {x : Task} (h : x.Fits w t) (hw : w.Shrinks w') :
    x.Fits w' t :=
  ⟨h.1.mono hw.extends, h.2.congr hw.ents⟩

theorem World.Shrinks.counted {w w' : World} (h : w.Shrinks w') (hw : w.Counted) : w'.Counted :=
  fun e ↦ by rw [h.ents, hw e]

theorem mem_idleVictims {cfg : Config} {w : World} {keys : List Schema} {s : Schema} {e : ℕ}
    (h : (s, e) ∈ w.idleVictims cfg keys) :
    ∃ c, w.entries.lookup s = some c ∧ w.cells c = .full e ∧
      (w.ents e).isIdle (cfg.jitter s cfg.idleTimeout) w.now = true := by
  have hmem : (s, e) ∈ w.expired cfg keys := by
    simpa using List.mem_of_mem_take h
  obtain ⟨r, -, hr⟩ := List.mem_filterMap.mp hmem
  split at hr
  · rename_i d hd
    obtain ⟨c, hc, hfull⟩ := Option.map_eq_some_iff.mp hd
    simp only [Option.ite_none_right_eq_some, Option.some.injEq, Prod.mk.injEq] at hr
    obtain ⟨hidle, rfl, rfl⟩ := hr
    exact ⟨c, hc, hfull, hidle⟩
  · cases hr

theorem idleStep_victims {cfg : Config} {w w' : World} {pc pc' : IdlePc} {a : Answer} {e : ℕ}
    (h : idleStep cfg w pc a = some (w', pc')) (he : e ∈ pc'.victims) :
    e ∈ pc.victims ∨ ∃ keys s, pc = .lockEntries ∧ a = .order keys ∧ (s, e) ∈ w.idleVictims cfg keys := by
  revert h
  fun_cases idleStep cfg w pc a <;> intro h <;> cases h
  case case1 keys _ victims =>
    obtain ⟨⟨s, d⟩, hmem, rfl⟩ := List.mem_map.mp he
    exact .inr ⟨keys, s, rfl, rfl, hmem⟩
  case case6 | case7 => exact .inl (List.mem_cons_of_mem _ he)
  all_goals exact .inl he

structure State.Sound (st : State) : Prop where
  world : st.world.Bounded
  counted : st.world.Counted
  fits : ∀ (t : ℕ) (x : Task), st.tasks[t]? = some x → x.Fits st.world t

variable {cfg : Config} {st st' : State} {l : Label}

theorem State.Sound.of_shrinks (h : st.Sound) {w' : World} (hw : st.world.Shrinks w') {t : ℕ}
    {x : Task} (hx : x.Fits w' t) : State.Sound ⟨w', st.tasks.set t x⟩ where
  world := hw.bounded h.world
  counted := hw.counted h.counted
  fits := forall_set hx fun j y _ hy ↦ (h.fits j y hy).of_shrinks hw

theorem State.Sound.step (h : st.Sound) (hs : Step cfg st l st') : st'.Sound := by
  cases hs with
  | spawn hx => exact ⟨h.world, h.counted, forall_append (Task.fits_of_initial hx _ _) h.fits⟩
  | checkout ht hck =>
    have hmove := ckStep_move hck
    have hfits := h.fits _ _ ht
    refine ⟨hmove.world_bounded h.world, hmove.counted h.counted hfits.2, forall_set ?_ ?_⟩
    · exact ⟨hmove.task_bounded h.world hfits.1, hmove.registered hfits.1 hfits.2⟩
    · intro j y hj hy
      have hy := h.fits j y hy
      exact ⟨hy.1.mono hmove.extends, hmove.registered_of_ne hj hy.1 hy.2⟩
  | offload ht ho => exact h.of_shrinks (offStep_shrinks ho) ⟨trivial, trivial⟩
  | reapIdle ht hi =>
    have hw := idleStep_shrinks hi
    refine h.of_shrinks hw ⟨fun e he ↦ hw.nextEntry ▸ ?_, trivial⟩
    rcases idleStep_victims hi he with he | ⟨keys, s, -, -, he⟩
    · exact (h.fits _ _ ht).1 e he
    · obtain ⟨c, -, hc, -⟩ := mem_idleVictims he
      exact h.world.full c e hc
  | reapUntracked ht hu => exact h.of_shrinks (untrackedStep_shrinks hu) ⟨trivial, trivial⟩
  | purge ht hp => exact h.of_shrinks (purgeStep_shrinks hp) ⟨trivial, trivial⟩
  | outside hw =>
    have hs := worldStep_shrinks hw
    exact ⟨hs.bounded h.world, hs.counted h.counted, fun j y hy ↦ (h.fits j y hy).of_shrinks hs⟩

theorem State.sound_boot (w : World) : (State.boot w).Sound where
  world := ⟨fun s c hc ↦ by simp [State.boot, World.boot] at hc, fun c e hc ↦ by cases hc⟩
  counted _ := rfl
  fits t x hx := by simp [State.boot] at hx

theorem Reaches.sound {ok : State → Label → Prop} {w : World} (h : Reaches cfg ok w st) : st.Sound :=
  Run.invariant h (State.sound_boot w) fun _ _ _ hs _ hstep ↦ hs.step (step_sound hstep)

theorem ckStep_store {t : ℕ} {s : Schema} {w w' : World} {pc pc' : CkPc} {a : Answer}
    (h : ckStep cfg t s w pc a = some (w', pc')) : w'.store = w.store ∨
      w'.store = w.store.touch s w.unix ∨
      ∃ e r, pc = .recordBinding e r ∧ w'.store = w.store.put s (w.ents e).sandbox w.unix := by
  revert h
  fun_cases ckStep cfg t s w pc a <;> intro h <;> (try cases h)
  case case1 => exact .inr (.inl rfl)
  case case11 => split <;> exact .inl rfl
  case case24 =>
    obtain ⟨_, hx, heq⟩ := Option.map_eq_some_iff.mp h
    cases heq
    rw [ensureStep_frame hx]
    exact .inl rfl
  case case25 => exact .inr (.inr ⟨_, _, rfl, rfl⟩)
  case case27 =>
    rw [World.dropThawed_frame]
    exact .inl rfl
  all_goals exact .inl rfl

theorem ckStep_archiving {t : ℕ} {s : Schema} {w w' : World} {pc pc' : CkPc} {a : Answer}
    (h : ckStep cfg t s w pc a = some (w', pc')) : w'.archiving = w.archiving := by
  revert h
  fun_cases ckStep cfg t s w pc a <;> intro h <;> (try cases h)
  case case11 => split <;> rfl
  case case24 =>
    obtain ⟨r, hr, hp⟩ := Option.map_eq_some_iff.mp h
    cases hp
    exact (congrArg World.archiving (ensureStep_frame hr) :)
  case case27 => rw [World.dropThawed_frame]
  all_goals rfl

/-- The schema whose `ArchivingGuard` a task holds. -/
def Task.archives : Task → Option Schema
  | .offload s _ pc => if pc.holds then some s else none
  | .checkout _ _ | .reapIdle _ | .reapUntracked _ | .purge _ => none

/-- One offload at a time holds a schema, and every checkout can see it. -/
def State.Exclusive (st : State) : Prop :=
  ∀ (t : ℕ) (x : Task) (s : Schema), st.tasks[t]? = some x → x.archives = some s →
    st.world.archiving s = true ∧
      ∀ (j : ℕ) (y : Task), st.tasks[j]? = some y → y.archives = some s → j = t

theorem State.Exclusive.set (h : st.Exclusive) {t : ℕ} {x x' : Task} {w' : World}
    (ht : st.tasks[t]? = some x) (hx : x'.archives = x.archives)
    (hw : w'.archiving = st.world.archiving) : State.Exclusive ⟨w', st.tasks.set t x'⟩ := by
  have hold {i : ℕ} {z : Task} (hi : (st.tasks.set t x')[i]? = some z) :
      ∃ z', st.tasks[i]? = some z' ∧ z'.archives = z.archives := by
    rcases getElem?_set_cases hi with ⟨rfl, rfl⟩ | ⟨-, hi⟩
    · exact ⟨x, ht, hx.symm⟩
    · exact ⟨z, hi, rfl⟩
  intro i y s hi hs
  obtain ⟨y', hy', heq⟩ := hold hi
  obtain ⟨harch, huniq⟩ := h i y' s hy' (heq.trans hs)
  refine ⟨by rw [hw, harch], fun j z hj hz ↦ ?_⟩
  obtain ⟨z', hz', heq⟩ := hold hj
  exact huniq j z' hz' (heq.trans hz)

theorem State.Exclusive.claim (h : st.Exclusive) {t : ℕ} {x' : Task} {w' : World} {s : Schema}
    (hx : x'.archives = some s) (hs : st.world.archiving s = false)
    (hw : w'.archiving = update st.world.archiving s true) :
    State.Exclusive ⟨w', st.tasks.set t x'⟩ := by
  intro i y r hi hr
  rcases getElem?_set_cases hi with ⟨rfl, rfl⟩ | ⟨hne, hi⟩
  · obtain rfl := Option.some.inj (hx.symm.trans hr)
    refine ⟨by simp [hw], fun j z hj hz ↦ ?_⟩
    rcases getElem?_set_cases hj with ⟨rfl, -⟩ | ⟨-, hj⟩
    · rfl
    · exact absurd (h j z s hj hz).1 (by simp [hs])
  · obtain ⟨harch, huniq⟩ := h i y r hi hr
    have hrs : r ≠ s := by
      rintro rfl
      simp [hs] at harch
    refine ⟨by simp [hw, update_of_ne hrs, harch], fun j z hj hz ↦ ?_⟩
    rcases getElem?_set_cases hj with ⟨rfl, rfl⟩ | ⟨-, hj⟩
    · exact absurd (Option.some.inj (hz.symm.trans hx)) hrs
    · exact huniq j z hj hz

theorem State.Exclusive.drop (h : st.Exclusive) {t : ℕ} {x x' : Task} {w' : World} {s : Schema}
    (ht : st.tasks[t]? = some x) (hx : x.archives = some s) (hx' : x'.archives = none)
    (hw : w'.archiving = update st.world.archiving s false) :
    State.Exclusive ⟨w', st.tasks.set t x'⟩ := by
  intro i y r hi hr
  rcases getElem?_set_cases hi with ⟨-, rfl⟩ | ⟨hne, hi⟩
  · simp [hx'] at hr
  · obtain ⟨harch, huniq⟩ := h i y r hi hr
    have hrs : r ≠ s := by
      rintro rfl
      exact hne (huniq t x ht hx).symm
    refine ⟨by simp [hw, update_of_ne hrs, harch], fun j z hj hz ↦ ?_⟩
    rcases getElem?_set_cases hj with ⟨-, rfl⟩ | ⟨-, hj⟩
    · simp [hx'] at hz
    · exact huniq j z hj hz

theorem Task.archives_of_initial {x : Task} (h : x.initial = true) : x.archives = none := by
  obtain ⟨_, rfl⟩ | ⟨_, _, rfl⟩ | rfl | rfl | rfl := Task.initial_cases h <;> rfl

theorem State.Exclusive.step (h : st.Exclusive) (hs : Step cfg st l st') : st'.Exclusive := by
  cases hs with
  | @spawn x hx =>
    have hx := Task.archives_of_initial hx
    intro t y s ht hs
    rcases getElem?_append_cases ht with ⟨-, rfl⟩ | ht
    · simp [hx] at hs
    · refine ⟨(h t y s ht hs).1, fun j z hj hz ↦ ?_⟩
      rcases getElem?_append_cases hj with ⟨-, rfl⟩ | hj
      · simp [hx] at hz
      · exact (h t y s ht hs).2 j z hj hz
  | checkout ht hck => exact h.set ht rfl (ckStep_archiving hck)
  | @offload t a s kind pc pc' w' ht ho =>
    rcases offStep_archiving ho with ⟨hp, hw⟩ | ⟨-, hp, hs, hw⟩ | ⟨hp', hp, hw⟩
    · exact h.set ht (by simp [Task.archives, hp]) hw
    · exact h.claim (by simp [Task.archives, hp]) hs hw
    · exact h.drop ht (by simp [Task.archives, hp]) (by simp [Task.archives, hp']) hw
  | reapIdle ht hi => exact h.set ht rfl (by rw [idleStep_frame hi])
  | reapUntracked ht hu => exact h.set ht rfl (by rw [untrackedStep_world hu])
  | purge ht hp => exact h.set ht rfl (by rw [purgeStep_frame hp])
  | outside hw =>
    rw [worldStep_frame hw]
    exact h

theorem Reaches.exclusive {ok : State → Label → Prop} {w : World} (h : Reaches cfg ok w st) :
    st.Exclusive :=
  Run.invariant h (fun t x s ht ↦ by simp [State.boot] at ht)
    fun _ _ _ hs _ hstep ↦ hs.step (step_sound hstep)

theorem State.Sound.active_pos (h : st.Sound) {t e : ℕ} {s : Schema} {pc : CkPc}
    (ht : st.tasks[t]? = some (.checkout s pc)) (hg : pc.guard = some e) :
    0 < (st.world.ents e).active := by
  rw [h.counted e]
  exact List.length_pos_of_mem ((h.fits t _ ht).2 e hg)

end Sound

end PgVmPool
