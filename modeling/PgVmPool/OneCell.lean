import PgVmPool.Guards

namespace PgVmPool

open Function Transition

/-- The cell a lookup of `s` returns, and its state. -/
def World.zone (w : World) (s : Schema) : Option (ℕ × Cell) :=
  (w.entries.lookup s).map fun c ↦ (c, w.cells c)

/-- How task `t` can move a `OnceCell`; `n` is the next one to be made. -/
inductive CellMove (t n : ℕ) : Option (ℕ × Cell) → Option (ℕ × Cell) → Prop
  | same (z : Option (ℕ × Cell)) : CellMove t n z z
  | make : CellMove t n none (some (n, .empty))
  | start (c : ℕ) : CellMove t n (some (c, .empty)) (some (c, .busy t))
  | fill (c e : ℕ) : CellMove t n (some (c, .busy t)) (some (c, .full e))
  | reset (c : ℕ) : CellMove t n (some (c, .busy t)) (some (c, .empty))

/-- What a checkout of the cell's schema knows of the cell. -/
structure CkPc.Agrees (t : ℕ) (z : Option (ℕ × Cell)) (ck : CkPc) : Prop where
  cell : ∀ c, ck.cell = some c → z.map Prod.fst = some c
  entry : ∀ e, ck.entry = some e → z.map Prod.snd = some (.full e)
  busy : ∀ c b p, ck = .bringUp c b p → z.map Prod.snd = some (.busy t)

def CkPc.Foreign (z : Option (ℕ × Cell)) (ck : CkPc) : Prop :=
  ∀ c, ck.cell = some c → z.map Prod.fst ≠ some c

section Cells

variable {t n j : ℕ} {z z' : Option (ℕ × Cell)} {ck : CkPc}

theorem CellMove.agrees (h : CellMove t n z z') (hj : j ≠ t) (ha : ck.Agrees j z) : ck.Agrees j z' := by
  cases h with
  | same => exact ha
  | make =>
    refine ⟨fun c hc ↦ ?_, fun e he ↦ ?_, fun c b p hp ↦ ?_⟩
    · cases ha.cell c hc
    · cases ha.entry e he
    · cases ha.busy c b p hp
  | start c =>
    refine ⟨ha.cell, fun e he ↦ ?_, fun c b p hp ↦ ?_⟩
    · cases ha.entry e he
    · cases ha.busy c b p hp
  | fill c e | reset c =>
    refine ⟨ha.cell, fun e he ↦ ?_, fun c b p hp ↦ ?_⟩
    · cases ha.entry e he
    · cases ha.busy c b p hp
      exact absurd rfl hj

theorem CellMove.fst (h : CellMove t n z z') {c : ℕ} (hc : z'.map Prod.fst = some c) :
    z.map Prod.fst = some c ∨ c = n := by
  cases h with
  | make => exact .inr (Option.some.inj hc).symm
  | same | start | fill | reset => exact .inl hc

theorem CellMove.foreign (h : CellMove t n z z') (hf : ck.Foreign z) (hn : ∀ c, ck.cell = some c → c < n) :
    ck.Foreign z' := by
  cases h with
  | same => exact hf
  | make =>
    intro c hc heq
    obtain rfl : n = c := by simpa using heq
    exact (hn n hc).ne rfl
  | start | fill | reset => exact hf

end Cells

section Moves

variable {a : Answer} {t : ℕ} {r s : Schema} {w w' : World} {pc pc' : CkPc}

theorem World.zone_congr (he : w'.entries.lookup s = w.entries.lookup s)
    (hc : ∀ c, w.entries.lookup s = some c → w'.cells c = w.cells c) : w'.zone s = w.zone s := by
  unfold World.zone
  rw [he]
  cases hl : w.entries.lookup s with
  | none => rfl
  | some c => simp [hc c hl]

theorem World.zone_fst {c : ℕ} : (w.zone s).map Prod.fst = some c ↔ w.entries.lookup s = some c := by
  simp [World.zone, Option.map_map, Function.comp_def]

theorem World.zone_eq {c : ℕ} (h : w.entries.lookup s = some c) : w.zone s = some (c, w.cells c) := by
  simp [World.zone, h]

theorem World.SameMap.zone (h : w.SameMap w') (s : Schema) : w'.zone s = w.zone s :=
  World.zone_congr (by rw [h.entries]) fun c _ ↦ by rw [h.cells]

theorem World.Shrinks.zone (h : w.Shrinks w')
    (hkeep : ∀ c, w.entries.lookup s = some c → w'.entries.lookup s = some c) :
    w'.zone s = w.zone s := by
  refine World.zone_congr ?_ fun c _ ↦ by rw [h.cells]
  cases hl : w.entries.lookup s with
  | some c => exact hkeep c hl
  | none =>
    cases hl' : w'.entries.lookup s with
    | none => rfl
    | some c => simp [h.entries s c hl'] at hl

theorem CkMove.own (h : CkMove a t s w w' pc pc') (ha : pc.Agrees t (w.zone s))
    (hkeep : ∀ c, w.entries.lookup s = some c → w'.entries.lookup s = some c) :
    CellMove t w.nextCell (w.zone s) (w'.zone s) ∧ pc'.Agrees t (w'.zone s) := by
  cases h with
  | keep hs guard entry cell _ fresh =>
    rw [hs.zone s]
    refine ⟨.same _, fun c hc ↦ ?_, fun e he ↦ ?_, fun c b p hp ↦ absurd hp (fresh c b p)⟩
    · exact (cell c hc).elim (ha.cell c) World.zone_fst.mpr
    · rcases entry e he with he | ⟨c, hc, hfull⟩
      · exact ha.entry e he
      · rw [World.zone_eq (World.zone_fst.mp (ha.cell c hc)), hfull]
        rfl
  | @ensure c b p p' h =>
    rw [(ensureStep_sameMap h).zone s]
    exact ⟨.same _, ha.cell, by simp [CkPc.entry], fun _ _ _ _ ↦ ha.busy c b p rfl⟩
  | miss hnone heq =>
    subst heq
    have hz : w.zone s = none := by simp [World.zone, hnone]
    have hz' : (w.openCell s).zone s = some (w.nextCell, .empty) := by
      simp [World.zone, World.openCell]
    rw [hz, hz']
    refine ⟨.make, fun c hc ↦ ?_, by simp [CkPc.entry], by simp⟩
    simpa [CkPc.cell] using hc
  | @warm c e hl hc heq =>
    subst heq
    refine ⟨.same _, by simp [CkPc.cell], fun d hd ↦ ?_, by simp⟩
    obtain rfl : e = d := by simpa [CkPc.entry] using hd
    exact (congrArg (Option.map Prod.snd) (World.zone_eq hl)).trans (congrArg some hc)
  | acquire entry _ entry' _ cell _ heq =>
    subst heq
    refine ⟨.same _, by simp [cell], fun d hd ↦ ?_, fun c b p hp ↦ ?_⟩
    · exact ha.entry d (by rw [entry, ← entry', hd])
    · simp [hp, CkPc.cell] at cell
  | release _ entry' _ cell _ _ heq =>
    subst heq
    refine ⟨.same _, by simp [cell], by simp [entry'], fun c b p hp ↦ ?_⟩
    simp [hp, CkPc.cell] at cell
  | evict hl heq =>
    subst heq
    simpa using hkeep _ hl
  | @start c b hc heq =>
    subst heq
    have hl := World.zone_fst.mp (ha.cell c rfl)
    have hz : w.zone s = some (c, .empty) := by rw [World.zone_eq hl, hc]
    have hz' : World.zone { w with cells := update w.cells c (.busy t) } s = some (c, .busy t) := by
      simp [World.zone, hl]
    rw [hz, hz']
    exact ⟨.start c, fun d hd ↦ hd, by simp [CkPc.entry], fun _ _ _ _ ↦ rfl⟩
  | @fill c n b id k heq =>
    subst heq
    have hl := World.zone_fst.mp (ha.cell c rfl)
    have hbusy := ha.busy c b _ rfl
    have hz : w.zone s = some (c, .busy t) := by
      rw [World.zone_eq hl] at hbusy ⊢
      simpa using hbusy
    have hz' : (w.openEntry c id k n).zone s = some (c, .full w.nextEntry) := by
      simp [World.zone, World.openEntry, hl]
    rw [hz, hz']
    refine ⟨.fill c _, by simp [CkPc.cell], fun e he ↦ ?_, by simp⟩
    obtain rfl : w.nextEntry = e := by simpa [CkPc.entry] using he
    rfl
  | @reset c b heq =>
    subst heq
    have hl := World.zone_fst.mp (ha.cell c rfl)
    have hbusy := ha.busy c b _ rfl
    have hz : w.zone s = some (c, .busy t) := by
      rw [World.zone_eq hl] at hbusy ⊢
      simpa using hbusy
    have hz' : World.zone { w with cells := update w.cells c .empty } s = some (c, .empty) := by
      simp [World.zone, hl]
    rw [hz, hz']
    exact ⟨.reset c, by simp [CkPc.cell], by simp [CkPc.entry], by simp⟩

theorem CkMove.zone_of_ne (h : CkMove a t r w w' pc pc') (hr : r ≠ s) (hw : w.Bounded)
    (hf : pc.Foreign (w.zone s)) : w'.zone s = w.zone s := by
  have hcells {c : ℕ} {x : Cell} (hc : pc.cell = some c) (d : ℕ) (hd : w.entries.lookup s = some d) :
      update w.cells c x d = w.cells d :=
    update_of_ne (fun heq ↦ hf c hc (by rw [← heq]; exact World.zone_fst.mpr hd)) _ _
  cases h with
  | keep hs => exact hs.zone s
  | ensure h => exact (ensureStep_sameMap h).zone s
  | miss _ heq =>
    subst heq
    refine World.zone_congr (AList.lookup_insert_ne (Ne.symm hr)) fun d hd ↦ ?_
    exact update_of_ne (hw.mapped s d hd).ne _ _
  | warm _ _ heq | acquire _ _ _ _ _ _ heq | release _ _ _ _ _ _ heq =>
    subst heq
    rfl
  | evict _ heq =>
    subst heq
    exact World.zone_congr (AList.lookup_erase_ne (Ne.symm hr)) fun _ _ ↦ rfl
  | start _ heq | fill heq | reset heq =>
    subst heq
    exact World.zone_congr rfl (hcells rfl)

theorem CkMove.foreign (h : CkMove a t r w w' pc pc') (hw : w.Bounded)
    (hapart : ∀ c, w.entries.lookup r = some c → (w.zone s).map Prod.fst ≠ some c)
    (hf : pc.Foreign (w.zone s)) : pc'.Foreign (w.zone s) := by
  intro c hc
  cases h with
  | keep _ _ _ cell => exact (cell c hc).elim (hf c) (hapart c)
  | ensure | start => exact hf c hc
  | miss =>
    intro hz
    obtain rfl : w.nextCell = c := by simpa [CkPc.cell] using hc
    exact (hw.mapped s _ (World.zone_fst.mp hz)).ne rfl
  | warm | evict | fill | reset => cases hc
  | acquire _ _ _ _ cell | release _ _ _ cell => simp [cell] at hc

theorem CkMove.lookup_cases (h : CkMove a t r w w' pc pc') {q : Schema} {c : ℕ}
    (hc : w'.entries.lookup q = some c) : w.entries.lookup q = some c ∨ q = r ∧ c = w.nextCell := by
  cases h with
  | keep hs => exact .inl (by rwa [hs.entries] at hc)
  | ensure h => exact .inl (by rwa [(ensureStep_sameMap h).entries] at hc)
  | miss _ heq =>
    subst heq
    by_cases hq : q = r
    · subst hq
      exact .inr ⟨rfl, by simpa [World.openCell] using hc.symm⟩
    · exact .inl (by rwa [World.openCell, AList.lookup_insert_ne hq] at hc)
  | evict _ heq =>
    subst heq
    exact .inl (lookup_of_lookup_erase hc)
  | warm _ _ heq | acquire _ _ _ _ _ _ heq | release _ _ _ _ _ _ heq | start _ heq | fill heq
  | reset heq =>
    subst heq
    exact .inl hc

end Moves

/-- The checkouts of `s` share one `OnceCell`: once in the map it stays there. -/
def KeepsCell (cfg : Config) (s : Schema) (st : State) (l : Label) : Prop :=
  ∀ st' ∈ step cfg l st, ∀ c ∈ st.world.entries.lookup s, st'.world.entries.lookup s = some c

instance (cfg : Config) (s : Schema) (st : State) (l : Label) : Decidable (KeepsCell cfg s st l) := by
  unfold KeepsCell
  infer_instance

section Runs

variable {cfg : Config} {s : Schema} {st st' : State} {l : Label}

structure State.OneCell (s : Schema) (st : State) : Prop where
  apart : ∀ r, r ≠ s → ∀ c, st.world.entries.lookup r = some c →
    (st.world.zone s).map Prod.fst ≠ some c
  own : ∀ (t : ℕ) (ck : CkPc), st.tasks[t]? = some (.checkout s ck) → ck.Agrees t (st.world.zone s)
  foreign : ∀ (t : ℕ) (r : Schema) (ck : CkPc), r ≠ s → st.tasks[t]? = some (.checkout r ck) →
    ck.Foreign (st.world.zone s)

theorem State.OneCell.of_shrinks (h : st.OneCell s) {w' : World} (hw : st.world.Shrinks w')
    (hkeep : ∀ c, st.world.entries.lookup s = some c → w'.entries.lookup s = some c) {ts : List Task}
    (hts : ∀ (j : ℕ) (r : Schema) (ck : CkPc), ts[j]? = some (.checkout r ck) →
      st.tasks[j]? = some (.checkout r ck) ∨ ck = .touch) : State.OneCell s ⟨w', ts⟩ := by
  have hz := hw.zone hkeep
  refine ⟨fun r hr c hc ↦ ?_, fun t ck ht ↦ ?_, fun t r ck hr ht ↦ ?_⟩
  · rw [hz]
    exact h.apart r hr c (hw.entries r c hc)
  · rw [hz]
    rcases hts t s ck ht with ht | rfl
    · exact h.own t ck ht
    · exact ⟨by simp [CkPc.cell], by simp [CkPc.entry], by simp⟩
  · rw [hz]
    rcases hts t r ck ht with ht | rfl
    · exact h.foreign t r ck hr ht
    · simp [CkPc.Foreign, CkPc.cell]

theorem State.OneCell.own_step (h : st.OneCell s) (hsound : st.Sound) {t : ℕ} {a : Answer}
    {ck ck' : CkPc} {w' : World}
    (hkeep : ∀ c, st.world.entries.lookup s = some c → w'.entries.lookup s = some c)
    (ht : st.tasks[t]? = some (.checkout s ck)) (hmove : CkMove a t s st.world w' ck ck') :
    State.OneCell s ⟨w', st.tasks.set t (.checkout s ck')⟩ := by
  obtain ⟨hcell, hck'⟩ := hmove.own (h.own t ck ht) hkeep
  refine ⟨fun r hr c hc hz ↦ ?_, fun j cj hj ↦ ?_, fun j r cj hr hj ↦ ?_⟩
  · rcases hmove.lookup_cases hc with hc | ⟨rfl, -⟩
    · rcases hcell.fst hz with hz | rfl
      · exact h.apart r hr c hc hz
      · exact (hsound.world.mapped r _ hc).ne rfl
    · exact hr rfl
  · rcases getElem?_set_cases hj with ⟨rfl, heq⟩ | ⟨hne, hj⟩
    · cases heq
      exact hck'
    · exact hcell.agrees hne (h.own j cj hj)
  · rcases getElem?_set_cases hj with ⟨-, heq⟩ | ⟨-, hj⟩
    · cases heq
      exact absurd rfl hr
    · exact hcell.foreign (h.foreign j r cj hr hj) (hsound.fits j _ hj).1.1

theorem State.OneCell.foreign_step (h : st.OneCell s) (hsound : st.Sound) {t : ℕ} {a : Answer}
    {r : Schema} {ck ck' : CkPc} {w' : World} (hr : r ≠ s)
    (ht : st.tasks[t]? = some (.checkout r ck)) (hmove : CkMove a t r st.world w' ck ck') :
    State.OneCell s ⟨w', st.tasks.set t (.checkout r ck')⟩ := by
  have hf := h.foreign t r ck hr ht
  have hz : w'.zone s = st.world.zone s := hmove.zone_of_ne hr hsound.world hf
  refine ⟨fun q hq c hc ↦ ?_, fun j cj hj ↦ ?_, fun j q cj hq hj ↦ ?_⟩
  · rw [hz]
    rcases hmove.lookup_cases hc with hc | ⟨-, rfl⟩
    · exact h.apart q hq c hc
    · exact fun heq ↦ (hsound.world.mapped s _ (World.zone_fst.mp heq)).ne rfl
  · rw [hz]
    rcases getElem?_set_cases hj with ⟨-, heq⟩ | ⟨-, hj⟩
    · cases heq
      exact absurd rfl hr
    · exact h.own j cj hj
  · rw [hz]
    rcases getElem?_set_cases hj with ⟨-, heq⟩ | ⟨-, hj⟩
    · cases heq
      exact hmove.foreign hsound.world (h.apart r hr) hf
    · exact h.foreign j q cj hq hj

theorem State.OneCell.step (h : st.OneCell s) (hsound : st.Sound) (hok : KeepsCell cfg s st l)
    (hstep : PgVmPool.step cfg l st = some st') : st'.OneCell s := by
  have hkeep : ∀ c, st.world.entries.lookup s = some c → st'.world.entries.lookup s = some c :=
    fun c hc ↦ hok st' hstep c hc
  have hset {t : ℕ} {x : Task} (hx : ∀ r ck, x ≠ .checkout r ck) (j : ℕ) (r : Schema) (ck : CkPc)
      (hj : (st.tasks.set t x)[j]? = some (.checkout r ck)) :
      st.tasks[j]? = some (.checkout r ck) ∨ ck = .touch := by
    rcases getElem?_set_cases hj with ⟨-, heq⟩ | ⟨-, hj⟩
    · exact absurd heq.symm (hx r ck)
    · exact .inl hj
  cases step_sound hstep with
  | spawn hx =>
    refine h.of_shrinks (World.SameMap.refl _).shrinks (fun _ ↦ id) fun j r ck hj ↦ ?_
    rcases getElem?_append_cases hj with ⟨-, rfl⟩ | hj
    · exact .inr (Task.eq_touch_of_initial hx)
    · exact .inl hj
  | @checkout t a r ck ck' w' ht hck =>
    by_cases hr : r = s
    · subst hr
      exact h.own_step hsound hkeep ht (ckStep_move hck)
    · exact h.foreign_step hsound hr ht (ckStep_move hck)
  | offload _ ho => exact h.of_shrinks (offStep_shrinks ho) hkeep (hset (by simp))
  | reapIdle _ hi => exact h.of_shrinks (idleStep_shrinks hi) hkeep (hset (by simp))
  | reapUntracked _ hu => exact h.of_shrinks (untrackedStep_shrinks hu) hkeep (hset (by simp))
  | purge _ hp => exact h.of_shrinks (purgeStep_shrinks hp) hkeep (hset (by simp))
  | outside hw => exact h.of_shrinks (worldStep_shrinks hw) hkeep fun j r ck hj ↦ .inl hj

theorem State.oneCell_boot (s : Schema) (w : World) : (State.boot w).OneCell s where
  apart r _ c hc := by simp [State.boot, World.boot] at hc
  own t ck ht := by simp [State.boot] at ht
  foreign t r ck _ ht := by simp [State.boot] at ht

theorem Reaches.oneCell {ok : State → Label → Prop} {w : World} (h : Reaches cfg ok w st)
    (hok : ∀ st l, ok st l → KeepsCell cfg s st l) : st.OneCell s :=
  Run.invariant_of h (fun _ ↦ Reaches.sound) (State.oneCell_boot s w)
    fun _ _ _ hI hJ _ hl hstep ↦ hI.step hJ (hok _ _ hl) hstep

theorem CkPc.Agrees.vm {t : ℕ} {z : Option (ℕ × Cell)} {ck : CkPc} (h : ck.Agrees t z) {w : World}
    {v : SandboxId} (hv : ck.vm w = some v) : z.map Prod.snd ≠ some .empty := by
  intro hz
  cases he : ck.entry with
  | some e => cases hz.symm.trans (h.entry e he)
  | none =>
    cases ck with
    | bringUp c b p => cases hz.symm.trans (h.busy c b p rfl)
    | _ => simp [CkPc.vm, he] at hv

end Runs

end PgVmPool
