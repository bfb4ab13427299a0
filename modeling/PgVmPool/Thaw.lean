import PgVmPool.OneCell
import PgVmPool.Durability
import PgVmPool.Promotion
import PgVmPool.Reattach
import PgVmPool.Rows

namespace PgVmPool

open Function Transition

/-- The restore source of a tier whose copy is a local file. -/
def Tier.localSource : Tier → Option Source
  | .frozen => some .localDump
  | .compacted => some .localImage
  | .live | .archived => none

namespace World

variable (w : World)

def localCopy (s : Schema) : Tier → Option Content
  | .frozen => w.dumps s
  | .compacted => w.images s
  | .live | .archived => none

def Kept (d : Content) (v : SandboxId) : Prop := ∃ c, w.disks v = some c ∧ d.writes ⊆ c.writes

/-- An image with what the copy `d` has is ready to be swapped in. -/
def Staged (s : Schema) (d : Content) : Prop := ∃ c, w.scratch s = some c ∧ d.writes ⊆ c.writes

end World

/-- What a restart reads of the schema: a live row with a VM that has the data, or an offloaded row
whose local file is still there. -/
def State.ThawSafe (s : Schema) (d : Content) (st : State) : Prop :=
  ∀ now, ∃ r, (parse st.world.store.file now).lookup s = some r ∧
    (r.tier = .live ∧ st.world.Kept d r.sandboxId ∨ st.world.localCopy s r.tier = some d)

/-- What a restore of the copy `d` has achieved where it stands; `image` is how it restores. -/
def EnsurePc.Restores (image : Bool) (s : Schema) (d : Content) (w : World) : EnsurePc → Prop
  | .slotBudget _ id | .ok id _ | .swapStart _ id | .swapWait _ id => w.Kept d id
  | .readyPg _ id | .ensureDatabase _ id => image = true → w.Kept d id
  | .swapStop _ _ | .swapCopy _ _ => w.Staged s d
  | .takeSpare _ | .confirmSpare _ _ | .creating | .recordPending _ | .indexCreated _
  | .waitCreated _ => image = true → w.Staged s d
  | .starting _ _ | .waiting _ _ | .lookup | .findByName => image = false
  | _ => True

section Restore

variable {b : BringUp} {p p' : EnsurePc} {s : Schema} {d : Content} {w w' : World} {a : Answer}

theorem BringUp.source_of_local {tier : Tier} {c : Content} (hb : b.restore = tier.localSource)
    (hd : w.localCopy b.schema tier = some d) (hc : b.imageSource w = some c ∨ b.dumpSource w = some c) :
    c = d := by
  cases tier with
  | live | archived => cases hd
  | frozen | compacted =>
    simp only [BringUp.imageSource, BringUp.dumpSource, hb, Tier.localSource] at hc
    rcases hc with hc | hc <;> first | exact Option.some.inj (hc.symm.trans hd) | cases hc

theorem ensureStep_restores {tier : Tier} (h : ensureStep b w p a = some (w', p')) (hs : b.schema = s)
    (hb : b.restore = tier.localSource) (hd : w.localCopy s tier = some d)
    (hp : p.Restores b.image s d w) : p'.Restores b.image s d w' := by
  subst hs
  have hfresh {u : World} (hu : b.image = true → u.Staged b.schema d) :
      b.fresh.Restores b.image b.schema d u := by
    unfold BringUp.fresh
    split <;> exact hu
  have hadopt {q : Provenance} {id : SandboxId} {u : World} (hu : b.image = true → u.Staged b.schema d) :
      (b.adopt q id).Restores b.image b.schema d u := by
    unfold BringUp.adopt
    split
    · exact hu ‹_›
    · exact fun himage ↦ absurd himage ‹_›
  have hgive (q : Provenance) (id : SandboxId) :
      (EnsurePc.giveUp q id).Restores b.image b.schema d w := by
    unfold EnsurePc.giveUp
    split <;> trivial
  have hplain {u : World} (himage : b.image = false) : b.image = true → u.Staged b.schema d := by
    simp [himage]
  revert h
  fun_cases ensureStep b w p a <;> intro h <;> (try cases h) <;> (try exact hp) <;> (try trivial)
  case case1 =>
    unfold BringUp.first
    split
    · trivial
    · rename_i himage
      split <;> simpa [EnsurePc.Restores] using himage
  case case6 | case17 => exact hfresh (hplain hp)
  case case9 => exact fun himage ↦ absurd himage (by simp [show b.image = false from hp])
  case case21 | case22 | case30 => exact hadopt hp
  case case35 =>
    obtain ⟨c, hc, heq⟩ := Option.map_eq_some_iff.mp h
    cases heq
    obtain rfl := BringUp.source_of_local hb hd (.inl hc)
    exact hfresh fun _ ↦ ⟨c, update_self .., fun _ ↦ id⟩
  case case38 =>
    obtain ⟨c, hc, heq⟩ := Option.map_eq_some_iff.mp h
    cases heq
    obtain ⟨c', hc', hsub⟩ := hp
    obtain rfl := Option.some.inj (hc.symm.trans hc')
    exact ⟨c, update_self .., hsub⟩
  case case40 =>
    unfold BringUp.dropScratch
    split <;> exact fun _ ↦ hp
  case case50 =>
    have hsome : b.restore.isSome = true := by
      cases tier <;> first | cases hd | simp [hb, Tier.localSource]
    unfold BringUp.afterDatabase
    split
    · trivial
    · rename_i himage
      rw [hsome] at himage
      exact hp (by simpa using himage)
  case case51 =>
    obtain ⟨c, hc, heq⟩ := Option.map_eq_some_iff.mp h
    cases heq
    obtain rfl := BringUp.source_of_local hb hd (.inr hc)
    exact ⟨c, update_self .., fun _ ↦ id⟩
  case case52 | case53 | case54 => exact hgive ..

end Restore

/-- A registry generation in which the schema is live on VM `id`. -/
def LiveAt (m : Rows) (s : Schema) (id : SandboxId) : Prop :=
  (m.lookup s).map (·.sandboxId) = some id ∧ (m.lookup s).map (·.tier) = some .live

def Store.LiveWritten (st : Store) (s : Schema) : Prop :=
  ∃ m ∈ st.stamped.take st.written, (m.lookup s).map (·.tier) = some .live

def World.Filled (w : World) (s : Schema) : Prop := ∃ c e, w.zone s = some (c, .full e)

/-- A thaw before and after its `put`. -/
inductive World.Phase (tier : Tier) (s : Schema) (d : Content) (w : World) : Prop
  | cold (row : w.store.tierOf s = some tier)
    (stamped : ∀ m ∈ w.store.stamped, (m.lookup s).map (·.tier) = some tier)
    (copy : w.localCopy s tier = some d)
  | thawed {c e : ℕ} {old new : List Rows} (zone : w.zone s = some (c, .full e))
    (row : LiveAt w.store.map s (w.ents e).sandbox) (stamped : w.store.stamped = old ++ new)
    (cold : ∀ m ∈ old, (m.lookup s).map (·.tier) = some tier)
    (live : ∀ m ∈ new, LiveAt m s (w.ents e).sandbox)
    (copy : w.localCopy s tier = some d ∨ old.length < w.store.written)

/-- What a checkout of a schema being thawed relies on. -/
def CkPc.Thaws (tier : Tier) (s : Schema) (d : Content) (w : World) : CkPc → Prop
  | .boundIds _ _ restore => restore = tier.localSource ∨ w.Filled s
  | .awaitCell _ b => b.restore = tier.localSource ∨ w.Filled s
  | .bringUp _ b p => b.restore = tier.localSource ∧ p.Restores b.image s d w
  | .pickRestore _ _ => False
  | _ => True

def CkPc.Named (s : Schema) : CkPc → Prop
  | .awaitCell _ b | .bringUp _ b _ => b.schema = s
  | _ => True

section Steps

variable {cfg : Config} {t : ℕ} {s r : Schema} {d : Content} {tier : Tier} {w w' : World} {a : Answer}
  {pc pc' : CkPc}

theorem ckStep_named (h : ckStep cfg t s w pc a = some (w', pc')) (hpc : pc.Named s) : pc'.Named s := by
  revert h
  fun_cases ckStep cfg t s w pc a <;> intro h <;> (try cases h) <;> (try trivial)
  case case2 | case12 => split <;> trivial
  case case24 =>
    obtain ⟨_, -, heq⟩ := Option.map_eq_some_iff.mp h
    cases heq
    exact hpc

theorem ensureStep_scratch_ne {b : BringUp} {p p' : EnsurePc} (h : ensureStep b w p a = some (w', p'))
    (hs : s ≠ b.schema) : w'.scratch s = w.scratch s := by
  have hdrop (u : World) : (b.dropScratch u).scratch s = u.scratch s := by
    unfold BringUp.dropScratch
    split
    · exact update_of_ne hs _ _
    · rfl
  revert h
  fun_cases ensureStep b w p a <;> intro h <;> (try cases h) <;> (try rfl) <;> (try exact hdrop _)
  case case35 | case38 | case51 =>
    obtain ⟨c, -, heq⟩ := Option.map_eq_some_iff.mp h
    cases heq
    first | rfl | exact update_of_ne hs _ _

theorem ckStep_scratch_ne (h : ckStep cfg t r w pc a = some (w', pc')) (hpc : pc.Named r)
    (hs : s ≠ r) : w'.scratch s = w.scratch s := by
  revert h
  fun_cases ckStep cfg t r w pc a <;> intro h <;> (try cases h) <;> (try rfl)
  case case11 => split <;> rfl
  case case24 =>
    obtain ⟨_, hx, heq⟩ := Option.map_eq_some_iff.mp h
    cases heq
    obtain rfl : _ = r := hpc
    exact ensureStep_scratch_ne hx hs
  case case27 => rw [World.dropThawed_frame]

theorem OffMove.scratch_ne {p p' : OffPc} (h : OffMove a r w w' p p') (hs : s ≠ r) :
    w'.scratch s = w.scratch s := by
  cases h with
  | other hw => rw [hw]
  | claim _ hw | bind _ hw | flip _ hw | missing _ hw | write _ _ hw => subst hw; rfl
  | @evict q _ h =>
    obtain rfl : (offEvict r q w).1 = w' := by rw [h]
    rw [offEvict_frame]
  | ensure h => exact ensureStep_scratch_ne h hs

theorem ckStep_localCopy (h : ckStep cfg t s w pc a = some (w', pc')) (tier : Tier) :
    w'.localCopy s tier = w.localCopy s tier ∨
      ∃ e source g, pc = .removeThawed e source g ∧ a = .go ∧
        (source = some .localDump ∨ source = some .localImage) := by
  revert h
  fun_cases ckStep cfg t s w pc a <;> intro h <;> (try cases h) <;> (try exact .inl rfl)
  case case11 => split <;> exact .inl rfl
  case case24 =>
    obtain ⟨_, hx, heq⟩ := Option.map_eq_some_iff.mp h
    cases heq
    rw [ensureStep_frame hx]
    exact .inl rfl
  case case27 e source g =>
    cases source with
    | none => exact .inl rfl
    | some source =>
      cases source with
      | s3 | s3Image => exact .inl rfl
      | localDump | localImage => exact .inr ⟨e, _, g, rfl, rfl, by simp⟩

theorem ckStep_kept (h : ckStep cfg t s w pc a = some (w', pc')) :
    (∃ c b p p', pc = .bringUp c b p ∧ pc' = .bringUp c b p' ∧ ensureStep b w p a = some (w', p')) ∨
      (∀ v, w.Kept d v → w'.Kept d v) ∧ w'.scratch = w.scratch := by
  revert h
  fun_cases ckStep cfg t s w pc a <;> intro h <;> (try cases h) <;>
    (try exact .inr ⟨fun _ ↦ id, rfl⟩)
  case case11 => split <;> exact .inr ⟨fun _ ↦ id, rfl⟩
  case case24 =>
    obtain ⟨_, hx, heq⟩ := Option.map_eq_some_iff.mp h
    cases heq
    exact .inl ⟨_, _, _, _, rfl, rfl, hx⟩
  case case27 =>
    rw [World.dropThawed_frame]
    exact .inr ⟨fun _ ↦ id, rfl⟩
  case case33 e n =>
    refine .inr ⟨fun v hv ↦ ?_, rfl⟩
    obtain ⟨c, hc, hsub⟩ := hv
    by_cases hv : v = (w.ents e).sandbox
    · subst hv
      refine ⟨{ c with writes := n :: c.writes }, ?_, fun x hx ↦ List.mem_cons_of_mem n (hsub hx)⟩
      simp [World.clientWrite, hc]
    · exact ⟨c, (update_of_ne hv _ _).trans hc, hsub⟩

theorem World.Phase.tier_cases (h : w.Phase tier s d) :
    w.store.tierOf s = some tier ∨ w.store.tierOf s = some .live ∧ w.Filled s := by
  cases h with
  | cold row => exact .inl row
  | thawed zone row => exact .inr ⟨row.2, _, _, zone⟩

/-- A cell that is not set has nothing removed yet. -/
theorem World.Phase.copy_of_busy (h : w.Phase tier s d) (hz : ¬ w.Filled s) :
    w.localCopy s tier = some d := by
  cases h with
  | cold _ _ copy => exact copy
  | thawed zone => exact absurd ⟨_, _, zone⟩ hz

theorem World.not_filled {x : Cell} (h : (w.zone s).map Prod.snd = some x) (hx : ∀ e, x ≠ .full e) :
    ¬ w.Filled s := by
  rintro ⟨c, e, hz⟩
  rw [hz] at h
  exact hx e (Option.some.inj h).symm

theorem restoreSource_local (hd : tier.localSource ≠ none) {source : Option Source}
    (h : restoreSource cfg tier = some source) : source = tier.localSource := by
  cases tier with
  | live | archived => exact absurd rfl hd
  | frozen | compacted =>
    simp only [restoreSource, Option.ite_none_right_eq_some, Option.some.injEq] at h
    exact h.2.symm

theorem World.Phase.source (h : w.Phase tier s d) (htier : tier.localSource ≠ none)
    {source : Option Source} (hs : restoreSource cfg ((w.store.tierOf s).getD .live) = some source) :
    source = tier.localSource ∨ source = none ∧ w.Filled s := by
  rcases h.tier_cases with ht | ⟨ht, hfull⟩ <;> rw [ht] at hs
  · exact .inl (restoreSource_local htier hs)
  · exact .inr ⟨(Option.some.inj hs).symm, hfull⟩

theorem ckStep_thaws (h : ckStep cfg t s w pc a = some (w', pc')) (htier : tier.localSource ≠ none)
    (hpc : pc.Thaws tier s d w) (hn : pc.Named s) (ha : pc.Agrees t (w.zone s)) (hw : w.Phase tier s d) :
    pc'.Thaws tier s d w' := by
  revert h
  fun_cases ckStep cfg t s w pc a <;> intro h <;> (try cases h) <;> (try trivial)
  case case2 | case12 => split <;> trivial
  case case14 hs =>
    rcases hw.source htier hs with heq | ⟨heq, -⟩
    · cases tier <;> cases heq
    · cases heq
  case case15 hs => exact (hw.source htier hs).imp_right And.right
  case case20 c b hc =>
    refine ⟨hpc.resolve_right ?_, trivial⟩
    have hz := World.zone_eq (World.zone_fst.mp (ha.cell c rfl))
    exact World.not_filled (x := .empty) (by rw [hz, hc]; rfl) (by simp)
  case case24 c b p _ _ =>
    obtain ⟨⟨u, p'⟩, hx, heq⟩ := Option.map_eq_some_iff.mp h
    cases heq
    have hcopy := hw.copy_of_busy (World.not_filled (ha.busy c b p rfl) (by simp))
    exact ⟨hpc.1, ensureStep_restores hx hn hpc.1 hcopy hpc.2⟩

theorem Store.Grows.append {st st' : Store} (h : st.Grows st') :
    ∃ ms, st'.stamped = st.stamped ++ ms ∧ ∀ m ∈ ms, m = st'.map := by
  rcases h.stamped with heq | heq
  · exact ⟨[], by simp [heq], by simp⟩
  · exact ⟨[st'.map], heq, by simp⟩

theorem Store.LiveWritten.lt {st : Store} (h : st.LiveWritten s) {old new : List Rows}
    (hst : st.stamped = old ++ new) (hold : ∀ m ∈ old, (m.lookup s).map (·.tier) = some tier)
    (htier : tier ≠ .live) : old.length < st.written := by
  obtain ⟨m, hm, hlive⟩ := h
  by_contra hle
  rw [hst, List.take_append_of_le_length (not_lt.mp hle)] at hm
  have htm := hold m (List.mem_of_mem_take hm)
  exact htier (Option.some.inj (htm.symm.trans hlive))

theorem CellMove.full {n c e : ℕ} {z z' : Option (ℕ × Cell)} (h : CellMove t n z z')
    (hz : z = some (c, .full e)) : z' = some (c, .full e) := by
  cases h with
  | same => exact hz
  | make | start | fill | reset => cases hz

theorem World.Yields.sandbox_of_zone (h : w.Yields w') (hb : w.Bounded) {c e : ℕ}
    (hz : w.zone s = some (c, .full e)) : (w'.ents e).sandbox = (w.ents e).sandbox := by
  obtain ⟨c', -, heq⟩ := Option.map_eq_some_iff.mp hz
  exact h.sandbox e (hb.full c' e (congrArg Prod.snd heq))

/-- A step leaves the row, or binds the VM of the cell; and it leaves the local file unless the live
row is on disk. -/
theorem World.Phase.step (h : w.Phase tier s d) (htier : tier ≠ .live) (hb : w.Bounded)
    (hzone : ∀ c e, w.zone s = some (c, .full e) → w'.zone s = some (c, .full e))
    (hg : w.store.Grows w'.store) (hy : w.Yields w')
    (hrow : w'.store.idOf s = w.store.idOf s ∧ w'.store.tierOf s = w.store.tierOf s ∨
      ∃ c e, w.zone s = some (c, .full e) ∧ LiveAt w'.store.map s (w.ents e).sandbox)
    (hcopy : w'.localCopy s tier = w.localCopy s tier ∨ w.store.LiveWritten s) :
    w'.Phase tier s d := by
  obtain ⟨ms, hms, hmap⟩ := hg.append
  cases h with
  | cold row stamped copy =>
    have hcopy : w'.localCopy s tier = some d := by
      rcases hcopy with heq | ⟨m, hm, hlive⟩
      · exact heq.trans copy
      · have := stamped m (List.mem_of_mem_take hm)
        exact absurd (Option.some.inj (this.symm.trans hlive)) htier
    rcases hrow with ⟨-, hrow⟩ | ⟨c, e, hz, hlive⟩
    · refine .cold (hrow.trans row) (fun m hm ↦ ?_) hcopy
      rw [hms] at hm
      rcases List.mem_append.mp hm with hm | hm
      · exact stamped m hm
      · rw [hmap m hm]
        exact hrow.trans row
    · rw [← hy.sandbox_of_zone hb hz] at hlive
      refine .thawed (hzone c e hz) hlive hms stamped (fun m hm ↦ ?_) (.inl hcopy)
      rwa [hmap m hm]
  | @thawed c e old new zone row stamped cold live copy =>
    have hlive : LiveAt w'.store.map s (w'.ents e).sandbox := by
      rw [hy.sandbox_of_zone hb zone]
      rcases hrow with ⟨hid, hrow⟩ | ⟨c', e', hz, hlive⟩
      · exact ⟨hid.trans row.1, hrow.trans row.2⟩
      · cases zone.symm.trans hz
        exact hlive
    have hst : w'.store.stamped = old ++ (new ++ ms) := by simp [hms, stamped]
    refine .thawed (hzone c e zone) hlive hst cold (fun m hm ↦ ?_) ?_
    · rcases List.mem_append.mp hm with hm | hm
      · rw [hy.sandbox_of_zone hb zone]
        exact live m hm
      · rwa [hmap m hm]
    · rcases hcopy with heq | hw
      · exact copy.imp heq.trans fun hlt ↦ hlt.trans_le hg.written
      · exact .inr ((hw.lt stamped cold htier).trans_le hg.written)

theorem EnsurePc.Restores.mono {image : Bool} {p : EnsurePc} (h : p.Restores image s d w)
    (hkept : ∀ v, p.vm = some v → w.Kept d v → w'.Kept d v) (hscratch : w'.scratch s = w.scratch s) :
    p.Restores image s d w' := by
  have hstaged : w.Staged s d → w'.Staged s d := fun ⟨c, hc, hsub⟩ ↦ ⟨c, hscratch.trans hc, hsub⟩
  cases p with
  | slotBudget | ok | swapStart | swapWait => exact hkept _ rfl h
  | readyPg | ensureDatabase => exact fun himage ↦ hkept _ rfl (h himage)
  | swapStop | swapCopy => exact hstaged h
  | takeSpare | confirmSpare | creating | recordPending | indexCreated | waitCreated =>
    exact fun himage ↦ hstaged (h himage)
  | _ => exact h

theorem CkPc.Thaws.mono (h : pc.Thaws tier s d w) (hfill : w.Filled s → w'.Filled s)
    (hup : ∀ c b p, pc = .bringUp c b p →
      (∀ v, p.vm = some v → w.Kept d v → w'.Kept d v) ∧ w'.scratch s = w.scratch s) :
    pc.Thaws tier s d w' := by
  cases pc with
  | boundIds | awaitCell => exact h.imp_right hfill
  | bringUp c b p => exact ⟨h.1, h.2.mono (hup c b p rfl).1 (hup c b p rfl).2⟩
  | _ => exact h

theorem CkMove.filled (h : CkMove a t s w w' pc pc') (ha : pc.Agrees t (w.zone s))
    (hkeep : ∀ c, w.entries.lookup s = some c → w'.entries.lookup s = some c) {c e : ℕ}
    (hz : w'.zone s = some (c, .full e)) :
    w.zone s = some (c, .full e) ∨ ∃ c b id n, pc = .bringUp c b (.ok id n) ∧
      (w'.ents e).sandbox = id ∧ w'.disks = w.disks := by
  cases h with
  | keep hs => exact .inl (hs.zone s ▸ hz)
  | ensure h => exact .inl ((ensureStep_sameMap h).zone s ▸ hz)
  | warm _ _ heq | acquire _ _ _ _ _ _ heq | release _ _ _ _ _ _ heq =>
    subst heq
    exact .inl hz
  | miss _ heq =>
    subst heq
    simp [World.zone, World.openCell] at hz
  | evict hl heq =>
    subst heq
    simpa using hkeep _ hl
  | @start c' b _ heq | @reset c' b heq =>
    subst heq
    simp [World.zone, World.zone_fst.mp (ha.cell c' rfl)] at hz
  | @fill c' n b id k heq =>
    subst heq
    obtain ⟨-, rfl⟩ : c' = c ∧ w.nextEntry = e := by
      simpa [World.zone, World.openEntry, World.zone_fst.mp (ha.cell c' rfl)] using hz
    exact .inr ⟨c', b, id, n, rfl, by simp [World.openEntry, SchemaEntry.new], rfl⟩

end Steps

def Task.vm (s : Schema) (w : World) : Task → Option SandboxId
  | .checkout r pc => if r = s then pc.vm w else none
  | .offload _ _ _ | .reapIdle _ | .reapUntracked _ | .purge _ => none

/-- The VMs that checkouts of `s` have in hand, and the one its cell holds. -/
def State.vms (st : State) (s : Schema) : List SandboxId :=
  st.tasks.filterMap (Task.vm s st.world) ++
    ((st.world.zone s).bind fun z ↦ z.2.vm st.world).toList

def State.checksOut (s : Schema) (st : State) : Label → Bool
  | .run t _ =>
    match st.tasks[t]? with
    | some (.checkout r _) => r = s
    | _ => false
  | _ => false

def Label.offloads (s : Schema) : Label → Bool
  | .spawn (.offload r _ _) => r = s
  | _ => false

/-- The schema's entry stays in the map, nobody offloads it, and other tasks leave the disks of its
VMs alone. -/
def ThawsAlone (cfg : Config) (s : Schema) (st : State) (l : Label) : Prop :=
  KeepsCell cfg s st l ∧ l.offloads s = false ∧ (st.checksOut s l = true ∨
    ∀ st' ∈ step cfg l st, ∀ v ∈ st.vms s, st'.world.disks v = st.world.disks v)

def Task.unlinks (s : Schema) : Task → Bool
  | .checkout r (.removeThawed _ (some .localDump) _)
  | .checkout r (.removeThawed _ (some .localImage) _) => r = s
  | _ => false

/-- And a local file is removed only when a registry generation with the schema live is on disk. -/
def ThawsLanded (cfg : Config) (s : Schema) (st : State) (l : Label) : Prop :=
  ThawsAlone cfg s st l ∧ OnRun (fun t a ↦ ∀ x ∈ st.tasks[t]?, a = .go → x.unlinks s = true →
    st.world.store.LiveWritten s) l

instance (st : Store) (s : Schema) : Decidable (st.LiveWritten s) := by
  unfold Store.LiveWritten
  infer_instance

instance (cfg : Config) (s : Schema) (st : State) (l : Label) : Decidable (ThawsAlone cfg s st l) := by
  unfold ThawsAlone
  infer_instance

instance (cfg : Config) (s : Schema) (st : State) (l : Label) : Decidable (ThawsLanded cfg s st l) :=
  inferInstanceAs (Decidable (_ ∧ OnRun _ l))

/-- What every state of such a run keeps of a thaw of the copy `d`. -/
structure State.Thawing (tier : Tier) (s : Schema) (d : Content) (st : State) : Prop where
  phase : st.world.Phase tier s d
  kept : ∀ c e, st.world.zone s = some (c, .full e) → st.world.Kept d (st.world.ents e).sandbox
  tasks : ∀ (t : ℕ) (ck : CkPc), st.tasks[t]? = some (.checkout s ck) → ck.Thaws tier s d st.world
  offloads : ∀ (t : ℕ) (kind : OffloadKind) (pc : OffPc), st.tasks[t]? ≠ some (.offload s kind pc)
  file : st.world.store.written = 0 →
    ∀ now, ((parse st.world.store.file now).lookup s).map (·.tier) = some tier

section Runs

variable {cfg : Config} {s : Schema} {d : Content} {tier : Tier} {st st' : State} {l : Label}

def State.Named (st : State) : Prop :=
  ∀ (t : ℕ) (r : Schema) (ck : CkPc), st.tasks[t]? = some (.checkout r ck) → ck.Named r

theorem State.Named.step (h : st.Named) (hs : Step cfg st l st') : st'.Named := by
  intro t r ck ht
  cases hs with
  | @spawn x hx =>
    rcases getElem?_append_cases ht with ⟨-, rfl⟩ | ht
    · cases Task.eq_touch_of_initial hx
      trivial
    · exact h t r ck ht
  | checkout hj hck =>
    rcases getElem?_set_cases ht with ⟨-, heq⟩ | ⟨-, ht⟩
    · cases heq
      exact ckStep_named hck (h _ _ _ hj)
    · exact h t r ck ht
  | offload | reapIdle | reapUntracked | purge =>
    rcases getElem?_set_cases ht with ⟨-, heq⟩ | ⟨-, ht⟩
    · cases heq
    · exact h t r ck ht
  | outside => exact h t r ck ht

theorem Reaches.named {ok : State → Label → Prop} {w : World} (h : Reaches cfg ok w st) : st.Named :=
  h.invariant (fun t r ck ht ↦ by simp [State.boot] at ht)
    fun _ _ _ hI _ hstep ↦ hI.step (step_sound hstep)

theorem State.Thawing.file_step (h : st.Thawing tier s d) {w' : World}
    (hg : st.world.store.Grows w'.store) (hw : w'.store.written = 0) (now : UInt64) :
    ((parse w'.store.file now).lookup s).map (·.tier) = some tier := by
  rw [hg.file hw]
  exact h.file (Nat.le_zero.mp (hw ▸ hg.written)) now

theorem State.Thawing.own_step (h : st.Thawing tier s d) (htier : tier.localSource ≠ none)
    (hsound : st.Sound) (hcell : st.OneCell s) (hchron : st.Chronicled) (hnamed : st.Named) {t : ℕ}
    {a : Answer} {ck ck' : CkPc} {w' : World} (hok : ThawsLanded cfg s st (.run t a))
    (hkeep : ∀ c, st.world.entries.lookup s = some c → w'.entries.lookup s = some c)
    (ht : st.tasks[t]? = some (.checkout s ck))
    (hck : ckStep cfg t s st.world ck a = some (w', ck')) :
    State.Thawing tier s d ⟨w', st.tasks.set t (.checkout s ck')⟩ := by
  have hagree := hcell.own t ck ht
  have hmove := ckStep_move hck
  have hyield : st.world.Yields w' := ckStep_yields hck
  have hg := (ckStep_recorded hck hchron.store).2
  have hzone {c e : ℕ} (hz : st.world.zone s = some (c, .full e)) : w'.zone s = some (c, .full e) :=
    (hmove.own hagree hkeep).1.full hz
  refine ⟨?_, fun c e hz ↦ ?_, fun j cj hj ↦ ?_, fun j kind pc hj ↦ ?_, fun hw now ↦ ?_⟩
  · refine h.phase.step ?_ hsound.world (fun _ _ ↦ hzone) hg hyield ?_ ?_
    · rintro rfl
      exact htier rfl
    · rcases ckStep_store hck with hst | hst | ⟨e, r, rfl, hst⟩ <;> rw [hst]
      · exact .inl ⟨rfl, rfl⟩
      · exact .inl ⟨Store.idOf_touch .., Store.tierOf_touch ..⟩
      · obtain ⟨⟨c, x⟩, hz, hx⟩ := Option.map_eq_some_iff.mp (hagree.entry e rfl)
        obtain rfl : x = .full e := hx
        exact .inr ⟨c, e, hz, Store.idOf_put .., Store.tierOf_put ..⟩
    · rcases ckStep_localCopy hck tier with heq | ⟨e, source, g, rfl, rfl, hsource⟩
      · exact .inl heq
      · refine .inr (hok.2 _ ht rfl ?_)
        rcases hsource with rfl | rfl <;> simp [Task.unlinks]
  · rcases hmove.filled hagree hkeep hz with hz | ⟨c', b, id, n, rfl, hid, hdisks⟩
    · rw [hyield.sandbox_of_zone hsound.world hz]
      rcases ckStep_kept (d := d) hck with ⟨c', b, p, p', rfl, -, -⟩ | ⟨hkept, -⟩
      · cases hagree.busy c' b p rfl ▸ congrArg (Option.map Prod.snd) hz
      · exact hkept _ (h.kept c e hz)
    · obtain ⟨c, hc, hsub⟩ := (h.tasks t _ ht).2
      exact ⟨c, by rw [hid, hdisks, hc], hsub⟩
  · rcases getElem?_set_cases hj with ⟨rfl, heq⟩ | ⟨hne, hj⟩
    · cases heq
      exact ckStep_thaws hck htier (h.tasks j ck ht) (hnamed j s ck ht) hagree h.phase
    · refine (h.tasks j cj hj).mono ?_ fun c b p hp ↦ ?_
      · rintro ⟨c, e, hz⟩
        exact ⟨c, e, hzone hz⟩
      · rcases ckStep_kept (d := d) hck with ⟨c', b', p', p'', rfl, -, -⟩ | ⟨hkept, hscratch⟩
        · have hj := (hcell.own j cj hj).busy c b p hp
          have ht := hagree.busy c' b' p' rfl
          cases hj.symm.trans ht
          exact absurd rfl hne
        · exact ⟨fun v _ ↦ hkept v, congrFun hscratch s⟩
  · rcases getElem?_set_cases hj with ⟨-, heq⟩ | ⟨-, hj⟩
    · cases heq
    · exact h.offloads j kind pc hj
  · exact h.file_step hg hw now

structure World.Spares (s : Schema) (w w' : World) : Prop where
  zone : w'.zone s = w.zone s
  record : w'.store.record s = w.store.record s
  copies : w'.copies s = w.copies s
  scratch : w'.scratch s = w.scratch s

theorem World.Spares.localCopy {w w' : World} (h : w.Spares s w') (tier : Tier) :
    w'.localCopy s tier = w.localCopy s tier := by
  cases tier with
  | live | archived => rfl
  | frozen => exact congrArg Copies.dump h.copies
  | compacted => exact congrArg Copies.image h.copies

theorem State.mem_vms_of_task {t : ℕ} {ck : CkPc} {v : SandboxId}
    (ht : st.tasks[t]? = some (.checkout s ck)) (hv : ck.vm st.world = some v) : v ∈ st.vms s := by
  refine List.mem_append_left _ (List.mem_filterMap.mpr ⟨_, List.mem_of_getElem? ht, ?_⟩)
  simp [Task.vm, hv]

theorem State.mem_vms_of_zone {c e : ℕ} (hz : st.world.zone s = some (c, .full e)) :
    (st.world.ents e).sandbox ∈ st.vms s := by
  simp [State.vms, hz, Cell.vm]

theorem State.Thawing.spared (h : st.Thawing tier s d) (htier : tier.localSource ≠ none)
    (hsound : st.Sound) {w' : World} (hg : st.world.store.Grows w'.store) (hy : st.world.Yields w')
    (hs : st.world.Spares s w') (hdisks : ∀ v ∈ st.vms s, w'.disks v = st.world.disks v)
    {ts : List Task} (hts : ∀ (j : ℕ) (ck : CkPc), ts[j]? = some (.checkout s ck) →
      st.tasks[j]? = some (.checkout s ck) ∨ ck = .touch)
    (hoff : ∀ (j : ℕ) (kind : OffloadKind) (pc : OffPc), ts[j]? ≠ some (.offload s kind pc)) :
    State.Thawing tier s d ⟨w', ts⟩ := by
  have hkept {v : SandboxId} (hv : v ∈ st.vms s) : st.world.Kept d v → w'.Kept d v :=
    fun ⟨c, hc, hsub⟩ ↦ ⟨c, (hdisks v hv).trans hc, hsub⟩
  refine ⟨?_, fun c e hz ↦ ?_, fun j ck hj ↦ ?_, hoff, fun hw now ↦ h.file_step hg hw now⟩
  · refine h.phase.step ?_ hsound.world ?_ hg hy (.inl ⟨?_, ?_⟩) (.inl (hs.localCopy tier))
    · rintro rfl
      exact htier rfl
    · intro c e hz
      rw [hs.zone, hz]
    · rw [Store.idOf, hs.record, Store.idOf]
    · rw [Store.tierOf, hs.record, Store.tierOf]
  · have hz : st.world.zone s = some (c, .full e) := hs.zone ▸ hz
    have hmem := State.mem_vms_of_zone hz
    rw [hy.sandbox_of_zone hsound.world hz]
    exact hkept hmem (h.kept c e hz)
  · rcases hts j ck hj with hj | rfl
    · refine (h.tasks j ck hj).mono ?_ fun c b p hp ↦ ⟨fun v hv ↦ ?_, hs.scratch⟩
      · rintro ⟨c, e, hz⟩
        exact ⟨c, e, hs.zone.trans hz⟩
      · exact hkept (State.mem_vms_of_task hj (by rw [hp]; exact hv))
    · trivial

theorem Step.spares (hs : Step cfg st l st') (hsound : st.Sound) (hcell : st.OneCell s)
    (hnamed : st.Named)
    (hoff : ∀ (t : ℕ) (kind : OffloadKind) (pc : OffPc), st.tasks[t]? ≠ some (.offload s kind pc))
    (hl : st.checksOut s l = false)
    (hkeep : ∀ c, st.world.entries.lookup s = some c → st'.world.entries.lookup s = some c) :
    st.world.Spares s st'.world := by
  cases hs with
  | spawn => exact ⟨rfl, rfl, rfl, rfl⟩
  | @checkout t a r ck ck' w' ht hck =>
    have hr : r ≠ s := by simpa [State.checksOut, ht] using hl
    exact ⟨(ckStep_move hck).zone_of_ne hr hsound.world (hcell.foreign t r ck hr ht),
      ckStep_record_ne hck hr.symm, ckStep_copies_ne hck hr.symm,
      ckStep_scratch_ne hck (hnamed t r ck ht) hr.symm⟩
  | @offload t a r kind pc pc' w' ht ho =>
    have hr : s ≠ r := by
      rintro rfl
      exact hoff t kind pc ht
    have hz := (offStep_shrinks ho).zone hkeep
    obtain ⟨u, hu, x, rfl⟩ := offStep_eq ho
    have hcopies : u.copies s = st.world.copies s := offCore_copies_ne hu hr
    exact ⟨hz, (offCore_move hu).record_ne hr, hcopies, (offCore_move hu).scratch_ne hr⟩
  | reapIdle _ hi =>
    have hz := (idleStep_shrinks hi).zone hkeep
    refine ⟨hz, ?_, ?_, ?_⟩ <;> rw [idleStep_frame hi]
    rfl
  | reapUntracked _ hu =>
    rw [untrackedStep_world hu]
    exact ⟨rfl, rfl, rfl, rfl⟩
  | purge _ hp =>
    have hz := (purgeStep_shrinks hp).zone hkeep
    refine ⟨hz, ?_, ?_, ?_⟩ <;> rw [purgeStep_frame hp]
    rfl
  | outside hw =>
    have hz := (worldStep_shrinks hw).zone hkeep
    have hmap := worldStep_map hw
    refine ⟨hz, congrArg (AList.lookup s) hmap, ?_, ?_⟩ <;> rw [worldStep_frame hw]
    simp [World.copies, Store.tierOf_of_map hmap]

theorem Step.tasks_of (hs : Step cfg st l st') (hl : st.checksOut s l = false)
    (ho : l.offloads s = false) (j : ℕ) :
    (∀ ck, st'.tasks[j]? = some (.checkout s ck) → st.tasks[j]? = some (.checkout s ck) ∨ ck = .touch) ∧
      ∀ kind pc, st'.tasks[j]? = some (.offload s kind pc) →
        ∃ pc', st.tasks[j]? = some (.offload s kind pc') := by
  have hset {t : ℕ} {x : Task} (hx : ∀ ck, x ≠ .checkout s ck)
      (ho : ∀ kind pc, x = .offload s kind pc → ∃ pc', st.tasks[t]? = some (.offload s kind pc')) :
      (∀ ck, (st.tasks.set t x)[j]? = some (.checkout s ck) →
        st.tasks[j]? = some (.checkout s ck) ∨ ck = .touch) ∧
      ∀ kind pc, (st.tasks.set t x)[j]? = some (.offload s kind pc) →
        ∃ pc', st.tasks[j]? = some (.offload s kind pc') := by
    refine ⟨fun ck hj ↦ ?_, fun kind pc hj ↦ ?_⟩ <;>
      rcases getElem?_set_cases hj with ⟨rfl, heq⟩ | ⟨-, hj⟩
    · exact absurd heq.symm (hx ck)
    · exact .inl hj
    · exact ho kind pc heq.symm
    · exact ⟨pc, hj⟩
  cases hs with
  | @spawn x hx =>
    refine ⟨fun ck hj ↦ ?_, fun kind pc hj ↦ ?_⟩ <;>
      rcases getElem?_append_cases hj with ⟨-, rfl⟩ | hj
    · exact .inr (Task.eq_touch_of_initial hx)
    · exact .inl hj
    · simp [Label.offloads] at ho
    · exact ⟨pc, hj⟩
  | @checkout t a r ck ck' w' ht hck =>
    have hr : r ≠ s := by simpa [State.checksOut, ht] using hl
    exact hset (by simp [hr]) (by simp)
  | @offload t a r kind pc pc' w' ht ho =>
    refine hset (by simp) fun kind' pc₂ heq ↦ ?_
    cases heq
    exact ⟨pc, ht⟩
  | reapIdle | reapUntracked | purge => exact hset (by simp) (by simp)
  | outside => exact ⟨fun _ ↦ .inl, fun _ pc hj ↦ ⟨pc, hj⟩⟩

theorem State.Thawing.step (h : st.Thawing tier s d) (htier : tier.localSource ≠ none)
    (hsound : st.Sound) (hcell : st.OneCell s) (hchron : st.Chronicled) (hnamed : st.Named)
    (hok : ThawsLanded cfg s st l) (hstep : PgVmPool.step cfg l st = some st') :
    st'.Thawing tier s d := by
  have hs := step_sound hstep
  have hkeep : ∀ c, st.world.entries.lookup s = some c → st'.world.entries.lookup s = some c :=
    fun c hc ↦ hok.1.1 st' hstep c hc
  cases hl : st.checksOut s l with
  | false =>
    have htasks := hs.tasks_of hl hok.1.2.1
    refine h.spared htier hsound (hchron.moves hs).2.1 hs.yields
      (hs.spares hsound hcell hnamed h.offloads hl hkeep)
      (hok.1.2.2.resolve_left (by simp [hl]) st' hstep) (fun j ↦ (htasks j).1) fun j kind pc hj ↦ ?_
    obtain ⟨pc', hj⟩ := (htasks j).2 kind pc hj
    exact h.offloads j kind pc' hj
  | true =>
    cases hs with
    | @checkout t a r ck ck' w' ht hck =>
      obtain rfl : r = s := by simpa [State.checksOut, ht] using hl
      exact h.own_step htier hsound hcell hchron hnamed hok hkeep ht hck
    | spawn => cases hl
    | offload ht | reapIdle ht | reapUntracked ht | purge ht => simp [State.checksOut, ht] at hl
    | outside hw => cases l <;> first | cases hl | cases hw

/-- The invariants a thaw rests on, as they hold along such a run. -/
theorem Reaches.thawing {w : World} (htier : tier.localSource ≠ none)
    (hrow : ∀ now, ((parse w.store.file now).lookup s).map (·.tier) = some tier)
    (hcopy : w.localCopy s tier = some d) (h : Reaches cfg (ThawsLanded cfg s) w st) :
    st.Thawing tier s d := by
  refine Run.invariant_of (J := fun st ↦ st.Sound ∧ st.OneCell s ∧ st.Chronicled ∧ st.Named) h
    (fun st hr ↦ ⟨Reaches.sound hr, Reaches.oneCell hr fun _ _ hok ↦ hok.1.1,
      Reaches.chronicled hr, Reaches.named hr⟩) ?_
    fun _ _ _ hI hJ _ hok hstep ↦ hI.step htier hJ.1 hJ.2.1 hJ.2.2.1 hJ.2.2.2 hok hstep
  refine ⟨.cold (hrow _) ?_ hcopy, ?_, ?_, ?_, fun _ ↦ hrow⟩
  · simp [State.boot, World.boot, Store.load]
  · simp [State.boot, World.boot, World.zone]
  · simp [State.boot]
  · simp [State.boot]

theorem State.Thawing.safe (h : st.Thawing tier s d) (hchron : st.Chronicled) : st.ThawSafe s d := by
  intro now
  rcases hchron.store.file with hzero | ⟨m, ⟨hpos, hm⟩, hfile⟩
  · obtain ⟨r, hr, rfl⟩ := Option.map_eq_some_iff.mp (h.file hzero now)
    refine ⟨r, hr, .inr ?_⟩
    cases h.phase with
    | cold _ _ copy => exact copy
    | thawed _ _ _ _ _ copy => exact copy.resolve_right (by simp [hzero])
  · rw [hfile, lookup_parse_serialize]
    cases h.phase with
    | cold _ stamped copy =>
      obtain ⟨r, hr, rfl⟩ := Option.map_eq_some_iff.mp (stamped m (List.mem_of_getElem? hm))
      exact ⟨r, hr, .inr copy⟩
    | @thawed c e old new zone _ stamped cold live copy =>
      rw [stamped] at hm
      rcases lt_or_ge (st.world.store.written - 1) old.length with hlt | hge
      · rw [List.getElem?_append_left hlt] at hm
        obtain ⟨r, hr, rfl⟩ := Option.map_eq_some_iff.mp (cold m (List.mem_of_getElem? hm))
        exact ⟨r, hr, .inr (copy.resolve_right (by omega))⟩
      · rw [List.getElem?_append_right hge] at hm
        obtain ⟨hid, hlive⟩ := live m (List.mem_of_getElem? hm)
        obtain ⟨r, hr, hrid⟩ := Option.map_eq_some_iff.mp hid
        rw [hr] at hlive
        refine ⟨r, hr, .inl ⟨Option.some.inj hlive, ?_⟩⟩
        rw [hrid]
        exact h.kept c e zone

/-- In every run in which the live row is on disk before the local file is removed, a crash at any
point leaves a live row with the data or an offloaded row with its local file. -/
theorem thaw_safe {w : World} (hrow : w.boot.store.tierOf s = some tier)
    (hcopy : w.localCopy s tier = some d) (h : Reaches cfg (ThawsLanded cfg s) w st) :
    st.ThawSafe s d := by
  have htier : tier.localSource ≠ none := by cases tier <;> first | cases hcopy | simp [Tier.localSource]
  have hfile (now : UInt64) : ((parse w.store.file now).lookup s).map (·.tier) = some tier :=
    (parse_tier w.store.file now w.unix s).trans hrow
  exact (Reaches.thawing htier hfile hcopy h).safe (Reaches.chronicled h)

def thawsToRemoval (t : ℕ) : List Label := thaws t ++ runs t [.ok, .slots 10, .go, .go, .go]

theorem thaw_safe_run : ∃ st, Reaches .full (ThawsLanded .full app) frozenHost st ∧
    st.world.dumps app = none ∧ st.ThawSafe app ⟨[7], 600⟩ := by
  obtain ⟨st, hr, hst⟩ := Run.exists_of_exec (step .full) (ThawsLanded .full app) (.boot frozenHost)
    ([.spawn (.checkout app .touch)] ++ thawsToRemoval 0 ++ [.land 0 true, .run 0 .go])
    (fun st ↦ st.world.dumps app = none) (by decide +kernel) (by decide +kernel)
  have hrow : frozenHost.boot.store.tierOf app = some .frozen := by decide +kernel
  exact ⟨st, hr, by simpa using hst, thaw_safe hrow rfl hr⟩

/-- `put` only queues its write: the dump is removed while the registry file still has the schema
frozen. -/
theorem thaw_not_safe : ∃ st, Reaches .full (ThawsAlone .full app) frozenHost st ∧
    ¬ st.ThawSafe app ⟨[7], 600⟩ := by
  obtain ⟨st, hr, hst⟩ := Run.exists_of_exec (step .full) (ThawsAlone .full app) (.boot frozenHost)
    ([.spawn (.checkout app .touch)] ++ thawsToRemoval 0 ++ [.run 0 .go])
    (fun st ↦ (parse st.world.store.file 0).lookup app = some ⟨sb1, 0, .frozen⟩ &&
      st.world.dumps app = none) (by decide +kernel) (by decide +kernel)
  simp only [Bool.and_eq_true, decide_eq_true_eq] at hst
  refine ⟨st, hr, fun h ↦ ?_⟩
  obtain ⟨r, hr, hsafe⟩ := h 0
  cases hst.1.symm.trans hr
  simp [World.localCopy, hst.2] at hsafe

end Runs

end PgVmPool
