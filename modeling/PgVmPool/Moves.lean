import PgVmPool.System

namespace PgVmPool

open Function Transition

def Cell.vm (w : World) : Cell → Option SandboxId
  | .full e => some (w.ents e).sandbox
  | .empty | .busy _ => none

namespace CkPc

/-- The cell a checkout has still to read or to set. -/
def cell : CkPc → Option ℕ
  | .checkBreaker c | .readRecord c | .pickRestore c _ | .boundIds c _ _ | .awaitCell c _
  | .bringUp c _ _ => some c
  | _ => none

/-- The VM a checkout uses, or will use when it reads its cell. -/
def reach (w : World) : CkPc → Option SandboxId
  | .checkBreaker c | .readRecord c | .pickRestore c _ | .boundIds c _ _ | .awaitCell c _ =>
    (w.cells c).vm w
  | pc => pc.vm w

end CkPc

structure World.SameMap (w w' : World) : Prop where
  entries : w'.entries = w.entries
  cells : w'.cells = w.cells
  ents : w'.ents = w.ents
  nextCell : w'.nextCell = w.nextCell
  nextEntry : w'.nextEntry = w.nextEntry

theorem World.SameMap.refl (w : World) : w.SameMap w := ⟨rfl, rfl, rfl, rfl, rfl⟩

theorem World.modEntry_sandbox {e : ℕ} {f : SchemaEntry → SchemaEntry}
    (hf : ∀ x, (f x).sandbox = x.sandbox) (w : World) (d : ℕ) :
    ((w.modEntry e f).ents d).sandbox = (w.ents d).sandbox := by
  simp only [World.modEntry, update_apply]
  split
  · subst d
    exact hf _
  · rfl

/-- What a checkout step does to the map, the cells and the entries. -/
inductive CkMove (a : Answer) (t : ℕ) (s : Schema) (w w' : World) : CkPc → CkPc → Prop
  | keep {pc pc' : CkPc} (hw : w.SameMap w') (guard : pc'.guard = pc.guard)
    (entry : ∀ e, pc'.entry = some e →
      pc.entry = some e ∨ ∃ c, pc.cell = some c ∧ w.cells c = .full e)
    (cell : ∀ c, pc'.cell = some c → pc.cell = some c ∨ w.entries.lookup s = some c)
    (reach : ∀ v, pc'.reach w' = some v → pc.reach w = some v)
    (fresh : ∀ c b p, pc' ≠ .bringUp c b p) (cleaning : pc'.cleaning = true → pc.cleaning = true) :
    CkMove a t s w w' pc pc'
  | ensure {c : ℕ} {b : BringUp} {p p' : EnsurePc} (h : ensureStep b w p a = some (w', p')) :
    CkMove a t s w w' (.bringUp c b p) (.bringUp c b p')
  | miss (h : w.entries.lookup s = none) (hw : w' = w.openCell s) :
    CkMove a t s w w' .lockEntries (.checkBreaker w.nextCell)
  | warm {c e : ℕ} (h : w.entries.lookup s = some c) (hc : w.cells c = .full e)
    (hw : w' = w.modEntry e (·.touch w.now)) : CkMove a t s w w' .lockEntries (.admitWarm c e)
  | acquire {pc pc' : CkPc} {e : ℕ} (entry : pc.entry = some e) (guard : pc.guard = none)
    (entry' : pc'.entry = some e) (guard' : pc'.guard = some e) (cell : pc'.cell = none)
    (reach : pc'.reach w' = pc.reach w) (hw : w' = w.modEntry e (·.acquire t w.now)) :
    CkMove a t s w w' pc pc'
  | release {pc pc' : CkPc} {e : ℕ} (guard : pc.guard = some e) (entry' : pc'.entry = none)
    (guard' : pc'.guard = none) (cell : pc'.cell = none) (reach : pc'.reach w' = none)
    (cleaning : pc'.cleaning = false) (hw : w' = w.modEntry e (·.release t w.now)) :
    CkMove a t s w w' pc pc'
  | evict {c : ℕ} (h : w.entries.lookup s = some c)
    (hw : w' = { w with entries := w.entries.erase s }) :
    CkMove a t s w w' (.evicting c) .testArchiving
  | start {c : ℕ} {b : BringUp} (hc : w.cells c = .empty)
    (hw : w' = { w with cells := update w.cells c (.busy t) }) :
    CkMove a t s w w' (.awaitCell c b) (.bringUp c b .admission)
  | fill {c n : ℕ} {b : BringUp} {id : SandboxId} {k : Bool} (hw : w' = w.openEntry c id k n) :
    CkMove a t s w w' (.bringUp c b (.ok id n)) (.recordBinding w.nextEntry b.restore)
  | reset {c : ℕ} {b : BringUp} (hw : w' = { w with cells := update w.cells c .empty }) :
    CkMove a t s w w' (.bringUp c b .err) (.leak b.known)

theorem BringUp.dropScratch_frame (b : BringUp) (w : World) :
    b.dropScratch w = { w with scratch := (b.dropScratch w).scratch } := by
  unfold BringUp.dropScratch
  split <;> rfl

theorem ensureStep_frame {b : BringUp} {w w' : World} {pc pc' : EnsurePc} {a : Answer}
    (h : ensureStep b w pc a = some (w', pc')) :
    w' = { w with
      pending := w'.pending, inventory := w'.inventory, claimed := w'.claimed, ready := w'.ready
      disks := w'.disks, scratch := w'.scratch } := by
  revert h
  fun_cases ensureStep b w pc a <;> intro h <;> (try cases h)
  case case35 | case38 | case51 =>
    obtain ⟨_, -, heq⟩ := Option.map_eq_some_iff.mp h
    cases heq
    rfl
  case case34 | case45 | case46 | case47 =>
    rw [BringUp.dropScratch_frame]
    rfl
  all_goals first
    | rfl
    | rw [BringUp.dropScratch_frame]

theorem ensureStep_sameMap {b : BringUp} {w w' : World} {pc pc' : EnsurePc} {a : Answer}
    (h : ensureStep b w pc a = some (w', pc')) : w.SameMap w' := by
  rw [ensureStep_frame h]
  exact ⟨rfl, rfl, rfl, rfl, rfl⟩

theorem World.dropThawed_frame (w : World) (s : Schema) (r : Option Source) :
    w.dropThawed s r =
      { w with dumps := (w.dropThawed s r).dumps, images := (w.dropThawed s r).images } := by
  unfold World.dropThawed
  split <;> rfl

theorem ckStep_move {cfg : Config} {t : ℕ} {s : Schema} {w w' : World} {pc pc' : CkPc} {a : Answer}
    (h : ckStep cfg t s w pc a = some (w', pc')) : CkMove a t s w w' pc pc' := by
  revert h
  fun_cases ckStep cfg t s w pc a <;> intro h <;> (try cases h)
  case case3 h => exact .miss h rfl
  case case4 h _ hc => exact .warm h hc rfl
  case case5 h hc =>
    refine .keep (.refl w) rfl (by simp [CkPc.entry]) (fun d hd ↦ .inr ?_) ?_ (by simp)
      (by simp [CkPc.cleaning])
    · obtain rfl : _ = d := by simpa [CkPc.cell] using hd
      exact h
    · intro v hv
      simp only [CkPc.reach, Cell.vm] at hv
      split at hv
      · exact absurd ‹_› (hc _)
      all_goals cases hv
  case case6 e _ | case30 e _ =>
    refine .acquire rfl rfl rfl rfl rfl (congrArg some ?_) rfl
    exact World.modEntry_sandbox (f := (·.acquire t w.now)) (fun _ ↦ rfl) w e
  case case10 | case34 => exact .release rfl rfl rfl rfl rfl rfl rfl
  case case11 =>
    split
    · exact .evict ‹_› rfl
    · exact .keep (.refl w) rfl (by simp [CkPc.entry]) (by simp [CkPc.cell])
        (by simp [CkPc.reach, CkPc.vm, CkPc.entry]) (by simp) (by simp [CkPc.cleaning])
  case case19 hc =>
    refine .keep (.refl w) rfl (fun e he ↦ .inr ⟨_, rfl, ?_⟩) (by simp [CkPc.cell]) ?_ (by simp)
      (by simp [CkPc.cleaning])
    · obtain rfl : _ = e := by simpa [CkPc.entry] using he
      exact hc
    · simp [CkPc.reach, CkPc.vm, CkPc.entry, hc, Cell.vm]
  case case20 hc => exact .start hc rfl
  case case22 => exact .fill rfl
  case case23 => exact .reset rfl
  case case24 =>
    obtain ⟨r, hr, hp⟩ := Option.map_eq_some_iff.mp h
    cases hp
    exact .ensure hr
  case case27 =>
    rw [World.dropThawed_frame]
    exact .keep ⟨rfl, rfl, rfl, rfl, rfl⟩ rfl (by simp [CkPc.entry]) (by simp [CkPc.cell])
      (by simp [CkPc.reach, CkPc.vm, CkPc.entry]) (by simp) (by simp [CkPc.cleaning])
  all_goals
    (try split) <;> exact .keep ⟨rfl, rfl, rfl, rfl, rfl⟩ rfl (by simp [CkPc.entry])
      (by simp [CkPc.cell]) (by simp [CkPc.reach, CkPc.vm, CkPc.entry, World.clearPending,
        World.clearBreaker, World.clientWrite]) (by simp) (by simp [CkPc.cleaning])

/-- An offload that is writing, or has written, a tier. -/
def OffPc.writing : OffPc → Bool
  | .writeTier _ _ _ _ | .finish _ _ _ => true
  | _ => false

/-- What an offload step does to the pooler's memory. -/
inductive OffMove (a : Answer) (s : Schema) (w w' : World) : OffPc → OffPc → Prop
  | other {pc pc' : OffPc}
    (hw : w' = { w with
      inventory := w'.inventory, disks := w'.disks, dumps := w'.dumps, images := w'.images
      s3Dump := w'.s3Dump, s3Image := w'.s3Image })
    (holds : pc'.holds = true → pc.holds = true) (past : pc'.past = true → pc.past = true)
    (writing : pc'.writing = false) (tier : ∀ fin, pc' ≠ .setTier .live fin) : OffMove a s w w' pc pc'
  | claim {r : Route} (h : w.archiving s = false)
    (hw : w' = { w with archiving := update w.archiving s true }) :
    OffMove a s w w' (.claim r) r.afterClaim
  | evict {r : Route} {pc' : OffPc} (h : offEvict s r w = (w', pc')) : OffMove a s w w' (.evict r) pc'
  | ensure {r : Route} {known : Option SandboxId} {p p' : EnsurePc}
    (h : ensureStep ⟨s, known, none, none⟩ w p a = some (w', p')) :
    OffMove a s w w' (.bringUp r known p) (.bringUp r known p')
  | bind {id : SandboxId} (h : w.store.record s = none)
    (hw : w' = { w with store := w.store.put s id w.unix }) :
    OffMove a s w w' (.ensureRow id) (.setTier .archived (.killById id))
  | flip {tier : Tier} {fin : Final} {store : Store} (h : w.store.setTier s tier = some store)
    (hw : w' = { w with store }) :
    OffMove a s w w' (.setTier tier fin) (.writeTier tier store.seq (serialize store.map) fin)
  | missing {tier : Tier} {fin : Final} (h : w.store.record s = none) (hw : w' = w) :
    OffMove a s w w' (.setTier tier fin) (.finish tier none fin)
  | write {tier : Tier} {g : ℕ} {contents : String} {fin : Final} (ok : Bool)
    (ha : a = if ok then .ok else .failed)
    (hw : w' = { w with store := w.store.writeLatest g contents ok }) :
    OffMove a s w w' (.writeTier tier g contents fin) (.finish tier (some g) fin)

theorem offEvict_frame (s : Schema) (r : Route) (w : World) :
    (offEvict s r w).1 = { w with entries := (offEvict s r w).1.entries } := by
  unfold offEvict
  split
  · split <;> rfl
  · rfl

theorem OffMove.same {a : Answer} {s : Schema} {w : World} {pc pc' : OffPc}
    (holds : pc'.holds = true → pc.holds = true) (past : pc'.past = true → pc.past = true)
    (writing : pc'.writing = false) (tier : ∀ fin, pc' ≠ .setTier .live fin) :
    OffMove a s w w pc pc' :=
  .other rfl holds past writing tier

theorem offBegin_cases (cfg : Config) (tier : Option Tier) (kind : OffloadKind) :
    offBegin cfg tier kind = .failed ∨ (∃ viewed, offBegin cfg tier kind = .imageTarget viewed) ∨
      ∃ r, offBegin cfg tier kind = .claim r := by
  unfold offBegin
  repeat' split
  all_goals simp

theorem imageFallback_cases (cfg : Config) (r : Route) (id : Option SandboxId) :
    imageFallback cfg r id = .failed ∨ ∃ v, id = some v ∧ imageFallback cfg r id = .imageDisk v := by
  unfold imageFallback
  repeat' split
  all_goals simp

theorem offCore_move {cfg : Config} {s : Schema} {kind : OffloadKind} {w w' : World}
    {pc pc' : OffPc} {a : Answer} (h : offCore cfg s kind w pc a = some (w', pc')) :
    OffMove a s w w' pc pc' := by
  revert h
  fun_cases offCore cfg s kind w pc a <;> intro h <;> (try cases h)
  case case1 =>
    rcases offBegin_cases cfg (w.store.tierOf s) kind with heq | ⟨_, heq⟩ | ⟨_, heq⟩
    all_goals
      rw [heq]
      exact .same (by simp [OffPc.holds]) (by simp [OffPc.past]) rfl (by simp)
  case case5 hs => exact .claim (by simpa using hs) rfl
  case case6 => exact .evict (Option.some.inj h)
  case case12 =>
    obtain ⟨_, hx, heq⟩ := Option.map_eq_some_iff.mp h
    cases heq
    exact .ensure hx
  case case15 r known | case19 r known =>
    rcases imageFallback_cases cfg r known with heq | ⟨v, -, heq⟩
    all_goals
      rw [heq]
      exact .same (fun _ ↦ rfl) (fun _ ↦ rfl) rfl (by simp)
  case case27 r id | case28 r id =>
    rcases imageFallback_cases cfg r (some id) with heq | ⟨v, -, heq⟩
    all_goals
      rw [heq]
      exact .same (fun _ ↦ rfl) (fun _ ↦ rfl) rfl (by simp)
  case case20 | case23 | case33 | case36 | case41 | case45 =>
    obtain ⟨_, -, heq⟩ := Option.map_eq_some_iff.mp h
    cases heq
    exact .other rfl (fun _ ↦ rfl) id rfl (by simp)
  case case21 =>
    obtain ⟨_, -, heq⟩ := Option.map_eq_some_iff.mp h
    split at heq <;> cases heq <;> exact .other rfl (fun _ ↦ rfl) (fun _ ↦ rfl) rfl (by simp)
  case case35 id =>
    split
    · rename_i hnone
      exact .bind (by simpa using hnone) rfl
    · exact .same (fun _ ↦ rfl) (fun _ ↦ rfl) rfl (by simp)
  case case38 | case39 | case42 | case43 | case46 =>
    split <;> exact .same (fun _ ↦ rfl) (by simp [OffPc.past, Final.vm]) rfl (by simp)
  case case54 hset => exact .flip hset rfl
  case case55 hset =>
    have hnone : w.store.record s = none := by simpa [Store.setTier] using hset
    exact .missing hnone rfl
  case case56 => exact .write true rfl rfl
  case case57 => exact .write false rfl rfl
  all_goals exact .other rfl (by simp [OffPc.holds]) (by simp [OffPc.past, Final.vm]) rfl (by simp)

theorem offStep_eq {cfg : Config} {s : Schema} {kind : OffloadKind} {w w' : World} {pc pc' : OffPc}
    {a : Answer} (h : offStep cfg s kind w pc a = some (w', pc')) :
    ∃ u, offCore cfg s kind w pc a = some (u, pc') ∧ ∃ x, w' = { u with archiving := x } := by
  obtain ⟨⟨u, p⟩, hu, heq⟩ := Option.map_eq_some_iff.mp h
  cases heq
  refine ⟨u, hu, ?_⟩
  split
  · exact ⟨_, rfl⟩
  · exact ⟨u.archiving, rfl⟩

end PgVmPool
