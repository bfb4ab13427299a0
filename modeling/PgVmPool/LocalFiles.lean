import PgVmPool.StackedOffloads
import PgVmPool.Thaw

namespace PgVmPool

open Function Transition

/-- The offloaded tier whose local file a restore source names. -/
def Source.tier : Source → Option Tier
  | .localDump => some .frozen
  | .localImage => some .compacted
  | .s3 | .s3Image => none

/-- The upload of a dump job whose attempt was given up; it can still land at the schema's dump path. -/
structure Late where
  schema : Schema
  copy : Content

def lateMove (st : State) (pc : Unit) (x : Late) : Option (State × Unit) :=
  some ({ st with world := { st.world with dumps := update st.world.dumps x.schema (some x.copy) } }, pc)

/-- What an observer notes of the local files of one schema, each by the tier it is for: how often it
was written, what the last offload wrote and what it wrote for the tier it then set; and which file, by
its number, a checkout's bring-up restored and an entry was restored from. -/
structure Books where
  version : Tier → ℕ
  wrote : Tier → Option Content
  kept : Tier → Option Content
  read : ℕ → Option (Tier × ℕ)
  origin : ℕ → Option (Tier × ℕ)

inductive FileEvent
  | wrote (tier : Tier)
  | flipped (tier : Tier)
  | read (tier : Tier)
  | filled

def Task.fileEvent (cfg : Config) (s : Schema) (a : Answer) : Task → Option FileEvent
  | .offload r _ (.dump .freeze _) => if r = s ∧ a ≠ .failed then some (.wrote .frozen) else none
  | .offload r _ (.dump .archive _) =>
    if r = s ∧ a ≠ .failed ∧ cfg.viaGuest = false then some (.wrote .frozen) else none
  | .offload r _ (.compactDisk _) => if r = s ∧ a ≠ .failed then some (.wrote .compacted) else none
  | .offload r _ (.setTier tier _) => if r = s then some (.flipped tier) else none
  | .checkout r (.bringUp _ b (.restoring _ _)) =>
    if r = s ∧ a = .ok ∧ b.restore = some .localDump then some (.read .frozen) else none
  | .checkout r (.bringUp _ b .materialize) =>
    if r = s ∧ a = .ok ∧ b.restore = some .localImage then some (.read .compacted) else none
  | .checkout r (.bringUp _ _ (.ok _ _)) => if r = s then some .filled else none
  | _ => none

namespace Books

variable (b : Books)

def write (w : World) (s : Schema) (tier : Tier) : Books :=
  { b with
    version := update b.version tier (b.version tier + 1)
    wrote := update b.wrote tier (w.localCopy s tier) }

/-- The books after an event of task `t`; `e` is the entry it may have made. -/
def note (w : World) (s : Schema) (t e : ℕ) : Option FileEvent → Books
  | some (.wrote tier) => b.write w s tier
  | some (.flipped tier) => { b with kept := update b.kept tier (b.wrote tier) }
  | some (.read tier) => { b with read := update b.read t (some (tier, b.version tier)) }
  | some .filled => { b with origin := update b.origin e (b.read t) }
  | none => b

end Books

abbrev Shelved := Beside State Unit Books

def shelve (cfg : Config) (s : Schema) (j : Shelved) : Label ⊕ Late → State → Books
  | .inl (.run t a), st =>
    j.seen.note st.world s t j.sys.world.nextEntry ((j.sys.tasks[t]?).bind (Task.fileEvent cfg s a))
  | .inr x, st => if x.schema = s then j.seen.write st.world s .frozen else j.seen
  | _, _ => j.seen

abbrev shelvedStep (cfg : Config) (s : Schema) : Label ⊕ Late → Shelved → Option Shelved :=
  beside (step cfg) lateMove (shelve cfg s)

def Shelved.boot (w : World) (s : Schema) : Shelved :=
  ⟨.boot w, (), ⟨fun _ ↦ 0, w.localCopy s, w.localCopy s, fun _ ↦ none, fun _ ↦ none⟩⟩

/-- The restore source a checkout has computed and not yet done with. -/
def CkPc.source : CkPc → Option Source
  | .boundIds _ _ r | .recordBinding _ r | .clearPending _ r _ | .removeThawed _ r _ => r
  | .awaitCell _ b | .bringUp _ b _ => b.restore
  | _ => none

/-- The offloaded tier whose file a route overwrites on its way. -/
def Route.overwrites (cfg : Config) : Route → Option Tier
  | .freeze => some .frozen
  | .archive => if cfg.viaGuest then none else some .frozen
  | .compact => some .compacted
  | .image _ | .promoteFrozen | .promoteCompacted => none

def Task.sources (s : Schema) (tier : Tier) : Task → Bool
  | .checkout r pc => r = s && pc.source.bind Source.tier = some tier
  | _ => false

/-- The tier an offload of `s` is about to set. -/
def Task.flips (s : Schema) : Task → Option Tier
  | .offload r _ (.setTier tier _) => if r = s then some tier else none
  | _ => none

/-- The entry a waiter of a cell finds in it, with the file the waiter has as its restore source. -/
def Task.joins (s : Schema) (w : World) : Task → Option (ℕ × Tier)
  | .checkout r (.awaitCell c b) =>
    match w.cells c with
    | .full e => if r = s then (b.restore.bind Source.tier).map (e, ·) else none
    | _ => none
  | _ => none

/-- No checkout has the file of `tier` as its restore source. -/
def State.Unsourced (st : State) (s : Schema) (tier : Tier) : Prop := ∀ x ∈ st.tasks, x.sources s tier = false

def Task.writes (cfg : Config) (s : Schema) (a : Answer) (x : Task) : Option Tier :=
  match x.fileEvent cfg s a with
  | some (.wrote tier) => some tier
  | _ => none

/-- What a task's next step asks of the local files of `s`: a freeze, compaction or archive claims the
schema only when the row does not rely on the file it will write, and writes it only when no checkout
has it as its restore source; a waiter has the file its cell was restored from as its own source. -/
structure Task.Asks (cfg : Config) (s : Schema) (j : Shelved) (a : Answer) (x : Task) : Prop where
  claims : ∀ p ∈ x.claiming, p.1 = s → j.sys.world.archiving s = false →
    ∀ tier ∈ p.2.overwrites cfg, j.sys.world.store.tierOf s ≠ some tier
  writes : ∀ tier ∈ x.writes cfg s a, j.sys.Unsourced s tier
  joins : ∀ p ∈ x.joins s j.sys.world, j.seen.origin p.1 = some (p.2, j.seen.version p.2)

/-- A late upload lands only when neither the row nor a checkout nor a freeze relies on the dump. -/
structure Shelved.Idle (s : Schema) (j : Shelved) : Prop where
  row : j.sys.world.store.tierOf s ≠ some .frozen
  sources : j.sys.Unsourced s .frozen
  flips : ∀ x ∈ j.sys.tasks, x.flips s ≠ some .frozen

def FilesApart (cfg : Config) (s : Schema) (j : Shelved) : Label ⊕ Late → Prop
  | .inl (.run t a) => ∀ x ∈ j.sys.tasks[t]?, x.Asks cfg s j a
  | .inr x => x.schema = s → j.Idle s
  | _ => True

instance (st : State) (s : Schema) (tier : Tier) : Decidable (st.Unsourced s tier) :=
  inferInstanceAs (Decidable (∀ x ∈ st.tasks, x.sources s tier = false))

instance (cfg : Config) (s : Schema) (j : Shelved) (a : Answer) (x : Task) : Decidable (x.Asks cfg s j a) :=
  decidable_of_iff ((∀ p ∈ x.claiming, p.1 = s → j.sys.world.archiving s = false →
      ∀ tier ∈ p.2.overwrites cfg, j.sys.world.store.tierOf s ≠ some tier) ∧
    (∀ tier ∈ x.writes cfg s a, j.sys.Unsourced s tier) ∧
    ∀ p ∈ x.joins s j.sys.world, j.seen.origin p.1 = some (p.2, j.seen.version p.2))
    ⟨fun h ↦ ⟨h.1, h.2.1, h.2.2⟩, fun h ↦ ⟨h.claims, h.writes, h.joins⟩⟩

instance (s : Schema) (j : Shelved) : Decidable (j.Idle s) :=
  decidable_of_iff (j.sys.world.store.tierOf s ≠ some .frozen ∧ j.sys.Unsourced s .frozen ∧
    ∀ x ∈ j.sys.tasks, x.flips s ≠ some .frozen)
    ⟨fun h ↦ ⟨h.1, h.2.1, h.2.2⟩, fun h ↦ ⟨h.row, h.sources, h.flips⟩⟩

instance (cfg : Config) (s : Schema) (j : Shelved) : ∀ l, Decidable (FilesApart cfg s j l)
  | .inl (.run t a) => inferInstanceAs (Decidable (∀ x ∈ j.sys.tasks[t]?, x.Asks cfg s j a))
  | .inr x => inferInstanceAs (Decidable (x.schema = s → j.Idle s))
  | .inl (.spawn _) | .inl (.land _ _) | .inl (.tick _) | .inl (.publish _ _) | .inl .flush => isTrue trivial

/-- The row's local file is there, with what the last offload to set that tier wrote, and a checkout
removes no file but the one its VM was restored from. -/
structure Shelved.LocalData (cfg : Config) (s : Schema) (j : Shelved) : Prop where
  file : ∀ tier, tier.localSource.isSome = true → j.sys.world.store.tierOf s = some tier →
    ∃ c, j.sys.world.localCopy s tier = some c ∧ j.seen.kept tier = some c
  removes : ∀ t r ck a w' ck' tier, j.sys.tasks[t]? = some (.checkout r ck) →
    ckStep cfg t r j.sys.world ck a = some (w', ck') →
    w'.localCopy s tier ≠ j.sys.world.localCopy s tier →
      r = s ∧ ∃ e, ck.entry = some e ∧ j.seen.origin e = some (tier, j.seen.version tier)

section Checkouts

variable {cfg : Config} {t : ℕ} {s : Schema} {w w' : World} {a : Answer} {P P' : Prop}

/-- How far a bring-up that restores a local file is; `P` says that it has read it. -/
def EnsurePc.Read (image : Bool) (P : Prop) : EnsurePc → Prop
  | .slotBudget _ _ | .ok _ _ => P
  | .readyPg _ _ | .ensureDatabase _ _ | .takeSpare _ | .confirmSpare _ _ | .creating | .recordPending _
  | .indexCreated _ | .waitCreated _ | .swapStop _ _ | .swapCopy _ _ | .swapStart _ _ | .swapWait _ _ =>
    image = true → P
  | .starting _ _ | .waiting _ _ | .lookup | .findByName | .restoring _ _ => image = false
  | .materialize => image = true
  | _ => True

theorem EnsurePc.Read.mono {image : Bool} {p : EnsurePc} (h : p.Read image P) (hP : P → P') :
    p.Read image P' := by
  cases p <;> first | exact hP h | exact fun himage ↦ hP (h himage) | exact h

def EnsurePc.reads (a : Answer) (image : Bool) : EnsurePc → Bool
  | .restoring _ _ => a = .ok && !image
  | .materialize => a = .ok && image
  | _ => false

theorem ensureStep_read {b : BringUp} {p p' : EnsurePc} (h : ensureStep b w p a = some (w', p'))
    (hsome : b.restore.isSome = true) (hp : p.Read b.image P) (hP : P → P')
    (hread : p.reads a b.image = true → P') : p'.Read b.image P' := by
  have hfresh (hP : b.image = true → P') : b.fresh.Read b.image P' := by
    unfold BringUp.fresh
    split <;> exact hP
  have hadopt {q : Provenance} {id : SandboxId} (hP : b.image = true → P') :
      (b.adopt q id).Read b.image P' := by
    unfold BringUp.adopt
    split
    · exact hP
    · exact fun himage ↦ absurd himage ‹_›
  have hgive (q : Provenance) (id : SandboxId) : (EnsurePc.giveUp q id).Read b.image P' := by
    unfold EnsurePc.giveUp
    split <;> trivial
  have hplain (himage : b.image = false) : b.image = true → P' := by simp [himage]
  replace hp := hp.mono hP
  revert h
  fun_cases ensureStep b w p a <;> intro h <;> (try cases h) <;> (try exact hp) <;> (try trivial)
  case case1 =>
    unfold BringUp.first
    split
    · assumption
    · rename_i himage
      split <;> simpa [EnsurePc.Read] using himage
  case case6 | case17 => exact hfresh (hplain hp)
  case case9 => exact fun himage ↦ absurd himage (by simp [show b.image = false from hp])
  case case21 | case22 | case30 => exact hadopt hp
  case case35 =>
    obtain ⟨c, -, heq⟩ := Option.map_eq_some_iff.mp h
    cases heq
    exact hfresh fun himage ↦ hread (by simp [EnsurePc.reads, himage])
  case case38 =>
    obtain ⟨c, -, heq⟩ := Option.map_eq_some_iff.mp h
    cases heq
    exact hp
  case case50 =>
    unfold BringUp.afterDatabase
    split
    · rename_i himage
      simpa [EnsurePc.Read, hsome] using himage
    · rename_i himage
      rw [hsome] at himage
      exact hp (by simpa using himage)
  case case51 =>
    obtain ⟨c, -, heq⟩ := Option.map_eq_some_iff.mp h
    cases heq
    exact hread (by simp [EnsurePc.reads, show b.image = false from hp])
  case case52 | case53 | case54 => exact hgive ..

/-- What a checkout with the file of `tier` as its restore source relies on. -/
def CkPc.Owns (s : Schema) (t : ℕ) (tier : Tier) (w : World) (b : Books) : CkPc → Prop
  | .bringUp _ br p => p.Read br.image (b.read t = some (tier, b.version tier))
  | .recordBinding e _ => b.origin e = some (tier, b.version tier)
  | .clearPending e _ _ | .removeThawed e _ _ =>
    b.origin e = some (tier, b.version tier) ∧ w.store.tierOf s ≠ some tier
  | _ => True

variable {tier : Tier} {b : Books} {pc pc' : CkPc} {c e : ℕ} {br : BringUp} {p : EnsurePc}

theorem BringUp.image_eq (h : br.restore.bind Source.tier = some tier) :
    br.restore = some (if br.image then .localImage else .localDump) ∧
      tier = if br.image then .compacted else .frozen := by
  obtain ⟨source, hr, ht⟩ := Option.bind_eq_some_iff.mp h
  cases source <;> cases ht <;> simp [BringUp.image, hr, Source.isImage]

theorem Task.fileEvent_bringUp (h : br.restore.bind Source.tier = some tier)
    (hp : ∀ id n, p ≠ .ok id n) : (Task.checkout s (.bringUp c br p)).fileEvent cfg s a =
      if p.reads a br.image then some (.read tier) else none := by
  obtain ⟨hr, rfl⟩ := BringUp.image_eq h
  cases p with
  | ok id n => exact absurd rfl (hp id n)
  | restoring | materialize =>
    cases himage : br.image <;> by_cases ha : a = .ok <;>
      simp [Task.fileEvent, EnsurePc.reads, hr, himage, ha]
  | _ => rfl

theorem ckStep_source (h : ckStep cfg t s w pc a = some (w', pc'))
    (ht : pc'.source.bind Source.tier = some tier) :
    pc.source = pc'.source ∨ w.store.tierOf s = some tier ∧ ∃ c k r, pc' = .boundIds c k r := by
  revert h
  fun_cases ckStep cfg t s w pc a <;> intro h <;> (try cases h) <;> (try cases ht) <;> (try exact .inl rfl)
  case case2 | case12 => split at ht <;> cases ht
  case case15 c r hr =>
    refine .inr ⟨?_, _, _, _, rfl⟩
    cases hrow : w.store.tierOf s with
    | none =>
      simp only [hrow, Option.getD_none, restoreSource, Option.some.injEq] at hr
      subst hr
      cases ht
    | some row =>
      rw [hrow] at hr
      cases row <;> simp only [Option.getD_some, restoreSource, Option.ite_none_right_eq_some,
        Option.some.injEq] at hr
      · subst hr
        cases ht
      all_goals
        obtain ⟨-, rfl⟩ := hr
        cases ht
      all_goals rfl
  case case24 =>
    obtain ⟨_, -, heq⟩ := Option.map_eq_some_iff.mp h
    cases heq
    exact .inl rfl

theorem ckStep_owns (h : ckStep cfg t s w pc a = some (w', pc'))
    (ht : pc'.source.bind Source.tier = some tier)
    (hown : pc.source.bind Source.tier = some tier → pc.Owns s t tier w b)
    (hjoin : ∀ p ∈ (Task.checkout s pc).joins s w, b.origin p.1 = some (p.2, b.version p.2)) :
    pc'.Owns s t tier w' (b.note w' s t w.nextEntry ((Task.checkout s pc).fileEvent cfg s a)) := by
  revert h
  fun_cases ckStep cfg t s w pc a <;> intro h <;> (try cases h) <;> (try cases ht) <;> (try trivial)
  case case2 | case12 => split <;> trivial
  case case19 c br e hc =>
    refine hjoin (e, tier) ?_
    simp only [Task.joins, hc, if_true, show br.restore.bind Source.tier = some tier from ht]
    rfl
  case case22 c br id slots =>
    have hread : b.read t = some (tier, b.version tier) := hown ht
    simp [CkPc.Owns, Task.fileEvent, Books.note, hread]
  case case24 c br p _ _ =>
    obtain ⟨⟨u, p'⟩, hp, heq⟩ := Option.map_eq_some_iff.mp h
    cases heq
    have hne : ∀ id n, p ≠ .ok id n := by
      rintro id n rfl
      cases a <;> cases hp
    have hsome : br.restore.isSome = true := by
      rw [(BringUp.image_eq ht).1]
      rfl
    rw [Task.fileEvent_bringUp ht hne]
    refine ensureStep_read hp hsome (hown ht) (fun hread ↦ ?_) fun hreads ↦ ?_
    · split
      · simp [Books.note]
      · exact hread
    · simp [hreads, Books.note]
  case case25 e r _ =>
    refine ⟨hown ht, ?_⟩
    rw [Store.tierOf_put]
    rintro ⟨⟩
    obtain ⟨source, -, hsource⟩ := Option.bind_eq_some_iff.mp ht
    cases source <;> cases hsource
  case case26 => exact hown ht

end Checkouts

section Offloads

variable {cfg : Config} {s : Schema} {kind : OffloadKind} {w w' : World} {pc pc' : OffPc} {a : Answer}
  {b : Books} {tier : Tier}

/-- The offloaded tier whose file a final step removes. -/
def Final.removes : Final → Option Tier
  | .removeDump => some .frozen
  | .removeImage => some .compacted
  | .kill _ | .killById _ => none

/-- The tier the row does not have while the offload is there. -/
def OffPc.avoids (cfg : Config) : OffPc → Option Tier
  | .evict r | .readRecord r | .bringUp r _ _ | .dump r _ => r.overwrites cfg
  | .uploadScratch _ => some .frozen
  | .compactDisk _ => some .compacted
  | .setTier tier _ => tier.localSource.map fun _ ↦ tier
  | .writeTier _ _ _ fin | .finish _ _ fin => fin.removes
  | _ => none

/-- What an offload relies on of the row and of the file it has written. -/
structure OffPc.Stands (cfg : Config) (s : Schema) (w : World) (b : Books) (pc : OffPc) : Prop where
  row : ∀ tier, pc.avoids cfg = some tier → w.store.tierOf s ≠ some tier
  wrote : ∀ tier fin, pc = .setTier tier fin → tier.localSource.isSome = true →
    ∃ c, w.localCopy s tier = some c ∧ b.wrote tier = some c
  lands : ∀ tier fin, pc = .setTier tier fin → fin.removes ≠ none → tier = .archived

theorem OffPc.Stands.of_not_setTier (hset : ∀ tier fin, pc ≠ .setTier tier fin)
    (hrow : ∀ tier, pc.avoids cfg = some tier → w.store.tierOf s ≠ some tier) : pc.Stands cfg s w b :=
  ⟨hrow, fun tier fin h ↦ absurd h (hset tier fin), fun tier fin h ↦ absurd h (hset tier fin)⟩

theorem OffPc.Stands.of_none (hset : ∀ tier fin, pc ≠ .setTier tier fin) (h : pc.avoids cfg = none) :
    pc.Stands cfg s w b :=
  .of_not_setTier hset (by simp [h])

theorem OffPc.Stands.archived {fin : Final} : (OffPc.setTier .archived fin).Stands cfg s w b where
  row tier h := by cases h
  wrote tier fin h hl := by cases h; cases hl
  lands tier fin h _ := by cases h; rfl

/-- An offload's step: what it relies on next, which tier the row may have come to have, and the file of
the row's tier. -/
structure FileStep (cfg : Config) (s : Schema) (w w' : World) (b b' : Books) (pc pc' : OffPc) : Prop where
  stands : pc'.Stands cfg s w' b'
  row : ∀ tier, tier.localSource.isSome = true → w'.store.tierOf s = some tier →
    w.store.tierOf s = some tier ∨ ∃ fin, pc = .setTier tier fin
  file : ∀ tier, tier.localSource.isSome = true → w'.store.tierOf s = some tier →
    (w'.localCopy s tier = w.localCopy s tier ∧ b'.kept tier = b.kept tier ∧
      w.store.tierOf s = some tier) ∨
    ∃ c, w'.localCopy s tier = some c ∧ b'.kept tier = some c

theorem FileStep.quiet (hstands : pc'.Stands cfg s w' b) (htier : w'.store.tierOf s = w.store.tierOf s)
    (hcopy : ∀ tier, w'.store.tierOf s = some tier → w'.localCopy s tier = w.localCopy s tier) :
    FileStep cfg s w w' b b pc pc' where
  stands := hstands
  row _ _ ht := .inl (htier ▸ ht)
  file tier _ ht := .inl ⟨hcopy tier ht, rfl, htier ▸ ht⟩

theorem FileStep.idle (hs : pc.Stands cfg s w b) (hset : ∀ tier fin, pc' ≠ .setTier tier fin)
    (havoid : pc'.avoids cfg = none ∨ pc'.avoids cfg = pc.avoids cfg)
    (htier : w'.store.tierOf s = w.store.tierOf s)
    (hcopy : ∀ tier, w'.store.tierOf s = some tier → w'.localCopy s tier = w.localCopy s tier) :
    FileStep cfg s w w' b b pc pc' := by
  refine .quiet (.of_not_setTier hset fun tier ht ↦ ?_) htier hcopy
  rcases havoid with heq | heq <;> rw [heq] at ht
  · cases ht
  · exact htier ▸ hs.row tier ht

theorem FileStep.lands (hpc' : ∃ fin, pc' = .setTier .archived fin)
    (htier : w'.store.tierOf s = w.store.tierOf s)
    (hcopy : ∀ tier, w'.store.tierOf s = some tier → w'.localCopy s tier = w.localCopy s tier) :
    FileStep cfg s w w' b b pc pc' := by
  obtain ⟨fin, rfl⟩ := hpc'
  exact .quiet .archived htier hcopy

theorem FileStep.write (hrow : w.store.tierOf s ≠ some tier) (htier : w'.store.tierOf s = w.store.tierOf s)
    (hcopy : ∀ other, other ≠ tier → w'.localCopy s other = w.localCopy s other)
    (hpc' : pc'.Stands cfg s w' (b.write w' s tier)) :
    FileStep cfg s w w' b (b.write w' s tier) pc pc' where
  stands := hpc'
  row other _ ht := .inl (htier ▸ ht)
  file other _ ht := by
    rw [htier] at ht
    have hne : other ≠ tier := by
      rintro rfl
      exact hrow ht
    exact .inl ⟨hcopy other hne, rfl, ht⟩

theorem offEvict_avoids (cfg : Config) (s : Schema) (w : World) (r : Route) :
    (∀ tier fin, (offEvict s r w).2 ≠ .setTier tier fin) ∧
    ((offEvict s r w).2.avoids cfg = none ∨ (offEvict s r w).2.avoids cfg = r.overwrites cfg) := by
  unfold offEvict Route.afterEvict
  cases r <;> (split <;> (try split)) <;> simp [OffPc.avoids, Route.overwrites]

theorem World.localCopy_dumps_ne {c : Option Content} (h : tier ≠ .frozen) :
    World.localCopy { w with dumps := update w.dumps s c } s tier = w.localCopy s tier := by
  cases tier <;> first | rfl | exact absurd rfl h

theorem World.localCopy_images_ne {c : Option Content} (h : tier ≠ .compacted) :
    World.localCopy { w with images := update w.images s c } s tier = w.localCopy s tier := by
  cases tier <;> first | rfl | exact absurd rfl h

/-- The file of a tier is written, and the row is to follow it. -/
theorem FileStep.fills {fin : Final} {c : Content} (hrow : w.store.tierOf s ≠ some tier)
    (htier : w'.store.tierOf s = w.store.tierOf s)
    (hcopy : ∀ other, other ≠ tier → w'.localCopy s other = w.localCopy s other)
    (hc : w'.localCopy s tier = some c) (hfin : fin.removes = none) :
    FileStep cfg s w w' b (b.write w' s tier) pc (.setTier tier fin) := by
  refine .write hrow htier hcopy ⟨fun other ho ↦ ?_, ?_, ?_⟩
  · obtain ⟨_, -, rfl⟩ := Option.map_eq_some_iff.mp ho
    exact htier ▸ hrow
  · rintro other fin' ⟨⟩ -
    exact ⟨c, hc, by simp [Books.write, hc]⟩
  · rintro other fin' ⟨⟩ hremoves
    exact absurd hfin hremoves

/-- The row comes to have a tier: its file is the one that was written. -/
theorem FileStep.flips {fin : Final} {store : Store} {g : ℕ} {contents : String}
    (hs : (OffPc.setTier tier fin).Stands cfg s w b) (hset : w.store.setTier s tier = some store) :
    FileStep cfg s w { w with store } b { b with kept := update b.kept tier (b.wrote tier) }
      (.setTier tier fin) (.writeTier tier g contents fin) := by
  have htier : store.tierOf s = some tier := Store.tierOf_setTier hset
  refine ⟨.of_not_setTier (by simp) fun other ho ↦ ?_, fun other hl ht ↦ ?_, fun other hl ht ↦ ?_⟩
  · have harch := hs.lands tier fin rfl (by rw [show fin.removes = some other from ho]; simp)
    subst harch
    rw [htier]
    rintro ⟨⟩
    cases fin <;> cases ho
  · rw [htier] at ht
    cases ht
    exact .inr ⟨fin, rfl⟩
  · rw [htier] at ht
    cases ht
    obtain ⟨c, hc, hwrote⟩ := hs.wrote tier fin rfl hl
    exact .inr ⟨c, hc, by simp [hwrote]⟩

theorem FileStep.rowless {b' : Books} (hnone : w.store.record s = none) (hset : ∀ tier fin, pc' ≠ .setTier tier fin) :
    FileStep cfg s w w b b' pc pc' := by
  have hrow (other : Tier) : w.store.tierOf s ≠ some other := by simp [Store.tierOf, hnone]
  exact ⟨.of_not_setTier hset fun other _ ↦ hrow other, fun other _ ht ↦ absurd ht (hrow other),
    fun other _ ht ↦ absurd ht (hrow other)⟩

theorem FileStep.dropsDump (hs : pc.Stands cfg s w b) (havoids : pc.avoids cfg = some .frozen)
    (hset : ∀ tier fin, pc' ≠ .setTier tier fin) (hnone : pc'.avoids cfg = none) :
    FileStep cfg s w { w with dumps := update w.dumps s none } b b pc pc' := by
  refine .idle hs hset (.inl hnone) rfl fun tier ht ↦ World.localCopy_dumps_ne ?_
  rintro rfl
  exact hs.row _ havoids ht

theorem FileStep.dropsImage (hs : pc.Stands cfg s w b) (havoids : pc.avoids cfg = some .compacted)
    (hset : ∀ tier fin, pc' ≠ .setTier tier fin) (hnone : pc'.avoids cfg = none) :
    FileStep cfg s w { w with images := update w.images s none } b b pc pc' := by
  refine .idle hs hset (.inl hnone) rfl fun tier ht ↦ World.localCopy_images_ne ?_
  rintro rfl
  exact hs.row _ havoids ht

theorem Task.fileEvent_failed {pc : OffPc} (hset : ∀ tier fin, pc ≠ .setTier tier fin) :
    (Task.offload s kind pc).fileEvent cfg s .failed = none := by
  cases pc with
  | setTier tier fin => exact absurd rfl (hset tier fin)
  | dump r id => cases r <;> simp [Task.fileEvent]
  | _ => simp [Task.fileEvent]

theorem offCore_files (t : ℕ) (h : offCore cfg s kind w pc a = some (w', pc')) (hs : pc.Stands cfg s w b)
    (hclaim : ∀ r, pc = .claim r → w.archiving s = false → ∀ tier ∈ r.overwrites cfg,
      w.store.tierOf s ≠ some tier) :
    FileStep cfg s w w' b (b.note w' s t w.nextEntry ((Task.offload s kind pc).fileEvent cfg s a))
      pc pc' := by
  revert h
  fun_cases offCore cfg s kind w pc a <;> intro h <;> (try cases h)
  case case1 =>
    rcases offBegin_cases cfg (w.store.tierOf s) kind with heq | ⟨_, heq⟩ | ⟨_, heq⟩ <;> rw [heq] <;>
      exact .idle hs (by simp) (.inl rfl) rfl fun _ _ ↦ rfl
  case case5 r harch =>
    refine .quiet (.of_not_setTier ?_ fun tier ht ↦ ?_) rfl fun _ _ ↦ rfl
    · cases r <;> simp [Route.afterClaim]
    · refine hclaim r rfl (by simpa using harch) tier ?_
      cases r <;> exact ht
  case case6 r =>
    obtain rfl : (offEvict s r w).1 = w' := by rw [Option.some.inj h]
    obtain rfl : (offEvict s r w).2 = pc' := by rw [Option.some.inj h]
    obtain ⟨hset, havoid⟩ := offEvict_avoids cfg s w r
    refine .idle hs hset havoid ?_ fun tier _ ↦ ?_ <;> rw [offEvict_frame]
    rfl
  case case12 =>
    obtain ⟨_, hx, heq⟩ := Option.map_eq_some_iff.mp h
    cases heq
    refine .idle hs (by simp) (.inr rfl) ?_ fun tier _ ↦ ?_ <;> rw [ensureStep_frame hx]
    rfl
  case case15 r known | case19 r known =>
    rcases imageFallback_cases cfg r known with heq | ⟨_, -, heq⟩ <;> rw [heq] <;>
      exact .idle hs (by simp) (.inl rfl) rfl fun _ _ ↦ rfl
  case case27 r id | case28 r id =>
    rcases imageFallback_cases cfg r (some id) with heq | ⟨_, -, heq⟩ <;> rw [heq] <;>
      exact .idle hs (by simp) (.inl rfl) rfl fun _ _ ↦ rfl
  case case20 id n =>
    obtain ⟨c, -, heq⟩ := Option.map_eq_some_iff.mp h
    cases heq
    simp only [Task.fileEvent, ne_eq, reduceCtorEq, not_false_eq_true, and_self, if_true]
    exact .fills (hs.row _ rfl) rfl (fun _ hne ↦ World.localCopy_dumps_ne hne) (update_self ..) rfl
  case case21 id n =>
    obtain ⟨c, -, heq⟩ := Option.map_eq_some_iff.mp h
    split at heq <;> cases heq
    · rename_i hguest
      simp only [Task.fileEvent, hguest, reduceCtorEq, and_false, if_false]
      exact .lands ⟨_, rfl⟩ rfl fun _ _ ↦ rfl
    · rename_i hguest
      have hrow : w.store.tierOf s ≠ some .frozen :=
        hs.row _ (by simp [OffPc.avoids, Route.overwrites, hguest])
      simp only [Task.fileEvent, hguest, ne_eq, reduceCtorEq, not_false_eq_true, and_self, if_true]
      refine .write hrow rfl (fun _ hne ↦ World.localCopy_dumps_ne hne) (.of_not_setTier (by simp) ?_)
      rintro tier ⟨⟩
      exact hrow
  case case23 id =>
    obtain ⟨c, -, heq⟩ := Option.map_eq_some_iff.mp h
    cases heq
    refine .lands ⟨_, rfl⟩ rfl fun tier ht ↦ World.localCopy_dumps_ne ?_
    rintro rfl
    exact hs.row _ rfl ht
  case case24 id =>
    exact .dropsDump hs rfl (by simp) rfl
  case case33 | case41 | case45 =>
    obtain ⟨c, -, heq⟩ := Option.map_eq_some_iff.mp h
    cases heq
    refine .idle hs (by simp) (.inl rfl) rfl fun tier _ ↦ ?_
    cases tier <;> rfl
  case case35 id =>
    split
    · refine ⟨.archived, fun tier hl ht ↦ ?_, fun tier hl ht ↦ ?_⟩
      all_goals
        rw [Store.tierOf_put] at ht
        cases ht
        cases hl
    · exact .lands ⟨_, rfl⟩ rfl fun _ _ ↦ rfl
  case case36 id n =>
    obtain ⟨c, -, heq⟩ := Option.map_eq_some_iff.mp h
    cases heq
    simp only [Task.fileEvent, ne_eq, reduceCtorEq, not_false_eq_true, and_self, if_true]
    exact .fills (hs.row _ rfl) rfl (fun _ hne ↦ World.localCopy_images_ne hne) (update_self ..) rfl
  case case38 | case39 | case43 => split <;> exact .idle hs (by simp) (.inl rfl) rfl fun _ _ ↦ rfl
  case case42 | case46 =>
    split
    · first
      | exact .lands ⟨_, rfl⟩ rfl fun _ _ ↦ rfl
      | exact .idle hs (by simp) (.inl rfl) rfl fun _ _ ↦ rfl
    · exact .idle hs (by simp) (.inl rfl) rfl fun _ _ ↦ rfl
  case case47 => exact .lands ⟨_, rfl⟩ rfl fun tier _ ↦ by cases tier <;> rfl
  case case54 tier fin store hset =>
    simp only [Task.fileEvent, if_true]
    exact .flips hs hset
  case case55 tier fin hset =>
    refine .rowless (by simpa [Store.setTier] using hset) ?_
    simp
  case case56 | case57 =>
    exact .idle hs (by simp) (.inr rfl) (Store.tierOf_of_map (Store.writeLatest_map ..) s)
      fun tier _ ↦ by cases tier <;> rfl
  case case22 | case37 =>
    rw [Task.fileEvent_failed (by simp)]
    exact .idle hs (by simp) (.inl rfl) rfl fun _ _ ↦ rfl
  case case60 => exact .dropsDump hs rfl (by simp) rfl
  case case61 => exact .dropsImage hs rfl (by simp) rfl
  all_goals first
    | exact .idle hs (by simp) (.inl rfl) rfl fun _ _ ↦ rfl
    | exact .idle hs (by simp) (.inr rfl) rfl fun _ _ ↦ rfl

end Offloads

section Kept

variable {cfg : Config} {s : Schema} {w w' : World} {b b' : Books} {tier : Tier} {t : ℕ} {a : Answer}

theorem OffPc.local_of_avoids {pc : OffPc} (h : pc.avoids cfg = some tier) :
    tier.localSource.isSome = true := by
  cases pc with
  | evict r | readRecord r | bringUp r | dump r =>
    cases r with
    | archive =>
      simp only [OffPc.avoids, Route.overwrites, Option.ite_none_left_eq_some] at h
      obtain ⟨-, h⟩ := h
      cases h
      rfl
    | _ => cases h <;> rfl
  | setTier tier' =>
    obtain ⟨_, ht, rfl⟩ := Option.map_eq_some_iff.mp h
    rw [ht]
    rfl
  | writeTier _ _ _ fin | finish _ _ fin => cases fin <;> cases h <;> rfl
  | uploadScratch | compactDisk => cases h; rfl
  | _ => cases h

theorem OffPc.holds_of_avoids {pc : OffPc} (h : pc.avoids cfg = some tier) : pc.holds = true := by
  cases pc <;> first | rfl | cases h

theorem OffPc.Stands.mono {pc : OffPc} (h : pc.Stands cfg s w b)
    (hrow : ∀ tier, tier.localSource.isSome = true → w'.store.tierOf s = some tier →
      w.store.tierOf s = some tier)
    (hwrote : ∀ tier fin, pc = .setTier tier fin → tier.localSource.isSome = true →
      w'.localCopy s tier = w.localCopy s tier ∧ b'.wrote tier = b.wrote tier) :
    pc.Stands cfg s w' b' where
  row tier ht heq := h.row tier ht (hrow tier (OffPc.local_of_avoids ht) heq)
  wrote tier fin hpc hl := by
    obtain ⟨hcopy, hb⟩ := hwrote tier fin hpc hl
    rw [hcopy, hb]
    exact h.wrote tier fin hpc hl
  lands := h.lands

theorem CkPc.Owns.mono {pc : CkPc} (h : pc.Owns s t tier w b) (hread : b'.read t = b.read t)
    (horigin : ∀ e, pc.entry = some e → b'.origin e = b.origin e)
    (hversion : b'.version tier = b.version tier)
    (hrow : w'.store.tierOf s = some tier → w.store.tierOf s = some tier) : pc.Owns s t tier w' b' := by
  cases pc with
  | bringUp c br p =>
    refine EnsurePc.Read.mono h fun hold ↦ ?_
    rw [hread, hversion]
    exact hold
  | recordBinding e r =>
    change b'.origin e = _
    rw [horigin e rfl, hversion]
    exact h
  | clearPending e r g | removeThawed e r g =>
    refine ⟨?_, fun heq ↦ h.2 (hrow heq)⟩
    rw [horigin e rfl, hversion]
    exact h.1
  | _ => trivial

/-- A task that has nothing to do with the files of `s`. -/
def Task.Inert (s : Schema) (x : Task) : Prop :=
  (∀ ck, x = .checkout s ck → ck.source = none) ∧ ∀ kind pc, x = .offload s kind pc → pc = .begin

theorem Task.Inert.of_initial {x : Task} (h : x.initial = true) : x.Inert s := by
  refine ⟨?_, ?_⟩
  · rintro ck rfl
    rw [Task.eq_touch_of_initial h]
    rfl
  · rintro kind pc rfl
    exact Task.eq_begin_of_initial h

theorem Task.Inert.flips {x : Task} (h : x.Inert s) : x.flips s = none := by
  cases x with
  | offload r kind pc =>
    by_cases hr : r = s
    · subst hr
      rw [h.2 kind pc rfl]
      rfl
    · cases pc <;> simp [Task.flips, hr]
  | _ => rfl

theorem Task.flips_eq {x : Task} (h : x.flips s = some tier) :
    ∃ kind fin, x = .offload s kind (.setTier tier fin) := by
  cases x with
  | offload r kind pc =>
    cases pc with
    | setTier tier' fin =>
      simp only [Task.flips, Option.ite_none_right_eq_some, Option.some.injEq] at h
      obtain ⟨rfl, rfl⟩ := h
      exact ⟨kind, fin, rfl⟩
    | _ => cases h
  | _ => cases h

theorem Source.local_of_tier {source : Source} (h : source.tier = some tier) :
    tier.localSource.isSome = true := by
  cases source <;> cases h <;> rfl

theorem CkPc.local_of_source {pc : CkPc} (h : pc.source.bind Source.tier = some tier) :
    tier.localSource.isSome = true := by
  obtain ⟨source, -, hs⟩ := Option.bind_eq_some_iff.mp h
  exact Source.local_of_tier hs

/-- What every state of such a run keeps of the files of `s`. -/
structure Shelved.Filed (cfg : Config) (s : Schema) (j : Shelved) : Prop where
  file : ∀ tier, tier.localSource.isSome = true → j.sys.world.store.tierOf s = some tier →
    ∃ c, j.sys.world.localCopy s tier = some c ∧ j.seen.kept tier = some c
  owns : ∀ (t : ℕ) (ck : CkPc) (tier : Tier), j.sys.tasks[t]? = some (.checkout s ck) →
    ck.source.bind Source.tier = some tier → ck.Owns s t tier j.sys.world j.seen
  flips : ∀ (t : ℕ) (ck : CkPc) (tier : Tier), j.sys.tasks[t]? = some (.checkout s ck) →
    ck.source.bind Source.tier = some tier → ∀ y ∈ j.sys.tasks, y.flips s ≠ some tier
  stands : ∀ (t : ℕ) (kind : OffloadKind) (pc : OffPc), j.sys.tasks[t]? = some (.offload s kind pc) →
    pc.Stands cfg s j.sys.world j.seen

/-- A step of something that has nothing to do with the files of `s`. -/
theorem Shelved.Filed.keep {j : Shelved} (h : j.Filed cfg s) {ts : List Task}
    (hrow : w'.store.tierOf s = j.sys.world.store.tierOf s)
    (hcopy : ∀ tier, w'.localCopy s tier = j.sys.world.localCopy s tier)
    (hts : ∀ (i : ℕ) (x : Task), ts[i]? = some x → j.sys.tasks[i]? = some x ∨ x.Inert s) :
    Shelved.Filed cfg s ⟨⟨w', ts⟩, (), j.seen⟩ where
  file tier hl ht := by
    rw [hcopy]
    exact h.file tier hl (hrow ▸ ht)
  owns t ck tier ht hsource := by
    rcases hts t _ ht with hold | hinert
    · exact (h.owns t ck tier hold hsource).mono rfl (fun _ _ ↦ rfl) rfl fun heq ↦ hrow ▸ heq
    · simp [hinert.1 ck rfl] at hsource
  flips t ck tier ht hsource y hy := by
    rcases hts t _ ht with hold | hinert
    · obtain ⟨i, hi⟩ := List.mem_iff_getElem?.mp hy
      rcases hts i y hi with hi | hinert
      · exact h.flips t ck tier hold hsource y (List.mem_of_getElem? hi)
      · simp [hinert.flips]
    · simp [hinert.1 ck rfl] at hsource
  stands t kind pc ht := by
    rcases hts t _ ht with hold | hinert
    · exact (h.stands t kind pc hold).mono (fun _ _ heq ↦ hrow ▸ heq) fun tier _ _ _ ↦ ⟨hcopy tier, rfl⟩
    · rw [hinert.2 kind pc rfl]
      exact .of_none (by simp) rfl

theorem ckStep_rows {pc pc' : CkPc} (h : ckStep cfg t s w pc a = some (w', pc'))
    (hl : tier.localSource.isSome = true) (ht : w'.store.tierOf s = some tier) :
    w.store.tierOf s = some tier := by
  rcases ckStep_store h with hst | hst | ⟨e, r, -, hst⟩ <;> rw [hst] at ht
  · exact ht
  · rwa [Store.tierOf_touch] at ht
  · rw [Store.tierOf_put] at ht
    cases ht
    cases hl

/-- The only step of a checkout that changes a local file. -/
theorem ckStep_removes {pc pc' : CkPc} (h : ckStep cfg t s w pc a = some (w', pc'))
    (hne : w'.localCopy s tier ≠ w.localCopy s tier) :
    ∃ e source g, pc = .removeThawed e (some source) g ∧ source.tier = some tier := by
  rcases ckStep_localCopy h tier with heq | ⟨e, source, g, rfl, rfl, hsource⟩
  · exact absurd heq hne
  · cases h
    rcases hsource with rfl | rfl <;> refine ⟨e, _, g, rfl, ?_⟩ <;>
      cases tier <;> first | rfl | exact absurd rfl hne

theorem Task.fileEvent_checkout (cfg : Config) (s r : Schema) (a : Answer) (pc : CkPc) :
    (Task.checkout r pc).fileEvent cfg s a = none ∨
      (∃ tier, (Task.checkout r pc).fileEvent cfg s a = some (.read tier)) ∨
      (Task.checkout r pc).fileEvent cfg s a = some .filled := by
  unfold Task.fileEvent
  split
  case h_1 heq | h_2 heq | h_3 heq | h_4 heq => cases heq
  all_goals (try split) <;> simp

/-- What a checkout's step leaves of the books. -/
structure Books.Extends (t e : ℕ) (b b' : Books) : Prop where
  version : b'.version = b.version
  wrote : b'.wrote = b.wrote
  kept : b'.kept = b.kept
  read : ∀ i, i ≠ t → b'.read i = b.read i
  origin : ∀ d, d ≠ e → b'.origin d = b.origin d

theorem Books.note_checkout (b : Books) (w : World) (e : ℕ) (r : Schema) (pc : CkPc) :
    b.Extends t e (b.note w s t e ((Task.checkout r pc).fileEvent cfg s a)) := by
  rcases Task.fileEvent_checkout cfg s r a pc with heq | ⟨_, heq⟩ | heq <;> rw [heq]
  · exact ⟨rfl, rfl, rfl, fun _ _ ↦ rfl, fun _ _ ↦ rfl⟩
  · exact ⟨rfl, rfl, rfl, fun _ hi ↦ update_of_ne hi .., fun _ _ ↦ rfl⟩
  · exact ⟨rfl, rfl, rfl, fun _ _ ↦ rfl, fun _ hd ↦ update_of_ne hd ..⟩

theorem Shelved.Filed.checkout {j : Shelved} (h : j.Filed cfg s) (hsound : j.sys.Sound) {ck ck' : CkPc}
    (ht : j.sys.tasks[t]? = some (.checkout s ck)) (hok : (Task.checkout s ck).Asks cfg s j a)
    (hck : ckStep cfg t s j.sys.world ck a = some (w', ck')) :
    Shelved.Filed cfg s ⟨⟨w', j.sys.tasks.set t (.checkout s ck')⟩, (), j.seen.note w' s t
      j.sys.world.nextEntry ((Task.checkout s ck).fileEvent cfg s a)⟩ := by
  have hb : j.seen.Extends t j.sys.world.nextEntry (j.seen.note w' s t j.sys.world.nextEntry
      ((Task.checkout s ck).fileEvent cfg s a)) := Books.note_checkout ..
  have howned {tier : Tier} (hne : w'.localCopy s tier ≠ j.sys.world.localCopy s tier) :
      ck.source.bind Source.tier = some tier ∧ j.sys.world.store.tierOf s ≠ some tier := by
    obtain ⟨e, source, g, rfl, hsource⟩ := ckStep_removes hck hne
    exact ⟨hsource, (h.owns t _ tier ht hsource).2⟩
  have hflips {x : Task} (hx : x ∈ j.sys.tasks.set t (.checkout s ck')) {tier : Tier}
      (hf : x.flips s = some tier) : x ∈ j.sys.tasks := by
    rcases List.mem_or_eq_of_mem_set hx with hx | rfl
    · exact hx
    · cases hf
  refine ⟨fun tier hl hrow ↦ ?_, fun i c tier hi hsource ↦ ?_, fun i c tier hi hsource y hy hf ↦ ?_,
    fun i kind pc hi ↦ ?_⟩
  · have hrow := ckStep_rows hck hl hrow
    have hcopy : w'.localCopy s tier = j.sys.world.localCopy s tier := by
      by_contra hne
      exact (howned hne).2 hrow
    rw [hcopy, hb.kept]
    exact h.file tier hl hrow
  · have hl := CkPc.local_of_source hsource
    rcases getElem?_set_cases hi with ⟨rfl, heq⟩ | ⟨hne, hi⟩
    · cases heq
      exact ckStep_owns hck hsource (h.owns i ck tier ht) hok.joins
    · refine (h.owns i c tier hi hsource).mono (hb.read i hne) (fun e he ↦ hb.origin e ?_)
        (congrFun hb.version tier) (ckStep_rows hck hl)
      exact ((hsound.fits i _ hi).1.2 e he).ne
  · have hold := hflips hy hf
    rcases getElem?_set_cases hi with ⟨rfl, heq⟩ | ⟨hne, hi⟩
    · cases heq
      rcases ckStep_source hck hsource with heq | ⟨hrow, -⟩
      · exact h.flips i ck tier ht (heq ▸ hsource) y hold hf
      · obtain ⟨kind, fin, rfl⟩ := Task.flips_eq hf
        obtain ⟨i', hi'⟩ := List.mem_iff_getElem?.mp hold
        refine (h.stands i' kind _ hi').row tier ?_ hrow
        obtain ⟨r, hr⟩ := Option.isSome_iff_exists.mp (CkPc.local_of_source hsource)
        simp [OffPc.avoids, hr]
    · exact h.flips i c tier hi hsource y hold hf
  · rcases getElem?_set_cases hi with ⟨-, heq⟩ | ⟨-, hi⟩
    · cases heq
    · refine (h.stands i kind pc hi).mono (fun tier hl ↦ ckStep_rows hck hl) fun tier fin hpc hl ↦ ?_
      refine ⟨?_, congrFun hb.wrote tier⟩
      by_contra hne
      subst hpc
      exact h.flips t ck tier ht (howned hne).1 _ (List.mem_of_getElem? hi) (by simp [Task.flips])

theorem FileStep.archiving {u : World} {e : ℕ} {ev : Option FileEvent} {pc pc' : OffPc}
    (h : FileStep cfg s w u b (b.note u s t e ev) pc pc') (x : Schema → Bool) :
    FileStep cfg s w { u with archiving := x } b (b.note { u with archiving := x } s t e ev) pc pc' where
  stands := ⟨h.stands.row, h.stands.wrote, h.stands.lands⟩
  row := h.row
  file := h.file

theorem World.localCopy_of_copies (h : w'.copies s = w.copies s) (tier : Tier) :
    w'.localCopy s tier = w.localCopy s tier := by
  cases tier with
  | live | archived => rfl
  | frozen => exact congrArg Copies.dump h
  | compacted => exact congrArg Copies.image h

theorem Task.fileEvent_offload (cfg : Config) (s : Schema) (a : Answer) (kind : OffloadKind) (pc : OffPc) :
    (Task.offload s kind pc).fileEvent cfg s a = none ∨
      (∃ tier, (Task.offload s kind pc).fileEvent cfg s a = some (.wrote tier)) ∨
      ∃ tier fin, pc = .setTier tier fin ∧
        (Task.offload s kind pc).fileEvent cfg s a = some (.flipped tier) := by
  unfold Task.fileEvent
  split
  case h_4 heq =>
    cases heq
    exact .inr (.inr ⟨_, _, rfl, by simp⟩)
  case h_5 heq | h_6 heq | h_7 heq => cases heq
  all_goals (try split) <;> simp

theorem Task.fileEvent_of_not_holds {kind : OffloadKind} {pc : OffPc} (h : pc.holds = false) :
    (Task.offload s kind pc).fileEvent cfg s a = none := by
  cases pc <;> first | rfl | cases h

theorem OffPc.acts_of_not_holds {pc : OffPc} (h : pc.holds = false) : pc.acts = none := by
  cases pc <;> first | rfl | cases h

/-- An offload comes to set the tier of a file from the step that has written it. -/
theorem offCore_flips {kind : OffloadKind} {pc : OffPc} {fin : Final}
    (h : offCore cfg s kind w pc a = some (w', .setTier tier fin)) (hl : tier.localSource.isSome = true) :
    (Task.offload s kind pc).fileEvent cfg s a = some (.wrote tier) := by
  generalize hpc : OffPc.setTier tier fin = pc' at h
  revert h
  fun_cases offCore cfg s kind w pc a <;> intro h <;> (try cases h)
  case case1 =>
    rcases offBegin_cases cfg (w.store.tierOf s) kind with heq | ⟨_, heq⟩ | ⟨_, heq⟩ <;>
      cases hpc.trans heq
  case case5 r _ => cases r <;> cases hpc
  case case6 r =>
    obtain rfl : (offEvict s r w).2 = pc' := by rw [Option.some.inj h]
    exact absurd hpc.symm ((offEvict_avoids cfg s w r).1 tier fin)
  case case15 r known | case19 r known =>
    rcases imageFallback_cases cfg r known with heq | ⟨_, -, heq⟩ <;> cases hpc.trans heq
  case case27 r id | case28 r id =>
    rcases imageFallback_cases cfg r (some id) with heq | ⟨_, -, heq⟩ <;> cases hpc.trans heq
  case case20 | case36 =>
    obtain ⟨_, -, heq⟩ := Option.map_eq_some_iff.mp h
    cases heq
    cases hpc
    simp [Task.fileEvent]
  case case12 | case23 | case33 | case41 | case45 =>
    obtain ⟨_, -, heq⟩ := Option.map_eq_some_iff.mp h
    cases heq
    cases hpc <;> cases hl
  case case21 =>
    obtain ⟨_, -, heq⟩ := Option.map_eq_some_iff.mp h
    split at heq <;> cases heq <;> cases hpc
    cases hl
  case case38 | case39 | case42 | case43 | case46 => split at hpc <;> cases hpc <;> cases hl
  all_goals cases hpc <;> cases hl

theorem Shelved.Filed.offload {j : Shelved} (h : j.Filed cfg s) (hex : j.sys.Exclusive) {kind : OffloadKind}
    {pc pc' : OffPc} (ht : j.sys.tasks[t]? = some (.offload s kind pc))
    (hok : (Task.offload s kind pc).Asks cfg s j a)
    (ho : offStep cfg s kind j.sys.world pc a = some (w', pc')) :
    Shelved.Filed cfg s ⟨⟨w', j.sys.tasks.set t (.offload s kind pc')⟩, (), j.seen.note w' s t
      j.sys.world.nextEntry ((Task.offload s kind pc).fileEvent cfg s a)⟩ := by
  have hidle := offStep_idle ho
  obtain ⟨u, hu, x, rfl⟩ := offStep_eq ho
  have hclaim (r : Route) (hpc : pc = .claim r) (harch : j.sys.world.archiving s = false) :
      ∀ tier ∈ r.overwrites cfg, j.sys.world.store.tierOf s ≠ some tier :=
    hok.claims (s, r) (by simp [Task.claiming, hpc]) rfl harch
  have hstep := (offCore_files t hu (h.stands t kind pc ht) hclaim).archiving x
  set b' := j.seen.note { u with archiving := x } s t j.sys.world.nextEntry
    ((Task.offload s kind pc).fileEvent cfg s a) with hb'
  have hbooks (i : ℕ) (c : CkPc) (tier : Tier) (hi : j.sys.tasks[i]? = some (.checkout s c))
      (hsource : c.source.bind Source.tier = some tier) :
      b'.version tier = j.seen.version tier ∧ b'.read = j.seen.read ∧ b'.origin = j.seen.origin := by
    rcases Task.fileEvent_offload cfg s a kind pc with heq | ⟨other, heq⟩ |
      ⟨other, fin, -, heq⟩
    · rw [hb', heq]
      exact ⟨rfl, rfl, rfl⟩
    · have hne : tier ≠ other := by
        rintro rfl
        have hfree := hok.writes tier (by simp [Task.writes, heq]) _ (List.mem_of_getElem? hi)
        simp [Task.sources, hsource] at hfree
      rw [hb', heq]
      exact ⟨update_of_ne hne .., rfl, rfl⟩
    · rw [hb', heq]
      exact ⟨rfl, rfl, rfl⟩
  refine ⟨fun tier hl hrow ↦ ?_, fun i c tier hi hsource ↦ ?_, fun i c tier hi hsource y hy hf ↦ ?_,
    fun i k q hi ↦ ?_⟩
  · rcases hstep.file tier hl hrow with ⟨hcopy, hkept, hrow⟩ | hfile
    · obtain ⟨c, hc, hk⟩ := h.file tier hl hrow
      exact ⟨c, hcopy.trans hc, hkept.trans hk⟩
    · exact hfile
  · have hl := CkPc.local_of_source hsource
    obtain ⟨-, heq⟩ | ⟨-, hold⟩ := getElem?_set_cases hi
    · cases heq
    · obtain ⟨hversion, hread, horigin⟩ := hbooks i c tier hold hsource
      refine (h.owns i c tier hold hsource).mono (congrFun hread i) (fun e _ ↦ congrFun horigin e) hversion
        fun hrow ↦ (hstep.row tier hl hrow).resolve_right ?_
      rintro ⟨fin, rfl⟩
      exact h.flips i c tier hold hsource _ (List.mem_of_getElem? ht) (by simp [Task.flips])
  · obtain ⟨-, heq⟩ | ⟨-, hold⟩ := getElem?_set_cases hi
    · cases heq
    rcases List.mem_or_eq_of_mem_set hy with hy | rfl
    · exact h.flips i c tier hold hsource y hy hf
    · obtain ⟨kind', fin, heq⟩ := Task.flips_eq hf
      cases heq
      have hwrote := offCore_flips hu (CkPc.local_of_source hsource)
      have hfree := hok.writes tier (by simp [Task.writes, hwrote]) _ (List.mem_of_getElem? hold)
      simp [Task.sources, hsource] at hfree
  · rcases getElem?_set_cases hi with ⟨-, heq⟩ | ⟨hne, hi⟩
    · cases heq
      exact hstep.stands
    cases hq : q.holds with
    | false =>
      refine .of_none (fun tier fin heq ↦ ?_) ?_
      · rw [heq] at hq
        cases hq
      · cases havoid : q.avoids cfg with
        | none => rfl
        | some tier => simp [OffPc.holds_of_avoids havoid] at hq
    | true =>
      have hfree : pc.holds = false := by
        by_contra hheld
        have huniq := (hex t _ s ht (by simp [Task.archives, hheld])).2
        exact hne (huniq i _ hi (by simp [Task.archives, hq]))
      have hcopies := (hidle (OffPc.acts_of_not_holds hfree)).1
      have hnone : b' = j.seen := by
        rw [hb', Task.fileEvent_of_not_holds hfree]
        rfl
      rw [hnone]
      have htier : u.store.tierOf s = j.sys.world.store.tierOf s := congrArg Copies.tier hcopies
      exact (h.stands i k q hi).mono (fun _ _ heq ↦ htier ▸ heq) fun tier _ _ _ ↦
        ⟨World.localCopy_of_copies hcopies tier, rfl⟩

theorem Shelved.Filed.late {j : Shelved} (h : j.Filed cfg s) {x : Late} (hok : x.schema = s → j.Idle s)
    (hw : w' = { j.sys.world with dumps := update j.sys.world.dumps x.schema (some x.copy) }) :
    Shelved.Filed cfg s ⟨⟨w', j.sys.tasks⟩, (), shelve cfg s j (.inr x) ⟨w', j.sys.tasks⟩⟩ := by
  subst hw
  by_cases hx : x.schema = s
  · have hidle := hok hx
    have hcopy {tier : Tier} (hne : tier ≠ .frozen) : World.localCopy { j.sys.world with
        dumps := update j.sys.world.dumps x.schema (some x.copy) } s tier =
          j.sys.world.localCopy s tier := by
      rw [hx]
      exact World.localCopy_dumps_ne hne
    have hother {t : ℕ} {ck : CkPc} {tier : Tier} (ht : j.sys.tasks[t]? = some (.checkout s ck))
        (hsource : ck.source.bind Source.tier = some tier) : tier ≠ .frozen := by
      rintro rfl
      have hfree := hidle.sources _ (List.mem_of_getElem? ht)
      simp [Task.sources, hsource] at hfree
    simp only [shelve, hx, if_true]
    refine ⟨fun tier hl hrow ↦ ?_, fun t ck tier ht hsource ↦ ?_, h.flips, fun t kind pc ht ↦ ?_⟩
    · have hne : tier ≠ .frozen := by
        rintro rfl
        exact hidle.row hrow
      rw [← hx, hx, World.localCopy_dumps_ne hne]
      exact h.file tier hl hrow
    · exact (h.owns t ck tier ht hsource).mono rfl (fun _ _ ↦ rfl)
        (update_of_ne (hother ht hsource) ..) id
    · refine (h.stands t kind pc ht).mono (fun _ _ ↦ id) fun tier fin hpc _ ↦ ?_
      have hne : tier ≠ .frozen := by
        rintro rfl
        exact hidle.flips _ (List.mem_of_getElem? ht) (by simp [Task.flips, hpc])
      exact ⟨hx ▸ hcopy hne, update_of_ne hne ..⟩
  · have hcopy (tier : Tier) : World.localCopy { j.sys.world with
        dumps := update j.sys.world.dumps x.schema (some x.copy) } s tier =
          j.sys.world.localCopy s tier := by
      cases tier with
      | frozen => exact update_of_ne (Ne.symm hx) ..
      | _ => rfl
    simp only [shelve, hx, if_false]
    exact h.keep (j := j) rfl hcopy fun _ _ ↦ .inl

theorem Task.fileEvent_checkout_ne {r : Schema} (hr : r ≠ s) (pc : CkPc) :
    (Task.checkout r pc).fileEvent cfg s a = none := by
  unfold Task.fileEvent
  split
  case h_1 heq | h_2 heq | h_3 heq | h_4 heq => cases heq
  case h_5 heq | h_6 heq | h_7 heq =>
    cases heq
    simp [hr]
  case h_8 => rfl

theorem Task.fileEvent_offload_ne {r : Schema} (hr : r ≠ s) (kind : OffloadKind) (pc : OffPc) :
    (Task.offload r kind pc).fileEvent cfg s a = none := by
  unfold Task.fileEvent
  split
  case h_1 heq | h_2 heq | h_3 heq | h_4 heq =>
    cases heq
    simp [hr]
  case h_5 heq | h_6 heq | h_7 heq => cases heq
  case h_8 => rfl

theorem Shelved.note_run {j : Shelved} {x : Task} (ht : j.sys.tasks[t]? = some x) (st : State) :
    shelve cfg s j (.inl (.run t a)) st =
      j.seen.note st.world s t j.sys.world.nextEntry (x.fileEvent cfg s a) := by
  simp [shelve, ht]

theorem Task.Inert.of_checkout_ne {r : Schema} (hr : r ≠ s) (pc : CkPc) : (Task.checkout r pc).Inert s :=
  ⟨fun _ heq ↦ absurd (Task.checkout.inj heq).1 hr, fun _ _ heq ↦ (by cases heq)⟩

theorem Task.Inert.of_offload_ne {r : Schema} (hr : r ≠ s) (kind : OffloadKind) (pc : OffPc) :
    (Task.offload r kind pc).Inert s :=
  ⟨fun ck heq ↦ (by cases heq), fun _ _ heq ↦ absurd (Task.offload.inj heq).1 hr⟩

theorem Shelved.Filed.set {j : Shelved} (h : j.Filed cfg s) {x y : Task}
    (ht : j.sys.tasks[t]? = some x) (hx : x.fileEvent cfg s a = none) (hy : y.Inert s)
    (hcopies : w'.copies s = j.sys.world.copies s) :
    Shelved.Filed cfg s ⟨⟨w', j.sys.tasks.set t y⟩, (),
      shelve cfg s j (.inl (.run t a)) ⟨w', j.sys.tasks.set t y⟩⟩ := by
  rw [Shelved.note_run ht, hx]
  refine h.keep (congrArg Copies.tier hcopies) (World.localCopy_of_copies hcopies) fun i z hi ↦ ?_
  rcases getElem?_set_cases hi with ⟨-, rfl⟩ | ⟨-, hi⟩
  · exact .inr hy
  · exact .inl hi

theorem Shelved.Filed.step {j j' : Shelved} {l : Label ⊕ Late} (h : j.Filed cfg s) (hsound : j.sys.Sound)
    (hex : j.sys.Exclusive) (hok : FilesApart cfg s j l) (hstep : shelvedStep cfg s l j = some j') :
    j'.Filed cfg s := by
  obtain ⟨sys', pc', seen'⟩ := j'
  obtain ⟨hseen, hmove⟩ := beside_cases hstep
  change seen' = shelve cfg s j l sys' at hseen
  subst hseen
  rcases hmove with ⟨k, rfl, hk, -⟩ | ⟨x, rfl, hx⟩
  · cases step_sound hk with
    | spawn hx =>
      refine h.keep rfl (fun _ ↦ rfl) fun i y hi ↦ ?_
      rcases getElem?_append_cases hi with ⟨-, rfl⟩ | hi
      · exact .inr (.of_initial hx)
      · exact .inl hi
    | @checkout t a r ck ck' w' ht hck =>
      by_cases hr : r = s
      · subst hr
        rw [Shelved.note_run ht]
        exact h.checkout hsound ht (hok _ ht) hck
      · exact h.set ht (Task.fileEvent_checkout_ne hr ck) (.of_checkout_ne hr ck')
          (ckStep_copies_ne hck (Ne.symm hr))
    | @offload t a r kind pc pc' w' ht ho =>
      by_cases hr : r = s
      · subst hr
        rw [Shelved.note_run ht]
        exact h.offload hex ht (hok _ ht) ho
      · obtain ⟨u, hu, x, rfl⟩ := offStep_eq ho
        exact h.set ht (Task.fileEvent_offload_ne hr kind pc) (.of_offload_ne hr kind pc')
          (offCore_copies_ne hu (Ne.symm hr) :)
    | reapIdle ht hi =>
      exact h.set ht rfl ⟨by simp, by simp⟩ (by rw [idleStep_frame hi]; rfl)
    | reapUntracked ht hu =>
      exact h.set ht rfl ⟨by simp, by simp⟩ (by rw [untrackedStep_world hu])
    | purge ht hp =>
      exact h.set ht rfl ⟨by simp, by simp⟩ (by rw [purgeStep_frame hp]; rfl)
    | @outside _ w' hw =>
      have hseen : shelve cfg s j (.inl k) ⟨w', j.sys.tasks⟩ = j.seen := by
        cases k <;> first | rfl | cases hw
      rw [hseen]
      refine h.keep (Store.tierOf_of_map (worldStep_map hw) s) (fun tier ↦ ?_) fun _ _ ↦ .inl
      rw [worldStep_frame hw]
      cases tier <;> rfl
  · cases hx
    exact h.late hok rfl

end Kept

section Runs

variable {cfg : Config} {s : Schema} {j : Shelved} {w : World}

/-- In every run in which offloads and late uploads write a local file only when nothing else relies on
it, and checkouts share only bring-ups from the file they would restore from themselves, an offloaded
row has its local file, and a checkout removes only the file its VM was restored from. -/
theorem local_data_kept
    (hfile : ∀ tier, tier.localSource.isSome = true → w.boot.store.tierOf s = some tier →
      (w.localCopy s tier).isSome = true)
    (h : Run (shelvedStep cfg s) (FilesApart cfg s) (Shelved.boot w s) j) : j.LocalData cfg s := by
  have hreach : ∀ i, Run (shelvedStep cfg s) (FilesApart cfg s) (Shelved.boot w s) i →
      i.sys.Sound ∧ i.sys.Exclusive := by
    intro i hi
    refine Beside.invariant (I := fun st ↦ st.Sound ∧ st.Exclusive) hi ⟨State.sound_boot w, ?_⟩ ?_ ?_
    · intro t x r ht
      simp [Shelved.boot, State.boot] at ht
    · exact fun l a b hI hab ↦ ⟨hI.1.step (step_sound hab), hI.2.step (step_sound hab)⟩
    · rintro a p x b q ⟨hsound, hex⟩ hab
      cases hab
      exact ⟨⟨⟨hsound.world.mapped, hsound.world.full⟩, hsound.counted, hsound.fits⟩, hex⟩
  have hfiled : j.Filed cfg s := by
    refine Run.invariant_of (J := fun i ↦ i.sys.Sound ∧ i.sys.Exclusive) h hreach ?_
      fun i l i' hI hJ _ hok hstep ↦ hI.step hJ.1 hJ.2 hok hstep
    refine ⟨fun tier hl hrow ↦ ?_, ?_, ?_, ?_⟩
    · obtain ⟨c, hc⟩ := Option.isSome_iff_exists.mp (hfile tier hl hrow)
      exact ⟨c, by cases tier <;> exact hc, hc⟩
    all_goals simp [Shelved.boot, State.boot]
  refine ⟨hfiled.file, fun t r ck a w' ck' tier ht hck hne ↦ ?_⟩
  have hr : r = s := by
    by_contra hr
    exact hne (World.localCopy_of_copies (ckStep_copies_ne hck (Ne.symm hr)) tier)
  subst hr
  obtain ⟨e, source, g, rfl, hsource⟩ := ckStep_removes hck hne
  exact ⟨rfl, e, rfl, (hfiled.owns t _ tier ht hsource).1⟩

/-- A frozen schema is thawed, served and frozen again. -/
theorem local_data_kept_run : ∃ j, Run (shelvedStep .full app) (FilesApart .full app)
    (Shelved.boot frozenHost app) j ∧ j.seen.version .frozen = 1 ∧
      j.sys.world.store.tierOf app = some .frozen ∧ j.LocalData .full app := by
  obtain ⟨j, hr, hj⟩ := Run.exists_of_exec (shelvedStep .full app) (FilesApart .full app)
    (Shelved.boot frozenHost app)
    (alone ([.spawn (.checkout app .touch)] ++ thawsToRemoval 0 ++ goes 0 4 ++
      [.spawn (.offload app .freeze .begin), .run 1 .go] ++ claimsAndFreezes 1))
    (fun j ↦ j.seen.version .frozen == 1 && j.sys.world.store.tierOf app = some .frozen)
    (by decide +kernel) (by decide +kernel)
  simp only [Bool.and_eq_true, beq_iff_eq, decide_eq_true_eq] at hj
  refine ⟨j, hr, hj.1, hj.2, local_data_kept (fun tier hl hrow ↦ ?_) hr⟩
  have hfrozen : frozenHost.boot.store.tierOf app = some .frozen := by decide +kernel
  cases hfrozen.symm.trans hrow
  rfl

/-- A thaw that is about to remove its dump is overtaken by a freeze, whose dump it removes. -/
theorem local_data_lost : ∃ j, Run (shelvedStep .full app) (fun _ _ ↦ True) (Shelved.boot frozenHost app) j ∧
    j.sys.world.store.tierOf app = some .frozen ∧ j.sys.world.dumps app = none ∧
      ¬ j.LocalData .full app := by
  obtain ⟨j, hr, hj⟩ := Run.exists_of_exec (shelvedStep .full app) (fun _ _ ↦ True)
    (Shelved.boot frozenHost app)
    (alone ([.spawn (.checkout app .touch)] ++ thawsToRemoval 0 ++
      [.spawn (.offload app .freeze .begin), .run 1 .go] ++ claimsAndFreezes 1 ++ goes 0 1))
    (fun j ↦ j.sys.world.store.tierOf app = some .frozen && j.sys.world.dumps app = none)
    (by decide +kernel) (by decide +kernel)
  simp only [Bool.and_eq_true, decide_eq_true_eq] at hj
  refine ⟨j, hr, hj.1, hj.2, fun h ↦ ?_⟩
  obtain ⟨c, hc, -⟩ := h.file .frozen rfl hj.1
  cases hj.2.symm.trans hc

end Runs

end PgVmPool
