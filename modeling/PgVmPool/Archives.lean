import PgVmPool.Moves

namespace PgVmPool

open Function Transition

/-- An object at one of a schema's two keys, with the archive that wrote it, counted from zero. -/
structure Object where
  archive : ℕ
  content : Content

/-- The two keys of one schema. -/
structure Bucket where
  dump : Option Object
  image : Option Object

/-- A successful archive, by the route that made it, with what it uploaded. -/
inductive Archive
  | dumpToS3 (c : Content)
  | archiveFrozenSchema (c : Content)
  | archiveDisk (c : Content)
  | promoteCompact (c : Content)

def Archive.isImage : Archive → Bool
  | .archiveDisk _ | .promoteCompact _ => true
  | .dumpToS3 _ | .archiveFrozenSchema _ => false

namespace Bucket

def putDump (b : Bucket) (n : ℕ) (c : Content) : Option Bucket :=
  if minDumpBytes ≤ c.bytes then some { b with dump := some ⟨n, c⟩ } else none

/-- The image routes delete the dump, which would shadow the image at a restore. -/
def putImage (n : ℕ) (c : Content) : Option Bucket :=
  if minImageBytes ≤ c.bytes then some ⟨none, some ⟨n, c⟩⟩ else none

/-- What the `n`-th archive does to the bucket. -/
def archive (b : Bucket) (n : ℕ) : Archive → Option Bucket
  | .dumpToS3 c | .archiveFrozenSchema c => b.putDump n c
  | .archiveDisk c | .promoteCompact c => putImage n c

def object (b : Bucket) : RestoreKind → Option Object
  | .dump => b.dump
  | .image => b.image

/-- What the model of the pooler sees of the bucket. -/
structure Shows (b : Bucket) (w : World) (s : Schema) : Prop where
  dump : w.s3Dump s = b.dump.map (·.content)
  image : w.s3Image s = b.image.map (·.content)

end Bucket

def RestoreKind.other : RestoreKind → RestoreKind
  | .dump => .image
  | .image => .dump

def RestoreKind.leastBytes : RestoreKind → ℕ
  | .dump => minDumpBytes
  | .image => minImageBytes

/-- The archives of a schema, oldest first, and the bucket they leave. Restores only read it. -/
inductive History : List Archive → Bucket → Prop
  | nil : History [] ⟨none, none⟩
  | snoc {hist : List Archive} {b b' : Bucket} {a : Archive} (h : History hist b)
    (ha : b.archive hist.length a = some b') : History (hist ++ [a]) b'

/-- The kind picked is not the older one of two usable objects, and a dump key that cannot be asked
about leads to the dump path. -/
structure Bucket.RestoresNewest (b : Bucket) (dumpHead : Bool) (kind : RestoreKind) : Prop where
  newest : ∀ o o', b.object kind = some o → b.object kind.other = some o' →
    kind.other.leastBytes ≤ o'.content.bytes → o'.archive ≤ o.archive
  fallback : dumpHead = false → kind = .dump

section History

variable {hist : List Archive} {b : Bucket}

theorem History.imaged (h : History hist b) :
    (b.image.isSome = true ↔ ∃ a ∈ hist, a.isImage = true) ∧
      ∀ o, b.image = some o → o.archive < hist.length ∧ minImageBytes ≤ o.content.bytes := by
  induction h with
  | nil => simp
  | @snoc hist b b' a _ ha ih =>
    cases a with
    | dumpToS3 c | archiveFrozenSchema c =>
      simp only [Bucket.archive, Bucket.putDump, Option.ite_none_right_eq_some, Option.some.injEq] at ha
      obtain ⟨-, rfl⟩ := ha
      refine ⟨by simpa [Archive.isImage] using ih.1, fun o ho ↦ ?_⟩
      obtain ⟨hlt, hbytes⟩ := ih.2 o ho
      exact ⟨by simp only [List.length_append, List.length_singleton]; omega, hbytes⟩
    | archiveDisk c | promoteCompact c =>
      simp only [Bucket.archive, Bucket.putImage, Option.ite_none_right_eq_some, Option.some.injEq] at ha
      obtain ⟨hc, rfl⟩ := ha
      refine ⟨by simp [Archive.isImage], fun o ho ↦ ?_⟩
      cases ho
      exact ⟨by simp, hc⟩

theorem History.dumped (h : History hist b) {o : Object} (ho : b.dump = some o) :
    minDumpBytes ≤ o.content.bytes ∧ ∀ i, b.image = some i → i.archive < o.archive := by
  induction h with
  | nil => simp at ho
  | @snoc hist b b' a hb ha ih =>
    cases a with
    | dumpToS3 c | archiveFrozenSchema c =>
      simp only [Bucket.archive, Bucket.putDump, Option.ite_none_right_eq_some, Option.some.injEq] at ha
      obtain ⟨hc, rfl⟩ := ha
      cases ho
      exact ⟨hc, fun i hi ↦ (hb.imaged.2 i hi).1⟩
    | archiveDisk c | promoteCompact c =>
      simp only [Bucket.archive, Bucket.putImage, Option.ite_none_right_eq_some, Option.some.injEq] at ha
      obtain ⟨-, rfl⟩ := ha
      cases ho

variable {w : World} {s : Schema}

theorem History.pickRestore_eq (h : History hist b) (hw : b.Shows w s) (dumpHead imageHead : Bool) :
    pickRestore w s dumpHead imageHead =
      if dumpHead && b.dump.isSome then .dump
      else if imageHead && b.image.isSome then .image else .dump := by
  have hdump : ∀ o, b.dump = some o → minDumpBytes ≤ o.content.bytes := fun o ho ↦ (h.dumped ho).1
  have himage : ∀ o, b.image = some o → minImageBytes ≤ o.content.bytes := fun o ho ↦ (h.imaged.2 o ho).2
  simp only [pickRestore, chooseRestore, hw.dump, hw.image]
  cases hd : b.dump <;> cases hi : b.image <;> cases dumpHead <;> cases imageHead <;>
    simp_all

/-- A restore reads the newest archive, and falls back to the dump, unless the HEAD of the dump key
fails, that of the image key is answered and some archive was an image. -/
theorem restores_newest_iff (h : History hist b) (hw : b.Shows w s) (dumpHead imageHead : Bool) :
    b.RestoresNewest dumpHead (pickRestore w s dumpHead imageHead) ↔
      ¬ (dumpHead = false ∧ imageHead = true ∧ ∃ a ∈ hist, a.isImage = true) := by
  rw [h.pickRestore_eq hw, ← h.imaged.1]
  constructor
  · rintro hnew ⟨rfl, rfl, hi⟩
    have hkind := hnew.fallback rfl
    simp [hi] at hkind
  · intro hcond
    have hdump : b.RestoresNewest dumpHead .dump := by
      refine ⟨fun o o' ho ho' _ ↦ ?_, fun _ ↦ rfl⟩
      exact ((h.dumped ho).2 o' ho').le
    split
    · exact hdump
    · rename_i hd
      split
      · rename_i hi
        simp only [Bool.and_eq_true] at hi
        have hasked : dumpHead ≠ false := fun hfail ↦ hcond ⟨hfail, hi⟩
        refine ⟨fun o o' _ ho' _ ↦ ?_, fun hfail ↦ absurd hfail hasked⟩
        simp [show b.dump = some o' from ho', hasked] at hd
      · exact hdump

def Bucket.world (b : Bucket) : World :=
  { World.host "" (fun _ ↦ none) with
    s3Dump := fun r ↦ if r = app then b.dump.map (·.content) else none
    s3Image := fun r ↦ if r = app then b.image.map (·.content) else none }

theorem Bucket.shows_world (b : Bucket) : b.Shows b.world app where
  dump := by simp [Bucket.world]
  image := by simp [Bucket.world]

def imageThenDump : Bucket := ⟨some ⟨1, ⟨[1], 600⟩⟩, some ⟨0, ⟨[], 2000⟩⟩⟩

theorem history_imageThenDump :
    History [.archiveDisk ⟨[], 2000⟩, .dumpToS3 ⟨[1], 600⟩] imageThenDump :=
  .snoc (.snoc .nil rfl) rfl

theorem restores_newest_answered :
    imageThenDump.RestoresNewest true (pickRestore imageThenDump.world app true false) := by
  rw [restores_newest_iff history_imageThenDump imageThenDump.shows_world]
  decide

/-- The dump is newer, its HEAD fails, and the restore reads the image of the archive before. -/
theorem restores_older : pickRestore imageThenDump.world app false true = .image ∧
    ¬ imageThenDump.RestoresNewest false (pickRestore imageThenDump.world app false true) := by
  have hpick : pickRestore imageThenDump.world app false true = .image := by decide +kernel
  rw [hpick]
  refine ⟨rfl, fun h ↦ ?_⟩
  have hle := h.newest _ _ rfl rfl (by decide)
  exact absurd hle (by decide)

end History

section Offloads

variable {cfg : Config} {s : Schema} {kind : OffloadKind} {w w' : World} {pc pc' : OffPc} {a : Answer}

/-- The offload has put a dump of the least size at the dump key. -/
def World.Dumped (image : Option Content) (w : World) (s : Schema) : Prop :=
  w.s3Image s = image ∧ ∃ c, w.s3Dump s = some c ∧ minDumpBytes ≤ c.bytes

/-- The offload has put an image of the least size at the image key and deleted the dump. -/
def World.Imaged (w : World) (s : Schema) : Prop :=
  w.s3Dump s = none ∧ ∃ c, w.s3Image s = some c ∧ minImageBytes ≤ c.bytes

def World.s3 (w : World) (s : Schema) : Option Content × Option Content := (w.s3Dump s, w.s3Image s)

/-- What an offload that found the objects `v` has uploaded, position by position. -/
def OffPc.Uploaded (v : Option Content × Option Content) (w : World) (s : Schema) : OffPc → Prop
  | .uploadScratch _ => w.s3 s = v ∧ ∃ c, w.dumps s = some c ∧ minDumpBytes ≤ c.bytes
  | .uploadDump len => w.s3 s = v ∧ minDumpBytes ≤ len
  | .verifyDump len => w.s3Image s = v.2 ∧ minDumpBytes ≤ len
  | .uploadImage len => w.s3 s = v ∧ minImageBytes ≤ len
  | .verifyImage len => minImageBytes ≤ len
  | .deleteDump => ∃ c, w.s3Image s = some c ∧ minImageBytes ≤ c.bytes
  | .ensureRow _ => w.Imaged s
  | .setTier tier _ | .writeTier tier _ _ _ | .finish tier _ _ =>
    tier = .archived → w.Dumped v.2 s ∨ w.Imaged s
  | .done | .failed => True
  | _ => w.s3 s = v

/-- While an offload runs, the rest of the system leaves the copies of its schema alone. -/
structure World.KeepsCopies (s : Schema) (w w' : World) : Prop where
  dumps : w'.dumps s = w.dumps s
  images : w'.images s = w.images s
  s3Dump : w'.s3Dump s = w.s3Dump s
  s3Image : w'.s3Image s = w.s3Image s

theorem OffPc.Uploaded.mono {v : Option Content × Option Content} (h : pc.Uploaded v w s)
    (hw : w.KeepsCopies s w') : pc.Uploaded v w' s := by
  cases pc <;> simp only [OffPc.Uploaded, World.s3, World.Dumped, World.Imaged, hw.dumps, hw.s3Dump,
    hw.s3Image] at h ⊢ <;> exact h

theorem World.copyOf_bytes {id : SandboxId} {least n : ℕ} {c : Content}
    (h : w.copyOf id least n = some c) : least ≤ c.bytes := by
  simp only [World.copyOf, Option.ite_none_right_eq_some, Option.map_eq_some_iff] at h
  obtain ⟨hle, d, -, rfl⟩ := h
  exact hle

theorem offEvict_uploaded {v : Option Content × Option Content} (r : Route) (hv : w.s3 s = v) :
    (offEvict s r w).2.Uploaded v (offEvict s r w).1 s := by
  unfold offEvict Route.afterEvict
  repeat' split
  all_goals first
    | exact hv
    | trivial

theorem offCore_uploaded {v : Option Content × Option Content}
    (h : offCore cfg s kind w pc a = some (w', pc')) (hv : pc.Uploaded v w s) : pc'.Uploaded v w' s := by
  revert h
  fun_cases offCore cfg s kind w pc a <;> intro h <;> (try cases h)
  case case1 =>
    rcases offBegin_cases cfg (w.store.tierOf s) kind with heq | ⟨_, heq⟩ | ⟨_, heq⟩
    all_goals
      rw [heq]
      first | exact hv | trivial
  case case6 r =>
    obtain rfl : (offEvict s r w).1 = w' := by rw [Option.some.inj h]
    obtain rfl : (offEvict s r w).2 = pc' := by rw [Option.some.inj h]
    exact offEvict_uploaded r hv
  case case12 =>
    obtain ⟨_, hx, heq⟩ := Option.map_eq_some_iff.mp h
    cases heq
    rw [ensureStep_frame hx]
    exact hv
  case case15 r known | case19 r known =>
    rcases imageFallback_cases cfg r known with heq | ⟨v, -, heq⟩
    all_goals
      rw [heq]
      first | exact hv | trivial
  case case27 r id | case28 r id =>
    rcases imageFallback_cases cfg r (some id) with heq | ⟨v, -, heq⟩
    all_goals
      rw [heq]
      first | exact hv | trivial
  case case5 r _ => cases r <;> exact hv
  case case20 =>
    obtain ⟨c, -, heq⟩ := Option.map_eq_some_iff.mp h
    cases heq
    exact fun h ↦ by cases h
  case case21 =>
    obtain ⟨c, hc, heq⟩ := Option.map_eq_some_iff.mp h
    have hbytes := World.copyOf_bytes hc
    split at heq <;> cases heq
    · exact fun _ ↦ .inl ⟨congrArg Prod.snd hv, c, by simp, hbytes⟩
    · exact ⟨hv, c, by simp, hbytes⟩
  case case23 =>
    obtain ⟨c, hc, heq⟩ := Option.map_eq_some_iff.mp h
    cases heq
    obtain ⟨hs3, d, hd, hbytes⟩ := hv
    cases hc.symm.trans hd
    exact fun _ ↦ .inl ⟨congrArg Prod.snd hs3, c, by simp, hbytes⟩
  case case24 => exact hv.1
  case case33 =>
    obtain ⟨c, hc, heq⟩ := Option.map_eq_some_iff.mp h
    cases heq
    exact ⟨by simp, c, by simp, World.copyOf_bytes hc⟩
  case case35 => split <;> exact fun _ ↦ .inr hv
  case case36 =>
    obtain ⟨c, -, heq⟩ := Option.map_eq_some_iff.mp h
    cases heq
    exact fun h ↦ by cases h
  case case38 =>
    split
    · exact hv
    · trivial
  case case39 | case43 =>
    split
    · trivial
    · rename_i hlt
      exact ⟨hv, not_lt.mp hlt⟩
  case case41 =>
    obtain ⟨c, -, heq⟩ := Option.map_eq_some_iff.mp h
    cases heq
    exact ⟨congrArg Prod.snd hv.1, hv.2⟩
  case case42 =>
    split
    · rename_i hlen
      obtain ⟨c, hc, rfl⟩ := Option.map_eq_some_iff.mp hlen
      exact fun _ ↦ .inl ⟨hv.1, c, hc, hv.2⟩
    · trivial
  case case45 =>
    obtain ⟨c, -, heq⟩ := Option.map_eq_some_iff.mp h
    cases heq
    exact hv.2
  case case46 =>
    split
    · rename_i hlen
      obtain ⟨c, hc, rfl⟩ := Option.map_eq_some_iff.mp hlen
      exact ⟨c, hc, hv⟩
    · trivial
  case case47 =>
    obtain ⟨c, hc, hbytes⟩ := hv
    exact fun _ ↦ .inr ⟨by simp, c, hc, hbytes⟩
  all_goals first
    | exact hv
    | trivial

/-- Whatever an offload has done when it is about to mark its schema archived is one of the archives
of a history. -/
theorem offload_archives {b : Bucket} {log : List (OffPc × Answer)} {fin : Final} (hb : b.Shows w s)
    (h : Dialogue (World.KeepsCopies s) (offStep cfg s kind) w .begin log w' (.setTier .archived fin))
    (n : ℕ) : ∃ x b', b.archive n x = some b' ∧ b'.Shows w' s := by
  have hup : (OffPc.setTier .archived fin).Uploaded (w.s3 s) w' s := by
    refine h.invariant (I := fun _ u pc ↦ pc.Uploaded (w.s3 s) u s) rfl ?_ ?_
    · exact fun _ _ _ _ hI hr ↦ hI.mono hr
    · intro _ u pc x u' pc' hI hs
      obtain ⟨v, hv, y, rfl⟩ := offStep_eq hs
      exact (offCore_uploaded hv hI).mono ⟨rfl, rfl, rfl, rfl⟩
  rcases hup rfl with ⟨himage, c, hdump, hbytes⟩ | ⟨hdump, c, himage, hbytes⟩
  · exact ⟨.dumpToS3 c, _, if_pos hbytes, hdump, himage.trans hb.image⟩
  · exact ⟨.archiveDisk c, _, if_pos hbytes, hdump, himage⟩

end Offloads

end PgVmPool
