import PgVmPool.System

namespace PgVmPool.DiskImages

open Transition

abbrev Bytes := List UInt8

def ext4MagicOffset : ℕ := 1080

def ext4Magic : Bytes := [0x53, 0xEF]

def checkExt4Magic (image : Bytes) : Bool := (image.drop ext4MagicOffset).take 2 == ext4Magic

/-- An object at a key; the number of its upload stands for its ETag and its date. -/
structure Object where
  upload : ℕ
  bytes : Bytes
  deriving DecidableEq

/-- What a HEAD tells of an object. -/
def Object.id (o : Object) : ℕ × ℕ := (o.upload, o.bytes.length)

/-- Where a compressed image is kept: in the compact dir or in S3. -/
inductive Place
  | host
  | bucket
  deriving DecidableEq

/-- The disk of a stopped VM, the temporary file or the spool file, the compact file, and the objects at the image
key and at the dump key. -/
structure Host where
  disk : Bytes
  scratch : Option Bytes
  file : Option Bytes
  image : Option Object
  dump : Option Object
  deriving DecidableEq

def Host.source (h : Host) : Place → Option Bytes
  | .host => h.file
  | .bucket => h.image.map Object.bytes

/-- Where `compact_disk` or `archive_disk` is; `len` is what it has measured of the scratch file. -/
inductive Pc
  | stat
  | release (free : Bool)
  | trim
  | createDir
  | room
  | compress
  | measure
  | test (len : ℕ)
  | magic (len : ℕ)
  | rename (len : ℕ)
  | baseline (len : ℕ)
  | upload (len : ℕ) (baseline : Option (ℕ × ℕ))
  | verify (len : ℕ) (baseline : Option (ℕ × ℕ))
  | deleteDump (len : ℕ)
  | remove (r : Option ℕ)
  | done (r : Option ℕ)
  deriving DecidableEq

/-- An answer of the host. A program leaves behind what it likes, whether it succeeds or not. -/
inductive Event
  | ok
  | failed
  | scan (held late : Bool)
  | trimmed (disk : Bytes)
  | space (free : Option ℕ) (allocated : ℕ)
  | wrote (file : Option Bytes) (success : Bool)
  | put (upload : ℕ) (success : Bool)
  | gone

def Place.next (len : ℕ) : Place → Pc
  | .host => .rename len
  | .bucket => .baseline len

/-- One step; `unzstd` is what `zstd -d` makes of a file. -/
def step (unzstd : Bytes → Option Bytes) (place : Place) (ev : Event) : Host × Pc → Option (Host × Pc)
  | (h, .stat) =>
    match ev with
    | .ok => some (h, .release false)
    | .failed => some (h, .done none)
    | _ => none
  | (h, .release free) =>
    match ev with
    | .scan held late =>
      if held then some (h, if late then .done none else .release false)
      else some (h, if free then .trim else .release true)
    | .failed => some (h, .done none)
    | _ => none
  | (h, .trim) =>
    match ev with
    | .trimmed disk => some ({ h with disk }, .createDir)
    | _ => none
  | (h, .createDir) =>
    match ev with
    | .ok => some (h, .room)
    | .failed => some (h, .done none)
    | _ => none
  | (h, .room) =>
    match ev with
    | .space free allocated => some (h, if free.any (· < allocated + allocated / 10) then .done none else .compress)
    | _ => none
  | (h, .compress) =>
    match ev with
    | .wrote scratch success => some ({ h with scratch }, if success then .measure else .remove none)
    | _ => none
  | (h, .measure) =>
    match ev with
    | .ok => h.scratch.map fun b ↦ (h, if minImageBytes ≤ b.length then .test b.length else .remove none)
    | .failed => some (h, .remove none)
    | _ => none
  | (h, .test len) =>
    match ev with
    | .ok => (h.scratch.bind unzstd).map fun _ ↦ (h, .magic len)
    | .failed => some (h, .remove none)
    | _ => none
  | (h, .magic len) =>
    match ev with
    | .ok => if (h.scratch.bind unzstd).any checkExt4Magic then some (h, place.next len) else none
    | .failed => some (h, .remove none)
    | _ => none
  | (h, .rename len) =>
    match ev with
    | .ok => some ({ h with file := h.scratch, scratch := none }, .done (some len))
    | .failed => some (h, .remove none)
    | _ => none
  | (h, .baseline len) =>
    match ev with
    | .ok => some (h, .upload len (h.image.map Object.id))
    | .failed => some (h, .remove none)
    | _ => none
  | (h, .upload len baseline) =>
    match ev with
    | .put upload success => h.scratch.map fun b ↦
      ({ h with image := some ⟨upload, b⟩ }, if success then .verify len baseline else .remove none)
    | .failed => some (h, .remove none)
    | _ => none
  | (h, .verify len baseline) =>
    match ev with
    | .ok =>
      some (h, if h.image.any fun o ↦ o.bytes.length = len ∧ some o.id ≠ baseline then .deleteDump len
        else .remove none)
    | .failed => some (h, .remove none)
    | _ => none
  | (h, .deleteDump len) =>
    match ev with
    | .ok => some ({ h with dump := none }, .remove (some len))
    | .gone => some ({ h with dump := none }, .remove none)
    | .failed => some (h, .remove none)
    | _ => none
  | (h, .remove r) =>
    match ev with
    | .ok => some ({ h with scratch := none }, .done r)
    | .failed => some (h, .done r)
    | _ => none
  | (_, .done _) => none

/-- What `zstd` says it has compressed is the disk, and the trim keeps what the disk holds. -/
def Honest (unzstd : Bytes → Option Bytes) (content : Bytes → List ℕ) (x : Host × Pc) (ev : Event) : Prop :=
  (x.2 = .compress → ∀ scratch, ev = .wrote scratch true → scratch.bind unzstd = some x.1.disk) ∧
    ∀ disk, ev = .trimmed disk → content disk = content x.1.disk

/-- A file that is long enough and decompresses to what is marked as a file system; it is the disk's where the tools
are exact. -/
structure IsImage (unzstd : Bytes → Option Bytes) (faithful : Prop) (disk b : Bytes) : Prop where
  long : minImageBytes ≤ b.length
  payload : ∃ payload, unzstd b = some payload ∧ checkExt4Magic payload = true ∧ (faithful → payload = disk)

section Imaging

variable (unzstd : Bytes → Option Bytes) (faithful : Prop) (place : Place) (h₀ h : Host)

def Host.HasImage : Prop := ∃ o, h.image = some o ∧ IsImage unzstd faithful h.disk o.bytes

/-- The image is where it is to be, and for S3 nothing is left that a restore would take before it. -/
def Stored (len : ℕ) : Prop :=
  (∃ b, h.source place = some b ∧ b.length = len ∧ IsImage unzstd faithful h.disk b) ∧
    match place with
    | .host => h.image = h₀.image ∧ h.dump = h₀.dump
    | .bucket => h.file = h₀.file ∧ h.dump = none

/-- Wherever the making of an image stops, what is kept is what was kept before or a whole image, and a dump is gone
only where there is one. -/
structure Whole (pc : Pc) : Prop where
  file : h.file = h₀.file ∨ ∃ b, h.file = some b ∧ IsImage unzstd faithful h.disk b
  image : h.image = h₀.image ∨ h.HasImage unzstd faithful
  dump : h.dump = h₀.dump ∨ h.dump = none ∧ h.HasImage unzstd faithful
  stored : ∀ len, pc = .done (some len) → Stored unzstd faithful place h₀ h len
  refused : (∀ len, pc ≠ .done (some len)) → h.file = h₀.file

structure Untouched : Prop where
  file : h.file = h₀.file
  image : h.image = h₀.image
  dump : h.dump = h₀.dump

/-- After a failure the compact file is the old one. -/
structure Failed : Prop where
  file : h.file = h₀.file
  image : h.image = h₀.image ∨ h.HasImage unzstd faithful
  dump : h.dump = h₀.dump ∨ h.dump = none ∧ h.HasImage unzstd faithful

def Made (len : ℕ) : Prop :=
  Untouched h₀ h ∧ ∃ b, h.scratch = some b ∧ b.length = len ∧ IsImage unzstd faithful h.disk b

def At : Pc → Prop
  | .stat | .release _ | .trim | .createDir | .room | .compress => Untouched h₀ h
  | .measure => Untouched h₀ h ∧ (faithful → h.scratch.bind unzstd = some h.disk)
  | .test len | .magic len =>
    Untouched h₀ h ∧ (faithful → h.scratch.bind unzstd = some h.disk) ∧
      ∃ b, h.scratch = some b ∧ b.length = len ∧ minImageBytes ≤ b.length
  | .rename len => place = .host ∧ Made unzstd faithful h₀ h len
  | .baseline len | .upload len _ => place = .bucket ∧ Made unzstd faithful h₀ h len
  | .verify _ _ => place = .bucket ∧ h.file = h₀.file ∧ h.dump = h₀.dump ∧ h.HasImage unzstd faithful
  | .deleteDump len =>
    place = .bucket ∧ h.file = h₀.file ∧ h.dump = h₀.dump ∧
      ∃ o, h.image = some o ∧ o.bytes.length = len ∧ IsImage unzstd faithful h.disk o.bytes
  | .remove (some len) => place = .bucket ∧ Stored unzstd faithful .bucket h₀ h len
  | .done (some len) => Stored unzstd faithful place h₀ h len
  | .remove none | .done none => Failed unzstd faithful h₀ h

end Imaging

section Steps

variable {unzstd : Bytes → Option Bytes} {content : Bytes → List ℕ} {faithful : Prop} {place : Place}
  {h₀ h : Host} {len : ℕ}

theorem Untouched.failed (hat : Untouched h₀ h) : Failed unzstd faithful h₀ h :=
  ⟨hat.file, .inl hat.image, .inl hat.dump⟩

/-- A scratch file that has passed its checks is an image. -/
theorem Made.of_magic (hat : At unzstd faithful place h₀ h (.magic len))
    (hany : (h.scratch.bind unzstd).any checkExt4Magic = true) : Made unzstd faithful h₀ h len := by
  obtain ⟨huntouched, hpays, b, hb, hlen, hlong⟩ := hat
  obtain ⟨payload, hpayload, hmagic⟩ := (Option.any_eq_true _ _).mp hany
  refine ⟨huntouched, b, hb, hlen, hlong, payload, ?_, hmagic, fun he ↦ ?_⟩
  · rwa [hb, Option.bind_some] at hpayload
  · exact Option.some_inj.mp (hpayload.symm.trans (hpays he))

theorem Stored.kept (hat : Stored unzstd faithful place h₀ h len) :
    (h.file = h₀.file ∨ ∃ b, h.file = some b ∧ IsImage unzstd faithful h.disk b) ∧
      (h.image = h₀.image ∨ h.HasImage unzstd faithful) ∧
      (h.dump = h₀.dump ∨ h.dump = none ∧ h.HasImage unzstd faithful) := by
  obtain ⟨⟨b, hb, -, himage⟩, hrest⟩ := hat
  cases place with
  | host => exact ⟨.inr ⟨b, hb, himage⟩, .inl hrest.1, .inl hrest.2⟩
  | bucket =>
    obtain ⟨o, ho, rfl⟩ := Option.map_eq_some_iff.mp hb
    exact ⟨.inl hrest.1, .inr ⟨o, ho, himage⟩, .inr ⟨hrest.2, o, ho, himage⟩⟩

/-- Before it is done, the making of an image leaves the compact file alone. -/
theorem At.failed {pc : Pc} (hat : At unzstd faithful place h₀ h pc) (hpc : ∀ len, pc ≠ .done (some len)) :
    Failed unzstd faithful h₀ h := by
  cases pc with
  | stat | release | trim | createDir | room | compress => exact Untouched.failed hat
  | measure => exact hat.1.failed
  | test | magic => exact hat.1.failed
  | rename | baseline | upload => exact hat.2.1.failed
  | verify =>
    obtain ⟨-, hfile, hdump, himage⟩ := hat
    exact ⟨hfile, .inr himage, .inl hdump⟩
  | deleteDump len =>
    obtain ⟨-, hfile, hdump, o, ho, -, himage⟩ := hat
    exact ⟨hfile, .inr ⟨o, ho, himage⟩, .inl hdump⟩
  | remove r =>
    cases r with
    | none => exact hat
    | some len =>
      obtain ⟨-, hstored⟩ := hat
      obtain ⟨-, himage, hdump⟩ := hstored.kept
      exact ⟨hstored.2.1, himage, hdump⟩
  | done r =>
    cases r with
    | none => exact hat
    | some len => exact absurd rfl (hpc len)

theorem At.whole {pc : Pc} (hat : At unzstd faithful place h₀ h pc) : Whole unzstd faithful place h₀ h pc := by
  by_cases hpc : ∀ len, pc ≠ .done (some len)
  · have hfailed := hat.failed hpc
    exact ⟨.inl hfailed.file, hfailed.image, hfailed.dump, fun len hdone ↦ absurd hdone (hpc len),
      fun _ ↦ hfailed.file⟩
  · push Not at hpc
    obtain ⟨len, rfl⟩ := hpc
    have hkept := Stored.kept hat
    refine ⟨hkept.1, hkept.2.1, hkept.2.2, fun len' hdone ↦ ?_, fun hnot ↦ absurd rfl (hnot len)⟩
    cases hdone
    exact hat

section Step

variable {h' : Host} {pc pc' : Pc} {ev : Event}

theorem At.released {free : Bool} (hat : At unzstd faithful place h₀ h (.release free))
    (hs : DiskImages.step unzstd place ev (h, .release free) = some (h', pc')) :
    At unzstd faithful place h₀ h' pc' := by
  cases ev with
  | scan held late =>
    cases held <;> cases late <;> cases free <;> cases hs <;> first | exact hat | exact Untouched.failed hat
  | failed =>
    cases hs
    exact Untouched.failed hat
  | _ => cases hs

/-- A compression that ends well has written the scratch file whole. -/
theorem At.compressed (hat : At unzstd faithful place h₀ h .compress)
    (hok : faithful → Honest unzstd content (h, .compress) ev)
    (hs : DiskImages.step unzstd place ev (h, .compress) = some (h', pc')) :
    At unzstd faithful place h₀ h' pc' := by
  cases ev with
  | wrote scratch success =>
    cases success <;> cases hs
    · exact ⟨hat.file, .inl hat.image, .inl hat.dump⟩
    · exact ⟨⟨hat.file, hat.image, hat.dump⟩, fun he ↦ (hok he).1 rfl scratch rfl⟩
  | _ => cases hs

theorem At.measured (hat : At unzstd faithful place h₀ h .measure)
    (hs : DiskImages.step unzstd place ev (h, .measure) = some (h', pc')) :
    At unzstd faithful place h₀ h' pc' := by
  cases ev with
  | ok =>
    obtain ⟨b, hb, heq⟩ := Option.map_eq_some_iff.mp hs
    cases heq
    split_ifs with hlong
    · exact ⟨hat.1, hat.2, b, hb, rfl, hlong⟩
    · exact hat.1.failed
  | failed =>
    cases hs
    exact hat.1.failed
  | _ => cases hs

theorem At.tested (hat : At unzstd faithful place h₀ h (.test len))
    (hs : DiskImages.step unzstd place ev (h, .test len) = some (h', pc')) :
    At unzstd faithful place h₀ h' pc' := by
  cases ev with
  | ok =>
    obtain ⟨payload, -, heq⟩ := Option.map_eq_some_iff.mp hs
    cases heq
    exact hat
  | failed =>
    cases hs
    exact hat.1.failed
  | _ => cases hs

/-- The last of the checks: the scratch file may now take its place. -/
theorem At.checked (hat : At unzstd faithful place h₀ h (.magic len))
    (hs : DiskImages.step unzstd place ev (h, .magic len) = some (h', pc')) :
    At unzstd faithful place h₀ h' pc' := by
  cases ev with
  | ok =>
    simp only [DiskImages.step] at hs
    split_ifs at hs with hany
    cases hs
    have hmade := Made.of_magic hat hany
    cases place with
    | host => exact ⟨rfl, hmade⟩
    | bucket => exact ⟨rfl, hmade⟩
  | failed =>
    cases hs
    exact hat.1.failed
  | _ => cases hs

theorem At.renamed (hat : At unzstd faithful place h₀ h (.rename len))
    (hs : DiskImages.step unzstd place ev (h, .rename len) = some (h', pc')) :
    At unzstd faithful place h₀ h' pc' := by
  cases ev with
  | ok =>
    obtain ⟨rfl, huntouched, hmade⟩ := hat
    cases hs
    exact ⟨hmade, huntouched.image, huntouched.dump⟩
  | failed =>
    cases hs
    exact hat.2.1.failed
  | _ => cases hs

/-- An upload that reports a failure may have landed all the same: what it put there is whole. -/
theorem At.uploaded {baseline : Option (ℕ × ℕ)} (hat : At unzstd faithful place h₀ h (.upload len baseline))
    (hs : DiskImages.step unzstd place ev (h, .upload len baseline) = some (h', pc')) :
    At unzstd faithful place h₀ h' pc' := by
  cases ev with
  | put upload success =>
    obtain ⟨hplace, huntouched, b, hb, -, himage⟩ := hat
    obtain ⟨b', hb', heq⟩ := Option.map_eq_some_iff.mp hs
    obtain rfl : b = b' := Option.some_inj.mp (hb.symm.trans hb')
    have hput : Host.HasImage unzstd faithful { h with image := some ⟨upload, b⟩ } := ⟨_, rfl, himage⟩
    cases success <;> cases heq
    · exact ⟨huntouched.file, .inr hput, .inl huntouched.dump⟩
    · exact ⟨hplace, huntouched.file, huntouched.dump, hput⟩
  | failed =>
    cases hs
    exact hat.2.1.failed
  | _ => cases hs

theorem At.verified {baseline : Option (ℕ × ℕ)} (hat : At unzstd faithful place h₀ h (.verify len baseline))
    (hs : DiskImages.step unzstd place ev (h, .verify len baseline) = some (h', pc')) :
    At unzstd faithful place h₀ h' pc' := by
  have hfailed : Failed unzstd faithful h₀ h := hat.failed fun _ ↦ Pc.noConfusion
  cases ev with
  | ok =>
    cases hs
    split_ifs with hany
    · obtain ⟨hplace, hfile, hdump, o, ho, himage⟩ := hat
      obtain ⟨o', ho', hid⟩ := (Option.any_eq_true _ _).mp hany
      obtain rfl : o = o' := Option.some_inj.mp (ho.symm.trans ho')
      exact ⟨hplace, hfile, hdump, o, ho, (of_decide_eq_true hid).1, himage⟩
    · exact hfailed
  | failed =>
    cases hs
    exact hfailed
  | _ => cases hs

/-- The dump goes only once the image that takes its place has been seen. -/
theorem At.dumpDeleted (hat : At unzstd faithful place h₀ h (.deleteDump len))
    (hs : DiskImages.step unzstd place ev (h, .deleteDump len) = some (h', pc')) :
    At unzstd faithful place h₀ h' pc' := by
  have hfailed : Failed unzstd faithful h₀ h := hat.failed fun _ ↦ Pc.noConfusion
  obtain ⟨hplace, hfile, -, o, ho, hlen, himage⟩ := hat
  cases ev <;> cases hs
  · exact ⟨hplace, ⟨o.bytes, Option.map_eq_some_iff.mpr ⟨o, ho, rfl⟩, hlen, himage⟩, hfile, rfl⟩
  · exact hfailed
  · exact ⟨hfile, .inr ⟨o, ho, himage⟩, .inr ⟨rfl, o, ho, himage⟩⟩

theorem At.step (hat : At unzstd faithful place h₀ h pc) (hok : faithful → Honest unzstd content (h, pc) ev)
    (hs : DiskImages.step unzstd place ev (h, pc) = some (h', pc')) : At unzstd faithful place h₀ h' pc' := by
  cases pc with
  | stat =>
    cases ev <;> cases hs
    · exact hat
    · exact Untouched.failed hat
  | release free => exact hat.released hs
  | trim =>
    cases ev <;> cases hs
    exact ⟨hat.file, hat.image, hat.dump⟩
  | createDir =>
    cases ev <;> cases hs
    · exact hat
    · exact Untouched.failed hat
  | room =>
    cases ev <;> cases hs
    split_ifs
    · exact Untouched.failed hat
    · exact hat
  | compress => exact hat.compressed hok hs
  | measure => exact hat.measured hs
  | test len => exact hat.tested hs
  | magic len => exact hat.checked hs
  | rename len => exact hat.renamed hs
  | baseline len =>
    cases ev with
    | ok =>
      cases hs
      exact hat
    | failed =>
      cases hs
      exact hat.2.1.failed
    | _ => cases hs
  | upload len baseline => exact hat.uploaded hs
  | verify len baseline => exact hat.verified hs
  | deleteDump len => exact hat.dumpDeleted hs
  | remove r =>
    cases r with
    | none => cases ev <;> cases hs <;> exact ⟨hat.file, hat.image, hat.dump⟩
    | some len =>
      obtain ⟨rfl, hstored⟩ := hat
      cases ev <;> cases hs <;> exact hstored
  | done r => cases hs

end Step

theorem step_disk {h' : Host} {pc pc' : Pc} {ev : Event} (hs : step unzstd place ev (h, pc) = some (h', pc')) :
    h'.disk = h.disk ∨ ev = .trimmed h'.disk := by
  cases pc <;> cases ev <;> simp only [step, reduceCtorEq, Option.map_eq_some_iff] at hs <;> grind

/-- Wherever the making of an image is, every file and object is as it was or whole. -/
theorem At.of_run {pc : Pc} (hrun : Run (DiskImages.step unzstd place)
    (fun x ev ↦ faithful → Honest unzstd content x ev) (h₀, .stat) (h, pc)) :
    At unzstd faithful place h₀ h pc ∧ (faithful → content h.disk = content h₀.disk) := by
  have hstart : At unzstd faithful place h₀ h₀ .stat := ⟨rfl, rfl, rfl⟩
  refine hrun.invariant (I := fun x : Host × Pc ↦ At unzstd faithful place h₀ x.1 x.2 ∧
    (faithful → content x.1.disk = content h₀.disk)) ⟨hstart, fun _ ↦ rfl⟩ ?_
  rintro ⟨h, pc⟩ ev ⟨h', pc'⟩ ⟨hat, hcontent⟩ hok hs
  refine ⟨hat.step hok hs, fun he ↦ ?_⟩
  rcases step_disk hs with hdisk | rfl
  · rw [hdisk]
    exact hcontent he
  · exact ((hok he).2 _ rfl).trans (hcontent he)

theorem images_whole {pc : Pc} (hrun : Run (step unzstd place)
    (fun x ev ↦ faithful → Honest unzstd content x ev) (h₀, .stat) (h, pc)) :
    Whole unzstd faithful place h₀ h pc :=
  (At.of_run hrun).1.whole

end Steps

/-- The download and the raw image in the scratch dir of a restore. -/
structure Scratch where
  zst : Option Bytes
  raw : Option Bytes
  deriving DecidableEq

/-- Where `materialize_from_local_image` or `materialize_from_image` is, up to the VM it claims for the raw image. -/
inductive FetchPc
  | find
  | createDir (len : ℕ)
  | room (len : ℕ)
  | get (len : ℕ)
  | receive (len : ℕ) (body : Bytes) (written : ℕ)
  | decompress
  | magic
  | fetched
  | remove
  | failed
  deriving DecidableEq

inductive FetchEvent
  | ok
  | failed
  | space (free : Option ℕ)
  | chunk (n : ℕ)
  | wrote (raw : Option Bytes) (success : Bool)

def Place.fetch (len : ℕ) : Place → FetchPc
  | .host => .decompress
  | .bucket => .get len

/-- The compressed image that is decompressed. -/
def Scratch.input (f : Scratch) (h : Host) : Place → Option Bytes
  | .host => h.file
  | .bucket => f.zst

def Scratch.drop (f : Scratch) : Place → Scratch
  | .host => { f with raw := none }
  | .bucket => ⟨none, none⟩

def fetchStep (h : Host) (place : Place) (ev : FetchEvent) : Scratch × FetchPc → Option (Scratch × FetchPc)
  | (f, .find) =>
    match ev with
    | .ok => (h.source place).map fun b ↦ (f, if minImageBytes ≤ b.length then .createDir b.length else .failed)
    | .failed => some (f, .failed)
    | _ => none
  | (f, .createDir len) =>
    match ev with
    | .ok => some (f, .room len)
    | .failed => some (f, .failed)
    | _ => none
  | (f, .room len) =>
    match ev with
    | .space free => some (f, if free.any (· < len * 2) then .failed else place.fetch len)
    | _ => none
  | (f, .get len) =>
    match ev with
    | .ok => (h.source place).map fun body ↦ ({ f with zst := some [] }, .receive len body 0)
    | .failed => some (f, .remove)
    | _ => none
  | (f, .receive len body written) =>
    match ev with
    | .chunk n =>
      some ({ f with zst := some (body.take (written + n)) }, .receive len body (min (written + n) body.length))
    | .ok => some (f, if written = len then .decompress else .remove)
    | .failed => some (f, .remove)
    | _ => none
  | (f, .decompress) =>
    match ev with
    | .wrote raw success => some ({ f with raw }, if success then .magic else .remove)
    | _ => none
  | (f, .magic) =>
    match ev with
    | .ok => if f.raw.any checkExt4Magic then some (f, .fetched) else none
    | .failed => some (f, .remove)
    | _ => none
  | (f, .remove) =>
    match ev with
    | .ok => some (f.drop place, .failed)
    | .failed => some (f, .failed)
    | _ => none
  | (_, .fetched) | (_, .failed) => none

/-- What `zstd -d` says it has decompressed is the image. -/
def HonestFetch (unzstd : Bytes → Option Bytes) (h : Host) (place : Place) (x : Scratch × FetchPc)
    (ev : FetchEvent) : Prop :=
  x.2 = .decompress → ∀ raw, ev = .wrote raw true → raw.isSome = true ∧ raw = (x.1.input h place).bind unzstd

section Fetch

variable (unzstd : Bytes → Option Bytes) (h : Host) (place : Place)

/-- The raw image is what the kept one decompresses to. -/
def Unpacked (f : Scratch) : Prop := ∃ payload, f.raw = some payload ∧ (h.source place).bind unzstd = some payload

def FetchAt (f : Scratch) : FetchPc → Prop
  | .createDir len | .room len => ∃ b, h.source place = some b ∧ b.length = len
  | .get len => place = .bucket ∧ ∃ b, h.source place = some b ∧ b.length = len
  | .receive len body written =>
    place = .bucket ∧ h.source place = some body ∧ body.length = len ∧ f.zst = some (body.take written) ∧
      written ≤ body.length
  | .decompress => f.input h place = h.source place
  | .magic => Unpacked unzstd h place f
  | .fetched => Unpacked unzstd h place f ∧ f.raw.any checkExt4Magic = true
  | .find | .remove | .failed => True

variable {unzstd h place}

theorem FetchAt.step {f f' : Scratch} {pc pc' : FetchPc} {ev : FetchEvent} (hat : FetchAt unzstd h place f pc)
    (hok : HonestFetch unzstd h place (f, pc) ev) (hs : fetchStep h place ev (f, pc) = some (f', pc')) :
    FetchAt unzstd h place f' pc' := by
  cases pc with
  | find =>
    cases ev with
    | ok =>
      obtain ⟨b, hb, heq⟩ := Option.map_eq_some_iff.mp hs
      cases heq
      split_ifs
      · exact ⟨b, hb, rfl⟩
      · trivial
    | failed =>
      cases hs
      trivial
    | _ => cases hs
  | createDir len =>
    cases ev <;> cases hs
    · exact hat
    · trivial
  | room len =>
    cases ev <;> cases hs
    split_ifs
    · trivial
    · cases place with
      | host => rfl
      | bucket => exact ⟨rfl, hat⟩
  | get len =>
    cases ev with
    | ok =>
      obtain ⟨body, hbody, heq⟩ := Option.map_eq_some_iff.mp hs
      cases heq
      obtain ⟨hplace, b, hb, hlen⟩ := hat
      obtain rfl : b = body := Option.some_inj.mp (hb.symm.trans hbody)
      exact ⟨hplace, hb, hlen, by rw [List.take_zero], Nat.zero_le _⟩
    | failed =>
      cases hs
      trivial
    | _ => cases hs
  | receive len body written =>
    obtain ⟨hplace, hbody, hlen, hzst, hle⟩ := hat
    cases ev with
    | chunk n =>
      cases hs
      refine ⟨hplace, hbody, hlen, ?_, min_le_right _ _⟩
      exact congrArg some (List.take_eq_take_min ..)
    | ok =>
      cases hs
      split_ifs with hall
      · -- Nothing of the object is missing: its length is what the HEAD told.
        subst hplace
        have hwhole : body.take written = body := List.take_of_length_le (hlen.trans hall.symm).le
        exact hzst.trans ((congrArg some hwhole).trans hbody.symm)
      · trivial
    | failed =>
      cases hs
      trivial
    | _ => cases hs
  | decompress =>
    cases ev with
    | wrote raw success =>
      cases success <;> cases hs
      · trivial
      · obtain ⟨hsome, hraw⟩ := hok rfl raw rfl
        obtain ⟨payload, rfl⟩ := Option.isSome_iff_exists.mp hsome
        have hinput : f.input h place = h.source place := hat
        rw [hinput] at hraw
        exact ⟨payload, rfl, hraw.symm⟩
    | _ => cases hs
  | magic =>
    cases ev with
    | ok =>
      simp only [fetchStep] at hs
      split_ifs at hs with hmagic
      cases hs
      exact ⟨hat, hmagic⟩
    | failed =>
      cases hs
      trivial
    | _ => cases hs
  | remove =>
    cases ev <;> cases hs <;> trivial
  | fetched => cases hs
  | failed => cases hs

theorem FetchAt.of_run {f₀ f : Scratch} {pc : FetchPc}
    (hrun : Run (fetchStep h place) (HonestFetch unzstd h place) (f₀, .find) (f, pc)) :
    FetchAt unzstd h place f pc := by
  have hstart : FetchAt unzstd h place f₀ .find := trivial
  refine hrun.invariant (I := fun x : Scratch × FetchPc ↦ FetchAt unzstd h place x.1 x.2) hstart ?_
  rintro ⟨f, pc⟩ ev ⟨f', pc'⟩ hat hok hs
  exact FetchAt.step hat hok hs

variable {content : Bytes → List ℕ} {h₀ : Host} {len : ℕ}

/-- What is restored of a stored image is the disk it was made of, whatever was in the scratch dir. -/
theorem image_round_trip {f₀ f : Scratch}
    (hmade : Run (step unzstd place) (fun x ev ↦ True → Honest unzstd content x ev) (h₀, .stat)
      (h, .done (some len)))
    (hfetched : Run (fetchStep h place) (HonestFetch unzstd h place) (f₀, .find) (f, .fetched)) :
    f.raw = some h.disk ∧ content h.disk = content h₀.disk ∧ checkExt4Magic h.disk = true := by
  obtain ⟨hat, hcontent⟩ := At.of_run hmade
  obtain ⟨⟨b, hb, -, himage⟩, -⟩ : Stored unzstd True place h₀ h len := hat
  obtain ⟨payload, hpayload, hmagic, hpays⟩ := himage.payload
  obtain ⟨⟨raw, hraw, hsource⟩, -⟩ := FetchAt.of_run hfetched
  rw [hb, Option.bind_some, hpayload] at hsource
  obtain rfl : payload = raw := Option.some_inj.mp hsource
  obtain rfl := hpays trivial
  exact ⟨hraw, hcontent trivial, hmagic⟩

end Fetch

/-- The world shows the VM's disk and the compact file by what they hold. -/
structure Shows (unzstd : Bytes → Option Bytes) (content : Bytes → List ℕ) (w : World)
    (s : Schema) (id : SandboxId)
    (h : Host) : Prop where
  disk : (w.disks id).map Content.writes = some (content h.disk)
  file : w.images s = h.file.bind fun b ↦ (unzstd b).map fun payload ↦ ⟨content payload, b.length⟩

section Refinement

variable {unzstd : Bytes → Option Bytes} {content : Bytes → List ℕ} {h₀ h : Host} {w : World}

/-- A compaction that is done has taken the world's step, and until then, or when it fails, it has taken none. -/
theorem compact_refines {s : Schema} {id : SandboxId} {pc : Pc} (cfg : Config) (kind : OffloadKind)
    (hw : Shows unzstd content w s id h₀)
    (hrun : Run (step unzstd .host) (fun x ev ↦ True → Honest unzstd content x ev) (h₀, .stat) (h, pc)) :
    (∀ len, pc = .done (some len) → ∃ w',
      offCore cfg s kind w (.compactDisk id) (.size len) = some (w', .setTier .compacted (.kill id)) ∧
        Shows unzstd content w' s id h) ∧
      ((∀ len, pc ≠ .done (some len)) → Shows unzstd content w s id h) := by
  obtain ⟨hat, hcontent⟩ := At.of_run hrun
  have hdisk : (w.disks id).map Content.writes = some (content h.disk) := by
    rw [hcontent trivial]
    exact hw.disk
  refine ⟨?_, fun hpc ↦ ⟨hdisk, ?_⟩⟩
  · rintro len rfl
    obtain ⟨⟨b, hb, rfl, himage⟩, -⟩ : Stored unzstd True .host h₀ h len := hat
    obtain ⟨payload, hpayload, -, hpays⟩ := himage.payload
    obtain rfl := hpays trivial
    obtain ⟨c, hc, hwrites⟩ := Option.map_eq_some_iff.mp hdisk
    have hcopy : w.copyOf id minImageBytes b.length = some ⟨c.writes, b.length⟩ := by
      rw [World.copyOf, if_pos himage.long, hc, Option.map_some]
    refine ⟨{ w with images := Function.update w.images s (some ⟨c.writes, b.length⟩) }, ?_, hdisk, ?_⟩
    · exact congrArg (Option.map _) hcopy
    · have hfile : h.file = some b := hb
      simp [hfile, hpayload, hwrites]
  · rw [(hat.failed hpc).file]
    exact hw.file

/-- A thaw that has its raw image has taken the world's step. -/
theorem thaw_refines {b : BringUp} {id : SandboxId} {f₀ f : Scratch} (hw : Shows unzstd content w b.schema id h)
    (hrestore : b.restore = some .localImage)
    (hrun : Run (fetchStep h .host) (HonestFetch unzstd h .host) (f₀, .find) (f, .fetched)) :
    ∃ w', ensureStep b w .materialize .ok = some (w', b.fresh) ∧
      (w'.scratch b.schema).map Content.writes = f.raw.map content := by
  obtain ⟨⟨payload, hraw, hsource⟩, -⟩ := FetchAt.of_run hrun
  obtain ⟨z, hz, hpayload⟩ := Option.bind_eq_some_iff.mp hsource
  have hfile : h.file = some z := hz
  have himage : b.imageSource w = some ⟨content payload, z.length⟩ := by
    simp [BringUp.imageSource, hrestore, hw.file, hfile, hpayload]
  refine ⟨{ w with scratch := Function.update w.scratch b.schema (some ⟨content payload, z.length⟩) }, ?_, ?_⟩
  · exact congrArg (Option.map _) himage
  · simp [hraw]

end Refinement

section Boot

variable {unzstd : Bytes → Option Bytes}

def kept (disk b : Bytes) : Host := ⟨disk, none, some b, none, none⟩

/-- A disk whose image is in S3, its first upload. -/
def archived (disk b : Bytes) : Host := ⟨disk, none, none, some ⟨1, b⟩, none⟩

section Quiet

variable (content : Bytes → List ℕ) (faithful : Prop) {disk b : Bytes}

theorem honest_quiet {x : Host × Pc} {ev : Event} (hpc : x.2 ≠ .compress) (hev : ∀ disk, ev ≠ .trimmed disk) :
    faithful → Honest unzstd content x ev :=
  fun _ ↦ ⟨fun h ↦ absurd h hpc, fun disk h ↦ absurd h (hev disk)⟩

theorem run_makes (place : Place) (dump : Option Object) (hb : unzstd b = some disk)
    (hlong : minImageBytes ≤ b.length) (hmagic : checkExt4Magic disk = true) :
    Run (step unzstd place) (fun x ev ↦ faithful → Honest unzstd content x ev)
      (⟨disk, none, none, none, dump⟩, .stat) (⟨disk, some b, none, none, dump⟩, place.next b.length) := by
  refine .head (l := .ok) (honest_quiet _ _ (by simp) (by simp)) rfl ?_
  refine .head (l := .scan false false) (honest_quiet _ _ (by simp) (by simp)) rfl ?_
  refine .head (l := .scan false false) (honest_quiet _ _ (by simp) (by simp)) rfl ?_
  refine .head (l := .trimmed disk) (fun _ ↦ ⟨by simp, by simp⟩) rfl ?_
  refine .head (l := .ok) (honest_quiet _ _ (by simp) (by simp)) rfl ?_
  refine .head (l := .space none 0) (honest_quiet _ _ (by simp) (by simp)) rfl ?_
  refine .head (l := .wrote (some b) true) (fun _ ↦ ⟨by simp [hb], by simp⟩) rfl ?_
  refine .head (l := .ok) (b := (⟨disk, some b, none, none, dump⟩, .test b.length))
    (honest_quiet _ _ (by simp) (by simp)) (by simp [step, hlong]) ?_
  refine .head (l := .ok) (b := (⟨disk, some b, none, none, dump⟩, .magic b.length))
    (honest_quiet _ _ (by simp) (by simp)) (by simp [step, hb]) ?_
  exact .tail .refl (l := .ok) (honest_quiet _ _ (by simp) (by simp)) (by simp [step, hb, hmagic])

theorem run_compacts (hb : unzstd b = some disk) (hlong : minImageBytes ≤ b.length)
    (hmagic : checkExt4Magic disk = true) :
    Run (step unzstd .host) (fun x ev ↦ faithful → Honest unzstd content x ev)
      (⟨disk, none, none, none, none⟩, .stat) (kept disk b, .done (some b.length)) :=
  (run_makes content faithful .host none hb hlong hmagic).tail (l := .ok)
    (honest_quiet _ _ (by simp [Place.next]) (by simp)) rfl

theorem run_archives (dump : Option Object) (hb : unzstd b = some disk) (hlong : minImageBytes ≤ b.length)
    (hmagic : checkExt4Magic disk = true) :
    Run (step unzstd .bucket) (fun x ev ↦ faithful → Honest unzstd content x ev)
      (⟨disk, none, none, none, dump⟩, .stat) (archived disk b, .done (some b.length)) := by
  refine (run_makes content faithful .bucket dump hb hlong hmagic).trans ?_
  refine .head (l := .ok) (honest_quiet _ _ (by simp [Place.next]) (by simp)) rfl ?_
  refine .head (l := .put 1 true) (honest_quiet _ _ (by simp) (by simp)) rfl ?_
  refine .head (l := .ok) (b := (⟨disk, some b, none, some ⟨1, b⟩, dump⟩, .deleteDump b.length))
    (honest_quiet _ _ (by simp) (by simp)) (by simp [step]) ?_
  refine .head (l := .ok) (honest_quiet _ _ (by simp) (by simp)) rfl ?_
  exact .head (l := .ok) (honest_quiet _ _ (by simp) (by simp)) rfl .refl

end Quiet

theorem run_thaws {disk b : Bytes} (hb : unzstd b = some disk) (hlong : minImageBytes ≤ b.length)
    (hmagic : checkExt4Magic disk = true) :
    Run (fetchStep (kept disk b) .host) (HonestFetch unzstd (kept disk b) .host) (⟨none, none⟩, .find)
      (⟨none, some disk⟩, .fetched) := by
  refine .head (l := .ok) (b := (⟨none, none⟩, .createDir b.length)) (fun h ↦ by cases h)
    (by simp [fetchStep, Host.source, kept, hlong]) ?_
  refine .head (l := .ok) (fun h ↦ by cases h) rfl ?_
  refine .head (l := .space none) (fun h ↦ by cases h) rfl ?_
  refine .head (l := .wrote (some disk) true) (fun _ ↦ by simp [Scratch.input, kept, hb]) rfl ?_
  exact .head (l := .ok) (fun h ↦ by cases h) (by simp [fetchStep, hmagic]) .refl

/-- A download in two chunks, over what an earlier restore has left behind. -/
theorem run_downloads {disk b : Bytes} (zst raw : Bytes)
    (hb : unzstd b = some disk) (hlong : minImageBytes ≤ b.length)
    (hmagic : checkExt4Magic disk = true) :
    Run (fetchStep (archived disk b) .bucket) (HonestFetch unzstd (archived disk b) .bucket)
      (⟨some zst, some raw⟩, .find) (⟨some b, some disk⟩, .fetched) := by
  have hone : 1 ≤ b.length := (by decide : 1 ≤ minImageBytes).trans hlong
  refine .head (l := .ok) (b := (⟨some zst, some raw⟩, .createDir b.length)) (fun h ↦ by cases h)
    (by simp [fetchStep, Host.source, archived, hlong]) ?_
  refine .head (l := .ok) (fun h ↦ by cases h) rfl ?_
  refine .head (l := .space none) (fun h ↦ by cases h) rfl ?_
  refine .head (l := .ok) (fun h ↦ by cases h) rfl ?_
  refine .head (l := .chunk 1) (b := (⟨some (b.take 1), some raw⟩, .receive b.length b 1)) (fun h ↦ by cases h)
    (by simp [fetchStep, hone]) ?_
  refine .head (l := .chunk b.length) (b := (⟨some b, some raw⟩, .receive b.length b b.length))
    (fun h ↦ by cases h) (by simp [fetchStep]) ?_
  refine .head (l := .ok) (b := (⟨some b, some raw⟩, .decompress)) (fun h ↦ by cases h) (by simp [fetchStep]) ?_
  refine .head (l := .wrote (some disk) true) (fun _ ↦ by simp [Scratch.input, hb]) rfl ?_
  exact .head (l := .ok) (fun h ↦ by cases h) (by simp [fetchStep, hmagic]) .refl

/-- What `zstd -d` makes of a frame with one raw block and no checksum. -/
def unzstdRaw : Bytes → Option Bytes
  | m₀ :: m₁ :: m₂ :: m₃ :: d :: f₀ :: f₁ :: b₀ :: b₁ :: b₂ :: rest =>
    if [m₀, m₁, m₂, m₃, d] = [0x28, 0xB5, 0x2F, 0xFD, 0x60] ∧
        f₀.toNat + 256 * f₁.toNat + 256 = rest.length ∧
        b₀.toNat + 256 * b₁.toNat + 65536 * b₂.toNat = 8 * rest.length + 1 then some rest else none
  | _ => none

def bootDisk : Bytes := List.replicate ext4MagicOffset 0xA7 ++ ext4Magic

def bootFrame : Bytes := [0x28, 0xB5, 0x2F, 0xFD, 0x60, 0x3A, 0x03, 0xD1, 0x21, 0x00] ++ bootDisk

theorem length_bootDisk : bootDisk.length = 1082 := by
  rw [bootDisk, List.length_append, List.length_replicate]
  rfl

theorem unzstdRaw_bootFrame : unzstdRaw bootFrame = some bootDisk := by
  simp [unzstdRaw, bootFrame, length_bootDisk]

theorem long_bootFrame : minImageBytes ≤ bootFrame.length := by
  simp [bootFrame, length_bootDisk, minImageBytes]

theorem magic_bootDisk : checkExt4Magic bootDisk = true := by
  rw [checkExt4Magic, bootDisk, List.drop_left' List.length_replicate]
  rfl

def octets (disk : Bytes) : List ℕ := disk.map UInt8.toNat

theorem images_whole_boot : Whole unzstdRaw True .host ⟨bootDisk, none, none, none, none⟩ (kept bootDisk bootFrame)
    (.done (some bootFrame.length)) :=
  images_whole (run_compacts octets True unzstdRaw_bootFrame long_bootFrame magic_bootDisk)

/-- From the compact file, and from S3 over the remains of an earlier restore. -/
theorem image_round_trip_boot :
    (∃ f, Run (fetchStep (kept bootDisk bootFrame) .host) (HonestFetch unzstdRaw (kept bootDisk bootFrame) .host)
      (⟨none, none⟩, .find) (f, .fetched) ∧ f.raw = some bootDisk) ∧
    ∃ f, Run (fetchStep (archived bootDisk bootFrame) .bucket)
      (HonestFetch unzstdRaw (archived bootDisk bootFrame) .bucket) (⟨some [0x28], some bootFrame⟩, .find)
      (f, .fetched) ∧ f.raw = some bootDisk := by
  constructor
  · have hmade := run_compacts octets True unzstdRaw_bootFrame long_bootFrame magic_bootDisk
    have hthaws := run_thaws unzstdRaw_bootFrame long_bootFrame magic_bootDisk
    exact ⟨_, hthaws, (image_round_trip hmade hthaws).1⟩
  · have hmade := run_archives octets True (some ⟨0, [0]⟩) unzstdRaw_bootFrame long_bootFrame magic_bootDisk
    have hfetched := run_downloads [0x28] bootFrame unzstdRaw_bootFrame long_bootFrame magic_bootDisk
    exact ⟨_, hfetched, (image_round_trip hmade hfetched).1⟩

def bootWorld : World := .host "" fun _ ↦ some ⟨octets bootDisk, 0⟩

theorem compact_refines_boot : ∃ w',
    offCore .full app .compact bootWorld (.compactDisk sb1) (.size bootFrame.length) =
        some (w', .setTier .compacted (.kill sb1)) ∧
      Shows unzstdRaw octets w' app sb1 (kept bootDisk bootFrame) := by
  have hmade := run_compacts octets True unzstdRaw_bootFrame long_bootFrame magic_bootDisk
  have hw : Shows unzstdRaw octets bootWorld app sb1 ⟨bootDisk, none, none, none, none⟩ := ⟨rfl, rfl⟩
  exact (compact_refines .full .compact hw hmade).1 _ rfl

end Boot

end PgVmPool.DiskImages
