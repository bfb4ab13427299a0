import PgVmPool.Checkout

namespace PgVmPool

open Function

inductive OffloadKind
  | archive | freeze | compact
  | image (viewed : Option SandboxId)
  deriving DecidableEq

inductive Route
  | archive | freeze | compact
  | image (id : SandboxId)
  | promoteFrozen | promoteCompacted
  deriving DecidableEq

inductive Final
  | kill (id : SandboxId)
  | killById (id : SandboxId)
  | removeDump
  | removeImage
  deriving DecidableEq

def Final.vm : Final → Option SandboxId
  | .kill id | .killById id => some id
  | .removeDump | .removeImage => none

/-- The lock acquisitions and awaits of `archive_schema_inner`, `freeze_schema_inner`,
`compact_schema_inner`, `archive_schema_as_image_inner`, `image_archive_now` and the promotions. -/
inductive OffPc
  | begin
  | imageTarget (viewed : Option SandboxId)
  | claim (r : Route)
  | evict (r : Route)
  | readRecord (r : Route)
  | bringUp (r : Route) (known : Option SandboxId) (pc : EnsurePc)
  | leak (r : Route) (known : Option SandboxId)
  | leakByName (r : Route) (known : Option SandboxId)
  | leakStop (r : Route) (known : Option SandboxId) (ids : List SandboxId)
  | dump (r : Route) (id : SandboxId)
  | uploadScratch (id : SandboxId)
  | failedCheckpoint (r : Route) (id : SandboxId)
  | failedStop (r : Route) (id : SandboxId)
  | imageCheckpoint (e : ℕ) (id : SandboxId)
  | imageStop (target id : SandboxId)
  | imageDisk (id : SandboxId)
  | ensureRow (id : SandboxId)
  | compactDisk (id : SandboxId)
  | checkFrozen
  | statDump
  | uploadDump (len : ℕ)
  | verifyDump (len : ℕ)
  | statImage
  | uploadImage (len : ℕ)
  | verifyImage (len : ℕ)
  | deleteDump
  | setTier (tier : Tier) (fin : Final)
  | writeTier (tier : Tier) (g : ℕ) (contents : String) (fin : Final)
  | finish (tier : Tier) (g : Option ℕ) (fin : Final)
  | done
  | failed

namespace OffPc

def holds : OffPc → Bool
  | .begin | .imageTarget _ | .claim _ | .done | .failed => false
  | _ => true

def target : OffPc → Option SandboxId
  | .bringUp _ _ pc => pc.vm
  | .dump _ id | .uploadScratch id | .failedCheckpoint _ id | .failedStop _ id
  | .imageCheckpoint _ id | .imageStop _ id | .imageDisk id | .ensureRow id | .compactDisk id =>
    some id
  | .setTier _ fin | .writeTier _ _ _ fin | .finish _ _ fin => fin.vm
  | _ => none

/-- Past the critical section on `entries` of an offload that deletes its VM. -/
def past : OffPc → Bool
  | .readRecord _ | .bringUp _ _ _ | .leak _ _ | .leakByName _ _ | .leakStop _ _ _ | .dump _ _
  | .uploadScratch _ | .failedCheckpoint _ _ | .failedStop _ _ | .imageCheckpoint _ _
  | .imageStop _ _ | .imageDisk _ | .ensureRow _ | .compactDisk _ => true
  | .setTier _ fin | .writeTier _ _ _ fin | .finish _ _ fin => fin.vm.isSome
  | _ => false

end OffPc

def resolveImageTarget (recorded viewed : Option SandboxId) : Option SandboxId :=
  match recorded, viewed with
  | some id, some v => if id = v then some id else none
  | some id, none => some id
  | none, some v => some v
  | none, none => none

def Route.afterClaim : Route → OffPc
  | .promoteFrozen => .checkFrozen
  | .promoteCompacted => .statImage
  | r => .evict r

def Route.afterEvict (r : Route) (warm : Option ℕ) : OffPc :=
  match r, warm with
  | .image id, some e => .imageCheckpoint e id
  | .image id, none => .imageStop id id
  | r, _ => .readRecord r

/-- `image_archive_fallback` after a failed dump; a freeze has no fallback. -/
def imageFallback (cfg : Config) (r : Route) (id : Option SandboxId) : OffPc :=
  match r, id with
  | .archive, some id => if cfg.imageArchive then .imageDisk id else .failed
  | _, _ => .failed

def offBegin (cfg : Config) (tier : Option Tier) : OffloadKind → OffPc
  | .archive =>
    if !cfg.archive then .failed
    else match tier with
      | some .archived => .failed
      | some .frozen => .claim .promoteFrozen
      | some .compacted => if cfg.compact then .claim .promoteCompacted else .failed
      | _ => .claim .archive
  | .freeze =>
    if !cfg.freeze || (tier.getD .live) ≠ .live then .failed else .claim .freeze
  | .compact =>
    if !cfg.compact || (tier.getD .live) ≠ .live then .failed else .claim .compact
  | .image viewed =>
    if !(cfg.archive && cfg.imageArchive) || (tier.getD .live) ≠ .live then .failed
    else .imageTarget viewed

/-- The critical section on `entries`: refuse a schema in use, else take its cell out. -/
def offEvict (s : Schema) (r : Route) (w : World) : World × OffPc :=
  let out := { w with entries := w.entries.erase s }
  match (w.entries.lookup s).map w.cells with
  | some (.full e) =>
    if r = .compact ∨ 0 < (w.ents e).active then (w, .failed) else (out, r.afterEvict (some e))
  | _ => (out, r.afterEvict none)

/-- The disk of `id` as a copy of `n` bytes, refused below `least`. -/
def World.copyOf (w : World) (id : SandboxId) (least n : ℕ) : Option Content :=
  if least ≤ n then (w.disks id).map fun c ↦ ⟨c.writes, n⟩ else none

def offCore (cfg : Config) (s : Schema) (kind : OffloadKind) (w : World) :
    OffPc → Answer → Option (World × OffPc)
  | .begin, .go => some (w, offBegin cfg (w.store.tierOf s) kind)
  | .imageTarget viewed, .go =>
    match resolveImageTarget ((w.store.record s).map (·.sandboxId)) viewed with
    | some id => some (w, .claim (.image id))
    | none => some (w, .failed)
  | .claim r, .go =>
    if w.archiving s then some (w, .failed)
    else some ({ w with archiving := update w.archiving s true }, r.afterClaim)
  | .evict r, .go => some (offEvict s r w)
  | .readRecord .compact, .go =>
    match w.store.record s with
    | some rec => some (w, .compactDisk rec.sandboxId)
    | none => some (w, .failed)
  | .readRecord r, .go =>
    some (w, .bringUp r ((w.store.record s).map (·.sandboxId)) .admission)
  | .bringUp r _ (.ok id _), .go => some (w, .dump r id)
  | .bringUp r known .err, .go => some (w, .leak r known)
  | .bringUp r known pc, a =>
    (ensureStep ⟨s, known, none, none⟩ w pc a).map fun x ↦ (x.1, .bringUp r known x.2)
  | .leak r known, .go =>
    match leakIds w s known with
    | [] => some (w, .leakByName r known)
    | ids => some (w, .leakStop r known ids)
  | .leakByName r known, .failed => some (w, imageFallback cfg r known)
  | .leakByName r known, .listing infos =>
    some (w.absorb infos,
      .leakStop r known ((infos.find? (·.name = vmName s)).toList.map (·.id)))
  | .leakStop r known (_ :: ids), .ok | .leakStop r known (_ :: ids), .failed =>
    some (w, .leakStop r known ids)
  | .leakStop r known [], .go => some (w, imageFallback cfg r known)
  | .dump .freeze id, .size n =>
    (w.copyOf id minDumpBytes n).map fun c ↦
      ({ w with dumps := update w.dumps s (some c) }, .setTier .frozen (.kill id))
  | .dump .archive id, .size n =>
    (w.copyOf id minDumpBytes n).map fun c ↦
      if cfg.viaGuest then ({ w with s3Dump := update w.s3Dump s (some c) }, .setTier .archived (.kill id))
      else ({ w with dumps := update w.dumps s (some c) }, .uploadScratch id)
  | .dump r id, .failed => some (w, .failedCheckpoint r id)
  | .uploadScratch id, .ok =>
    (w.dumps s).map fun c ↦
      ({ w with s3Dump := update w.s3Dump s (some c), dumps := update w.dumps s none },
        .setTier .archived (.kill id))
  | .uploadScratch id, .failed =>
    some ({ w with dumps := update w.dumps s none }, .failedCheckpoint .archive id)
  | .failedCheckpoint r id, .ok | .failedCheckpoint r id, .failed => some (w, .failedStop r id)
  | .failedStop r id, .ok | .failedStop r id, .failed => some (w, imageFallback cfg r (some id))
  | .imageCheckpoint e id, .ok | .imageCheckpoint e id, .failed =>
    some (w, .imageStop (w.ents e).sandbox id)
  | .imageStop _ id, .ok | .imageStop _ id, .failed => some (w, .imageDisk id)
  | .imageDisk id, .size n =>
    (w.copyOf id minImageBytes n).map fun c ↦
      ({ w with s3Image := update w.s3Image s (some c), s3Dump := update w.s3Dump s none }, .ensureRow id)
  | .imageDisk _, .failed => some (w, .failed)
  | .ensureRow id, .go =>
    some (if (w.store.record s).isNone then { w with store := w.store.put s id w.unix } else w,
      .setTier .archived (.killById id))
  | .compactDisk id, .size n =>
    (w.copyOf id minImageBytes n).map fun c ↦
      ({ w with images := update w.images s (some c) }, .setTier .compacted (.kill id))
  | .compactDisk _, .failed => some (w, .failed)
  | .checkFrozen, .go =>
    some (w, if w.store.tierOf s = some .frozen then .statDump else .failed)
  | .statDump, .go =>
    match w.dumps s with
    | some c => some (w, if c.bytes < minDumpBytes then .failed else .uploadDump c.bytes)
    | none => some (w, .failed)
  | .uploadDump len, .ok =>
    (w.dumps s).map fun c ↦ ({ w with s3Dump := update w.s3Dump s (some c) }, .verifyDump len)
  | .verifyDump len, .ok =>
    some (w, if (w.s3Dump s).map (·.bytes) = some len then .setTier .archived .removeDump else .failed)
  | .statImage, .go =>
    match w.images s with
    | some c => some (w, if c.bytes < minImageBytes then .failed else .uploadImage c.bytes)
    | none => some (w, .failed)
  | .uploadImage len, .ok =>
    (w.images s).map fun c ↦ ({ w with s3Image := update w.s3Image s (some c) }, .verifyImage len)
  | .verifyImage len, .ok =>
    some (w, if (w.s3Image s).map (·.bytes) = some len then .deleteDump else .failed)
  | .deleteDump, .ok =>
    some ({ w with s3Dump := update w.s3Dump s none }, .setTier .archived .removeImage)
  | .uploadDump _, .failed | .verifyDump _, .failed | .statImage, .failed | .uploadImage _, .failed
  | .verifyImage _, .failed | .deleteDump, .failed => some (w, .failed)
  | .setTier tier fin, .go =>
    match w.store.setTier s tier with
    | some store =>
      some ({ w with store }, .writeTier tier store.seq (serialize store.map) fin)
    | none => some (w, .finish tier none fin)
  | .writeTier tier g contents fin, .ok =>
    some ({ w with store := w.store.writeLatest g contents true }, .finish tier (some g) fin)
  | .writeTier tier g contents fin, .failed =>
    some ({ w with store := w.store.writeLatest g contents false }, .finish tier (some g) fin)
  | .finish _ _ (.kill id), .ok => some (w.kill id, .done)
  | .finish _ _ (.killById id), .ok => some ((w.kill id).removeId id, .done)
  | .finish _ _ .removeDump, .ok => some ({ w with dumps := update w.dumps s none }, .done)
  | .finish _ _ .removeImage, .ok => some ({ w with images := update w.images s none }, .done)
  | .finish _ _ _, .failed => some (w, .done)
  | _, _ => none

/-- One step of an offload; the `ArchivingGuard` is dropped on every way out. -/
def offStep (cfg : Config) (s : Schema) (kind : OffloadKind) (w : World) (pc : OffPc) (a : Answer) :
    Option (World × OffPc) :=
  (offCore cfg s kind w pc a).map fun x ↦
    (if pc.holds && !x.2.holds then { x.1 with archiving := update x.1.archiving s false } else x.1,
      x.2)

end PgVmPool
