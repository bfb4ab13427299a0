import PgVmPool.BringUp

namespace PgVmPool

open Function

/-- The lock acquisitions and awaits of `SchemaRegistry::checkout`. A `cell` is the `OnceCell`
the lookup returned, an `e` the entry it holds; `g` is the generation `put` stamped, if any. -/
inductive CkPc
  | touch
  | testArchiving
  | lockEntries
  | admitWarm (cell e : ℕ)
  | probing (cell e : ℕ)
  | evicting (cell : ℕ)
  | checkBreaker (cell : ℕ)
  | readRecord (cell : ℕ)
  | pickRestore (cell : ℕ) (known : Option SandboxId)
  | boundIds (cell : ℕ) (known : Option SandboxId) (restore : Option Source)
  | awaitCell (cell : ℕ) (b : BringUp)
  | bringUp (cell : ℕ) (b : BringUp) (pc : EnsurePc)
  | recordBinding (e : ℕ) (restore : Option Source)
  | clearPending (e : ℕ) (restore : Option Source) (g : Option ℕ)
  | removeThawed (e : ℕ) (restore : Option Source) (g : Option ℕ)
  | clearBreaker (e : ℕ)
  | admitCold (e : ℕ)
  | serving (e : ℕ)
  | leak (known : Option SandboxId)
  | leakByName
  | leakStop (ids : List SandboxId)
  | recordFailure
  | done
  | failed

namespace CkPc

/-- The entry on which the checkout holds a `ConnGuard`. -/
def guard : CkPc → Option ℕ
  | .probing _ e | .serving e => some e
  | _ => none

/-- Past the `archiving` test, and neither returned, nor failed, nor counted in `active`. -/
def inFlight : CkPc → Bool
  | .lockEntries | .admitWarm _ _ | .checkBreaker _ | .readRecord _ | .pickRestore _ _
  | .boundIds _ _ _ | .awaitCell _ _ | .bringUp _ _ _ | .recordBinding _ _ | .clearPending _ _ _
  | .removeThawed _ _ _ | .clearBreaker _ | .admitCold _ => true
  | _ => false

def entry : CkPc → Option ℕ
  | .admitWarm _ e | .probing _ e | .recordBinding e _ | .clearPending e _ _ | .removeThawed e _ _
  | .clearBreaker e | .admitCold e | .serving e => some e
  | _ => none

/-- In `stop_after_failed_bringup`, with a stop still to come. -/
def cleaning : CkPc → Bool
  | .leak _ | .leakByName | .leakStop (_ :: _) => true
  | _ => false

end CkPc

def CkPc.vm (w : World) : CkPc → Option SandboxId
  | .bringUp _ _ pc => pc.vm
  | pc => pc.entry.map fun e ↦ (w.ents e).sandbox

def World.openEntry (w : World) (cell : ℕ) (id : SandboxId) (keepalive : Bool) (slots : ℕ) : World :=
  { w with
    ents := update w.ents w.nextEntry (.new id keepalive slots w.now)
    nextEntry := w.nextEntry + 1
    cells := update w.cells cell (.full w.nextEntry) }

def World.openCell (w : World) (schema : Schema) : World :=
  { w with
    entries := w.entries.insert schema w.nextCell
    cells := update w.cells w.nextCell .empty
    nextCell := w.nextCell + 1 }

def World.dropThawed (w : World) (schema : Schema) : Option Source → World
  | some .localDump => { w with dumps := update w.dumps schema none }
  | some .localImage => { w with images := update w.images schema none }
  | _ => w

def World.clientWrite (w : World) (schema : Schema) (id : SandboxId) (n : ℕ) : World :=
  { w with
    acked := update w.acked schema (n :: w.acked schema)
    disks := update w.disks id ((w.disks id).map fun c ↦ { c with writes := n :: c.writes }) }

def restoreSource (cfg : Config) : Tier → Option (Option Source)
  | .live => some none
  | .frozen => if cfg.dumpServer && cfg.freeze then some (some .localDump) else none
  | .compacted => if cfg.compact then some (some .localImage) else none
  | .archived => if cfg.archive then some (some .s3) else none

def leakIds (w : World) (schema : Schema) (known : Option SandboxId) : List SandboxId :=
  let ledger := (w.pending schema).toList.map (·.1)
  ledger ++ known.toList.filter (· ∉ ledger)

def ckStep (cfg : Config) (t : ℕ) (s : Schema) (w : World) :
    CkPc → Answer → Option (World × CkPc)
  | .touch, .go => some ({ w with store := w.store.touch s w.unix }, .testArchiving)
  | .testArchiving, .go => some (w, if w.archiving s then .testArchiving else .lockEntries)
  | .lockEntries, .go =>
    match w.entries.lookup s with
    | none => some (w.openCell s, .checkBreaker w.nextCell)
    | some cell =>
      match w.cells cell with
      | .full e => some (w.modEntry e (·.touch w.now), .admitWarm cell e)
      | _ => some (w, .checkBreaker cell)
  | .admitWarm cell e, .go =>
    if 0 < (w.ents e).free then some (w.modEntry e (·.acquire t w.now), .probing cell e) else none
  | .admitWarm _ _, .failed => some (w, .failed)
  | .probing _ e, .ok => some (w, .serving e)
  | .probing cell e, .failed => some (w.modEntry e (·.release t w.now), .evicting cell)
  | .evicting cell, .go =>
    some (if w.entries.lookup s = some cell then { w with entries := w.entries.erase s } else w,
      .testArchiving)
  | .checkBreaker cell, .go => some (w, if w.holding s then .failed else .readRecord cell)
  | .readRecord cell, .go =>
    let known := (w.store.record s).map (·.sandboxId)
    match restoreSource cfg ((w.store.tierOf s).getD .live) with
    | none => some (w, .failed)
    | some (some .s3) => some (w, .pickRestore cell known)
    | some restore => some (w, .boundIds cell known restore)
  | .pickRestore cell known, .heads dump image =>
    match pickRestore w s dump image with
    | .dump => some (w, .boundIds cell known (some .s3))
    | .image => some (w, .boundIds cell known (some .s3Image))
  | .boundIds cell known restore, .go =>
    some (w, .awaitCell cell ⟨s, known, restore, if cfg.spares then some w.store.boundIds else none⟩)
  | .awaitCell cell b, .go =>
    match w.cells cell with
    | .full e => some (w, .recordBinding e b.restore)
    | .empty => some ({ w with cells := update w.cells cell (.busy t) }, .bringUp cell b .admission)
    | .busy _ => none
  | .bringUp cell b (.ok id slots), .go =>
    some (w.openEntry cell id (cfg.keepalive s) slots, .recordBinding w.nextEntry b.restore)
  | .bringUp cell b .err, .go =>
    some ({ w with cells := update w.cells cell .empty }, .leak b.known)
  | .bringUp cell b pc, a => (ensureStep b w pc a).map fun r ↦ (r.1, .bringUp cell b r.2)
  | .recordBinding e restore, .go =>
    let store := w.store.put s (w.ents e).sandbox w.unix
    some ({ w with store },
      .clearPending e restore (if store.seq = w.store.seq then none else some store.seq))
  | .clearPending e restore g, .go => some (w.clearPending s, .removeThawed e restore g)
  | .removeThawed e restore _, .go => some (w.dropThawed s restore, .clearBreaker e)
  | .removeThawed e _ _, .failed => some (w, .clearBreaker e)
  | .clearBreaker e, .go => some (w.clearBreaker s, .admitCold e)
  | .admitCold e, .go =>
    if 0 < (w.ents e).free then some (w.modEntry e (·.acquire t w.now), .serving e) else none
  | .admitCold _, .failed => some (w, .failed)
  | .serving e, .wrote n => some (w.clientWrite s (w.ents e).sandbox n, .serving e)
  | .serving e, .go => some (w.modEntry e (·.release t w.now), .done)
  | .leak known, .go =>
    match leakIds w s known with
    | [] => some (w, .leakByName)
    | ids => some (w, .leakStop ids)
  | .leakByName, .failed => some (w, .recordFailure)
  | .leakByName, .listing infos =>
    some (w.absorb infos,
      .leakStop ((infos.find? (·.name = vmName s)).toList.map (·.id)))
  | .leakStop (_ :: ids), .ok | .leakStop (_ :: ids), .failed => some (w, .leakStop ids)
  | .leakStop [], .go => some (w, .recordFailure)
  | .recordFailure, .go => some (w.recordFailure s, .failed)
  | _, _ => none

end PgVmPool
