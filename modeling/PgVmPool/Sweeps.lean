import PgVmPool.Offload

namespace PgVmPool

open Function

def idleMaxStopsPerPass : ℕ := 24

/-- The lock acquisition and the awaits of `reap_idle`. `victims` are the entries taken out of
the map and not yet stopped; the first one is being checkpointed or stopped. -/
inductive IdlePc
  | lockEntries
  | checkpoint (victims : List ℕ)
  | stop (e : ℕ) (victims : List ℕ)
  | done

def IdlePc.victims : IdlePc → List ℕ
  | .checkpoint es => es
  | .stop e es => e :: es
  | .lockEntries | .done => []

def SchemaEntry.idleFor (e : SchemaEntry) (now : ℕ) : ℕ := now - e.lastActive

/-- The warm and expired entries of the map, in its iteration order. -/
def World.expired (cfg : Config) (w : World) (keys : List Schema) : List (Schema × ℕ) :=
  keys.filterMap fun s ↦
    match (w.entries.lookup s).map w.cells with
    | some (.full e) =>
      if (w.ents e).isIdle (cfg.jitter s cfg.idleTimeout) w.now then some (s, e) else none
    | _ => none

def World.idleVictims (cfg : Config) (w : World) (keys : List Schema) : List (Schema × ℕ) :=
  ((w.expired cfg keys).insertionSort fun a b ↦
    (w.ents b.2).idleFor w.now ≤ (w.ents a.2).idleFor w.now).take idleMaxStopsPerPass

def World.evictAll (w : World) (schemas : List Schema) : World :=
  { w with entries := schemas.foldl (fun m s ↦ m.erase s) w.entries }

def idleStep (cfg : Config) (w : World) : IdlePc → Answer → Option (World × IdlePc)
  | .lockEntries, .order keys =>
    if keys.Perm w.entries.keys then
      let victims := w.idleVictims cfg keys
      some (w.evictAll (victims.map (·.1)), .checkpoint (victims.map (·.2)))
    else none
  | .checkpoint [], .go => some (w, .done)
  | .checkpoint (e :: es), .ok | .checkpoint (e :: es), .failed => some (w, .stop e es)
  | .stop _ es, .ok | .stop _ es, .failed => some (w, .checkpoint es)
  | _, _ => none

structure UntrackedView where
  suspects : List SandboxId
  live : List (SandboxId × Schema)
  claimed : SandboxId → Bool

/-- A running VM under scrutiny, the schema it is judged by, and the rest of the walk. -/
structure Scrutiny where
  view : UntrackedView
  id : SandboxId
  schema : Schema
  superseded : Bool
  rest : List Info
  seen : List SandboxId

/-- The lock acquisitions and awaits of `reap_untracked`, pass after pass. -/
inductive UntrackedPc
  | list (suspects : List SandboxId)
  | liveRows (suspects : List SandboxId) (infos : List Info)
  | claimedIds (suspects : List SandboxId) (infos : List Info) (live : List (SandboxId × Schema))
  | scan (view : UntrackedView) (infos : List Info) (seen : List SandboxId)
  | checkEntries (x : Scrutiny)
  | checkArchiving (x : Scrutiny)
  | checkPending (x : Scrutiny)
  | stop (x : Scrutiny)
  | done (suspects : List SandboxId)

def UntrackedPc.suspect : UntrackedPc → Option Scrutiny
  | .checkArchiving x | .checkPending x | .stop x => some x
  | _ => none

/-- `live_by_id`: of two rows with one id the later one is kept. -/
def Store.liveById (st : Store) (keys : List Schema) : List (SandboxId × Schema) :=
  (keys.filterMap fun s ↦
    (st.record s).bind fun r ↦ if r.tier = .live then some (r.sandboxId, s) else none).reverse

/-- The schema a running VM is judged by, and whether it is a superseded duplicate. -/
def judge (w : World) (view : UntrackedView) (i : Info) : Option (Schema × Bool) :=
  if !i.running || isSpareName i.name || view.claimed i.id then none
  else match view.live.lookup i.id with
    | some s => some (s, false)
    | none =>
      (schemaOfName i.name).bind fun s ↦
        (w.store.record s).bind fun r ↦ if r.sandboxId ≠ i.id then some (s, true) else none

def untrackedStep (w : World) : UntrackedPc → Answer → Option (World × UntrackedPc)
  | .list suspects, .failed => some (w, .done suspects)
  | .list suspects, .listing infos => some (w, .liveRows suspects infos)
  | .liveRows suspects infos, .order keys =>
    if keys.Perm w.store.map.keys then
      some (w, .claimedIds suspects infos (w.store.liveById keys))
    else none
  | .claimedIds suspects infos live, .go => some (w, .scan ⟨suspects, live, w.claimed⟩ infos [])
  | .scan _ [] seen, .go => some (w, .done seen)
  | .scan view (i :: rest) seen, .go =>
    match judge w view i with
    | some (s, superseded) => some (w, .checkEntries ⟨view, i.id, s, superseded, rest, seen⟩)
    | none => some (w, .scan view rest seen)
  | .checkEntries x, .go =>
    some (w, if x.schema ∈ w.entries ∧ x.superseded = false then .scan x.view x.rest x.seen
      else .checkArchiving x)
  | .checkArchiving x, .go =>
    some (w, if w.archiving x.schema then .scan x.view x.rest x.seen else .checkPending x)
  | .checkPending x, .go =>
    if (w.pending x.schema).map (·.1) = some x.id then some (w, .scan x.view x.rest x.seen)
    else if x.id ∈ x.view.suspects then some (w, .stop x)
    else some (w, .scan x.view x.rest (x.id :: x.seen))
  | .stop x, .ok | .stop x, .failed => some (w, .scan x.view x.rest (x.id :: x.seen))
  | .done suspects, .go => some (w, .list suspects)
  | _, _ => none

structure PurgeView where
  infos : List Info
  bound : List SandboxId
  claimed : SandboxId → Bool

/-- The lock acquisitions and awaits of `purge_pass`. -/
inductive PurgePc
  | list
  | boundIds (infos : List Info)
  | claimedIds (infos : List Info) (bound : List SandboxId)
  | records (view : PurgeView)
  | visit (view : PurgeView) (recs : List StoreRecord)
  | probe (view : PurgeView) (id : SandboxId) (recs : List StoreRecord)
  | killOffloaded (view : PurgeView) (id : SandboxId) (recs : List StoreRecord)
  | spares (view : PurgeView) (infos : List Info)
  | recheckBound (view : PurgeView) (id : SandboxId) (infos : List Info)
  | recheckClaimed (view : PurgeView) (id : SandboxId) (infos : List Info)
  | killSpare (view : PurgeView) (id : SandboxId) (infos : List Info)
  | done

def PurgePc.victim : PurgePc → Option SandboxId
  | .killOffloaded _ id _ | .killSpare _ id _ => some id
  | _ => none

/-- The ids a pass may still kill without another look at the registry or the claims. -/
def PurgePc.marked : PurgePc → List SandboxId
  | .visit _ recs => (recs.filter (·.offloaded)).map (·.sandboxId)
  | .probe _ id recs | .killOffloaded _ id recs => id :: (recs.filter (·.offloaded)).map (·.sandboxId)
  | .killSpare _ id _ => [id]
  | _ => []

/-- The ids a pass may still kill without another look at the registry. -/
def PurgePc.unbound : PurgePc → List SandboxId
  | .recheckClaimed _ id _ => [id]
  | pc => pc.marked

def purgeStep (w : World) : PurgePc → Answer → Option (World × PurgePc)
  | .list, .failed => some (w, .done)
  | .list, .listing infos => some (w.absorb infos, .boundIds infos)
  | .boundIds infos, .go => some (w, .claimedIds infos w.store.boundIds)
  | .claimedIds infos bound, .go => some (w, .records ⟨infos, bound, w.claimed⟩)
  | .records view, .order keys =>
    if keys.Perm w.store.map.keys then some (w, .visit view (keys.filterMap w.store.record)) else none
  | .visit view [], .go => some (w, .spares view view.infos)
  | .visit view (r :: recs), .go =>
    some (w,
      if r.tier = .live then .visit view recs
      else if r.sandboxId ∈ view.infos.map (·.id) then .killOffloaded view r.sandboxId recs
      else .probe view r.sandboxId recs)
  | .probe view id recs, .ok => some (w, .killOffloaded view id recs)
  | .probe view _ recs, .notFound | .probe view _ recs, .failed => some (w, .visit view recs)
  | .killOffloaded view id recs, .ok => some ((w.kill id).removeId id, .visit view recs)
  | .killOffloaded view _ recs, .failed => some (w, .visit view recs)
  | .spares _ [], .go => some (w, .done)
  | .spares view (i :: infos), .go =>
    some (w,
      if !isSpareName i.name ∨ i.id ∈ view.bound ∨ view.claimed i.id then .spares view infos
      else .recheckBound view i.id infos)
  | .recheckBound view id infos, .go =>
    some (w, if id ∈ w.store.boundIds then .spares view infos else .recheckClaimed view id infos)
  | .recheckClaimed view id infos, .go =>
    some (w, if w.claimed id then .spares view infos else .killSpare view id infos)
  | .killSpare view id infos, .ok => some ((w.kill id).removeId id, .spares view infos)
  | .killSpare view _ infos, .failed => some (w, .spares view infos)
  | _, _ => none

end PgVmPool
