import PgVmPool.GuardBudget
import PgVmPool.InUse
import PgVmPool.Rows

namespace PgVmPool

open Function Transition

/-- What `SchemaRegistry::snapshot` copies of a warm entry. -/
structure EntrySnapshot where
  schema : Schema
  sandboxId : SandboxId
  active : ℕ
  keepalive : Bool
  deriving DecidableEq

/-- A daemon record joined with the pooler's state. -/
structure VmRow where
  id : SandboxId
  name : String
  schema : Option Schema
  poolManaged : Bool
  running : Bool
  liveSessions : Option ℕ
  keepalive : Bool
  deriving DecidableEq

/-- `SchemaRegistry::snapshot`, in the map's iteration order. -/
def World.snapshot (w : World) (keys : List Schema) : List EntrySnapshot :=
  keys.filterMap fun s ↦ (w.shown s).map fun e ↦
    ⟨s, (w.ents e).sandbox, (w.ents e).active, (w.ents e).keepalive⟩

/-- The first half of `pooler_maps`: of two entries with one VM the later one is kept. -/
def snapById (snap : List EntrySnapshot) : List (SandboxId × EntrySnapshot) :=
  (snap.map fun e ↦ (e.sandboxId, e)).reverse

/-- The second half: of two rows with one VM the later one is kept. -/
def storeById (records : List (Schema × StoreRecord)) : List (SandboxId × Schema) :=
  (records.map fun r ↦ (r.2.sandboxId, r.1)).reverse

def Store.recordsIn (st : Store) (keys : List Schema) : List (Schema × StoreRecord) :=
  keys.filterMap fun s ↦ (st.record s).map fun r ↦ (s, r)

/-- `RawSandbox::offloaded`: the VM behind an offloaded row is gone. -/
def Info.offloaded (schema : Schema) (id : SandboxId) : Info := ⟨id, vmName schema, false⟩

def appendOffloaded (list : List Info) (records : List (Schema × StoreRecord)) : List Info :=
  list ++ (records.filter fun r ↦ r.2.offloaded && r.2.sandboxId ∉ list.map (·.id)).map fun r ↦
    .offloaded r.1 r.2.sandboxId

/-- The schema of a VM: by its warm entry, else by its row, else by its name. -/
def joinSchema (snap : List (SandboxId × EntrySnapshot)) (store : List (SandboxId × Schema))
    (s : Info) : Option Schema :=
  ((snap.lookup s.id).map (·.schema)).or ((store.lookup s.id).or (schemaOfName s.name))

def joinRow (snap : List (SandboxId × EntrySnapshot)) (store : List (SandboxId × Schema))
    (s : Info) : VmRow :=
  let entry := snap.lookup s.id
  let schema := joinSchema snap store s
  { id := s.id
    name := s.name
    schema
    poolManaged := schema.isSome || "pg-".toList.isPrefixOf s.name.toList
    running := s.running
    liveSessions := entry.map (·.active)
    keepalive := (entry.map (·.keepalive)).getD false }

/-- Pooler-managed VMs come first, then the names decide. -/
def VmRow.le (a b : VmRow) : Prop :=
  b.poolManaged < a.poolManaged ∨ a.poolManaged = b.poolManaged ∧ a.name ≤ b.name

instance : DecidableRel VmRow.le := fun _ _ ↦
  inferInstanceAs (Decidable (_ ∨ _))

def buildRows (list : List Info) (snap : List EntrySnapshot) (records : List (Schema × StoreRecord)) :
    List VmRow :=
  ((appendOffloaded list records).map
    (joinRow (snapById snap) (storeById records))).insertionSort VmRow.le

def inventoryFresh : ℕ := 5

inductive Serve
  | fresh | staleRefresh | coldFetch
  deriving DecidableEq

def servePlan : Option ℕ → Serve
  | none => .coldFetch
  | some age => if age < inventoryFresh then .fresh else .staleRefresh

structure InvSnapshot where
  taken : ℕ
  list : List Info

/-- The background refresh; its `RefreshGuard` keeps `refreshing` set until the task ends. -/
inductive Refresh
  | idle | fetching | fetched
  deriving DecidableEq

structure InventoryCache where
  snapshot : Option InvSnapshot
  refresh : Refresh

/-- The awaits of `build_rows`, those of `cached_inventory` first. -/
inductive RowsPc
  | inventory
  | coldFetch
  | snapshot (list : List Info)
  | records (list : List Info) (snap : List EntrySnapshot)
  | rows (rows : List VmRow)
  | failed

def cachedInventory (w : World) (c : InventoryCache) : InventoryCache × RowsPc :=
  match c.snapshot with
  | none => (c, .coldFetch)
  | some s =>
    match servePlan (some (w.now - s.taken)) with
    | .staleRefresh =>
      ({ c with refresh := if c.refresh = .idle then .fetching else c.refresh }, .snapshot s.list)
    | .fresh | .coldFetch => (c, .snapshot s.list)

def rowsStep (w : World) (c : InventoryCache) : RowsPc → Answer → Option (InventoryCache × RowsPc)
  | .inventory, .go => some (cachedInventory w c)
  | .coldFetch, .listing list => some ({ c with snapshot := some ⟨w.now, list⟩ }, .snapshot list)
  | .coldFetch, .failed => some (c, .failed)
  | .snapshot list, .order keys =>
    if keys.Perm w.entries.keys then some (c, .records list (w.snapshot keys)) else none
  | .records list snap, .order keys =>
    if keys.Perm w.store.map.keys then some (c, .rows (buildRows list snap (w.store.recordsIn keys)))
    else none
  | _, _ => none

def refreshStep (w : World) (c : InventoryCache) : Answer → Option InventoryCache
  | .listing list =>
    if c.refresh = .fetching then some ⟨some ⟨w.now, list⟩, .fetched⟩ else none
  | .failed => if c.refresh = .fetching then some { c with refresh := .fetched } else none
  | .go => if c.refresh = .fetched then some { c with refresh := .idle } else none
  | _ => none

/-- An unclaimed spare is the warm pool; a claimed one is an ordinary schema VM. -/
def VmRow.stoppable (r : VmRow) : Bool := r.poolManaged || (isSpareName r.name && r.schema.isSome)

/-- The rows `action_stop_idle` passes over. -/
def VmRow.skipped (r : VmRow) : Bool :=
  !r.running || r.keepalive || 0 < r.liveSessions.getD 0 || !r.stoppable

/-- The background task of `action_stop_idle`. -/
inductive BulkPc
  | rows (pc : RowsPc)
  | visit (rows : List VmRow)
  | stop (r : VmRow) (rows : List VmRow)
  | done

def bulkStep (w : World) (c : InventoryCache) : BulkPc → Answer → Option (InventoryCache × BulkPc)
  | .rows (.rows rows), .go => some (c, .visit rows)
  | .rows .failed, .go => some (c, .done)
  | .rows pc, a => (rowsStep w c pc a).map fun x ↦ (x.1, .rows x.2)
  | .visit [], .go => some (c, .done)
  | .visit (r :: rows), .go => some (c, if r.skipped then .visit rows else .stop r rows)
  | .stop _ rows, .ok | .stop _ rows, .failed => some (c, .visit rows)
  | _, _ => none

/-- `action_reap`, up to the redirect; `started t` names the task that it spawned. -/
inductive ReapPc
  | enabled
  | rows (pc : RowsPc)
  | started (t : ℕ)
  | refused (err : String)
  | failed

def reapUnconfigured : String :=
  "S3 eviction tier is not configured (set PG_VM_POOL_ARCHIVE_AFTER_SECS + PG_VM_POOL_S3_*)"

def reapUnmanaged : String := "not a pooler-managed schema VM — nothing to archive"

def findRow (rows : List VmRow) (id : SandboxId) : Option VmRow := rows.find? (·.id = id)

inductive Act
  | stopIdle (pc : BulkPc)
  | reap (id : SandboxId) (pc : ReapPc)

def Act.initial : Act → Bool
  | .stopIdle (.rows .inventory) | .reap _ .enabled => true
  | _ => false

structure Dash where
  sys : State
  cache : InventoryCache
  acts : List Act

/-- `action_reap` hands the schema, and not the id, to `archive_schema`. -/
def reapStep (cfg : Config) (sys : State) (c : InventoryCache) (id : SandboxId) :
    ReapPc → Answer → Option (State × InventoryCache × ReapPc)
  | .enabled, .go => some (sys, c, if cfg.archive then .rows .inventory else .refused reapUnconfigured)
  | .rows (.rows rows), .go =>
    match (findRow rows id).bind (·.schema) with
    | none => some (sys, c, .refused reapUnmanaged)
    | some s =>
      some ({ sys with tasks := sys.tasks ++ [.offload s .archive .begin] }, c,
        .started sys.tasks.length)
  | .rows .failed, .go => some (sys, c, .failed)
  | .rows pc, a => (rowsStep sys.world c pc a).map fun x ↦ (sys, x.1, .rows x.2)
  | _, _ => none

inductive DashLabel
  | sys (l : Label)
  | post (x : Act)
  | act (k : ℕ) (a : Answer)
  | refresh (a : Answer)

def actStep (cfg : Config) (sys : State) (c : InventoryCache) (a : Answer) :
    Act → Option (State × InventoryCache × Act)
  | .stopIdle pc => (bulkStep sys.world c pc a).map fun x ↦ (sys, x.1, .stopIdle x.2)
  | .reap id pc => (reapStep cfg sys c id pc a).map fun x ↦ (x.1, x.2.1, .reap id x.2.2)

/-- The pooler with its dashboard: the pooler moves, a button is pressed, a handler resumes, the
background refresh goes on. -/
def dashStep (cfg : Config) : DashLabel → Dash → Option Dash
  | .sys l, d => (step cfg l d.sys).map fun sys ↦ { d with sys }
  | .post x, d => if x.initial then some { d with acts := d.acts ++ [x] } else none
  | .act k a, d =>
    d.acts[k]?.bind fun x ↦
      (actStep cfg d.sys d.cache a x).map fun r ↦ ⟨r.1, r.2.1, d.acts.set k r.2.2⟩
  | .refresh a, d => (refreshStep d.sys.world d.cache a).map fun cache ↦ { d with cache }

def Dash.boot (w : World) : Dash := ⟨State.boot w, ⟨none, .idle⟩, []⟩

abbrev DashReaches (cfg : Config) (ok : Dash → DashLabel → Prop) (w : World) (d : Dash) : Prop :=
  Run (dashStep cfg) ok (Dash.boot w) d

def onSys (ls : List Label) : List DashLabel := ls.map .sys

/-- Handler `k` runs on through the given answers. -/
def onAct (k : ℕ) (answers : List Answer) : List DashLabel := answers.map (.act k)

/-- The steps of the pooler with its dashboard, by what moves. -/
inductive DashStep (cfg : Config) (d : Dash) : DashLabel → Dash → Prop
  | sys {l : Label} {sys : State} (h : step cfg l d.sys = some sys) :
    DashStep cfg d (.sys l) { d with sys }
  | post {x : Act} (h : x.initial = true) : DashStep cfg d (.post x) { d with acts := d.acts ++ [x] }
  | stopIdle {k : ℕ} {a : Answer} {pc pc' : BulkPc} {c : InventoryCache}
    (hk : d.acts[k]? = some (.stopIdle pc)) (h : bulkStep d.sys.world d.cache pc a = some (c, pc')) :
    DashStep cfg d (.act k a) ⟨d.sys, c, d.acts.set k (.stopIdle pc')⟩
  | reap {k : ℕ} {a : Answer} {id : SandboxId} {pc pc' : ReapPc} {sys : State} {c : InventoryCache}
    (hk : d.acts[k]? = some (.reap id pc))
    (h : reapStep cfg d.sys d.cache id pc a = some (sys, c, pc')) :
    DashStep cfg d (.act k a) ⟨sys, c, d.acts.set k (.reap id pc')⟩
  | refresh {a : Answer} {c : InventoryCache} (h : refreshStep d.sys.world d.cache a = some c) :
    DashStep cfg d (.refresh a) { d with cache := c }

section Steps

variable {cfg : Config} {l : DashLabel} {d d' : Dash} {w : World} {c c' : InventoryCache} {a : Answer}

theorem dashStep_sound (h : dashStep cfg l d = some d') : DashStep cfg d l d' := by
  cases l with
  | sys l =>
    obtain ⟨sys, hs, rfl⟩ := Option.map_eq_some_iff.mp h
    exact .sys hs
  | post x =>
    simp only [dashStep, Option.ite_none_right_eq_some, Option.some.injEq] at h
    obtain ⟨hx, rfl⟩ := h
    exact .post hx
  | act k a =>
    obtain ⟨x, hx, h⟩ := Option.bind_eq_some_iff.mp h
    obtain ⟨⟨sys, c, x'⟩, hr, rfl⟩ := Option.map_eq_some_iff.mp h
    cases x <;> obtain ⟨_, hp, heq⟩ := Option.map_eq_some_iff.mp hr <;> cases heq
    · exact .stopIdle hx hp
    · exact .reap hx hp
  | refresh a =>
    obtain ⟨c, hc, rfl⟩ := Option.map_eq_some_iff.mp h
    exact .refresh hc

theorem rowsStep_rows {pc : RowsPc} {rows : List VmRow} (h : rowsStep w c pc a = some (c', .rows rows)) :
    ∃ list snap keys, pc = .records list snap ∧ a = .order keys ∧ keys.Perm w.store.map.keys ∧
      rows = buildRows list snap (w.store.recordsIn keys) := by
  revert h
  fun_cases rowsStep w c pc a <;> intro h <;> (try cases h)
  case case1 =>
    have hrows := congrArg Prod.snd (Option.some.inj h)
    simp only [cachedInventory] at hrows
    split at hrows
    · cases hrows
    · split at hrows <;> cases hrows
  case case6 hperm => exact ⟨_, _, _, rfl, rfl, hperm, rfl⟩

/-- A handler moves the pooler only where a reap starts its offload. -/
theorem reapStep_sys {id : SandboxId} {pc pc' : ReapPc} {sys sys' : State}
    (h : reapStep cfg sys c id pc a = some (sys', c', pc')) :
    (sys' = sys ∧ ∀ t, pc' ≠ .started t) ∨ ∃ s,
      sys' = { sys with tasks := sys.tasks ++ [.offload s .archive .begin] } ∧
        pc' = .started sys.tasks.length := by
  revert h
  fun_cases reapStep cfg sys c id pc a <;> intro h
  case case1 =>
    cases h
    refine .inl ⟨rfl, fun t ↦ ?_⟩
    split <;> exact nofun
  case case3 =>
    cases h
    exact .inr ⟨_, rfl, rfl⟩
  case case5 =>
    obtain ⟨_, -, heq⟩ := Option.map_eq_some_iff.mp h
    cases heq
    exact .inl ⟨rfl, nofun⟩
  all_goals cases h <;> exact .inl ⟨rfl, nofun⟩

theorem DashStep.sys_cases (hs : DashStep cfg d l d') : d'.sys = d.sys ∨
    ∃ k, (l = .sys k ∨ ∃ x, k = .spawn x) ∧ step cfg k d.sys = some d'.sys := by
  cases hs with
  | sys h => exact .inr ⟨_, .inl rfl, h⟩
  | post | stopIdle | refresh => exact .inl rfl
  | reap _ h =>
    rcases reapStep_sys h with ⟨rfl, -⟩ | ⟨s, rfl, -⟩
    · exact .inl rfl
    · exact .inr ⟨.spawn (.offload s .archive .begin), .inr ⟨_, rfl⟩, rfl⟩

/-- Whatever the dashboard does, the pooler under it makes an ordinary run. -/
theorem DashReaches.sys {ok : Dash → DashLabel → Prop} (h : DashReaches cfg ok w d) :
    Reaches cfg Always w d.sys := by
  refine h.project Dash.sys fun e l e' _ hs ↦ ?_
  exact (dashStep_sound hs).sys_cases.imp_right fun h ↦ h.imp fun _ hk ↦ ⟨trivial, hk.2⟩

theorem mem_buildRows {list : List Info} {snap : List EntrySnapshot}
    {records : List (Schema × StoreRecord)} {r : VmRow} (h : r ∈ buildRows list snap records)
    (hrun : r.running = true) :
    ∃ i ∈ list, i.running = true ∧ r = joinRow (snapById snap) (storeById records) i := by
  rw [buildRows, List.mem_insertionSort, List.mem_map] at h
  obtain ⟨i, hi, rfl⟩ := h
  rcases List.mem_append.mp hi with hi | hi
  · exact ⟨i, hi, hrun, rfl⟩
  · obtain ⟨x, -, rfl⟩ := List.mem_map.mp hi
    cases hrun

end Steps

end PgVmPool
