import PgVmPool.Dashboard
import PgVmPool.ListLinks

namespace PgVmPool.Pages

open Dedicated (isWhitespace trim)

inductive SandboxStatus
  | running | provisioning | stopped | paused | failed | coldStored | unknown
  deriving DecidableEq

def statusStr : SandboxStatus → String
  | .running => "running"
  | .provisioning => "provisioning"
  | .stopped => "stopped"
  | .paused => "paused"
  | .failed => "failed"
  | .coldStored => "cold-stored"
  | .unknown => "unknown"

structure RawSandbox where
  id : SandboxId
  name : String
  status : SandboxStatus
  guestIp : Option String
  image : Option String
  offload : Option String
  deriving DecidableEq

namespace RawSandbox

def offloaded (schema : Schema) (id : SandboxId) (label : String) : RawSandbox :=
  ⟨id, vmName schema, .stopped, none, none, some label⟩

def info (s : RawSandbox) : Info := ⟨s.id, s.name, s.status = .running⟩

end RawSandbox

def rowStateLabel (s : RawSandbox) : String := s.offload.getD (statusStr s.status)

def appendOffloaded (list : List RawSandbox) (records : List (Schema × StoreRecord)) : List RawSandbox :=
  list ++ (records.filter fun r ↦ r.2.offloaded && r.2.sandboxId ∉ list.map (·.id)).map fun r ↦
    .offloaded r.1 r.2.sandboxId r.2.tier.asStr

/-- A daemon's answer to `GET /sandboxes/inactive`. -/
structure InactivePage where
  sandboxes : List RawSandbox
  nextCursor : Option String

def maxInactivePages : ℕ := 25

/-- A sandbox that is listed already stays as it is. -/
def addNew (all : List RawSandbox) (s : RawSandbox) : List RawSandbox :=
  if s.id ∈ all.map (·.id) then all else all ++ [s]

/-- The loop of `fetch_inventory`; `ask` is the daemon, to the `n`th question with its cursor. -/
def inactivePages (ask : ℕ → Option String → Option InactivePage) (cursor : Option String)
    (all : List RawSandbox) (n : ℕ) : ℕ → List RawSandbox
  | 0 => all
  | fuel + 1 =>
    match ask n cursor with
    | none => all
    | some page =>
      let all := page.sandboxes.foldl addNew all
      match page.nextCursor with
      | some c => inactivePages ask (some c) all (n + 1) fuel
      | none => all

/-- What the daemon answers in that loop. -/
def answered (ask : ℕ → Option String → Option InactivePage) (cursor : Option String) (n : ℕ) :
    ℕ → List InactivePage
  | 0 => []
  | fuel + 1 =>
    match ask n cursor with
    | none => []
    | some page => page :: match page.nextCursor with
      | some c => answered ask (some c) (n + 1) fuel
      | none => []

/-- `none` where the deployed sandboxes could not be listed. -/
def fetchInventory (deployed : Option (List RawSandbox)) (ask : ℕ → Option String → Option InactivePage) :
    Option (List RawSandbox) :=
  deployed.map fun all ↦ inactivePages ask none all 0 maxInactivePages

def stateFilters : List String :=
  ["running", "provisioning", "stopped", "paused", "cold-stored", "failed", "unknown", "compacted", "frozen",
    "archived"]

/-- What a page is built from: the inventory, the warm entries and the rows, `str::to_lowercase`, and what
reads the query of a link. The daemon says of no sandbox that it is offloaded. -/
structure Fleet where
  toLowercase : Text → Text
  reader : FormQuery.Reader
  inventory : List RawSandbox
  snap : List EntrySnapshot
  records : List (Schema × StoreRecord)
  known : ∀ s ∈ inventory, s.offload = none

def matchesQuery (lower : Text → Text) (s : RawSandbox) (schema : Option Schema) (needle : Text) : Bool :=
  let hay (v : String) : Bool := needle <:+: lower v.toList
  hay s.id.text || hay s.name || schema.any (fun s ↦ hay s.text) || hay (rowStateLabel s) ||
    s.image.any hay || s.guestIp.any hay

def stateMatches (s : RawSandbox) (state : Text) : Bool := state = stateAll || (rowStateLabel s).toList = state

/-- The page that is shown for the one that was asked for, and how many there are. -/
def pageWindow (matched page per : ℕ) : ℕ × ℕ :=
  let pages := max (matched / per + if 0 < matched % per then 1 else 0) 1
  (max 1 (min page pages), pages)

/-- The count of the first entry with this label goes up. -/
def bump (label : String) : List (String × ℕ) → List (String × ℕ)
  | [] => []
  | (l, n) :: counts => if l = label then (l, n + 1) :: counts else (l, n) :: bump label counts

structure SandboxPage where
  rows : List VmRow
  total : ℕ
  matched : ℕ
  page : ℕ
  pages : ℕ
  per : ℕ
  q : Text
  state : Text
  stateCounts : List (String × ℕ)
  deriving DecidableEq

namespace Fleet

variable (fleet : Fleet)

def list : List RawSandbox := appendOffloaded fleet.inventory fleet.records

/-- The state filter as it is applied. -/
def applied (state : Text) : Text :=
  let s := fleet.toLowercase (trim state)
  if s = [] then defaultState else s

def schemaOf (s : RawSandbox) : Option Schema :=
  (((snapById fleet.snap).lookup s.id).map (·.schema)).or ((storeById fleet.records).lookup s.id)

def qHits (q : Text) : List RawSandbox :=
  let needle := fleet.toLowercase (trim q)
  fleet.list.filter fun s ↦ needle = [] || matchesQuery fleet.toLowercase s (fleet.schemaOf s) needle

def le (a b : RawSandbox) : Bool := a.name < b.name || a.name = b.name && a.id.text ≤ b.id.text

def hits (q state : Text) : List RawSandbox :=
  ((fleet.qHits q).filter (stateMatches · (fleet.applied state))).mergeSort le

def join (s : RawSandbox) : VmRow := joinRow (snapById fleet.snap) (storeById fleet.records) s.info

def buildPage (q state : Text) (page per : ℕ) : SandboxPage :=
  let hits := fleet.hits q state
  let window := pageWindow hits.length page per
  { rows := ((hits.drop ((window.1 - 1) * per)).take per).map fleet.join
    total := fleet.list.length
    matched := hits.length
    page := window.1
    pages := window.2
    per
    q := trim q
    state := fleet.applied state
    stateCounts := (fleet.qHits q).foldl (fun counts s ↦ bump (rowStateLabel s) counts)
      (stateFilters.map (·, 0)) }

def databases (p : ListParams) : SandboxPage :=
  fleet.buildPage p.q (p.state.getD defaultState) (p.page.getD 1) (max 1 (min (p.per.getD defaultPer) maxPer))

/-- The list that a link of it leads to. -/
def follow (href : Text) : Option SandboxPage :=
  if pathOf href = ['/'] then (listParams fleet.reader (queryOf href)).map fleet.databases else none

end Fleet

def SandboxPage.next (p : SandboxPage) : Option Text :=
  if p.page < p.pages then some (listHref p.q p.state (p.page + 1) p.per) else none

def SandboxPage.prev (p : SandboxPage) : Option Text :=
  if 1 < p.page then some (listHref p.q p.state (p.page - 1) p.per) else none

/-- The rows that are shown from a page on, along its link to the next one and so on; the `i`th request is
answered from `fleets i`. -/
def browse (fleets : ℕ → Fleet) (i : ℕ) : ℕ → SandboxPage → List VmRow
  | 0, p => p.rows
  | n + 1, p =>
    match p.next.bind (fleets i).follow with
    | none => p.rows
    | some next => p.rows ++ browse fleets (i + 1) n next

/-- The daemon lists the same sandboxes in another order. -/
structure Reordered (fleet other : Fleet) : Prop where
  toLowercase : other.toLowercase = fleet.toLowercase
  reader : other.reader = fleet.reader
  inventory : other.inventory.Perm fleet.inventory
  snap : other.snap = fleet.snap
  records : other.records = fleet.records

section Inventory

variable {ask : ℕ → Option String → Option InactivePage}

theorem inactivePages_eq (cursor : Option String) (all : List RawSandbox) (n fuel : ℕ) :
    inactivePages ask cursor all n fuel =
      ((answered ask cursor n fuel).flatMap (·.sandboxes)).foldl addNew all := by
  induction fuel generalizing cursor all n with
  | zero => rfl
  | succ fuel ih =>
    rw [inactivePages, answered]
    cases ask n cursor with
    | none => rfl
    | some page =>
      dsimp only
      rw [List.flatMap_cons, List.foldl_append]
      cases page.nextCursor with
      | none => rfl
      | some c => exact ih (some c) _ (n + 1)

theorem foldl_addNew (listed all : List RawSandbox) : ∃ extra, listed.foldl addNew all = all ++ extra ∧
    (∀ s ∈ extra, s ∈ listed) ∧ (extra.map (·.id)).Nodup ∧ (∀ s ∈ extra, s.id ∉ all.map (·.id)) ∧
    ∀ s ∈ listed, s.id ∈ (all ++ extra).map (·.id) := by
  induction listed generalizing all with
  | nil => exact ⟨[], by simp⟩
  | cons s listed ih =>
    rw [List.foldl_cons, addNew]
    split_ifs with hs
    · obtain ⟨extra, heq, hmem, hnodup, hnew, hall⟩ := ih all
      refine ⟨extra, heq, fun x hx ↦ List.mem_cons_of_mem s (hmem x hx), hnodup, hnew, ?_⟩
      rw [List.forall_mem_cons, List.map_append]
      exact ⟨List.mem_append_left _ hs, fun x hx ↦ List.map_append ▸ hall x hx⟩
    · obtain ⟨extra, heq, hmem, hnodup, hnew, hall⟩ := ih (all ++ [s])
      have hnot : s.id ∉ extra.map (·.id) := by
        intro hin
        obtain ⟨x, hx, hid⟩ := List.mem_map.mp hin
        apply hnew x hx
        rw [hid]
        simp
      refine ⟨s :: extra, ?_, ?_, ?_, ?_, ?_⟩
      · rw [heq, List.append_assoc, List.singleton_append]
      · rw [List.forall_mem_cons]
        exact ⟨List.mem_cons_self, fun x hx ↦ List.mem_cons_of_mem s (hmem x hx)⟩
      · exact List.nodup_cons.mpr ⟨hnot, hnodup⟩
      · rw [List.forall_mem_cons]
        refine ⟨hs, fun x hx hin ↦ hnew x hx ?_⟩
        rw [List.map_append]
        exact List.mem_append_left _ hin
      · rw [List.append_assoc, List.singleton_append] at hall
        rw [List.forall_mem_cons]
        exact ⟨by simp, hall⟩

/-- The inventory has the deployed sandboxes as they are, and of what the daemon lists besides each that is not
among them once. -/
theorem fetchInventory_eq (deployed : List RawSandbox) (ask : ℕ → Option String → Option InactivePage) :
    ∃ extra, fetchInventory (some deployed) ask = some (deployed ++ extra) ∧ (extra.map (·.id)).Nodup ∧
      (∀ s ∈ extra, s.id ∉ deployed.map (·.id)) ∧
      (∀ s ∈ extra, ∃ page ∈ answered ask none 0 maxInactivePages, s ∈ page.sandboxes) ∧
      ∀ page ∈ answered ask none 0 maxInactivePages, ∀ s ∈ page.sandboxes,
        s.id ∈ (deployed ++ extra).map (·.id) := by
  obtain ⟨extra, heq, hmem, hnodup, hnew, hall⟩ :=
    foldl_addNew ((answered ask none 0 maxInactivePages).flatMap (·.sandboxes)) deployed
  refine ⟨extra, ?_, hnodup, hnew, fun s hs ↦ List.mem_flatMap.mp (hmem s hs), ?_⟩
  · rw [fetchInventory, Option.map_some, inactivePages_eq, heq]
  · intro page hpage s hs
    exact hall s (List.mem_flatMap.mpr ⟨page, hpage, hs⟩)

end Inventory

section Windows

variable {matched page per : ℕ}

theorem pageWindow_bounds (matched page per : ℕ) :
    1 ≤ (pageWindow matched page per).1 ∧
      (pageWindow matched page per).1 ≤ (pageWindow matched page per).2 := by
  unfold pageWindow
  dsimp only
  omega

theorem pageWindow_of_mem (hpos : 1 ≤ page) (hle : page ≤ (pageWindow matched page per).2) :
    (pageWindow matched page per).1 = page := by
  unfold pageWindow at hle ⊢
  dsimp only at hle ⊢
  omega

/-- The last page is the last one that there are rows for. -/
theorem le_pages_mul (hper : 1 ≤ per) : matched ≤ (pageWindow matched page per).2 * per := by
  have hdiv := Nat.div_add_mod matched per
  have hmod := Nat.mod_lt matched hper
  unfold pageWindow
  dsimp only
  calc matched ≤ (matched / per + if 0 < matched % per then 1 else 0) * per := by
        rw [Nat.add_mul, Nat.mul_comm (matched / per)]
        split_ifs with h
        · omega
        · omega
    _ ≤ max (matched / per + if 0 < matched % per then 1 else 0) 1 * per :=
        Nat.mul_le_mul_right per (le_max_left _ _)

theorem pages_le (hper : 1 ≤ per) : (pageWindow matched page per).2 ≤ max matched 1 := by
  have hdiv := Nat.div_add_mod matched per
  have hle : matched / per ≤ per * (matched / per) := Nat.le_mul_of_pos_left _ hper
  unfold pageWindow
  dsimp only
  split_ifs with h
  · omega
  · omega

end Windows

section Trim

theorem trim_eq (s : Text) : trim s = (s.dropWhile isWhitespace).rdropWhile isWhitespace := rfl

theorem trim_trim (s : Text) : trim (trim s) = trim s := by
  have hprefix : trim s <+: s.dropWhile isWhitespace := List.rdropWhile_prefix isWhitespace _
  have hfront : (trim s).dropWhile isWhitespace = trim s := by
    cases h : trim s with
    | nil => rfl
    | cons c t =>
      have hhead := List.head?_dropWhile_not isWhitespace s
      rw [h] at hprefix
      obtain ⟨rest, hrest⟩ := hprefix
      rw [← hrest] at hhead
      rw [List.dropWhile_cons_of_neg (by simpa using hhead)]
  rw [trim_eq (trim s), hfront, trim_eq s, List.rdropWhile_idempotent]

end Trim

namespace Fleet

variable {fleet : Fleet} {q state : Text} {page per : ℕ}

/-- A filter that is applied already is applied as it is. -/
def Settled (fleet : Fleet) (state : Text) : Prop := fleet.applied (fleet.applied state) = fleet.applied state

theorem qHits_trim (fleet : Fleet) (q : Text) : fleet.qHits (trim q) = fleet.qHits q := by
  rw [qHits, qHits, trim_trim]

theorem hits_trim (fleet : Fleet) (q state : Text) : fleet.hits (trim q) state = fleet.hits q state := by
  rw [hits, hits, qHits_trim]

theorem hits_applied (h : fleet.Settled state) (q : Text) :
    fleet.hits q (fleet.applied state) = fleet.hits q state := by
  rw [hits, hits, h]

theorem buildPage_again (h : fleet.Settled state) (q : Text) (page per : ℕ) :
    fleet.buildPage (trim q) (fleet.applied state) page per = fleet.buildPage q state page per := by
  simp only [buildPage, hits_trim, hits_applied h, trim_trim, qHits_trim]
  rw [h]

theorem databases_stated (hpos : 1 ≤ per) (hper : per ≤ maxPer) :
    fleet.databases (stated q state page per) = fleet.buildPage q state page per := by
  have hget : ∀ {α : Type} (a d : α) [DecidableEq α], (if a = d then none else some a).getD d = a := by
    intro α a d _
    split_ifs with h
    · rw [Option.getD_none, h]
    · rw [Option.getD_some]
  have hclamp : max 1 (min per maxPer) = per := by omega
  simp only [databases, stated, hget, hclamp]

theorem follow_listHref (hpage : page < 2 ^ 64) (hpos : 1 ≤ per) (hper : per ≤ maxPer) :
    fleet.follow (listHref q state page per) = some (fleet.buildPage q state page per) := by
  have hlt : per < 2 ^ 64 := hper.trans_lt (by decide)
  rw [follow, if_pos pathOf_listHref, listParams_listHref hpage hlt, Option.map_some,
    databases_stated hpos hper]

/-- How many pages a list has. -/
def pagesOf (fleet : Fleet) (q state : Text) (per : ℕ) : ℕ := (pageWindow (fleet.hits q state).length 1 per).2

theorem length_hits_le (fleet : Fleet) (q state : Text) : (fleet.hits q state).length ≤ fleet.list.length := by
  rw [hits, List.length_mergeSort]
  exact (List.length_filter_le ..).trans (List.length_filter_le ..)

theorem buildPage_page (hpos : 1 ≤ page) (hle : page ≤ fleet.pagesOf q state per) :
    (fleet.buildPage q state page per).page = page := pageWindow_of_mem hpos hle

theorem rows_buildPage (hpos : 1 ≤ page) (hle : page ≤ fleet.pagesOf q state per) :
    (fleet.buildPage q state page per).rows =
      (((fleet.hits q state).drop ((page - 1) * per)).take per).map fleet.join := by
  have hwindow : (pageWindow (fleet.hits q state).length page per).1 = page := pageWindow_of_mem hpos hle
  rw [buildPage, hwindow]

/-- A page has the rows that the one behind it leaves of what comes from it on. -/
theorem rows_append (hpos : 1 ≤ page) (hle : page ≤ fleet.pagesOf q state per) :
    (fleet.buildPage q state page per).rows ++ ((fleet.hits q state).drop (page * per)).map fleet.join =
      ((fleet.hits q state).drop ((page - 1) * per)).map fleet.join := by
  have hstep : (page - 1) * per + per = page * per := by
    rw [← Nat.succ_mul, Nat.succ_eq_add_one, Nat.sub_add_cancel hpos]
  rw [rows_buildPage hpos hle, ← List.map_append, ← hstep, ← List.drop_drop, List.take_append_drop]

theorem rows_last (hper : 1 ≤ per) (hpos : 1 ≤ page) (hlast : page = fleet.pagesOf q state per) :
    (fleet.buildPage q state page per).rows =
      ((fleet.hits q state).drop ((page - 1) * per)).map fleet.join := by
  have hnone : (fleet.hits q state).drop (page * per) = [] := by
    rw [hlast]
    exact List.drop_eq_nil_of_le (le_pages_mul hper)
  have hrows := rows_append hpos hlast.le
  rw [hnone, List.map_nil, List.append_nil] at hrows
  exact hrows

theorem follow_next (hs : fleet.Settled state) (hlen : fleet.list.length < 2 ^ 63) (hper : 1 ≤ per)
    (hmax : per ≤ maxPer) (hpos : 1 ≤ page) (hle : page ≤ fleet.pagesOf q state per) :
    (fleet.buildPage q state page per).next.bind fleet.follow =
      if page < fleet.pagesOf q state per then some (fleet.buildPage q state (page + 1) per) else none := by
  have hpages : fleet.pagesOf q state per ≤ max (fleet.hits q state).length 1 := pages_le hper
  have hhits := fleet.length_hits_le q state
  have hnext : (fleet.buildPage q state page per).next = if page < fleet.pagesOf q state per then
      some (listHref (trim q) (fleet.applied state) (page + 1) per) else none := by
    rw [SandboxPage.next, buildPage_page hpos hle]
    rfl
  rw [hnext]
  split_ifs with hlt
  · have hpage : page + 1 < 2 ^ 64 := by omega
    rw [Option.bind_some, follow_listHref hpage hper hmax, buildPage_again hs]
  · rfl

/-- After an action from a list, its reader is on the same page of the same list. -/
theorem action_returns (hs : fleet.Settled state) (hlen : fleet.list.length < 2 ^ 63) (hper : 1 ≤ per)
    (hmax : per ≤ maxPer) (id : Text) (result : Except Text Unit) (okMsg : Text) :
    let pg := fleet.buildPage q state page per
    fleet.follow (redirect id result okMsg (NextForm.dest (some (listHref pg.q pg.state pg.page pg.per)))) =
      some pg := by
  obtain ⟨hpos, hle⟩ := pageWindow_bounds (fleet.hits q state).length page per
  have hpages : fleet.pagesOf q state per ≤ max (fleet.hits q state).length 1 := pages_le hper
  have hhits := fleet.length_hits_le q state
  have hpage : (fleet.buildPage q state page per).page < 2 ^ 64 := (hle.trans hpages).trans_lt (by omega)
  have hlt : per < 2 ^ 64 := hmax.trans_lt (by decide)
  have hagain : fleet.buildPage q state (fleet.buildPage q state page per).page per =
      fleet.buildPage q state page per := by
    have hwindow := pageWindow_of_mem hpos hle
    simp only [buildPage]
    rw [hwindow]
    rfl
  obtain ⟨hdest, hpath, hparams⟩ :=
    @listParams_redirect fleet.reader (trim q) (fleet.applied state) _ per hpage hlt id result okMsg
  change fleet.follow (redirect id result okMsg (NextForm.dest
    (some (listHref (trim q) (fleet.applied state) (fleet.buildPage q state page per).page per)))) = _
  rw [hdest, Fleet.follow, if_pos hpath, hparams, Option.map_some, databases_stated hper hmax]
  exact congrArg some ((buildPage_again hs q _ per).trans hagain)

end Fleet

section Counts

variable {counts : List (String × ℕ)} {list : List RawSandbox}

theorem bump_eq (h : (counts.map (·.1)).Nodup) (label : String) :
    bump label counts = counts.map fun c ↦ (c.1, c.2 + if c.1 = label then 1 else 0) := by
  induction counts with
  | nil => rfl
  | cons c counts ih =>
    obtain ⟨l, n⟩ := c
    rw [List.map_cons, List.nodup_cons] at h
    rw [bump, List.map_cons]
    split_ifs with hl
    · have hrest : counts.map (fun c ↦ (c.1, c.2 + if c.1 = label then 1 else 0)) = counts := by
        refine (List.map_congr_left fun c hc ↦ ?_).trans (List.map_id counts)
        have hne : c.1 ≠ label := fun heq ↦ h.1 (List.mem_map.mpr ⟨c, hc, heq.trans hl.symm⟩)
        rw [if_neg hne, Nat.add_zero]
        rfl
      rw [hrest]
    · rw [ih h.2, Nat.add_zero]

theorem foldl_bump (h : (counts.map (·.1)).Nodup) (list : List RawSandbox) :
    list.foldl (fun counts s ↦ bump (rowStateLabel s) counts) counts =
      counts.map fun c ↦ (c.1, c.2 + list.countP fun s ↦ rowStateLabel s = c.1) := by
  induction list generalizing counts with
  | nil => simp
  | cons s list ih =>
    have hlabels : (bump (rowStateLabel s) counts).map (·.1) = counts.map (·.1) := by
      rw [bump_eq h, List.map_map]
      rfl
    rw [List.foldl_cons, ih (hlabels ▸ h), bump_eq h, List.map_map]
    apply List.map_congr_left
    intro c hc
    by_cases hlabel : rowStateLabel s = c.1
    · simp only [Function.comp_apply, List.countP_cons, hlabel, decide_true, if_true, Prod.mk.injEq, true_and]
      omega
    · simp only [Function.comp_apply, List.countP_cons, Ne.symm hlabel, hlabel, decide_false, if_false,
        Bool.false_eq_true, Nat.add_zero]

theorem countP_label_cons {label : String} {labels : List String} (h : label ∉ labels)
    (list : List RawSandbox) : (list.countP fun s ↦ rowStateLabel s ∈ label :: labels) =
      (list.countP fun s ↦ rowStateLabel s = label) + list.countP fun s ↦ rowStateLabel s ∈ labels := by
  induction list with
  | nil => rfl
  | cons s list ih =>
    rw [List.countP_cons, List.countP_cons, List.countP_cons, ih]
    by_cases hs : rowStateLabel s = label
    · simp only [List.mem_cons, hs, true_or, h, decide_true, decide_false, if_true, Bool.false_eq_true,
        if_false]
      omega
    · simp only [List.mem_cons, hs, false_or, decide_false, Bool.false_eq_true, if_false]
      omega

theorem sum_countP_labels {labels : List String} (h : labels.Nodup) (list : List RawSandbox) :
    (labels.map fun l ↦ list.countP fun s ↦ rowStateLabel s = l).sum =
      list.countP fun s ↦ rowStateLabel s ∈ labels := by
  induction labels with
  | nil => simp
  | cons label labels ih =>
    rw [List.nodup_cons] at h
    rw [List.map_cons, List.sum_cons, ih h.2, countP_label_cons h.1]

theorem nodup_stateFilters : stateFilters.Nodup := by decide

theorem ne_stateAll : ∀ label ∈ stateFilters, label.toList ≠ stateAll := by decide

theorem offloaded_mem_stateFilters {tier : Tier} (h : tier ≠ .live) : tier.asStr ∈ stateFilters := by
  cases tier with
  | live => exact absurd rfl h
  | compacted => decide
  | frozen => decide
  | archived => decide

end Counts

namespace Fleet

variable {fleet : Fleet} {q state : Text} {page per : ℕ}

theorem stateCounts_buildPage (fleet : Fleet) (q state : Text) (page per : ℕ) :
    (fleet.buildPage q state page per).stateCounts =
      stateFilters.map fun l ↦ (l, (fleet.qHits q).countP fun s ↦ rowStateLabel s = l) := by
  have hlabels : (stateFilters.map fun l ↦ (l, 0)).map (·.1) = stateFilters := by
    rw [List.map_map]
    exact List.map_id _
  rw [buildPage, foldl_bump (hlabels ▸ nodup_stateFilters), List.map_map]
  simp

/-- Every sandbox has one of the states that there are filters for. -/
theorem rowStateLabel_mem {s : RawSandbox} (h : s ∈ fleet.list) : rowStateLabel s ∈ stateFilters := by
  rw [list, appendOffloaded, List.mem_append] at h
  obtain h | h := h
  · rw [rowStateLabel, fleet.known s h, Option.getD_none]
    cases s.status with
    | _ => decide
  · obtain ⟨r, hr, rfl⟩ := List.mem_map.mp h
    have hoff := (List.mem_filter.mp hr).2
    apply offloaded_mem_stateFilters
    simp only [Bool.and_eq_true, StoreRecord.offloaded, decide_eq_true_eq] at hoff
    exact hoff.1

theorem matched_buildPage (fleet : Fleet) (q state : Text) (page per : ℕ) :
    (fleet.buildPage q state page per).matched =
      (fleet.qHits q).countP (stateMatches · (fleet.applied state)) := by
  rw [buildPage, hits, List.length_mergeSort, List.countP_eq_length_filter]

/-- The counts of the states add up to all that the search finds. -/
theorem sum_stateCounts (fleet : Fleet) (q state : Text) (page per : ℕ) :
    ((fleet.buildPage q state page per).stateCounts.map (·.2)).sum = (fleet.qHits q).length := by
  have hmem : ∀ s ∈ fleet.qHits q, rowStateLabel s ∈ stateFilters := fun s hs ↦
    rowStateLabel_mem (List.mem_filter.mp hs).1
  rw [stateCounts_buildPage, List.map_map]
  refine (sum_countP_labels nodup_stateFilters _).trans (List.countP_eq_length.mpr fun s hs ↦ ?_)
  exact decide_eq_true (hmem s hs)

/-- A pill for a state leads to as many sandboxes as it says, and the one for all of them to their sum. -/
theorem pills_lead (hlabels : ∀ label ∈ stateAll :: stateFilters.map String.toList, fleet.applied label = label)
    (hper : 1 ≤ per) (hmax : per ≤ maxPer) :
    let pg := fleet.buildPage q state page per
    (∀ c ∈ pg.stateCounts, ∃ led, fleet.follow (listHref pg.q c.1.toList 1 pg.per) = some led ∧
      led.q = pg.q ∧ led.matched = c.2) ∧
    ∃ led, fleet.follow (listHref pg.q stateAll 1 pg.per) = some led ∧ led.q = pg.q ∧
      led.matched = (pg.stateCounts.map (·.2)).sum := by
  rw [List.forall_mem_cons] at hlabels
  have hone : 1 < 2 ^ 64 := by decide
  have hq : fleet.qHits (fleet.buildPage q state page per).q = fleet.qHits q := fleet.qHits_trim q
  dsimp only
  rw [sum_stateCounts, stateCounts_buildPage]
  constructor
  · intro c hc
    obtain ⟨label, hlabel, rfl⟩ := List.mem_map.mp hc
    refine ⟨_, follow_listHref hone hper hmax, trim_trim q, ?_⟩
    have hnot : label.toList ≠ stateAll := ne_stateAll label hlabel
    rw [matched_buildPage, hlabels.2 _ (List.mem_map_of_mem hlabel), hq]
    apply List.countP_congr
    intro s _
    simp only [stateMatches, hnot, decide_false, Bool.false_or, String.toList_inj]
  · refine ⟨_, follow_listHref hone hper hmax, trim_trim q, ?_⟩
    rw [matched_buildPage, hlabels.1, hq]
    exact List.countP_eq_length.mpr fun s _ ↦ by rw [stateMatches, decide_eq_true rfl, Bool.true_or]

end Fleet

section Order

open Fleet

variable {fleet other : Fleet} {q state : Text} {page per : ℕ}

theorem le_trans_name (a b c : RawSandbox) (hab : le a b = true) (hbc : le b c = true) : le a c = true := by
  simp only [le, Bool.or_eq_true, Bool.and_eq_true, decide_eq_true_eq] at hab hbc ⊢
  obtain hab | ⟨hab, hid⟩ := hab
  · obtain hbc | ⟨hbc, -⟩ := hbc
    · exact .inl (hab.trans hbc)
    · exact .inl (hbc ▸ hab)
  · obtain hbc | ⟨hbc, hid'⟩ := hbc
    · exact .inl (hab ▸ hbc)
    · exact .inr ⟨hab.trans hbc, hid.trans hid'⟩

theorem le_total_name (a b : RawSandbox) : (le a b || le b a) = true := by
  simp only [le, Bool.or_eq_true, Bool.and_eq_true, decide_eq_true_eq]
  obtain h | h | h := lt_trichotomy a.name b.name
  · exact .inl (.inl h)
  · exact (le_total a.id.text b.id.text).imp (fun hid ↦ .inr ⟨h, hid⟩) fun hid ↦ .inr ⟨h.symm, hid⟩
  · exact .inr (.inl h)

theorem id_eq_of_le {a b : RawSandbox} (hab : le a b = true) (hba : le b a = true) : a.id = b.id := by
  simp only [le, Bool.or_eq_true, Bool.and_eq_true, decide_eq_true_eq] at hab hba
  obtain hab | ⟨hname, hab⟩ := hab
  · obtain hba | ⟨hname, -⟩ := hba
    · exact absurd hba hab.not_gt
    · exact absurd hname hab.ne'
  · obtain hba | ⟨-, hba⟩ := hba
    · exact absurd hname hba.ne'
    · exact Field.text_inj (le_antisymm hab hba)

namespace Reordered

theorem list (h : Reordered fleet other) : other.list.Perm fleet.list := by
  have hids : ∀ id, id ∈ other.inventory.map (·.id) ↔ id ∈ fleet.inventory.map (·.id) := fun id ↦
    (h.inventory.map (·.id)).mem_iff
  rw [Fleet.list, Fleet.list, appendOffloaded, appendOffloaded, h.records]
  simp only [hids]
  exact h.inventory.append_right _

theorem qHits (h : Reordered fleet other) (q : Text) : (other.qHits q).Perm (fleet.qHits q) := by
  have hschema : other.schemaOf = fleet.schemaOf := by
    funext s
    rw [schemaOf, schemaOf, h.snap, h.records]
  rw [Fleet.qHits, Fleet.qHits, h.toLowercase, hschema]
  exact h.list.filter _

theorem applied (h : Reordered fleet other) : other.applied = fleet.applied := by
  funext state
  rw [Fleet.applied, Fleet.applied, h.toLowercase]

/-- The order of the rows does not depend on the order of the inventory. -/
theorem hits (h : Reordered fleet other) (hids : (fleet.list.map (·.id)).Nodup) (q state : Text) :
    other.hits q state = fleet.hits q state := by
  have hmem : ∀ s ∈ fleet.hits q state, s ∈ fleet.list := fun s hs ↦
    (List.mem_filter.mp (List.mem_filter.mp (List.mem_mergeSort.mp hs)).1).1
  have hperm : (other.hits q state).Perm (fleet.hits q state) := by
    rw [Fleet.hits, Fleet.hits, h.applied]
    exact ((List.mergeSort_perm _ _).trans ((h.qHits q).filter _)).trans (List.mergeSort_perm _ _).symm
  have hsorted : ∀ fleet : Fleet, (fleet.hits q state).Pairwise fun a b ↦ le a b = true := fun fleet ↦
    List.pairwise_mergeSort le_trans_name le_total_name _
  apply hperm.eq_of_pairwise _ (hsorted other) (hsorted fleet)
  intro a b ha hb hab hba
  exact List.inj_on_of_nodup_map hids (hmem a (hperm.mem_iff.mp ha)) (hmem b hb) (id_eq_of_le hab hba)

theorem buildPage (h : Reordered fleet other) (hids : (fleet.list.map (·.id)).Nodup) :
    other.buildPage = fleet.buildPage := by
  funext q state page per
  have hjoin : other.join = fleet.join := by
    funext s
    rw [join, join, h.snap, h.records]
  have hcounts : (other.buildPage q state page per).stateCounts =
      (fleet.buildPage q state page per).stateCounts := by
    rw [stateCounts_buildPage, stateCounts_buildPage]
    apply List.map_congr_left
    intro l _
    rw [(h.qHits q).countP_eq]
  simp only [Fleet.buildPage] at hcounts ⊢
  rw [h.hits hids, h.list.length_eq, h.applied, hjoin, hcounts]

theorem follow (h : Reordered fleet other) (hids : (fleet.list.map (·.id)).Nodup) :
    other.follow = fleet.follow := by
  funext href
  have hdatabases : other.databases = fleet.databases := by
    funext p
    rw [databases, databases, h.buildPage hids]
  rw [Fleet.follow, Fleet.follow, hdatabases, h.reader]

end Reordered

variable {fleets : ℕ → Fleet}

theorem browse_from (hf : ∀ i, (fleets i).follow = fleet.follow) (hs : fleet.Settled state)
    (hlen : fleet.list.length < 2 ^ 63) (hper : 1 ≤ per) (hmax : per ≤ maxPer) (n i : ℕ) (hpos : 1 ≤ page)
    (hle : page ≤ fleet.pagesOf q state per) (hn : fleet.pagesOf q state per ≤ page + n) :
    browse fleets i n (fleet.buildPage q state page per) =
      ((fleet.hits q state).drop ((page - 1) * per)).map fleet.join := by
  induction n generalizing page i with
  | zero => exact rows_last hper hpos (by omega)
  | succ n ih =>
    rw [browse, hf i, follow_next hs hlen hper hmax hpos hle]
    by_cases hnext : page < fleet.pagesOf q state per
    · have hrest := ih (i + 1) (Nat.le_add_left 1 page) hnext (by omega)
      rw [Nat.add_sub_cancel] at hrest
      rw [if_pos hnext]
      dsimp only
      rw [hrest, rows_append hpos hle]
    · rw [if_neg hnext]
      exact rows_last hper hpos (by omega)

/-- The sandboxes that a search is about. -/
def Fleet.Sought (fleet : Fleet) (q state : Text) (s : RawSandbox) : Bool :=
  let needle := fleet.toLowercase (trim q)
  (needle = [] || matchesQuery fleet.toLowercase s (fleet.schemaOf s) needle) && stateMatches s (fleet.applied state)

theorem hits_perm (fleet : Fleet) (q state : Text) :
    (fleet.hits q state).Perm (fleet.list.filter (fleet.Sought q state)) := by
  refine (List.mergeSort_perm _ _).trans ?_
  rw [Fleet.qHits, List.filter_filter]
  refine .of_eq (List.filter_congr fun s _ ↦ ?_)
  rw [Fleet.Sought, Bool.and_comm]

theorem hits_sorted (fleet : Fleet) (q state : Text) : (fleet.hits q state).Pairwise fun a b ↦
    a.name < b.name ∨ a.name = b.name ∧ a.id.text ≤ b.id.text := by
  refine (List.pairwise_mergeSort le_trans_name le_total_name _).imp fun hab ↦ ?_
  simpa only [le, Bool.or_eq_true, Bool.and_eq_true, decide_eq_true_eq] using hab

/-- Along the links from its first page on, a list shows each sandbox that it is about once, by name and then by
id, in whatever order the daemon lists them for each page. -/
theorem browse_all (q state : Text) (per : Option ℕ) (hfleets : ∀ i, Reordered fleet (fleets i))
    (hids : (fleet.list.map (·.id)).Nodup) (hs : fleet.Settled state) (hlen : fleet.list.length < 2 ^ 63) :
    let first := fleet.databases ⟨q, some state, none, per⟩
    browse fleets 0 first.pages first = (fleet.hits q state).map fleet.join ∧
      (fleet.hits q state).Perm (fleet.list.filter (fleet.Sought q state)) ∧
      (fleet.hits q state).Pairwise fun a b ↦ a.name < b.name ∨ a.name = b.name ∧ a.id.text ≤ b.id.text := by
  refine ⟨?_, hits_perm fleet q state, hits_sorted fleet q state⟩
  have hper : 1 ≤ max 1 (min (per.getD defaultPer) maxPer) := le_max_left _ _
  have hmax : max 1 (min (per.getD defaultPer) maxPer) ≤ maxPer := max_le (by decide) (min_le_right _ _)
  obtain ⟨hpos, hle⟩ := pageWindow_bounds (fleet.hits q state).length 1
    (max 1 (min (per.getD defaultPer) maxPer))
  have h := browse_from (fun i ↦ (hfleets i).follow hids) hs hlen hper hmax
    (fleet.pagesOf q state (max 1 (min (per.getD defaultPer) maxPer))) 0 le_rfl (hpos.trans hle)
    (Nat.le_add_left _ 1)
  rw [Nat.sub_self, Nat.zero_mul, List.drop_zero] at h
  exact h

def lowerAscii (t : Text) : Text := t.map Char.toLower

theorem isWhitespace_toLower (c : Char) : isWhitespace c.toLower = isWhitespace c := by
  by_cases hup : c.isUpper = true
  · have hrange : 65 ≤ c.toNat ∧ c.toNat ≤ 90 := by
      simpa [Char.isUpper, UInt32.le_iff_toNat_le] using hup
    have hvalid : (c.toNat + 32).isValidChar := .inl (by omega)
    have hlow : (Char.ofNat (c.toNat + 32)).toNat = c.toNat + 32 := by
      rw [Char.toNat_ofNat, if_pos hvalid]
    rw [Char.toLower_eq_of_isUpper hup, Bool.eq_iff_iff]
    simp only [isWhitespace, hlow, Bool.or_eq_true, Bool.and_eq_true, decide_eq_true_eq]
    omega
  · rw [Char.toLower_eq_of_not_isUpper hup]

theorem trim_lowerAscii (t : Text) : trim (lowerAscii t) = lowerAscii (trim t) := by
  have hspace : isWhitespace ∘ Char.toLower = isWhitespace := funext isWhitespace_toLower
  simp only [trim, lowerAscii, List.dropWhile_map, ← List.map_reverse, hspace]

theorem lowerAscii_lowerAscii (t : Text) : lowerAscii (lowerAscii t) = lowerAscii t := by
  rw [lowerAscii, lowerAscii, List.map_map]
  exact List.map_congr_left fun c _ ↦ Char.toLower_toLower_eq_toLower c

/-- With this lower case every filter is applied once and for all. -/
theorem settled_of_lowerAscii (h : fleet.toLowercase = lowerAscii) (state : Text) : fleet.Settled state := by
  unfold Fleet.Settled
  by_cases hnone : lowerAscii (trim state) = []
  · have hdefault : fleet.applied state = defaultState := by
      rw [applied, h]
      exact if_pos hnone
    rw [hdefault, applied, h]
    decide
  · have happlied : fleet.applied state = lowerAscii (trim state) := by
      rw [applied, h]
      exact if_neg hnone
    rw [happlied, applied, h, trim_lowerAscii, trim_trim, lowerAscii_lowerAscii]
    exact if_neg hnone

/-- Three sandboxes of one schema each. -/
def threeRaw : List RawSandbox :=
  [⟨⟨"sb-7a01", by decide, by decide⟩, "pg-orders", .running, none, none, none⟩,
    ⟨⟨"sb-7a02", by decide, by decide⟩, "pg-Alice", .stopped, none, some "pg", none⟩,
    ⟨⟨"sb-7a03", by decide, by decide⟩, "spare-pg-1", .running, some "172.25.0.3", none, none⟩]

def threeFleet (reversed : Bool) : Fleet where
  toLowercase := lowerAscii
  reader := FormQuery.reader
  inventory := if reversed then threeRaw.reverse else threeRaw
  snap := []
  records := []
  known := by
    cases reversed with
    | _ => decide

theorem list_threeFleet : (threeFleet false).list = threeRaw := by decide

theorem settled_threeFleet : (threeFleet false).Settled stateAll := settled_of_lowerAscii rfl stateAll

theorem browse_all_three :
    let first := (threeFleet false).databases ⟨[], some stateAll, none, some 1⟩
    let rows := (threeFleet false).hits [] stateAll
    browse (fun i ↦ threeFleet (i % 2 = 1)) 0 first.pages first = rows.map (threeFleet false).join ∧
      rows.Perm ((threeFleet false).list.filter ((threeFleet false).Sought [] stateAll)) ∧
      rows.Pairwise fun a b ↦ a.name < b.name ∨ a.name = b.name ∧ a.id.text ≤ b.id.text := by
  have hreordered : ∀ i : ℕ, Reordered (threeFleet false) (threeFleet (i % 2 = 1)) := by
    intro i
    refine ⟨rfl, rfl, ?_, rfl, rfl⟩
    cases decide (i % 2 = 1) with
    | false => exact List.Perm.refl _
    | true => exact List.reverse_perm _
  apply browse_all [] stateAll (some 1) hreordered
  · rw [list_threeFleet]
    decide
  · exact settled_threeFleet
  · rw [list_threeFleet]
    decide

theorem pills_lead_three :
    let pg := (threeFleet false).buildPage [] stateAll 1 2
    (∀ c ∈ pg.stateCounts, ∃ led, (threeFleet false).follow (listHref pg.q c.1.toList 1 pg.per) = some led ∧
      led.q = pg.q ∧ led.matched = c.2) ∧
    ∃ led, (threeFleet false).follow (listHref pg.q stateAll 1 pg.per) = some led ∧ led.q = pg.q ∧
      led.matched = (pg.stateCounts.map (·.2)).sum :=
  pills_lead (by decide) (by decide) (by decide)

theorem action_returns_three :
    let pg := (threeFleet false).buildPage "pg-".toList stateAll 2 1
    (threeFleet false).follow (redirect "sb-7a01".toList (.ok ()) "stop requested".toList
      (NextForm.dest (some (listHref pg.q pg.state pg.page pg.per)))) = some pg := by
  apply action_returns settled_threeFleet
  · rw [list_threeFleet]
    decide
  · decide
  · decide

end Order

end PgVmPool.Pages
