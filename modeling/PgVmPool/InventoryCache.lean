import PgVmPool.Dashboard

namespace PgVmPool.Inventory

open Transition

variable {D : Type}

/-- An inventory as the daemon gave it, with when it was there. -/
structure InvSnapshot (D : Type) where
  taken : ℕ
  data : D
  deriving DecidableEq

/-- A page that is built: it has read the snapshot, it waits for its own fetch, or it has its inventory, with the
times at which the plan was made and carried out. -/
inductive PagePc (D : Type)
  | start
  | planned (current : Option (InvSnapshot D)) (read : ℕ)
  | fetching
  | storing (s : InvSnapshot D)
  | served (how : Serve) (s : InvSnapshot D) (read acted : ℕ)
  | failed
  | dropped
  deriving DecidableEq

/-- A page, and whether there was a snapshot when it was asked for. -/
structure Page (D : Type) where
  warm : Bool
  pc : PagePc D
  deriving DecidableEq

/-- A background refresh; its guard is dropped as it ends. -/
inductive RefreshPc (D : Type)
  | fetching
  | storing (s : InvSnapshot D)
  | leaving
  | ended (t : ℕ)
  deriving DecidableEq

structure Refresh (D : Type) where
  begun : ℕ
  pc : RefreshPc D
  deriving DecidableEq

def RefreshPc.running : RefreshPc D → Bool
  | .ended _ => false
  | _ => true

def Refresh.running (r : Refresh D) : Bool := r.pc.running

/-- The cache, its pages and its refreshes, and all that was ever fetched. -/
structure State (D : Type) where
  now : ℕ
  snapshot : Option (InvSnapshot D)
  refreshing : Bool
  pages : List (Page D)
  refreshes : List (Refresh D)
  fetches : List (InvSnapshot D)
  deriving DecidableEq

def init : State D := ⟨0, none, false, [], [], []⟩

/-- Of the page `i`: its own steps, the answer to its fetch, and a client that goes away before it. Of the refresh
`j`: the answer to its fetch, its own steps, and a panic. -/
inductive Event (D : Type)
  | ask
  | go (i : ℕ)
  | fetched (i : ℕ) (data : Option D)
  | drop (i : ℕ)
  | refreshed (j : ℕ) (data : Option D)
  | refresh (j : ℕ)
  | panic (j : ℕ)
  | elapse (secs : ℕ)

namespace State

def setPage (st : State D) (i : ℕ) (page : Page D) : State D := { st with pages := st.pages.set i page }

def setRefresh (st : State D) (j : ℕ) (r : Refresh D) : State D := { st with refreshes := st.refreshes.set j r }

/-- What a page does by its plan. -/
def serve (st : State D) (i : ℕ) (page : Page D) (current : Option (InvSnapshot D)) (read : ℕ) : State D :=
  match current, servePlan (current.map fun s ↦ read - s.taken) with
  | some s, .fresh => st.setPage i { page with pc := .served .fresh s read st.now }
  | some s, _ =>
    let served := st.setPage i { page with pc := .served .staleRefresh s read st.now }
    if st.refreshing then served
    else { served with refreshing := true, refreshes := st.refreshes ++ [⟨st.now, .fetching⟩] }
  | none, _ => st.setPage i { page with pc := .fetching }

def endRefresh (st : State D) (j : ℕ) (r : Refresh D) : State D :=
  { st.setRefresh j { r with pc := .ended st.now } with refreshing := false }

end State

def step : Event D → State D → Option (State D)
  | .ask, st => some { st with pages := st.pages ++ [⟨st.snapshot.isSome, .start⟩] }
  | .go i, st =>
    (st.pages[i]?).bind fun page ↦
      match page.pc with
      | .start => some (st.setPage i { page with pc := .planned st.snapshot st.now })
      | .planned current read => some (st.serve i page current read)
      | .storing s => some { st.setPage i { page with pc := .served .coldFetch s st.now st.now } with
          snapshot := some s }
      | _ => none
  | .fetched i data, st =>
    (st.pages[i]?).bind fun page ↦
      match page.pc, data with
      | .fetching, some data => some { st.setPage i { page with pc := .storing ⟨st.now, data⟩ } with
          fetches := st.fetches ++ [⟨st.now, data⟩] }
      | .fetching, none => some (st.setPage i { page with pc := .failed })
      | _, _ => none
  | .drop i, st =>
    (st.pages[i]?).bind fun page ↦
      match page.pc with
      | .fetching => some (st.setPage i { page with pc := .dropped })
      | _ => none
  | .refreshed j data, st =>
    (st.refreshes[j]?).bind fun r ↦
      match r.pc, data with
      | .fetching, some data => some { st.setRefresh j { r with pc := .storing ⟨st.now, data⟩ } with
          fetches := st.fetches ++ [⟨st.now, data⟩] }
      | .fetching, none => some (st.setRefresh j { r with pc := .leaving })
      | _, _ => none
  | .refresh j, st =>
    (st.refreshes[j]?).bind fun r ↦
      match r.pc with
      | .storing s => some { st.setRefresh j { r with pc := .leaving } with snapshot := some s }
      | .leaving => some (st.endRefresh j r)
      | _ => none
  | .panic j, st => (st.refreshes[j]?).bind fun r ↦ if r.running then some (st.endRefresh j r) else none
  | .elapse secs, st => some { st with now := st.now + secs }

/-- A refresh that was under way at the time `t`. -/
def Refresh.Covers (r : Refresh D) (t : ℕ) : Prop := r.begun ≤ t ∧ ∀ e, r.pc = .ended e → t ≤ e

def State.Covered (st : State D) (t : ℕ) : Prop := ∃ r ∈ st.refreshes, r.Covers t

/-- What is promised to whoever asked for a page: an inventory the daemon gave before the page was served, with no
wait and no failure where there was one already, and none that is old unless a refresh is under way. -/
def State.Serves (st : State D) (page : Page D) : Prop :=
  match page.pc with
  | .start => True
  | .planned current read =>
    read ≤ st.now ∧ (page.warm = true → current.isSome = true) ∧
      ∀ s, current = some s → s ∈ st.fetches ∧ s.taken ≤ read
  | .fetching => page.warm = false
  | .storing s => page.warm = false ∧ s ∈ st.fetches
  | .served how s read acted =>
    s ∈ st.fetches ∧ s.taken ≤ read ∧ read ≤ acted ∧ acted ≤ st.now ∧
      match how with
      | .fresh => read < s.taken + inventoryFresh
      | .staleRefresh => s.taken + inventoryFresh ≤ read ∧ st.Covered acted
      | .coldFetch => page.warm = false
  | .failed => page.warm = false
  | .dropped => page.warm = false

/-- One refresh runs at most, and its flag says whether one does; what is kept was fetched, and stays kept. -/
structure State.Sound (st : State D) : Prop where
  single : st.refreshes.countP Refresh.running = st.refreshing.toNat
  fetched : ∀ s ∈ st.fetches, s.taken ≤ st.now
  kept : ∀ s, st.snapshot = some s → s ∈ st.fetches
  refreshes : ∀ (j : ℕ) (r : Refresh D), st.refreshes[j]? = some r →
    r.begun ≤ st.now ∧ ∀ s, r.pc = .storing s → s ∈ st.fetches
  warm : ∀ (i : ℕ) (page : Page D), st.pages[i]? = some page → page.warm = true → st.snapshot.isSome = true
  serves : ∀ (i : ℕ) (page : Page D), st.pages[i]? = some page → st.Serves page

variable {st st' : State D}

/-- Later states have the same promises, and keep them. -/
structure State.Later (st st' : State D) : Prop where
  now : st.now ≤ st'.now
  fetches : ∀ s ∈ st.fetches, s ∈ st'.fetches
  covered : ∀ t ≤ st.now, st.Covered t → st'.Covered t

theorem State.Serves.later {page : Page D} (h : st.Serves page) (hle : st.Later st') : st'.Serves page := by
  obtain ⟨warm, pc⟩ := page
  cases pc with
  | start => trivial
  | planned current read =>
    obtain ⟨hread, hwarm, hmem⟩ := h
    exact ⟨hread.trans hle.now, hwarm, fun s hs ↦ ⟨hle.fetches s (hmem s hs).1, (hmem s hs).2⟩⟩
  | fetching => exact h
  | storing s => exact ⟨h.1, hle.fetches s h.2⟩
  | served how s read acted =>
    obtain ⟨hmem, htaken, hread, hacted, hhow⟩ := h
    refine ⟨hle.fetches s hmem, htaken, hread, hacted.trans hle.now, ?_⟩
    cases how with
    | fresh => exact hhow
    | staleRefresh => exact ⟨hhow.1, hle.covered acted hacted hhow.2⟩
    | coldFetch => exact hhow
  | failed => exact h
  | dropped => exact h

theorem State.Later.of_refreshes (hnow : st.now ≤ st'.now) (hfetches : ∀ s ∈ st.fetches, s ∈ st'.fetches)
    (hrefreshes : st'.refreshes = st.refreshes) : st.Later st' where
  now := hnow
  fetches := hfetches
  covered t _ hcov := by
    obtain ⟨r, hr, hcov⟩ := hcov
    exact ⟨r, hrefreshes ▸ hr, hcov⟩

/-- A refresh that goes on, or that ends now, covers what it covered. -/
theorem State.Later.setRefresh {j : ℕ} {r : Refresh D} (hr : st.refreshes[j]? = some r) (pc : RefreshPc D)
    (hpc : ∀ e, pc = .ended e → e = st.now) (flag : Bool) :
    st.Later { st.setRefresh j { r with pc } with refreshing := flag } where
  now := le_rfl
  fetches _ hs := hs
  covered t ht hcov := by
    obtain ⟨r', hr', hcov⟩ := hcov
    obtain ⟨k, hk⟩ := List.mem_iff_getElem?.mp hr'
    by_cases hjk : k = j
    · subst hjk
      obtain rfl : r' = r := Option.some_inj.mp (hk.symm.trans hr)
      have hlt : k < st.refreshes.length := (List.getElem?_eq_some_iff.mp hr).1
      refine ⟨{ r' with pc }, List.mem_set hlt _, hcov.1, fun e he ↦ ?_⟩
      rw [hpc e he]
      exact ht
    · refine ⟨r', List.mem_iff_getElem?.mpr ⟨k, ?_⟩, hcov⟩
      exact (List.getElem?_set_ne (Ne.symm hjk)).trans hk

namespace State.Sound

theorem of_later (h : st.Sound) (hle : st.Later st') (hpages : st'.pages = st.pages)
    (hsnapshot : st.snapshot.isSome = true → st'.snapshot.isSome = true)
    (single : st'.refreshes.countP Refresh.running = st'.refreshing.toNat)
    (fetched : ∀ s ∈ st'.fetches, s.taken ≤ st'.now) (kept : ∀ s, st'.snapshot = some s → s ∈ st'.fetches)
    (refreshes : ∀ (j : ℕ) (r : Refresh D), st'.refreshes[j]? = some r →
      r.begun ≤ st'.now ∧ ∀ s, r.pc = .storing s → s ∈ st'.fetches) :
    st'.Sound where
  single := single
  fetched := fetched
  kept := kept
  refreshes := refreshes
  warm i page hi hwarm := hsnapshot (h.warm i page (hpages ▸ hi) hwarm)
  serves i page hi := (h.serves i page (hpages ▸ hi)).later hle

theorem note (h : st.Sound) (data : D) :
    State.Sound { st with fetches := st.fetches ++ [⟨st.now, data⟩] } := by
  have hmono : ∀ s ∈ st.fetches, s ∈ st.fetches ++ [⟨st.now, data⟩] := fun s hs ↦ List.mem_append_left _ hs
  have hle : st.Later { st with fetches := st.fetches ++ [⟨st.now, data⟩] } := .of_refreshes le_rfl hmono rfl
  apply h.of_later hle rfl id h.single
  · intro s hs
    rcases List.mem_append.mp hs with hs | hs
    · exact h.fetched s hs
    · obtain rfl := List.mem_singleton.mp hs
      exact le_rfl
  · exact fun s hs ↦ hmono s (h.kept s hs)
  · exact fun j r hr ↦ ⟨(h.refreshes j r hr).1, fun s hs ↦ hmono s ((h.refreshes j r hr).2 s hs)⟩

theorem store (h : st.Sound) {s : InvSnapshot D} (hs : s ∈ st.fetches) :
    State.Sound { st with snapshot := some s } := by
  have hle : st.Later { st with snapshot := some s } := .of_refreshes le_rfl (fun _ hs ↦ hs) rfl
  apply h.of_later hle rfl (fun _ ↦ rfl) h.single h.fetched
  · intro s' hs'
    obtain rfl := Option.some_inj.mp hs'
    exact hs
  · exact h.refreshes

theorem elapse (h : st.Sound) (secs : ℕ) : State.Sound { st with now := st.now + secs } := by
  have hle : st.Later { st with now := st.now + secs } := .of_refreshes (Nat.le_add_right _ _) (fun _ hs ↦ hs) rfl
  apply h.of_later hle rfl id h.single
  · exact fun s hs ↦ (h.fetched s hs).trans (Nat.le_add_right _ _)
  · exact h.kept
  · exact fun j r hr ↦ ⟨(h.refreshes j r hr).1.trans (Nat.le_add_right _ _), (h.refreshes j r hr).2⟩

theorem spawn (h : st.Sound) (hfree : st.refreshing = false) :
    State.Sound { st with refreshing := true, refreshes := st.refreshes ++ [⟨st.now, .fetching⟩] } := by
  have hle : st.Later { st with refreshing := true, refreshes := st.refreshes ++ [⟨st.now, .fetching⟩] } := by
    refine ⟨le_rfl, fun _ hs ↦ hs, fun t _ hcov ↦ ?_⟩
    obtain ⟨r, hr, hcov⟩ := hcov
    exact ⟨r, List.mem_append_left _ hr, hcov⟩
  apply h.of_later hle rfl id
  · have hnone := h.single
    rw [hfree] at hnone
    rw [List.countP_append, hnone]
    rfl
  · exact h.fetched
  · exact h.kept
  · apply forall_append
    · exact ⟨le_rfl, fun s hs ↦ by cases hs⟩
    · exact h.refreshes

theorem flag (h : st.Sound) {j : ℕ} {r : Refresh D} (hr : st.refreshes[j]? = some r) (hrunning : r.running = true) :
    st.refreshing = true := by
  have hpos : 0 < st.refreshes.countP Refresh.running :=
    List.countP_pos_iff.mpr ⟨r, List.mem_of_getElem? hr, hrunning⟩
  rw [h.single] at hpos
  cases hflag : st.refreshing with
  | true => rfl
  | false =>
    rw [hflag] at hpos
    exact absurd hpos (lt_irrefl 0)

theorem setRefresh (h : st.Sound) {j : ℕ} {r : Refresh D} (hr : st.refreshes[j]? = some r)
    (hrunning : r.running = true) (pc : RefreshPc D) (hpc : ∀ e, pc = .ended e → e = st.now)
    (hstoring : ∀ s, pc = .storing s → s ∈ st.fetches) :
    State.Sound { st.setRefresh j { r with pc } with refreshing := pc.running } := by
  obtain ⟨hlt, hget⟩ := List.getElem?_eq_some_iff.mp hr
  apply h.of_later (State.Later.setRefresh hr pc hpc pc.running) rfl id
  · have hone : st.refreshes.countP Refresh.running = 1 := by
      rw [h.single, h.flag hr hrunning, Bool.toNat_true]
    change (st.refreshes.set j { r with pc }).countP Refresh.running = pc.running.toNat
    rw [List.countP_set hlt, hget, if_pos hrunning, hone]
    change 1 - 1 + (if pc.running = true then 1 else 0) = pc.running.toNat
    cases pc.running <;> rfl
  · exact h.fetched
  · exact h.kept
  · apply forall_set
    · exact ⟨(h.refreshes j r hr).1, hstoring⟩
    · exact fun k r _ hk ↦ h.refreshes k r hk

theorem moveRefresh (h : st.Sound) {j : ℕ} {r : Refresh D} (hr : st.refreshes[j]? = some r)
    (hrunning : r.running = true) {pc : RefreshPc D} (hpc : pc.running = true)
    (hstoring : ∀ s, pc = .storing s → s ∈ st.fetches) : (st.setRefresh j { r with pc }).Sound := by
  have hmoved := h.setRefresh hr hrunning pc (fun e he ↦ by simp [he, RefreshPc.running] at hpc) hstoring
  rwa [hpc, ← h.flag hr hrunning] at hmoved

theorem endRefresh (h : st.Sound) {j : ℕ} {r : Refresh D} (hr : st.refreshes[j]? = some r)
    (hrunning : r.running = true) : (st.endRefresh j r).Sound := by
  apply h.setRefresh hr hrunning (.ended st.now)
  · intro e he
    cases he
    rfl
  · intro s hs
    cases hs

theorem setPage (h : st.Sound) {i : ℕ} {page : Page D} (hi : st.pages[i]? = some page) (pc : PagePc D)
    (hserves : st.Serves { page with pc }) : (st.setPage i { page with pc }).Sound where
  single := h.single
  fetched := h.fetched
  kept := h.kept
  refreshes := h.refreshes
  warm := by
    apply forall_set
    · exact h.warm i page hi
    · exact fun j page _ hj ↦ h.warm j page hj
  serves := by
    have hle : st.Later (st.setPage i { page with pc }) := .of_refreshes le_rfl (fun _ hs ↦ hs) rfl
    apply forall_set
    · exact hserves.later hle
    · exact fun j page _ hj ↦ (h.serves j page hj).later hle

theorem ask (h : st.Sound) :
    State.Sound { st with pages := st.pages ++ [⟨st.snapshot.isSome, .start⟩] } where
  single := h.single
  fetched := h.fetched
  kept := h.kept
  refreshes := h.refreshes
  warm := by
    apply forall_append
    · exact id
    · exact h.warm
  serves := by
    apply forall_append
    · trivial
    · exact fun j page hj ↦ (h.serves j page hj).later (.of_refreshes le_rfl (fun _ hs ↦ hs) rfl)

/-- Where the flag is set, a refresh is under way now. -/
theorem covered (h : st.Sound) (hflag : st.refreshing = true) : st.Covered st.now := by
  have hpos : 0 < st.refreshes.countP Refresh.running := by
    rw [h.single, hflag]
    exact Nat.one_pos
  obtain ⟨r, hr, hrunning⟩ := List.countP_pos_iff.mp hpos
  obtain ⟨j, hj⟩ := List.mem_iff_getElem?.mp hr
  refine ⟨r, hr, (h.refreshes j r hj).1, fun e he ↦ ?_⟩
  rw [Refresh.running, he] at hrunning
  cases hrunning

/-- A page that is served what is old leaves a refresh under way. -/
theorem serveStale (h : st.Sound) {i : ℕ} {page : Page D} (hi : st.pages[i]? = some page)
    {s : InvSnapshot D} {read : ℕ} (hs : s ∈ st.fetches) (hread : read ≤ st.now)
    (hold : s.taken + inventoryFresh ≤ read) : State.Sound (st.serve i page (some s) read) := by
  have hplan : ¬ read - s.taken < inventoryFresh := by omega
  have htaken : s.taken ≤ read := (Nat.le_add_right _ _).trans hold
  simp only [State.serve, servePlan, Option.map_some, if_neg hplan]
  by_cases hflag : st.refreshing = true
  · rw [if_pos hflag]
    exact h.setPage hi _ ⟨hs, htaken, hread, le_rfl, hold, h.covered hflag⟩
  · rw [if_neg hflag]
    have hspawn := h.spawn (Bool.eq_false_of_not_eq_true hflag)
    exact hspawn.setPage hi _ ⟨hs, htaken, hread, le_rfl, hold, hspawn.covered rfl⟩

theorem serve (h : st.Sound) {i : ℕ} {page : Page D} (hi : st.pages[i]? = some page)
    {current : Option (InvSnapshot D)} {read : ℕ} (hpc : page.pc = .planned current read) :
    State.Sound (st.serve i page current read) := by
  have hserves := h.serves i page hi
  rw [State.Serves, hpc] at hserves
  obtain ⟨hread, hwarm, hmem⟩ := hserves
  cases current with
  | none =>
    have hcold : page.warm = false := by
      cases hw : page.warm with
      | true => cases hwarm hw
      | false => rfl
    exact h.setPage hi .fetching hcold
  | some s =>
    obtain ⟨hs, htaken⟩ := hmem s rfl
    by_cases hfresh : read - s.taken < inventoryFresh
    · have hserve : st.serve i page (some s) read =
          st.setPage i { page with pc := .served .fresh s read st.now } := by
        simp only [State.serve, servePlan, Option.map_some, if_pos hfresh]
      rw [hserve]
      apply h.setPage hi
      refine ⟨hs, htaken, hread, le_rfl, ?_⟩
      dsimp only
      omega
    · exact h.serveStale hi hs hread (by omega)

theorem running_of {r : Refresh D} {pc : RefreshPc D} (hpc : r.pc = pc) (hrunning : pc.running = true := by rfl) :
    r.running = true := by
  rw [Refresh.running, hpc, hrunning]

theorem pageStep (h : st.Sound) {i : ℕ} (hs : Inventory.step (.go i) st = some st') : st'.Sound := by
  obtain ⟨page, hi, hs⟩ := Option.bind_eq_some_iff.mp hs
  split at hs
  · rename_i hpc
    cases hs
    apply h.setPage hi
    refine ⟨le_rfl, h.warm i page hi, fun s hs ↦ ?_⟩
    exact ⟨h.kept s hs, h.fetched s (h.kept s hs)⟩
  · rename_i current read hpc
    cases hs
    exact h.serve hi hpc
  · rename_i s hpc
    cases hs
    have hserves := h.serves i page hi
    rw [State.Serves, hpc] at hserves
    obtain ⟨hcold, hmem⟩ := hserves
    have hstored := h.store hmem
    exact hstored.setPage hi _ ⟨hmem, h.fetched s hmem, le_rfl, le_rfl, hcold⟩
  · cases hs

/-- A page that waits for its fetch found no snapshot. -/
theorem pageFetched (h : st.Sound) {i : ℕ} {page : Page D} (hi : st.pages[i]? = some page)
    (hpc : page.pc = .fetching) : page.warm = false := by
  have hserves := h.serves i page hi
  rwa [State.Serves, hpc] at hserves

theorem step (h : st.Sound) {ev : Event D} (hs : Inventory.step ev st = some st') : st'.Sound := by
  cases ev with
  | ask =>
    cases hs
    exact h.ask
  | go i => exact h.pageStep hs
  | fetched i answer =>
    obtain ⟨page, hi, hs⟩ := Option.bind_eq_some_iff.mp hs
    split at hs
    · rename_i data hpc _
      have hcold := h.pageFetched hi hpc
      cases hs
      have hnote := h.note data
      exact hnote.setPage hi _ ⟨hcold, List.mem_append_right _ (List.mem_singleton_self _)⟩
    · rename_i hpc _
      have hcold := h.pageFetched hi hpc
      cases hs
      exact h.setPage hi .failed hcold
    · cases hs
  | drop i =>
    obtain ⟨page, hi, hs⟩ := Option.bind_eq_some_iff.mp hs
    split at hs
    · rename_i hpc
      have hcold := h.pageFetched hi hpc
      cases hs
      exact h.setPage hi .dropped hcold
    · cases hs
  | refreshed j answer =>
    obtain ⟨r, hj, hs⟩ := Option.bind_eq_some_iff.mp hs
    split at hs
    · rename_i data hpc _
      cases hs
      have hnote := h.note data
      apply hnote.moveRefresh hj (running_of hpc) rfl
      intro s hs
      cases hs
      exact List.mem_append_right _ (List.mem_singleton_self _)
    · rename_i hpc _
      cases hs
      exact h.moveRefresh hj (running_of hpc) rfl fun s hs ↦ by cases hs
    · cases hs
  | refresh j =>
    obtain ⟨r, hj, hs⟩ := Option.bind_eq_some_iff.mp hs
    split at hs
    · rename_i s hpc
      cases hs
      have hstored := h.store ((h.refreshes j r hj).2 s hpc)
      exact hstored.moveRefresh hj (running_of hpc) rfl fun s hs ↦ by cases hs
    · rename_i hpc
      cases hs
      exact h.endRefresh hj (running_of hpc)
    · cases hs
  | panic j =>
    obtain ⟨r, hj, hs⟩ := Option.bind_eq_some_iff.mp hs
    split_ifs at hs with hrunning
    cases hs
    exact h.endRefresh hj hrunning
  | elapse secs =>
    cases hs
    exact h.elapse secs

theorem init : (Inventory.init : State D).Sound where
  single := rfl
  fetched s hs := by cases hs
  kept s hs := by cases hs
  refreshes j r hj := by cases hj
  warm i page hi := by cases hi
  serves i page hi := by cases hi

end State.Sound

/-- However its pages, its refreshes and their failures interleave, the cache keeps its promises. -/
theorem cached_inventory_sound {ok : State D → Event D → Prop} (h : Run step ok init st) : st.Sound :=
  h.invariant .init fun _ _ _ hsound _ hs ↦ hsound.step hs

/-- The cache as the handlers of the dashboard see it: the snapshot, and how far the one refresh is. -/
structure Shows (st : State (List Info)) (w : World) (c : InventoryCache) : Prop where
  now : st.now = w.now
  snapshot : (st.snapshot.map fun s ↦ (⟨s.taken, s.data⟩ : PgVmPool.InvSnapshot)) = c.snapshot
  flag : st.refreshing = decide (c.refresh ≠ .idle)
  fetching : c.refresh = .fetching → ∃ j begun : ℕ, st.refreshes[j]? = some ⟨begun, .fetching⟩
  fetched : c.refresh = .fetched → ∃ j begun : ℕ, st.refreshes[j]? = some ⟨begun, .leaving⟩

/-- Where a page stands once it has its inventory, or has to fetch it. -/
def PagePc.At (pc : PagePc (List Info)) : RowsPc → Prop
  | .snapshot list => ∃ how s read acted, pc = .served how s read acted ∧ s.data = list
  | .coldFetch => pc = .fetching
  | .failed => pc = .failed
  | .inventory | .records _ _ | .rows _ => False

section Refinement

variable {st : State (List Info)} {w : World} {c c' : InventoryCache}

theorem Shows.setPage (h : Shows st w c) (i : ℕ) (page : Page (List Info)) : Shows (st.setPage i page) w c :=
  ⟨h.now, h.snapshot, h.flag, h.fetching, h.fetched⟩

theorem Shows.ask (h : Shows st w c) : Shows { st with pages := st.pages ++ [⟨st.snapshot.isSome, .start⟩] } w c :=
  ⟨h.now, h.snapshot, h.flag, h.fetching, h.fetched⟩

/-- What the plan of a page does to the cache is what `cached_inventory` does. -/
theorem Shows.serve (h : Shows st w c) (page : Page (List Info)) {i : ℕ} (hi : i < st.pages.length) :
    Shows (st.serve i page st.snapshot st.now) w (cachedInventory w c).1 ∧
      ∃ served, (st.serve i page st.snapshot st.now).pages[i]? = some served ∧
        served.pc.At (cachedInventory w c).2 := by
  have hset (st' : State (List Info)) (hpages : st'.pages = st.pages) (served : Page (List Info)) :
      (st'.setPage i served).pages[i]? = some served := by
    rw [State.setPage, hpages]
    exact List.getElem?_set_self hi
  have hsnapshot := h.snapshot
  cases hs : st.snapshot with
  | none =>
    rw [hs, Option.map_none] at hsnapshot
    rw [cachedInventory, ← hsnapshot]
    exact ⟨h.setPage i _, _, hset st rfl _, rfl⟩
  | some s =>
    rw [hs, Option.map_some] at hsnapshot
    have hage : w.now - s.taken = st.now - s.taken := by rw [h.now]
    by_cases hfresh : st.now - s.taken < inventoryFresh
    · simp only [State.serve, cachedInventory, servePlan, ← hsnapshot, hage, Option.map_some, if_pos hfresh]
      exact ⟨h.setPage i _, _, hset st rfl _, .fresh, s, st.now, st.now, rfl, rfl⟩
    · simp only [State.serve, cachedInventory, servePlan, ← hsnapshot, hage, Option.map_some, if_neg hfresh]
      by_cases hidle : c.refresh = .idle
      · have hfree : st.refreshing = false := by rw [h.flag, hidle]; rfl
        rw [if_pos hidle, if_neg (Bool.eq_false_iff.mp hfree)]
        refine ⟨?_, _, hset st rfl _, .staleRefresh, s, st.now, st.now, rfl, rfl⟩
        exact {
          now := h.now
          snapshot := h.snapshot.trans hsnapshot.symm
          flag := rfl
          fetching := fun _ ↦ ⟨st.refreshes.length, st.now, List.getElem?_concat_length ..⟩
          fetched := fun hrefresh ↦ by cases hrefresh }
      · have hrunning : st.refreshing = true := h.flag.trans (decide_eq_true hidle)
        rw [if_neg hidle, if_pos hrunning]
        refine ⟨?_, _, hset st rfl _, .staleRefresh, s, st.now, st.now, rfl, rfl⟩
        exact {
          now := h.now
          snapshot := h.snapshot.trans hsnapshot.symm
          flag := h.flag
          fetching := h.fetching
          fetched := h.fetched }

/-- A page that is asked for and goes on at once does what the handler's step does. -/
theorem cached_refines (h : Shows st w c) : ∃ st',
    exec step [.ask, .go st.pages.length, .go st.pages.length] st = some st' ∧
      Shows st' w (cachedInventory w c).1 ∧
        ∃ page, st'.pages[st.pages.length]? = some page ∧ page.pc.At (cachedInventory w c).2 := by
  have hasked := (h.ask).setPage st.pages.length ⟨st.snapshot.isSome, .planned st.snapshot st.now⟩
  obtain ⟨hshows, page, hpage, hat⟩ := hasked.serve
    ⟨st.snapshot.isSome, .planned st.snapshot st.now⟩ (i := st.pages.length) (by simp [State.setPage])
  refine ⟨_, ?_, hshows, page, hpage, hat⟩
  simp [exec, step, State.setPage]

/-- So does the answer to a page that waits for its own fetch. -/
theorem coldFetch_refines {a : Answer} {pc' : RowsPc} {i : ℕ} {warm : Bool} (h : Shows st w c)
    (hi : st.pages[i]? = some ⟨warm, .fetching⟩) (hs : rowsStep w c .coldFetch a = some (c', pc')) :
    ∃ ls st', exec step ls st = some st' ∧ Shows st' w c' ∧
      ∃ page, st'.pages[i]? = some page ∧ page.pc.At pc' := by
  have hlt := (List.getElem?_eq_some_iff.mp hi).1
  cases a with
  | listing list =>
    cases hs
    let storing : State (List Info) :=
      { st.setPage i ⟨warm, .storing ⟨st.now, list⟩⟩ with fetches := st.fetches ++ [⟨st.now, list⟩] }
    let served : State (List Info) :=
      { storing.setPage i ⟨warm, .served .coldFetch ⟨st.now, list⟩ st.now st.now⟩ with
        snapshot := some ⟨st.now, list⟩ }
    have hstoring : storing.pages[i]? = some ⟨warm, .storing ⟨st.now, list⟩⟩ := List.getElem?_set_self hlt
    have hlength : i < storing.pages.length := (List.getElem?_eq_some_iff.mp hstoring).1
    have hfirst : step (.fetched i (some list)) st = some storing := by rw [step, hi]; rfl
    have hsecond : step (.go i) storing = some served := by rw [step, hstoring]; rfl
    refine ⟨[.fetched i (some list), .go i], served,
      exec_cons.mpr ⟨storing, hfirst, exec_cons.mpr ⟨served, hsecond, rfl⟩⟩, ?_,
      _, List.getElem?_set_self hlength, .coldFetch, ⟨st.now, list⟩, st.now, st.now, rfl, rfl⟩
    exact {
      now := h.now
      snapshot := by rw [← h.now]; rfl
      flag := h.flag
      fetching := h.fetching
      fetched := h.fetched }
  | failed =>
    cases hs
    have hstep : step (.fetched i none) st = some (st.setPage i ⟨warm, .failed⟩) := by rw [step, hi]; rfl
    exact ⟨[.fetched i none], _, exec_cons.mpr ⟨_, hstep, rfl⟩, h.setPage i _, _, List.getElem?_set_self hlt, rfl⟩
  | _ => cases hs

/-- What the background refresh does is what one of the refreshes does. -/
theorem refresh_refines {a : Answer} (h : Shows st w c) (hs : refreshStep w c a = some c') :
    ∃ ls st', exec step ls st = some st' ∧ Shows st' w c' := by
  cases a with
  | listing list =>
    obtain ⟨hfetching, heq⟩ := Option.ite_none_right_eq_some.mp hs
    cases heq
    obtain ⟨j, begun, hj⟩ := h.fetching hfetching
    have hlt := (List.getElem?_eq_some_iff.mp hj).1
    let storing : State (List Info) :=
      { st.setRefresh j ⟨begun, .storing ⟨st.now, list⟩⟩ with fetches := st.fetches ++ [⟨st.now, list⟩] }
    let stored : State (List Info) :=
      { storing.setRefresh j ⟨begun, .leaving⟩ with snapshot := some ⟨st.now, list⟩ }
    have hstoring : storing.refreshes[j]? = some ⟨begun, .storing ⟨st.now, list⟩⟩ := List.getElem?_set_self hlt
    have hlength : j < storing.refreshes.length := (List.getElem?_eq_some_iff.mp hstoring).1
    have hfirst : step (.refreshed j (some list)) st = some storing := by rw [step, hj]; rfl
    have hsecond : step (.refresh j) storing = some stored := by rw [step, hstoring]; rfl
    refine ⟨[.refreshed j (some list), .refresh j], stored,
      exec_cons.mpr ⟨storing, hfirst, exec_cons.mpr ⟨stored, hsecond, rfl⟩⟩, ?_⟩
    exact {
      now := h.now
      snapshot := by rw [← h.now]; rfl
      flag := h.flag.trans (by rw [hfetching]; rfl)
      fetching := fun hrefresh ↦ by cases hrefresh
      fetched := fun _ ↦ ⟨j, begun, List.getElem?_set_self hlength⟩ }
  | failed =>
    obtain ⟨hfetching, heq⟩ := Option.ite_none_right_eq_some.mp hs
    cases heq
    obtain ⟨j, begun, hj⟩ := h.fetching hfetching
    have hlt := (List.getElem?_eq_some_iff.mp hj).1
    have hstep : step (.refreshed j none) st = some (st.setRefresh j ⟨begun, .leaving⟩) := by rw [step, hj]; rfl
    refine ⟨[.refreshed j none], _, exec_cons.mpr ⟨_, hstep, rfl⟩, {
      now := h.now
      snapshot := h.snapshot
      flag := h.flag.trans (by rw [hfetching]; rfl)
      fetching := fun hrefresh ↦ by cases hrefresh
      fetched := fun _ ↦ ⟨j, begun, List.getElem?_set_self hlt⟩ }⟩
  | go =>
    obtain ⟨hfetched, heq⟩ := Option.ite_none_right_eq_some.mp hs
    cases heq
    obtain ⟨j, begun, hj⟩ := h.fetched hfetched
    have hstep : step (.refresh j) st = some (st.endRefresh j ⟨begun, .leaving⟩) := by rw [step, hj]; rfl
    refine ⟨[.refresh j], _, exec_cons.mpr ⟨_, hstep, rfl⟩, {
      now := h.now
      snapshot := h.snapshot
      flag := rfl
      fetching := fun hrefresh ↦ by cases hrefresh
      fetched := fun hrefresh ↦ by cases hrefresh }⟩
  | _ => cases hs

end Refinement

/-- The first page fetches for itself; of the two that find its inventory old one starts a refresh, which panics,
and the page after them starts another. -/
def panicked : List (Event ℕ) :=
  [.ask, .go 0, .go 0, .fetched 0 (some 7), .go 0, .elapse 6, .ask, .ask, .go 1, .go 2, .go 1, .go 2, .panic 0,
    .ask, .go 3, .go 3, .elapse 1, .refreshed 1 (some 8), .refresh 1, .refresh 1, .ask, .go 4, .go 4]

def panickedPages : List (Page ℕ) :=
  [⟨false, .served .coldFetch ⟨0, 7⟩ 0 0⟩, ⟨true, .served .staleRefresh ⟨0, 7⟩ 6 6⟩,
    ⟨true, .served .staleRefresh ⟨0, 7⟩ 6 6⟩, ⟨true, .served .staleRefresh ⟨0, 7⟩ 6 6⟩,
    ⟨true, .served .fresh ⟨7, 8⟩ 7 7⟩]

theorem cached_inventory_sound_panicked : ∃ st, Run step (fun _ _ ↦ True) init st ∧ st.pages = panickedPages ∧
    st.refreshes = [⟨6, .ended 6⟩, ⟨6, .ended 7⟩] ∧ st.Sound := by
  have hany : (exec step panicked init).any (fun st ↦
      decide (st.pages = panickedPages ∧ st.refreshes = [⟨6, .ended 6⟩, ⟨6, .ended 7⟩])) = true := by
    rfl
  obtain ⟨st, hexec, hst⟩ := (Option.any_eq_true _ _).mp hany
  obtain ⟨hpages, hrefreshes⟩ := of_decide_eq_true hst
  have hrun : Run step (fun _ _ ↦ True) init st := .of_exec_true hexec fun _ _ ↦ trivial
  exact ⟨st, hrun, hpages, hrefreshes, cached_inventory_sound hrun⟩

end PgVmPool.Inventory
