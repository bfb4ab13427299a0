import PgVmPool.Store

namespace PgVmPool

open Function

/-- The kinds of work the picker hands out. -/
inductive JobKind
  | promote | compact | imageArchive | archive | freeze
  deriving DecidableEq

inductive OffloadMode
  | routine | pressure
  deriving DecidableEq

namespace JobKind

def boots : JobKind → Bool
  | .archive | .freeze => true
  | .promote | .compact | .imageArchive => false

def rank : JobKind → OffloadMode → ℕ
  | .promote, .routine => 0
  | .compact, .routine => 1
  | .imageArchive, .routine => 2
  | .archive, .routine => 3
  | .freeze, .routine => 4
  | .compact, .pressure => 0
  | .imageArchive, .pressure => 1
  | .promote, .pressure => 2
  | .archive, .pressure => 3
  | .freeze, .pressure => 4

end JobKind

structure OffloadJob where
  schema : Schema
  kind : JobKind
  deriving DecidableEq

structure OffloadPolicy where
  compactAfter : Option ℕ
  freezeAfter : Option ℕ
  archiveAfter : Option ℕ
  imageArchive : Bool
  noBoot : Bool
  mode : OffloadMode

inductive SweepAction
  | skip | refresh | archive
  deriving DecidableEq

/-- A schema's warm entry, as the picker sees it: sessions and idle seconds. -/
abbrev WarmEntry := Option (ℕ × ℕ)

def StoreRecord.idle (rec : StoreRecord) (now : UInt64) : ℕ := now.toNat - rec.lastActive.toNat

def classifyCandidate (rec : StoreRecord) (keepalive : Bool) (now : UInt64) (thresholdSecs : ℕ)
    (live : WarmEntry) : SweepAction :=
  if rec.offloaded || keepalive then .skip
  else if rec.idle now < thresholdSecs then .skip
  else match live with
    | some (active, idleSecs) => if 0 < active || idleSecs < thresholdSecs then .refresh else .archive
    | none => .archive

namespace OffloadPolicy

variable (t : OffloadPolicy) (warm : WarmEntry) (rec : StoreRecord) (now : UInt64)

def eligible (after : Option ℕ) (crossCheck : WarmEntry) : Bool :=
  after.any fun after ↦ classifyCandidate rec false now after crossCheck = .archive

/-- The step down the ladder that the policy offers a schema, if any. -/
def offer : Option JobKind :=
  match rec.tier with
  | .archived => none
  | .frozen | .compacted =>
    if t.archiveAfter.any (· ≤ rec.idle now) then some .promote else none
  | .live =>
    if warm.isNone && eligible rec now t.compactAfter none then some .compact
    else if t.imageArchive && t.mode = .pressure && warm.isNone && eligible rec now t.archiveAfter none then
      some .imageArchive
    else if !t.noBoot && eligible rec now t.archiveAfter warm then some .archive
    else if !t.noBoot && eligible rec now t.freezeAfter warm then some .freeze
    else none

/-- Stale in the registry but warm: its clock is refreshed. -/
def staleButWarm : Bool :=
  rec.tier = .live && [t.compactAfter, t.archiveAfter, t.freezeAfter].any fun after ↦
    after.any fun after ↦ classifyCandidate rec false now after warm = .refresh

variable {t warm rec now}

/-- A promotion is offered on a local tier, everything else on a live row. -/
theorem offer_tier {kind : JobKind} (h : t.offer warm rec now = some kind) :
    kind = .promote ∧ (rec.tier = .frozen ∨ rec.tier = .compacted) ∨
      kind ≠ .promote ∧ rec.tier = .live ∧ (kind.boots = true → t.noBoot = false) := by
  unfold offer at h
  split at h
  · cases h
  · split_ifs at h
    cases h
    exact .inl ⟨rfl, .inl ‹_›⟩
  · split_ifs at h
    cases h
    exact .inl ⟨rfl, .inr ‹_›⟩
  · split_ifs at h with h1 h2 h3 h4
    · cases h
      exact .inr ⟨by simp, ‹_›, by simp [JobKind.boots]⟩
    · cases h
      exact .inr ⟨by simp, ‹_›, by simp [JobKind.boots]⟩
    · cases h
      simp only [Bool.and_eq_true, Bool.not_eq_true'] at h3
      exact .inr ⟨by simp, ‹_›, fun _ ↦ h3.1⟩
    · cases h
      simp only [Bool.and_eq_true, Bool.not_eq_true'] at h4
      exact .inr ⟨by simp, ‹_›, fun _ ↦ h4.1⟩

end OffloadPolicy

/-- The best job so far: its rank, how long its schema is idle, the job. -/
abbrev Best := Option (ℕ × ℕ × OffloadJob)

def Best.improve (best : Best) (rank idle : ℕ) (job : OffloadJob) : Best :=
  if best.all fun b ↦ rank < b.1 || (rank = b.1 && b.2.1 < idle) then some (rank, idle, job) else best

section Picker

variable (live : Schema → WarmEntry) (t : OffloadPolicy) (keepalive backingOff : Schema → Bool)
  (now : UInt64)

def pickRow (acc : Best × List Schema) (row : Schema × StoreRecord) : Best × List Schema :=
  if keepalive row.1 || backingOff row.1 then acc
  else match t.offer (live row.1) row.2 now with
    | some kind => (Best.improve acc.1 (kind.rank t.mode) (row.2.idle now) ⟨row.1, kind⟩, acc.2)
    | none => if t.staleButWarm (live row.1) row.2 now then (acc.1, acc.2 ++ [row.1]) else acc

def pickOffloadJob (records : List (Schema × StoreRecord)) : Option OffloadJob × List Schema :=
  let picked := records.foldl (pickRow live t keepalive backingOff now) (none, [])
  (picked.1.map (·.2.2), picked.2)

/-- The policy offers this job for some row that nothing holds back. -/
def Offered (records : List (Schema × StoreRecord)) (job : OffloadJob) : Prop :=
  ∃ rec, (job.schema, rec) ∈ records ∧ keepalive job.schema = false ∧ backingOff job.schema = false ∧
    t.offer (live job.schema) rec now = some job.kind

variable {live t keepalive backingOff now} {records : List (Schema × StoreRecord)}

theorem pickRow_cases (acc : Best × List Schema) (row : Schema × StoreRecord) :
    (pickRow live t keepalive backingOff now acc row).1 = acc.1 ∨
      ∃ kind, keepalive row.1 = false ∧ backingOff row.1 = false ∧
        t.offer (live row.1) row.2 now = some kind ∧
          (pickRow live t keepalive backingOff now acc row).1 =
            some (kind.rank t.mode, row.2.idle now, ⟨row.1, kind⟩) := by
  unfold pickRow
  split
  · exact .inl rfl
  · rename_i hheld
    simp only [Bool.or_eq_true, not_or, Bool.not_eq_true] at hheld
    split
    · rename_i kind hk
      unfold Best.improve
      split
      · exact .inr ⟨kind, hheld.1, hheld.2, hk, rfl⟩
      · exact .inl rfl
    · split <;> exact .inl rfl

theorem foldl_pickRow_offered (rows : List (Schema × StoreRecord)) (acc : Best × List Schema)
    (hrows : ∀ row ∈ rows, row ∈ records)
    (hacc : ∀ b, acc.1 = some b → Offered live t keepalive backingOff now records b.2.2) :
    ∀ b, (rows.foldl (pickRow live t keepalive backingOff now) acc).1 = some b →
      Offered live t keepalive backingOff now records b.2.2 := by
  induction rows generalizing acc with
  | nil => exact hacc
  | cons row rows ih =>
    refine ih _ (fun r hr ↦ hrows r (List.mem_cons_of_mem _ hr)) fun b hb ↦ ?_
    have hpick := @pickRow_cases live t keepalive backingOff now acc row
    rcases hpick with h | ⟨kind, hkeep, hback, hoffer, h⟩
    · exact hacc b (h ▸ hb)
    · rw [h, Option.some_inj] at hb
      subst hb
      exact ⟨row.2, hrows row (List.mem_cons_self ..), hkeep, hback, hoffer⟩

theorem offered_of_pick {job : OffloadJob}
    (h : (pickOffloadJob live t keepalive backingOff now records).1 = some job) :
    Offered live t keepalive backingOff now records job := by
  obtain ⟨b, hb, rfl⟩ := Option.map_eq_some_iff.mp h
  exact foldl_pickRow_offered records (none, []) (fun _ h ↦ h) (fun _ h ↦ by cases h) b hb

end Picker

def offloadBackoffBase : ℕ := 30 * 60

def offloadBackoffCap : ℕ := 24 * 3600

def offloadBackoffDelay (failures : ℕ) : ℕ :=
  min (offloadBackoffBase * 2 ^ min (failures - 1) 6) offloadBackoffCap

/-- Consecutive failures of a schema and when the last one was. -/
abbrev OffloadBackoff := Schema → Option (ℕ × ℕ)

namespace OffloadBackoff

/-- The failures a schema has had in a row once it fails again. -/
def nextFailures (b : OffloadBackoff) (s : Schema) : ℕ :=
  min (((b s).map (·.1)).getD 0 + 1) (2 ^ 32 - 1)

def recordFailure (b : OffloadBackoff) (s : Schema) (now : ℕ) : OffloadBackoff :=
  update b s (some (b.nextFailures s, now))

def clear (b : OffloadBackoff) (s : Schema) : OffloadBackoff := update b s none

def active (b : OffloadBackoff) (s : Schema) (now : ℕ) : Option ℕ :=
  (b s).bind fun x ↦
    let window := offloadBackoffDelay x.1
    if now - x.2 < window then some (window - (now - x.2)) else none

end OffloadBackoff

end PgVmPool
