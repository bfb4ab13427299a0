import PgVmPool.Rows
import PgVmPool.UntrackedReaper

namespace PgVmPool

open Function Transition

/-- The checks and awaits of `pending_pass`, pass after pass; `todo` are the stale entries the pass
has still to visit. -/
inductive JanitorPc
  | idle
  | visit (todo : List (Schema × SandboxId))
  | checkEntries (s : Schema) (id : SandboxId) (todo : List (Schema × SandboxId))
  | probe (s : Schema) (id : SandboxId) (todo : List (Schema × SandboxId))
  | kill (s : Schema) (id : SandboxId) (todo : List (Schema × SandboxId))
  | clear (s : Schema) (id : SandboxId) (todo : List (Schema × SandboxId))
  deriving DecidableEq

/-- The ledger entries that are older than `minAge`, in the order the ledger is walked in. -/
def World.stale (w : World) (minAge : ℕ) (keys : List Schema) : List (Schema × SandboxId) :=
  keys.filterMap fun s ↦
    (w.pending s).bind fun p ↦ if p.2 ≤ w.now - minAge then some (s, p.1) else none

def World.unsettled (w : World) (s : Schema) : Bool :=
  match (w.entries.lookup s).map w.cells with
  | some .empty | some (.busy _) => true
  | some (.full _) | none => false

def janitorStep (minAge : ℕ) (w : World) : JanitorPc → Answer → Option (World × JanitorPc)
  | .idle, .order keys => if keys.Nodup then some (w, .visit (w.stale minAge keys)) else none
  | .visit [], .go => some (w, .idle)
  | .visit ((s, id) :: todo), .go =>
    some (w, if w.store.idOf s = some id then .clear s id todo else .checkEntries s id todo)
  | .checkEntries s id todo, .go =>
    some (w, if w.unsettled s then .visit todo else .probe s id todo)
  | .probe s id todo, .ok => some (w, .kill s id todo)
  | .probe s id todo, .notFound => some (w, .clear s id todo)
  | .probe _ _ todo, .failed => some (w, .visit todo)
  | .kill s id todo, .ok => some ((w.kill id).removeId id, .clear s id todo)
  | .kill _ _ todo, .failed => some (w, .visit todo)
  | .clear s _ todo, .go => some (w.clearPending s, .visit todo)
  | _, _ => none

/-- The ledger entry a bring-up is about to write for the VM it has just created. -/
def Task.records : Task → Option (Schema × SandboxId)
  | .checkout _ (.bringUp _ b (.recordPending id)) => some (b.schema, id)
  | .offload s _ (.bringUp _ _ (.recordPending id)) => some (s, id)
  | _ => none

def JanitorPc.clears : JanitorPc → Option Schema
  | .clear s _ _ => some s
  | _ => none

/-- The VMs created in a run and not known to be gone, each with the schema it was created for. -/
abbrev Created := SandboxId → Option Schema

abbrev Tended := Beside State JanitorPc Created

/-- The VM whose create the daemon accepts when the task resumes, and its schema. -/
def Task.creates : Task → Answer → Option (SandboxId × Schema)
  | .checkout _ (.bringUp _ b .creating), .created id | .checkout _ (.bringUp _ b .creating), .late id =>
    some (id, b.schema)
  | .offload s _ (.bringUp _ _ .creating), .created id | .offload s _ (.bringUp _ _ .creating), .late id =>
    some (id, s)
  | _, _ => none

/-- The VM that the daemon reports gone when the task resumes. -/
def Task.misses : Task → Answer → Option SandboxId
  | .checkout _ (.bringUp _ _ (.starting _ id)), .notFound
  | .offload _ _ (.bringUp _ _ (.starting _ id)), .notFound => some id
  | _, _ => none

def JanitorPc.misses : JanitorPc → Answer → Option SandboxId
  | .probe _ id _, .notFound => some id
  | _, _ => none

namespace Tended

def creates (j : Tended) : Label ⊕ Answer → Option (SandboxId × Schema)
  | .inl (.run t a) => j.sys.tasks[t]?.bind (·.creates a)
  | _ => none

def misses (j : Tended) : Label ⊕ Answer → Option SandboxId
  | .inl (.run t a) => j.sys.tasks[t]?.bind (·.misses a)
  | .inr a => j.pc.misses a
  | _ => none

/-- A VM counts from the answer to its create until a kill of it is confirmed or the daemon reports
it gone. -/
def note (j : Tended) (l : Label ⊕ Answer) (st : State) : Created := fun v ↦
  if st.world.disks v = none ∨ j.misses l = some v then none
  else match j.creates l with
    | some (id, s) => if id = v then some s else j.seen v
    | none => j.seen v

end Tended

def tend (minAge : ℕ) (st : State) (pc : JanitorPc) (a : Answer) : Option (State × JanitorPc) :=
  (janitorStep minAge st.world pc a).map fun r ↦ ({ st with world := r.1 }, r.2)

def tendedStep (cfg : Config) (minAge : ℕ) : Label ⊕ Answer → Tended → Option Tended :=
  beside (step cfg) (tend minAge) Tended.note

def Tended.boot (w : World) : Tended := ⟨.boot w, .idle, fun _ ↦ none⟩

abbrev Tends (cfg : Config) (minAge : ℕ) (ok : Tended → Label ⊕ Answer → Prop) (w : World)
    (j : Tended) : Prop :=
  Run (tendedStep cfg minAge) ok (.boot w) j

def createsVm (t : ℕ) (s : Schema) (id : SandboxId) : List Label :=
  [.spawn (.checkout s .touch)] ++ goes t 9 ++ [.run t (.listing [])] ++ goes t 1 ++
    [.run t (.created id)]

section Steps

variable {cfg : Config} {minAge : ℕ} {a : Answer} {w w' : World} {pc pc' : JanitorPc}

theorem janitorStep_frame (h : janitorStep minAge w pc a = some (w', pc')) :
    w' = { w with pending := w'.pending, inventory := w'.inventory, disks := w'.disks } := by
  revert h
  fun_cases janitorStep minAge w pc a <;> intro h <;> cases h <;> rfl

/-- The ledger entry that a step at a ledger position leaves. -/
def EnsurePc.recorded : EnsurePc → Option SandboxId
  | .recordPending id => some id
  | _ => none

theorem ensureStep_ledger {b : BringUp} {p p' : EnsurePc} (h : ensureStep b w p a = some (w', p'))
    (hp : p.ledger = true) : w'.pending b.schema = p.recorded.map (·, w.now) := by
  revert h
  fun_cases ensureStep b w p a <;> intro h <;> (try cases hp) <;> cases h
  case case34 =>
    rw [BringUp.dropScratch_frame]
    simp [World.clearPending, EnsurePc.recorded]
  all_goals simp [World.recordPending, World.clearPending, World.removeId, EnsurePc.recorded]

theorem ckStep_ledger {t : ℕ} {r s : Schema} {pc pc' : CkPc}
    (h : ckStep cfg t r w pc a = some (w', pc')) (hx : (Task.checkout r pc).ledger = some s) :
    w'.pending s = (Task.checkout r pc).records.map fun p ↦ (p.2, w.now) := by
  revert h
  fun_cases ckStep cfg t r w pc a <;> intro h <;> (try cases h) <;> (try cases hx)
  case case24 b p _ _ =>
    obtain ⟨_, hp, heq⟩ := Option.map_eq_some_iff.mp h
    cases heq
    have hledger : p.ledger = true ∧ b.schema = s := by
      cases p <;> cases hx <;> exact ⟨rfl, rfl⟩
    rw [← hledger.2, ensureStep_ledger hp hledger.1]
    cases p <;> rfl
  case case26 => exact update_self _ _ _

theorem offCore_ledger {r s : Schema} {kind : OffloadKind} {pc pc' : OffPc}
    (h : offCore cfg r kind w pc a = some (w', pc')) (hx : (Task.offload r kind pc).ledger = some s) :
    w'.pending s = (Task.offload r kind pc).records.map fun p ↦ (p.2, w.now) := by
  rcases offCore_ensure_or h with ⟨_, _, p, p', rfl, -, hp⟩ | hapart
  · have hledger : p.ledger = true ∧ r = s := by
      cases p <;> cases hx <;> exact ⟨rfl, rfl⟩
    obtain rfl := hledger.2
    rw [ensureStep_ledger hp hledger.1]
    cases p <;> rfl
  · cases pc with
    | bringUp _ _ p =>
      rcases hapart.ended _ _ p rfl with rfl | ⟨id, n, rfl⟩ <;> cases hx
    | _ => cases hx

theorem Task.pending_of_ledger {t : ℕ} {x y : Task} {s : Schema}
    (h : taskStep cfg t w a x = some (w', y)) (hx : x.ledger = some s) :
    w'.pending s = x.records.map fun p ↦ (p.2, w.now) := by
  cases x with
  | checkout r pc =>
    obtain ⟨⟨u, p⟩, hp, heq⟩ := Option.map_eq_some_iff.mp h
    cases heq
    exact ckStep_ledger hp hx
  | offload r kind pc =>
    obtain ⟨⟨u, p⟩, hp, heq⟩ := Option.map_eq_some_iff.mp h
    cases heq
    obtain ⟨u', hu, -, rfl⟩ := offStep_eq hp
    exact (offCore_ledger hu hx :)
  | reapIdle | reapUntracked | purge => cases hx

theorem Task.ledger_of_records {x : Task} {s : Schema} {v : SandboxId}
    (hx : x.records = some (s, v)) : x.ledger = some s := by
  unfold Task.records at hx
  split at hx <;> cases hx <;> rfl

theorem Task.ledger_of_puts {x : Task} {p : Schema × SandboxId} (hx : x.puts w = some p) :
    x.ledger = none := by
  unfold Task.puts at hx
  split at hx <;> first | rfl | cases hx

theorem janitorStep_pending {s : Schema} (h : janitorStep minAge w pc a = some (w', pc'))
    (hs : w'.pending s ≠ w.pending s) : pc.clears = some s := by
  revert h
  fun_cases janitorStep minAge w pc a <;> intro h <;> cases h
  case case11 => exact congrArg some (by_contra fun hne ↦ hs (update_of_ne (Ne.symm hne) _ _))
  all_goals exact absurd rfl hs

theorem tend_eq {st st' : State} (h : tend minAge st pc a = some (st', pc')) :
    janitorStep minAge st.world pc a = some (st'.world, pc') ∧ st'.tasks = st.tasks := by
  obtain ⟨⟨u, p⟩, hu, heq⟩ := Option.map_eq_some_iff.mp h
  cases heq
  exact ⟨hu, rfl⟩

theorem janitorStep_shrinks (h : janitorStep minAge w pc a = some (w', pc')) : w.Shrinks w' := by
  rw [janitorStep_frame h]
  exact World.SameMap.shrinks ⟨rfl, rfl, rfl, rfl, rfl⟩

theorem State.Sound.of_world {st st' : State} (h : st.Sound) (hw : st.world.Shrinks st'.world)
    (ht : st'.tasks = st.tasks) : st'.Sound where
  world := hw.bounded h.world
  counted := hw.counted h.counted
  fits t x hx := (h.fits t x (ht ▸ hx)).of_shrinks hw

theorem Tends.sound {ok : Tended → Label ⊕ Answer → Prop} {j : Tended}
    (h : Tends cfg minAge ok w j) : j.sys.Sound := by
  refine Beside.invariant h (State.sound_boot w) (fun _ _ _ hI hs ↦ hI.step (step_sound hs)) ?_
  intro st p x st' q hI hm
  obtain ⟨hj, ht⟩ := tend_eq hm
  exact hI.of_world (janitorStep_shrinks hj) ht

end Steps

end PgVmPool
