import PgVmPool.System

namespace PgVmPool.Orphans

open Transition

section Runs

variable {α : Type} {a b : α} {xs : List α} {n : ℕ}

/-- The list ends in exactly `n` copies of `a`. -/
def EndsIn (a : α) (xs : List α) (n : ℕ) : Prop := ∀ k, List.replicate k a <:+ xs ↔ k ≤ n

theorem EndsIn.nil (a : α) : EndsIn a [] 0 := by
  intro k
  rw [List.suffix_nil, List.replicate_eq_nil_iff, Nat.le_zero]

theorem EndsIn.concat (h : EndsIn a xs n) : EndsIn a (xs ++ [a]) (n + 1) := by
  intro k
  cases k with
  | zero => exact iff_of_true (List.nil_suffix) (Nat.zero_le _)
  | succ k =>
    rw [List.replicate_succ', List.suffix_concat_iff, Nat.succ_le_succ_iff, ← h k]
    simp

theorem EndsIn.concat_ne (hb : b ≠ a) (xs : List α) : EndsIn a (xs ++ [b]) 0 := by
  intro k
  cases k with
  | zero => exact iff_of_true (List.nil_suffix) le_rfl
  | succ k =>
    rw [List.replicate_succ', List.suffix_concat_iff]
    simp [hb.symm]

end Runs

abbrev Inode := UInt64 × UInt64

/-- One directory entry: whether `read_dir` could read it, and what `file_type` and `metadata` say
of it. -/
structure Stat where
  inode : Inode
  listed : Bool
  typed : Bool
  readable : Bool
  deriving DecidableEq

def Stat.lookedUp (stat : Stat) : Bool := stat.listed && stat.readable

inductive Node
  | file (stat : Stat)
  | dir (stat : Stat) (readable : Bool) (entries : List Node)

def Node.stat : Node → Stat
  | .file stat | .dir stat _ _ => stat

mutual

def Node.files : Node → List Inode
  | .file stat => [stat.inode]
  | .dir _ _ entries => filesOf entries

def filesOf : List Node → List Inode
  | [] => []
  | e :: es => e.files ++ filesOf es

end

/-- A sandbox directory as one look at it finds it. -/
structure View where
  readable : Bool
  entries : List Node

def View.files (v : View) : List Inode := filesOf v.entries

def Stat.isOpen (opened : List Inode) (stat : Stat) : Bool :=
  stat.lookedUp && decide (stat.inode ∈ opened)

/-- One entry in the loop of `dir_held_open`. -/
def Node.heldOpen (opened : List Inode) (e : Node) : Bool :=
  if !e.stat.listed then false
  else if !e.stat.typed then true
  else match e with
    | .file stat => stat.isOpen opened
    | .dir _ readable entries => readable && entries.any fun s ↦ s.stat.isOpen opened

def dirHeldOpen (v : View) (opened : List Inode) : Bool :=
  !v.readable || v.entries.any fun e ↦ e.heldOpen opened

/-- The files of a subdirectory's entry that `dir_held_open` does not look up: it stats the entry
itself and goes no deeper. -/
def Node.deeper : Node → List Inode
  | .file stat => if stat.lookedUp then [] else [stat.inode]
  | .dir _ _ entries => filesOf entries

def Node.overlooked : Node → List Inode
  | .file stat => if stat.lookedUp then [] else [stat.inode]
  | .dir stat readable entries =>
    if stat.listed && readable then entries.flatMap Node.deeper else filesOf entries

/-- The files of a directory that `dir_held_open` does not look up. -/
def View.overlooked (v : View) : List Inode := v.entries.flatMap Node.overlooked

/-- An open file is there to be overlooked. -/
def View.missesOpen (v : View) (opened : List Inode) : Bool := v.overlooked.any fun i ↦ i ∈ opened

/-- Times are in nanoseconds. -/
def orphanMinAge : ℕ := 1800 * 1000000000

def orphanMaxDeletesPerSweep : ℕ := 100
def orphanMaxRootfsPrunesPerSweep : ℕ := 250
def orphanMaxDaemonErrors : ℕ := 5

inductive DaemonState
  | present (running : Bool)
  | gone
  | error
  deriving DecidableEq, Repr

def daemonErrorRun (run : ℕ) : DaemonState → ℕ
  | .error => run + 1
  | .present _ | .gone => 0

/-- An entry of the run dir: its name where that is UTF-8, and its mtime, which the sweep reads only
if the metadata are to be had. -/
structure Listed where
  name : Option String
  isDir : Bool
  mtime : ℕ
  dated : Bool
  deriving DecidableEq

/-- An mtime in the future counts as new, one that cannot be read does not. -/
def Listed.tooNew (now : ℕ) (e : Listed) : Bool :=
  e.dated && decide (e.mtime ≤ now → now - e.mtime < orphanMinAge)

structure Dir where
  id : String
  mtime : ℕ
  dated : Bool
  deriving DecidableEq

def Listed.candidate (now : ℕ) (e : Listed) : Option Dir :=
  match e.name with
  | none => none
  | some name =>
    if "sb-".toList <+: name.toList ∧ e.isDir ∧ ¬ e.tooNew now then
      some ⟨name, e.mtime, e.dated⟩
    else none

def fileOlderThan (mtime : Option ℕ) (now : ℕ) : Bool :=
  mtime.any fun m ↦ decide (m ≤ now ∧ orphanMinAge ≤ now - m)

/-- The map from sandbox ids to schemas and tiers, built from the rows in the order given: of two
rows with one id the later one stays. -/
def byId (rows : List (Schema × StoreRecord)) (id : String) : Option (Schema × Tier) :=
  ((rows.filter fun r ↦ r.2.sandboxId.text = id).getLast?).map fun r ↦ (r.1, r.2.tier)

/-- A directory on the list for deletion, with what the daemon said of it then. -/
structure Orphan where
  dir : Dir
  answer : DaemonState
  deriving DecidableEq

inductive Phase
  | classify | delete
  deriving DecidableEq

/-- The local variables of a pass. `answers` and `attempts` are history only. -/
structure Pass where
  now : ℕ
  rows : List (Schema × StoreRecord)
  opened : List Inode
  phase : Phase
  dirs : List Dir
  daemonErrs : ℕ
  answers : List DaemonState
  aborted : Bool
  deletable : List Orphan
  dataloss : List (Schema × String)
  staleRootfs : List String
  backlog : ℕ
  rootfsBacklog : ℕ
  confirmed : Option (Orphan × View × DaemonState)
  attempts : ℕ
  removed : ℕ
  pruned : ℕ

namespace Pass

def start (now : ℕ) (rows : List (Schema × StoreRecord)) (opened : List Inode) (dirs : List Dir) :
    Pass where
  now
  rows
  opened
  phase := .classify
  dirs
  daemonErrs := 0
  answers := []
  aborted := false
  deletable := []
  dataloss := []
  staleRootfs := []
  backlog := 0
  rootfsBacklog := 0
  confirmed := none
  attempts := 0
  removed := 0
  pruned := 0

/-- What the daemon's answer for a directory that nothing seems to hold open comes to. -/
def settle (p : Pass) (d : Dir) (answer : DaemonState) (rootfsOld : Bool) : Pass :=
  match answer with
  | .present running =>
    if !running && rootfsOld then { p with staleRootfs := p.staleRootfs ++ [d.id] } else p
  | .error => if orphanMaxDaemonErrors ≤ p.daemonErrs then { p with aborted := true } else p
  | .gone =>
    match byId p.rows d.id with
    | some (schema, .live) => { p with dataloss := p.dataloss ++ [(schema, d.id)] }
    | _ => { p with deletable := p.deletable ++ [⟨d, answer⟩] }

/-- One turn of the classification loop. -/
def classify (p : Pass) (view : View) (answer : DaemonState) (rootfsOld : Bool) : Option Pass :=
  match p.phase, p.aborted, p.dirs with
  | .classify, false, d :: rest =>
    if dirHeldOpen view p.opened then some { p with dirs := rest }
    else
      let p := { p with
        dirs := rest
        answers := p.answers ++ [answer]
        daemonErrs := daemonErrorRun p.daemonErrs answer }
      some (p.settle d answer rootfsOld)
  | _, _, _ => none

/-- From the end of the classification loop to the second snapshot of open files. -/
def resnapshot (p : Pass) (opened : List Inode) : Option Pass :=
  if p.phase = .classify ∧ (p.aborted = true ∨ p.dirs = []) then
    some { p with
      phase := .delete
      opened
      backlog := p.deletable.length - orphanMaxDeletesPerSweep
      deletable := p.deletable.take orphanMaxDeletesPerSweep
      rootfsBacklog := p.staleRootfs.length - orphanMaxRootfsPrunesPerSweep
      staleRootfs := p.staleRootfs.take orphanMaxRootfsPrunesPerSweep }
  else none

/-- The two re-checks before a `remove_dir_all`. -/
def recheck (p : Pass) (view : View) (answer : DaemonState) : Option Pass :=
  match p.phase, p.confirmed, p.deletable with
  | .delete, none, o :: rest =>
    if dirHeldOpen view p.opened ∨ answer ≠ .gone then some { p with deletable := rest }
    else some { p with deletable := rest, confirmed := some (o, view, answer) }
  | _, _, _ => none

def remove (p : Pass) (ok : Bool) : Pass :=
  { p with
    confirmed := none, attempts := p.attempts + 1, removed := if ok then p.removed + 1 else p.removed }

/-- One leftover rootfs, after the last directory. -/
def prune (p : Pass) (view : View) (rootfsOld : Bool) (answer : DaemonState) (ok : Bool) : Option Pass :=
  match p.phase, p.confirmed, p.deletable, p.staleRootfs with
  | .delete, none, [], _ :: rest =>
    if !dirHeldOpen view p.opened && rootfsOld && answer = .present false && ok then
      some { p with staleRootfs := rest, pruned := p.pruned + 1 }
    else some { p with staleRootfs := rest }
  | _, _, _, _ => none

def ends (p : Pass) : Bool :=
  p.phase = .delete && p.confirmed.isNone && p.deletable.isEmpty && p.staleRootfs.isEmpty

end Pass

/-- The calls that change the registry's rows. -/
inductive Update
  | put (s : Schema) (id : SandboxId) (now : UInt64)
  | touch (s : Schema) (now : UInt64)
  | setTier (s : Schema) (tier : Tier)
  | adoptArchived (s : Schema) (now : UInt64)
  | flushDirty

def Update.apply (st : Store) : Update → Store
  | .put s id now => st.put s id now
  | .touch s now => st.touch s now
  | .setTier s tier => (st.setTier s tier).getD st
  | .adoptArchived s now => st.adoptArchived s now
  | .flushDirty => st.flushDirty

/-- Some live row names the sandbox. -/
def serves (st : Store) (id : String) : Bool :=
  st.records.any fun r ↦ r.2.tier = .live && r.2.sandboxId.text = id

/-- A `remove_dir_all` that was made, with what it was made on. -/
structure Call where
  dir : Dir
  now : ℕ
  classified : DaemonState
  rechecked : DaemonState
  view : View
  opened : List Inode
  store : Store

/-- `snapshot` is the registry view of a pass that has not read the run dir yet. -/
structure Sweeper where
  store : Store
  snapshot : Option (List (Schema × StoreRecord))
  pass : Option Pass
  calls : List Call
  reports : List (ℕ × ℕ)

def Sweeper.init (store : Store) : Sweeper := ⟨store, none, none, [], []⟩

inductive Label
  | update (op : Update)
  | snapshot (rows : List (Schema × StoreRecord))
  /-- `listing` is `none` when there is no run dir to read. -/
  | list (listing : Option (List Listed)) (now : ℕ) (opened : List Inode)
  | classify (view : View) (answer : DaemonState) (rootfs : Option ℕ) (now : ℕ)
  | resnapshot (opened : List Inode)
  | recheck (view : View) (answer : DaemonState)
  | remove (ok : Bool)
  | prune (view : View) (rootfs : Option ℕ) (now : ℕ) (answer : DaemonState) (ok : Bool)
  | finish

def candidates (listing : Option (List Listed)) (now : ℕ) : List Dir :=
  (listing.getD []).filterMap (Listed.candidate now)

namespace Sweeper

def within (st : Sweeper) (f : Pass → Option Pass) : Option Sweeper :=
  (st.pass.bind f).map fun p ↦ { st with pass := some p }

/-- One pass at a time; the rows come in the order of the map. -/
def view (st : Sweeper) (rows : List (Schema × StoreRecord)) : Option Sweeper :=
  if st.snapshot = none ∧ st.pass.isNone ∧ rows.Perm st.store.records then
    some { st with snapshot := some rows }
  else none

def list (st : Sweeper) (listing : Option (List Listed)) (now : ℕ) (opened : List Inode) :
    Option Sweeper :=
  st.snapshot.map fun rows ↦
    if candidates listing now = [] then
      { st with snapshot := none, reports := st.reports ++ [(0, 0)] }
    else
      { st with
        snapshot := none
        pass := some (.start now rows opened (candidates listing now)) }

def remove (st : Sweeper) (ok : Bool) : Option Sweeper :=
  match st.pass with
  | some p =>
    match p.confirmed with
    | some (o, view, answer) =>
      some { st with
        pass := some (p.remove ok)
        calls := st.calls ++ [⟨o.dir, p.now, o.answer, answer, view, p.opened, st.store⟩] }
    | none => none
  | none => none

def finish (st : Sweeper) : Option Sweeper :=
  match st.pass with
  | some p =>
    if p.ends then
      some { st with
        pass := none, reports := st.reports ++ [(p.removed + p.pruned, p.backlog + p.rootfsBacklog)] }
    else none
  | none => none

end Sweeper

def step : Label → Sweeper → Option Sweeper
  | .update op, st => some { st with store := op.apply st.store }
  | .snapshot rows, st => st.view rows
  | .list listing now opened, st => st.list listing now opened
  | .classify view answer rootfs now, st =>
    st.within (·.classify view answer (fileOlderThan rootfs now))
  | .resnapshot opened, st => st.within (·.resnapshot opened)
  | .recheck view answer, st => st.within (·.recheck view answer)
  | .remove ok, st => st.remove ok
  | .prune view rootfs now answer ok, st =>
    st.within (·.prune view (fileOlderThan rootfs now) answer ok)
  | .finish, st => st.finish

/-- The sandbox shows as live in the registry view of a pass. -/
def shown (rows : List (Schema × StoreRecord)) (id : String) : Bool :=
  (byId rows id).any fun r ↦ r.2 = .live

namespace Pass

def orphans (p : Pass) : List Orphan := (p.confirmed.map Prod.fst).toList ++ p.deletable

/-- The directories still to be classified that the registry view does not protect. -/
def waiting (p : Pass) : List Dir :=
  if p.aborted then [] else p.dirs.filter fun d ↦ !shown p.rows d.id

/-- The directories that a pass may yet remove, as far as its registry view goes. -/
def exposed (p : Pass) : List Dir := p.orphans.map Orphan.dir ++ p.waiting

end Pass

structure Call.Sound (c : Call) : Prop where
  aged : orphanMinAge ≤ c.now - c.dir.mtime
  unopened : ∀ i ∈ c.view.files, i ∉ c.opened
  gone : c.classified = .gone ∧ c.rechecked = .gone
  unneeded : serves c.store c.dir.id = false

/-- Classification goes on until every directory is done, or breaks off at the fifth error in a row. -/
structure Pass.BreaksOff (p : Pass) : Prop where
  aborted : p.aborted = true ↔ List.replicate orphanMaxDaemonErrors .error <:+: p.answers
  atOnce : p.aborted = true → List.replicate orphanMaxDaemonErrors .error <:+ p.answers
  ended : p.phase ≠ .classify → p.aborted = true ∨ p.dirs = []

structure Sweeper.Sound (st : Sweeper) : Prop where
  calls : ∀ c ∈ st.calls, c.Sound
  bounded : ∀ p ∈ st.pass, p.attempts ≤ orphanMaxDeletesPerSweep
  breaks : ∀ p ∈ st.pass, p.BreaksOff

/-- What keeps a pass from its three oversights: a live row for a directory that the pass may remove
is in its registry view and is not hidden there by another row with the same id; a file that
`dir_held_open` does not look up is not open; the directory removed had an mtime to be read. -/
def Careful (st : Sweeper) : Label → Prop
  | .update op => ∀ p ∈ st.pass, ∀ d ∈ p.exposed, serves (op.apply st.store) d.id = false
  | .list listing now _ => ∀ rows ∈ st.snapshot, ∀ d ∈ candidates listing now,
      serves st.store d.id = true → shown rows d.id = true
  | .recheck view answer => ∀ p ∈ st.pass, answer = .gone → dirHeldOpen view p.opened = false →
      view.missesOpen p.opened = false
  | .remove _ => ∀ p ∈ st.pass, ∀ c ∈ p.confirmed, c.1.dir.dated = true
  | _ => True

instance (st : Sweeper) (l : Label) : Decidable (Careful st l) :=
  match l with
  | .update op => inferInstanceAs (Decidable (∀ p ∈ st.pass, ∀ d ∈ p.exposed,
      serves (op.apply st.store) d.id = false))
  | .list listing now _ => inferInstanceAs (Decidable (∀ rows ∈ st.snapshot,
      ∀ d ∈ candidates listing now, serves st.store d.id = true → shown rows d.id = true))
  | .recheck view answer => inferInstanceAs (Decidable (∀ p ∈ st.pass, answer = .gone →
      dirHeldOpen view p.opened = false → view.missesOpen p.opened = false))
  | .remove _ => inferInstanceAs (Decidable (∀ p ∈ st.pass, ∀ c ∈ p.confirmed, c.1.dir.dated = true))
  | .snapshot _ | .classify .. | .resnapshot _ | .prune .. | .finish =>
    inferInstanceAs (Decidable True)

section Views

variable {opened : List Inode}

theorem mem_filesOf {i : Inode} (entries : List Node) :
    i ∈ filesOf entries ↔ ∃ e ∈ entries, i ∈ e.files := by
  induction entries with
  | nil => simp [filesOf]
  | cons e es ih => simp [filesOf, ih]

theorem Stat.not_lookedUp {stat : Stat} (h : stat.isOpen opened = false) (hi : stat.inode ∈ opened) :
    stat.lookedUp = false := by
  simpa [Stat.isOpen, hi] using h

theorem Node.closed_of_deeper {e : Node} (h : e.stat.isOpen opened = false)
    (hdeep : ∀ i ∈ e.deeper, i ∉ opened) : ∀ i ∈ e.files, i ∉ opened := by
  intro i hi ho
  cases e with
  | file stat =>
    obtain rfl : i = stat.inode := by simpa [Node.files] using hi
    have hlook : stat.lookedUp = false := Stat.not_lookedUp h ho
    exact hdeep _ (by simp [Node.deeper, hlook]) ho
  | dir stat readable entries => exact hdeep i hi ho

theorem Node.heldOpen_file {stat : Stat} (h : (Node.file stat).heldOpen opened = false) :
    stat.isOpen opened = false := by
  cases hlisted : stat.listed with
  | false => simp [Stat.isOpen, Stat.lookedUp, hlisted]
  | true =>
    cases htyped : stat.typed with
    | false => simp [Node.heldOpen, Node.stat, hlisted, htyped] at h
    | true => simpa [Node.heldOpen, Node.stat, hlisted, htyped] using h

theorem Node.heldOpen_dir {stat : Stat} {entries : List Node}
    (h : (Node.dir stat true entries).heldOpen opened = false) (hlisted : stat.listed = true) :
    ∀ e ∈ entries, e.stat.isOpen opened = false := by
  cases htyped : stat.typed with
  | false => simp [Node.heldOpen, Node.stat, hlisted, htyped] at h
  | true => simpa [Node.heldOpen, Node.stat, hlisted, htyped] using h

theorem Node.closed_of_overlooked {e : Node} (h : e.heldOpen opened = false)
    (hover : ∀ i ∈ e.overlooked, i ∉ opened) : ∀ i ∈ e.files, i ∉ opened := by
  intro i hi ho
  cases e with
  | file stat =>
    obtain rfl : i = stat.inode := by simpa [Node.files] using hi
    have hlook := Stat.not_lookedUp (Node.heldOpen_file h) ho
    exact hover _ (by simp [Node.overlooked, hlook]) ho
  | dir stat readable entries =>
    by_cases hread : stat.listed = true ∧ readable = true
    · obtain ⟨hlisted, rfl⟩ := hread
      obtain ⟨s, hs, hi⟩ := (mem_filesOf entries).mp hi
      have hclosed := Node.heldOpen_dir h hlisted s hs
      refine Node.closed_of_deeper hclosed (fun j hj ↦ hover j ?_) i hi ho
      simpa [Node.overlooked, hlisted] using ⟨s, hs, hj⟩
    · refine hover i ?_ ho
      rw [Node.overlooked, if_neg (by simpa using hread)]
      exact hi

/-- Where the check finds nothing open, only a file that it does not look up can be open. -/
theorem closed_of_overlooked {v : View} (h : dirHeldOpen v opened = false)
    (hmiss : v.missesOpen opened = false) : ∀ i ∈ v.files, i ∉ opened := by
  intro i hi
  have hover : ∀ i ∈ v.overlooked, i ∉ opened := by simpa [View.missesOpen] using hmiss
  obtain ⟨e, he, hi⟩ := (mem_filesOf v.entries).mp hi
  simp only [dirHeldOpen, Bool.or_eq_false_iff, List.any_eq_false, Bool.not_eq_true] at h
  refine Node.closed_of_overlooked (h.2 e he) (fun j hj ↦ hover j ?_) i hi
  exact List.mem_flatMap.mpr ⟨e, he, hj⟩

end Views

theorem Listed.aged_of_candidate {now : ℕ} {e : Listed} {d : Dir} (h : e.candidate now = some d)
    (hd : d.dated = true) : orphanMinAge ≤ now - d.mtime := by
  unfold Listed.candidate at h
  split at h
  · cases h
  · split at h
    · rename_i hcand
      obtain rfl := Option.some.inj h
      have hold := hcand.2.2
      simp only [Listed.tooNew] at hold
      grind
    · cases h

section Answers

/-- What the breaker's count stands for, all through a pass. -/
structure Pass.Counted (p : Pass) : Prop where
  run : EndsIn .error p.answers p.daemonErrs
  reached : p.aborted = true → orphanMaxDaemonErrors ≤ p.daemonErrs
  unbroken : p.aborted = false → ¬ List.replicate orphanMaxDaemonErrors .error <:+: p.answers
  ended : p.phase ≠ .classify → p.aborted = true ∨ p.dirs = []

variable {p p' : Pass}

theorem Pass.Counted.breaksOff (h : p.Counted) : p.BreaksOff := by
  have hrun := h.run orphanMaxDaemonErrors
  have hsuffix (ha : p.aborted = true) := hrun.mpr (h.reached ha)
  refine ⟨⟨fun ha ↦ (hsuffix ha).isInfix, fun hin ↦ ?_⟩, hsuffix, h.ended⟩
  by_contra ha
  exact h.unbroken (Bool.not_eq_true _ ▸ ha) hin

variable {d : Dir} {answer : DaemonState} {old : Bool} {view : View}

theorem Pass.settle_frame (p : Pass) (d : Dir) (answer : DaemonState) (old : Bool) :
    p.settle d answer old = { p with
      aborted := (p.settle d answer old).aborted, deletable := (p.settle d answer old).deletable
      dataloss := (p.settle d answer old).dataloss
      staleRootfs := (p.settle d answer old).staleRootfs } := by
  unfold Pass.settle
  repeat' split
  all_goals rfl

theorem Pass.settle_aborted (p : Pass) (d : Dir) (answer : DaemonState) (old : Bool) :
    (p.settle d answer old).aborted =
      (p.aborted || (answer = .error && orphanMaxDaemonErrors ≤ p.daemonErrs)) := by
  unfold Pass.settle
  repeat' split
  all_goals simp_all

theorem shown_eq_false {rows : List (Schema × StoreRecord)} {id : String}
    (h : ∀ schema, byId rows id ≠ some (schema, .live)) : shown rows id = false := by
  cases hby : byId rows id with
  | none => simp [shown, hby]
  | some r =>
    have htier : r.2 ≠ .live := fun hlive ↦ h r.1 (by rw [hby, ← hlive])
    simpa [shown, hby] using htier

theorem Pass.mem_settle_deletable {o : Orphan} (h : o ∈ (p.settle d answer old).deletable) :
    o ∈ p.deletable ∨ o = ⟨d, .gone⟩ ∧ shown p.rows d.id = false := by
  unfold Pass.settle at h
  split at h
  · split at h <;> exact .inl h
  · split at h <;> exact .inl h
  · split at h
    · exact .inl h
    · rename_i hlive
      have hshown := shown_eq_false hlive
      exact (List.mem_append.mp h).imp_right fun ho ↦ ⟨List.mem_singleton.mp ho, hshown⟩

/-- The two ends of a turn of the classification loop. -/
theorem Pass.classify_cases (h : p.classify view answer old = some p') :
    ∃ d rest, p.phase = .classify ∧ p.aborted = false ∧ p.dirs = d :: rest ∧
      (p' = { p with dirs := rest } ∨
        p' = Pass.settle { p with
          dirs := rest
          answers := p.answers ++ [answer]
          daemonErrs := daemonErrorRun p.daemonErrs answer } d answer old) := by
  unfold Pass.classify at h
  split at h
  · rename_i d rest hphase hrun hdirs
    refine ⟨d, rest, hphase, hrun, hdirs, ?_⟩
    split at h
    · exact .inl (Option.some.inj h).symm
    · exact .inr (Option.some.inj h).symm
  · cases h

theorem endsIn_answers (h : EndsIn .error p.answers p.daemonErrs) (answer : DaemonState) :
    EndsIn .error (p.answers ++ [answer]) (daemonErrorRun p.daemonErrs answer) := by
  cases answer with
  | error => exact h.concat
  | present | gone => exact .concat_ne (by simp) _

theorem Pass.Counted.classify (h : p.Counted) (hc : p.classify view answer old = some p') :
    p'.Counted := by
  obtain ⟨d, rest, hphase, hrun, -, rfl | rfl⟩ := Pass.classify_cases hc
  · exact ⟨h.run, h.reached, h.unbroken, fun hne ↦ absurd hphase hne⟩
  · have hends := endsIn_answers h.run answer
    rw [Pass.settle_frame]
    refine ⟨hends, fun ha ↦ ?_, fun ha hin ↦ ?_, fun hne ↦ absurd hphase hne⟩
    · rw [Pass.settle_aborted] at ha
      simp only [hrun, Bool.false_or, Bool.and_eq_true, decide_eq_true_eq] at ha
      exact ha.2
    · rw [Pass.settle_aborted] at ha
      simp only [hrun, Bool.false_or, Bool.and_eq_false_iff, decide_eq_false_iff_not] at ha
      rcases List.infix_concat_iff.mp hin with hlast | hin
      · have hfive := (hends orphanMaxDaemonErrors).mp hlast
        -- an answer other than an error leaves no error at the end
        cases answer with
        | error => exact ha.elim (fun hne ↦ hne rfl) fun hlt ↦ hlt hfive
        | present | gone => simp [daemonErrorRun, orphanMaxDaemonErrors] at hfive
      · exact h.unbroken hrun hin

theorem Pass.Counted.start (now : ℕ) (rows : List (Schema × StoreRecord)) (opened : List Inode)
    (dirs : List Dir) : (Pass.start now rows opened dirs).Counted where
  run := .nil _
  reached := nofun
  unbroken _ h := by simpa [orphanMaxDaemonErrors] using List.infix_nil.mp h
  ended h := absurd rfl h

end Answers

section Steps

/-- What holds of a pass beside the registry, all through it. -/
structure Pass.Vetted (store : Store) (p : Pass) : Prop where
  counted : p.Counted
  early : p.phase = .classify → p.attempts = 0 ∧ p.confirmed = none
  late : p.phase = .delete →
    p.attempts + p.confirmed.toList.length + p.deletable.length ≤ orphanMaxDeletesPerSweep
  aged : ∀ d ∈ p.orphans.map Orphan.dir ++ p.dirs, d.dated = true → orphanMinAge ≤ p.now - d.mtime
  unserved : ∀ d ∈ p.exposed, serves store d.id = false
  gone : ∀ o ∈ p.orphans, o.answer = .gone
  confirmed : ∀ c ∈ p.confirmed, c.2.2 = .gone ∧ ∀ i ∈ c.2.1.files, i ∉ p.opened

variable {store : Store} {p p' : Pass} {view : View} {answer : DaemonState} {old ok : Bool}
  {opened : List Inode}

/-- What a step of a pass leaves to do, it has from before. -/
structure Pass.Onward (p p' : Pass) : Prop where
  now : p'.now = p.now
  rows : p'.rows = p.rows
  dirs : p'.dirs ⊆ p.dirs
  aborted : p.aborted = true → p'.aborted = true
  orphans : ∀ o ∈ p'.orphans, o ∈ p.orphans ∨ o.answer = .gone ∧ o.dir ∈ p.waiting

theorem Pass.waiting_subset (p : Pass) : p.waiting ⊆ p.dirs := by
  unfold Pass.waiting
  split
  · exact List.nil_subset _
  · exact List.filter_sublist.subset

theorem Pass.Onward.waiting (h : p.Onward p') : p'.waiting ⊆ p.waiting := by
  intro d hd
  unfold Pass.waiting at hd ⊢
  split at hd
  · cases hd
  · rename_i hrun
    rw [if_neg fun ha ↦ hrun (h.aborted ha), ← h.rows]
    exact List.filter_subset _ h.dirs hd

theorem Pass.Onward.dir (h : p.Onward p') {d : Dir} (hd : d ∈ p'.orphans.map Orphan.dir) :
    d ∈ p.exposed := by
  obtain ⟨o, ho, rfl⟩ := List.mem_map.mp hd
  rcases h.orphans o ho with ho | ⟨-, hwait⟩
  · exact List.mem_append_left _ (List.mem_map_of_mem ho)
  · exact List.mem_append_right _ hwait

theorem Pass.Vetted.onward (h : p.Vetted store) (hon : p.Onward p') (hcount : p'.Counted)
    (hearly : p'.phase = .classify → p'.attempts = 0 ∧ p'.confirmed = none)
    (hlate : p'.phase = .delete →
      p'.attempts + p'.confirmed.toList.length + p'.deletable.length ≤ orphanMaxDeletesPerSweep)
    (hconf : ∀ c ∈ p'.confirmed, c.2.2 = .gone ∧ ∀ i ∈ c.2.1.files, i ∉ p'.opened) :
    p'.Vetted store where
  counted := hcount
  early := hearly
  late := hlate
  aged d hd hdated := by
    rw [hon.now]
    refine h.aged d ?_ hdated
    rcases List.mem_append.mp hd with hd | hd
    · rcases List.mem_append.mp (hon.dir hd) with hd | hd
      · exact List.mem_append_left _ hd
      · exact List.mem_append_right _ (p.waiting_subset hd)
    · exact List.mem_append_right _ (hon.dirs hd)
  unserved d hd := by
    refine h.unserved d ?_
    rcases List.mem_append.mp hd with hd | hd
    · exact hon.dir hd
    · exact List.mem_append_right _ (hon.waiting hd)
  gone o ho := by
    rcases hon.orphans o ho with ho | ⟨hgone, -⟩
    · exact h.gone o ho
    · exact hgone
  confirmed := hconf

theorem Pass.Vetted.classify (h : p.Vetted store) (hc : p.classify view answer old = some p') :
    p'.Vetted store := by
  have hcount := h.counted.classify hc
  obtain ⟨d, rest, hphase, hrun, hdirs, hp'⟩ := Pass.classify_cases hc
  have hrest : rest ⊆ p.dirs := hdirs ▸ List.subset_cons_self d rest
  have hearly := h.early hphase
  rcases hp' with rfl | rfl
  · exact h.onward ⟨rfl, rfl, hrest, id, fun o ho ↦ .inl ho⟩ hcount h.early h.late h.confirmed
  · rw [Pass.settle_frame] at hcount ⊢
    refine h.onward ⟨rfl, rfl, hrest, fun ha ↦ ?_, fun o ho ↦ ?_⟩ hcount h.early
      (fun hdel ↦ ?_) h.confirmed
    · rw [hrun] at ha
      cases ha
    · rcases List.mem_append.mp ho with ho | ho
      · exact .inl (List.mem_append_left _ ho)
      · rcases Pass.mem_settle_deletable ho with ho | ⟨rfl, hshown⟩
        · exact .inl (List.mem_append_right _ ho)
        · refine .inr ⟨rfl, ?_⟩
          rw [Pass.waiting, if_neg (by simp [hrun]), hdirs]
          simp [hshown]
    · cases hphase.symm.trans hdel

theorem Pass.Vetted.resnapshot (h : p.Vetted store) (hc : p.resnapshot opened = some p') :
    p'.Vetted store := by
  unfold Pass.resnapshot at hc
  split at hc
  · rename_i hend
    obtain rfl := Option.some.inj hc
    obtain ⟨hatt, hconf⟩ := h.early hend.1
    have hcount := h.counted
    refine h.onward ⟨rfl, rfl, List.Subset.refl _, id, fun o ho ↦ .inl ?_⟩
      ⟨hcount.run, hcount.reached, hcount.unbroken, fun _ ↦ hend.2⟩ nofun (fun _ ↦ ?_) ?_
    · exact (List.mem_append.mp ho).elim (List.mem_append_left _)
        fun ho ↦ List.mem_append_right _ (List.mem_of_mem_take ho)
    · simp only [hatt, hconf, Option.toList_none, List.length_nil, Nat.zero_add]
      exact List.length_take_le _ _
    · simp [hconf]
  · cases hc

theorem Pass.recheck_cases (h : p.recheck view answer = some p') :
    ∃ o rest, p.phase = .delete ∧ p.confirmed = none ∧ p.deletable = o :: rest ∧
      (p' = { p with deletable := rest } ∨
        dirHeldOpen view p.opened = false ∧ answer = .gone ∧
          p' = { p with deletable := rest, confirmed := some (o, view, answer) }) := by
  unfold Pass.recheck at h
  split at h
  · rename_i o rest hphase hconf hdel
    refine ⟨o, rest, hphase, hconf, hdel, ?_⟩
    split at h
    · exact .inl (Option.some.inj h).symm
    · rename_i hpass
      rw [not_or, Bool.not_eq_true, not_not] at hpass
      exact .inr ⟨hpass.1, hpass.2, (Option.some.inj h).symm⟩
  · cases h

theorem Pass.Vetted.recheck (h : p.Vetted store) (hc : p.recheck view answer = some p')
    (hok : answer = .gone → dirHeldOpen view p.opened = false → view.missesOpen p.opened = false) :
    p'.Vetted store := by
  obtain ⟨o, rest, hphase, hconf, hdel, hp'⟩ := Pass.recheck_cases hc
  have hlate := h.late hphase
  simp only [hconf, hdel, Option.toList_none, List.length_nil, List.length_cons] at hlate
  have hcount := h.counted
  rcases hp' with rfl | ⟨hheld, rfl, rfl⟩
  · refine h.onward ⟨rfl, rfl, List.Subset.refl _, id, fun a ha ↦ .inl ?_⟩
      ⟨hcount.run, hcount.reached, hcount.unbroken, hcount.ended⟩ h.early (fun _ ↦ ?_) h.confirmed
    · simp only [Pass.orphans, hconf, hdel] at ha ⊢
      exact List.mem_cons_of_mem _ ha
    · simp only [hconf, Option.toList_none, List.length_nil]
      omega
  · refine h.onward ⟨rfl, rfl, List.Subset.refl _, id, fun a ha ↦ .inl ?_⟩
      ⟨hcount.run, hcount.reached, hcount.unbroken, hcount.ended⟩ (fun hcl ↦ ?_) (fun _ ↦ ?_) ?_
    · simpa [Pass.orphans, hconf, hdel] using ha
    · cases hphase.symm.trans hcl
    · simp only [Option.toList_some, List.length_singleton]
      omega
    · rintro c ⟨⟩
      exact ⟨rfl, closed_of_overlooked hheld (hok rfl hheld)⟩

theorem Pass.Vetted.remove (h : p.Vetted store) (hc : p.confirmed.isSome = true) :
    (p.remove ok).Vetted store := by
  obtain ⟨c, hc⟩ := Option.isSome_iff_exists.mp hc
  have hcount := h.counted
  refine h.onward ⟨rfl, rfl, List.Subset.refl _, id, fun a ha ↦ .inl ?_⟩
    ⟨hcount.run, hcount.reached, hcount.unbroken, hcount.ended⟩ (fun hcl ↦ ?_) (fun hdel ↦ ?_) nofun
  · exact List.mem_append_right _ ha
  · rw [(h.early hcl).2] at hc
    cases hc
  · have hlate := h.late hdel
    simp only [hc, Option.toList_some, List.length_singleton] at hlate
    exact hlate

theorem Pass.prune_frame (h : p.prune view old answer ok = some p') :
    ∃ rest n, p' = { p with staleRootfs := rest, pruned := n } := by
  unfold Pass.prune at h
  split at h
  · split at h
    · exact ⟨_, _, (Option.some.inj h).symm⟩
    · exact ⟨_, _, (Option.some.inj h).symm⟩
  · cases h

theorem Pass.Vetted.prune (h : p.Vetted store) (hc : p.prune view old answer ok = some p') :
    p'.Vetted store := by
  obtain ⟨rest, n, rfl⟩ := Pass.prune_frame hc
  have hcount := h.counted
  exact h.onward ⟨rfl, rfl, List.Subset.refl _, id, fun o ho ↦ .inl ho⟩
    ⟨hcount.run, hcount.reached, hcount.unbroken, hcount.ended⟩ h.early h.late h.confirmed

theorem Pass.Vetted.start {listing : Option (List Listed)} {rows : List (Schema × StoreRecord)}
    {now : ℕ} (h : ∀ d ∈ candidates listing now, serves store d.id = true → shown rows d.id = true) :
    (Pass.start now rows opened (candidates listing now)).Vetted store where
  counted := .start _ _ _ _
  early _ := ⟨rfl, rfl⟩
  late := nofun
  aged d hd hdated := by
    obtain ⟨e, -, hcand⟩ := List.mem_filterMap.mp hd
    exact Listed.aged_of_candidate hcand hdated
  unserved d hd := by
    obtain ⟨hd, hhidden⟩ := List.mem_filter.mp hd
    have hshown : shown rows d.id = false := (Bool.not_eq_true' _).mp hhidden
    by_contra hserves
    have hlive := h d hd (Bool.not_eq_false _ ▸ hserves)
    exact Bool.false_ne_true (hshown.symm.trans hlive)
  gone := nofun
  confirmed := nofun

structure Sweeper.Vetted (st : Sweeper) : Prop where
  calls : ∀ c ∈ st.calls, c.Sound
  pass : ∀ p ∈ st.pass, p.Vetted st.store

variable {st st' : Sweeper} {l : Label}

theorem Sweeper.Vetted.within {f : Pass → Option Pass} (h : st.Vetted) (hs : st.within f = some st')
    (hf : ∀ p ∈ st.pass, p.Vetted st.store → ∀ p', f p = some p' → p'.Vetted st.store) :
    st'.Vetted := by
  obtain ⟨p', hp', rfl⟩ := Option.map_eq_some_iff.mp hs
  obtain ⟨p, hp, hfp⟩ := Option.bind_eq_some_iff.mp hp'
  refine ⟨h.calls, ?_⟩
  rintro q ⟨⟩
  exact hf p hp (h.pass p hp) _ hfp

theorem Sweeper.Vetted.remove (h : st.Vetted) (hdated : ∀ p ∈ st.pass, ∀ c ∈ p.confirmed,
    c.1.dir.dated = true) (hs : st.remove ok = some st') : st'.Vetted := by
  unfold Sweeper.remove at hs
  split at hs
  · rename_i p hpass
    split at hs
    · rename_i o view answer hconf
      obtain rfl := Option.some.inj hs
      have hvet := h.pass p hpass
      obtain ⟨hgone, hclosed⟩ := hvet.confirmed _ hconf
      have ho : o ∈ p.orphans := by simp [Pass.orphans, hconf]
      have hdir : o.dir ∈ p.orphans.map Orphan.dir := List.mem_map_of_mem ho
      refine ⟨fun c hc ↦ ?_, ?_⟩
      · rcases List.mem_append.mp hc with hc | hc
        · exact h.calls c hc
        · obtain rfl := List.mem_singleton.mp hc
          exact ⟨hvet.aged _ (List.mem_append_left _ hdir) (hdated p hpass _ hconf), hclosed,
            ⟨hvet.gone o ho, hgone⟩, hvet.unserved _ (List.mem_append_left _ hdir)⟩
      · rintro q ⟨⟩
        exact hvet.remove (by simp [hconf])
    · cases hs
  · cases hs

theorem Sweeper.Vetted.list {listing : Option (List Listed)} {now : ℕ} (h : st.Vetted)
    (hok : ∀ rows ∈ st.snapshot, ∀ d ∈ candidates listing now,
      serves st.store d.id = true → shown rows d.id = true)
    (hs : st.list listing now opened = some st') : st'.Vetted := by
  obtain ⟨rows, hrows, rfl⟩ := Option.map_eq_some_iff.mp hs
  split
  · exact ⟨h.calls, h.pass⟩
  · refine ⟨h.calls, ?_⟩
    rintro q ⟨⟩
    exact .start (hok rows hrows)

theorem Sweeper.Vetted.step (h : st.Vetted) (hok : Careful st l) (hs : step l st = some st') :
    st'.Vetted := by
  cases l with
  | update op =>
    obtain rfl := Option.some.inj hs
    exact ⟨h.calls, fun p hp ↦ { h.pass p hp with unserved := hok p hp }⟩
  | snapshot rows =>
    simp only [Orphans.step, Sweeper.view, Option.ite_none_right_eq_some, Option.some.injEq] at hs
    obtain ⟨-, rfl⟩ := hs
    exact ⟨h.calls, h.pass⟩
  | list listing now opened => exact h.list hok hs
  | classify view answer rootfs now => exact h.within hs fun p _ hp p' hc ↦ hp.classify hc
  | resnapshot opened => exact h.within hs fun p _ hp p' hc ↦ hp.resnapshot hc
  | recheck view answer => exact h.within hs fun p hpass hp p' hc ↦ hp.recheck hc (hok p hpass)
  | remove ok => exact h.remove hok hs
  | prune view rootfs now answer ok => exact h.within hs fun p _ hp p' hc ↦ hp.prune hc
  | finish =>
    simp only [Orphans.step, Sweeper.finish] at hs
    split at hs
    · obtain ⟨-, rfl⟩ := by simpa only [Option.ite_none_right_eq_some, Option.some.injEq] using hs
      exact ⟨h.calls, nofun⟩
    · cases hs

theorem Sweeper.Vetted.sound (h : st.Vetted) : st.Sound where
  calls := h.calls
  breaks p hp := (h.pass p hp).counted.breaksOff
  bounded p hp := by
    have hvet := h.pass p hp
    cases hphase : p.phase with
    | classify => exact (hvet.early hphase).1 ▸ Nat.zero_le _
    | delete =>
      have hlate := hvet.late hphase
      omega

end Steps

section Sweeps

variable {store : Store} {st : Sweeper}

/-- In every run in which no live row escapes the registry view of a pass, no file escapes the look
for open files and no mtime of a removed directory is unreadable, the sweep deletes only what no live
schema needs. -/
theorem sweep_deletes_unneeded (h : Run step Careful (.init store) st) : st.Sound := by
  have hvet : st.Vetted := h.invariant ⟨nofun, nofun⟩ fun s l s' hs hok hstep ↦ hs.step hok hstep
  exact hvet.sound

def offloadedStore : Store := (World.boot (.recorded .frozen)).store

/-- A pass over the one directory `sb-1`, which the daemon does not know and nobody holds open.
`between` happens after the registry view is taken. -/
def sweepOf (between : List Label) : List Label :=
  [.snapshot offloadedStore.records, .list (some [⟨some "sb-1", true, 0, true⟩]) orphanMinAge []] ++
    between ++
    [.classify ⟨true, [.file ⟨(1, 1), true, true, true⟩]⟩ .gone none 0, .resnapshot [],
      .recheck ⟨true, [.file ⟨(1, 1), true, true, true⟩]⟩ .gone, .remove true]

theorem sweep_deletes_unneeded_run : ∃ st, Run step Careful (.init offloadedStore) st ∧
    st.calls.map (fun c ↦ c.dir.id) = ["sb-1"] ∧ st.Sound := by
  obtain ⟨st, hr, hst⟩ := Run.exists_of_exec step Careful (.init offloadedStore) (sweepOf [])
    (fun st ↦ st.calls.map (fun c ↦ c.dir.id) = ["sb-1"]) (by decide +kernel) (by decide +kernel)
  exact ⟨st, hr, of_decide_eq_true hst, sweep_deletes_unneeded hr⟩

/-- `app` comes back live on `sb-1` while the pass goes on, and the daemon then forgets the VM: the only
copy of the database is deleted. -/
theorem sweep_deletes_live : ∃ st, Run step (fun _ _ ↦ True) (.init offloadedStore) st ∧
    (∃ c ∈ st.calls, serves c.store c.dir.id = true) ∧ ¬ st.Sound := by
  obtain ⟨st, hr, hst⟩ := Run.exists_of_exec step (fun _ _ ↦ True) (.init offloadedStore)
    (sweepOf [.update (.put app sb1 0)]) (fun st ↦ st.calls.any fun c ↦ serves c.store c.dir.id)
    (by decide +kernel) (by decide +kernel)
  obtain ⟨c, hc, hlive⟩ := List.any_eq_true.mp hst
  refine ⟨st, hr, ⟨c, hc, hlive⟩, fun hsound ↦ ?_⟩
  rw [(hsound.calls c hc).unneeded] at hlive
  cases hlive

end Sweeps

end PgVmPool.Orphans
