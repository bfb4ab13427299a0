import PgVmPool.HostFiles
import PgVmPool.Transition

namespace SnapshotFile

open Function HostFiles Transition

variable {P α σ δ ρ : Type}

/-- How a value changes, what is written of it in an order that is not its own, and what is loaded from a file. -/
structure Format (σ δ ρ α : Type) where
  act : δ → σ → Option σ
  render : σ → ρ → Option (List α)
  load : Option (List α) → σ
  load_of_render : ∀ {v order text}, render v order = some text → load (some text) = v

namespace Format

variable (f : Format σ δ ρ α)

def apply (v : σ) (d : δ) : σ := (f.act d v).getD v

def replay (v : σ) (log : List δ) : σ := log.foldl f.apply v

theorem replay_append (v : σ) (log log' : List δ) : f.replay v (log ++ log') = f.replay (f.replay v log) log' :=
  List.foldl_append

theorem replay_concat {v v' : σ} {log : List δ} {d : δ} (h : f.act d (f.replay v log) = some v') :
    f.replay v (log ++ [d]) = v' := by
  have hlast : f.replay (f.replay v log) [d] = f.apply (f.replay v log) d := rfl
  rw [replay_append, hlast, apply, h, Option.getD_some]

/-- What later changes leave alone is as the change before them made it. -/
theorem replay_keeps {τ : Type} {v : σ} {log : List δ} {k : ℕ} {d : δ} {x : τ} (view : σ → τ)
    (hk : log[k]? = some d) (hset : ∀ v, view (f.apply v d) = x)
    (hlater : ∀ e ∈ log.drop (k + 1), ∀ v, view (f.apply v e) = view v) : view (f.replay v log) = x := by
  obtain ⟨hlt, hget⟩ := List.getElem?_eq_some_iff.mp hk
  have hsplit : log = log.take k ++ (log[k] :: log.drop (k + 1)) := by
    rw [← List.drop_eq_getElem_cons hlt, List.take_append_drop]
  have hrest : ∀ (later : List δ) (w : σ), (∀ e ∈ later, ∀ v, view (f.apply v e) = view v) →
      view (f.replay w later) = view w := by
    intro later
    induction later with
    | nil => exact fun _ _ ↦ rfl
    | cons e later ih =>
      intro w h
      rw [List.forall_mem_cons] at h
      exact (ih (f.apply w e) h.2).trans (h.1 w)
  rw [hsplit, replay_append, hget]
  exact (hrest _ _ hlater).trans (hset _)

end Format

/-- How a call ended: the change was no change, its snapshot or a later one is in the file, writing failed, or
the process ended under it. -/
inductive Outcome
  | unchanged
  | written (k : ℕ)
  | failed
  | lost
  deriving DecidableEq

/-- A call that made the change number `k` and wrote the value as it was after `v` changes. -/
inductive Pc (α : Type)
  | start
  | waiting (k : ℕ)
  | locked (k : ℕ)
  | opening (k v : ℕ) (text : List α)
  | writing (k v : ℕ) (text : List α) (file : ℕ) (rest : List α)
  | leaving (o : Outcome)
  | done (o : Outcome)
  deriving DecidableEq

inductive Event (ρ : Type)
  | go
  | render (order : ρ)
  | wrote (n : ℕ)
  | fail

inductive Action (δ ρ : Type)
  | call (d : δ)
  | step (i : ℕ) (e : Event ρ)
  | restart

/-- The shared value, the files and the lock under which they are written; the changes so far, and how many of
them the file has. -/
structure State (P σ δ α : Type) where
  value : σ
  files : Files P α
  lock : Option ℕ
  calls : List (δ × Pc α)
  log : List δ
  written : ℕ

namespace Pc

def number : Pc α → Option ℕ
  | .waiting k | .locked k | .opening k _ _ | .writing k _ _ _ _ => some k
  | .start | .leaving _ | .done _ => none

def holds : Pc α → Bool
  | .locked _ | .opening _ _ _ | .writing _ _ _ _ _ | .leaving _ => true
  | .start | .waiting _ | .done _ => false

def outcome : Pc α → Option Outcome
  | .leaving o | .done o => some o
  | .start | .waiting _ | .locked _ | .opening _ _ _ | .writing _ _ _ _ _ => none

def ended : Pc α → Bool
  | .done _ => true
  | _ => false

/-- What is left of a call when its process ends. -/
def cut : Pc α → Pc α
  | .done o => .done o
  | _ => .done .lost

theorem cut_eq (pc : Pc α) : ∃ o, pc.cut = .done o ∧ ∀ k, o = .written k → pc.outcome = some (.written k) := by
  cases pc with
  | done o => exact ⟨o, rfl, fun k hk ↦ congrArg some hk⟩
  | _ => exact ⟨.lost, rfl, nofun⟩

end Pc

namespace State

variable [DecidableEq P] [Inhabited α] (f : Format σ δ ρ α) (path tmp : P)

/-- The state of a process that has loaded its value from the file. -/
def init (files : Files P α) : State P σ δ α := ⟨f.load (files.read path), files, none, [], [], 0⟩

def callStep (st : State P σ δ α) (i : ℕ) (d : δ) : Pc α → Event ρ → Option (State P σ δ α × Pc α)
  | .start, .go =>
    match f.act d st.value with
    | none => some (st, .done .unchanged)
    | some value => some ({ st with value, log := st.log ++ [d] }, .waiting st.log.length)
  | .waiting k, .go => if st.lock = none then some ({ st with lock := some i }, .locked k) else none
  | .locked k, .render order => (f.render st.value order).map fun text ↦ (st, .opening k st.log.length text)
  | .opening k v text, .go =>
    let made := st.files.create tmp
    some ({ st with files := made.2 }, .writing k v text made.1 text)
  | .writing k v text file rest, .wrote n =>
    if 0 < n ∧ n ≤ rest.length then
      some ({ st with files := st.files.write file (text.length - rest.length) (rest.take n) },
        .writing k v text file (rest.drop n))
    else none
  | .writing k v _ _ [], .go =>
    match st.files.rename tmp path with
    | some files => some ({ st with files, written := v }, .leaving (.written k))
    | none => some (st, .leaving .failed)
  | .opening _ _ _, .fail | .writing _ _ _ _ _, .fail => some (st, .leaving .failed)
  | .leaving o, .go => some ({ st with lock := none }, .done o)
  | _, _ => none

/-- The process ends where it stands, and the next one loads what is in the file. -/
def restart (st : State P σ δ α) : State P σ δ α :=
  { value := f.load (st.files.read path), files := st.files, lock := none,
    calls := st.calls.map fun x ↦ (x.1, x.2.cut), log := st.log.take st.written, written := st.written }

end State

section Steps

variable [DecidableEq P] [Inhabited α] (f : Format σ δ ρ α) (path tmp : P)

def step : Action δ ρ → State P σ δ α → Option (State P σ δ α)
  | .call d, st => some { st with calls := st.calls ++ [(d, .start)] }
  | .step i e, st =>
    (st.calls[i]?).bind fun x ↦ (st.callStep f path tmp i x.1 x.2 e).map fun r ↦
      { r.1 with calls := st.calls.set i (x.1, r.2) }
  | .restart, st => some (st.restart f path)

end Steps

section Calls

variable (f : Format σ δ ρ α) (tmp : P) (v₀ : σ) (st : State P σ δ α)

/-- A snapshot that was taken under the lock and is not in the file yet. -/
structure Taken (k v : ℕ) (text : List α) : Prop where
  own : k < v
  newer : st.written ≤ v
  before : v ≤ st.log.length
  rendered : ∃ order, f.render (f.replay v₀ (st.log.take v)) order = some text

structure CallOk (i : ℕ) (d : δ) (pc : Pc α) : Prop where
  number : ∀ k, pc.number = some k → st.log[k]? = some d
  holds : pc.holds = true → st.lock = some i
  opening : ∀ k v text, pc = .opening k v text → Taken f v₀ st k v text
  writing : ∀ k v text file rest, pc = .writing k v text file rest → Taken f v₀ st k v text ∧
    st.files.links tmp = some file ∧ st.files.data file ++ rest = text
  written : ∀ k, pc.outcome = some (.written k) → st.log[k]? = some d ∧ k < st.written

end Calls

structure Inv [DecidableEq P] (f : Format σ δ ρ α) (path tmp : P) (v₀ : σ) (st : State P σ δ α) : Prop where
  value : st.value = f.replay v₀ st.log
  file : f.load (st.files.read path) = f.replay v₀ (st.log.take st.written)
  bound : st.written ≤ st.log.length
  calls : ∀ (i : ℕ) (x : δ × Pc α), st.calls[i]? = some x → CallOk f tmp v₀ st i x.1 x.2
  waits : ∀ k, st.written ≤ k → k < st.log.length → ∃ (i : ℕ) (x : δ × Pc α), st.calls[i]? = some x ∧
    (x.2.number = some k ∨ x.2.outcome = some .failed)

section Proofs

variable {f : Format σ δ ρ α} {path tmp : P} {v₀ : σ} {st st' : State P σ δ α} {i j : ℕ} {d e : δ}
  {pc pc' : Pc α}

theorem Taken.append {k v : ℕ} {text : List α} (h : Taken f v₀ st k v text) {extra : List δ}
    (hlog : st'.log = st.log ++ extra) (hwritten : st'.written = st.written) : Taken f v₀ st' k v text where
  own := h.own
  newer := hwritten ▸ h.newer
  before := by
    rw [hlog, List.length_append]
    exact h.before.trans (Nat.le_add_right _ _)
  rendered := by
    rw [hlog, List.take_append_of_le_length h.before]
    exact h.rendered

/-- What is known of a call stays so while the log grows, and of one that is at the file while it is let be. -/
theorem CallOk.keep (h : CallOk f tmp v₀ st j e pc) {extra : List δ} (hlog : st'.log = st.log ++ extra)
    (hwritten : st.written ≤ st'.written)
    (hidle : pc.holds = true → st'.lock = st.lock ∧ st'.files = st.files ∧ st'.written = st.written) :
    CallOk f tmp v₀ st' j e pc := by
  have hget : ∀ k : ℕ, st.log[k]? = some e → st'.log[k]? = some e := by
    intro k hk
    rw [hlog, List.getElem?_append_left (List.getElem?_eq_some_iff.mp hk).1, hk]
  refine ⟨fun k hk ↦ hget k (h.number k hk), fun hq ↦ (hidle hq).1.trans (h.holds hq), ?_, ?_, ?_⟩
  · rintro k v text rfl
    exact (h.opening k v text rfl).append hlog (hidle rfl).2.2
  · rintro k v text file rest rfl
    obtain ⟨htaken, hlink⟩ := h.writing k v text file rest rfl
    rw [(hidle rfl).2.1]
    exact ⟨htaken.append hlog (hidle rfl).2.2, hlink⟩
  · intro k hk
    obtain ⟨hlast, hlt⟩ := h.written k hk
    exact ⟨hget k hlast, hlt.trans_le hwritten⟩

/-- A call of which only the way it ended is left. -/
theorem CallOk.of_ended {o : Outcome} (hpc : pc = .done o ∨ pc = .leaving o ∧ st.lock = some i)
    (ho : ∀ k, o = .written k → st.log[k]? = some d ∧ k < st.written) : CallOk f tmp v₀ st i d pc := by
  obtain rfl | ⟨rfl, hlock⟩ := hpc
  · refine ⟨nofun, nofun, nofun, nofun, fun k hk ↦ ho k (Option.some_inj.mp hk)⟩
  · refine ⟨nofun, fun _ ↦ hlock, nofun, nofun, fun k hk ↦ ho k (Option.some_inj.mp hk)⟩

variable [DecidableEq P]

namespace Inv

theorem alone (h : Inv f path tmp v₀ st) (hlock : st.lock = some i) (hj : j ≠ i) {x : δ × Pc α}
    (hx : st.calls[j]? = some x) : x.2.holds = false := by
  apply Bool.eq_false_iff.mpr
  intro hholds
  have hlock' := (h.calls j x hx).holds hholds
  rw [hlock, Option.some_inj] at hlock'
  exact hj hlock'.symm

/-- One call moves: what the others see of it, and what becomes of its own change. -/
theorem advance (h : Inv f path tmp v₀ st) (hi : st.calls[i]? = some (d, pc)) {extra : List δ}
    (hcalls : st'.calls = st.calls.set i (d, pc')) (hlog : st'.log = st.log ++ extra)
    (hwritten : st.written ≤ st'.written) (hown : CallOk f tmp v₀ st' i d pc')
    (hidle : ∀ (j : ℕ) (x : δ × Pc α), j ≠ i → st.calls[j]? = some x → x.2.holds = true →
      st'.lock = st.lock ∧ st'.files = st.files ∧ st'.written = st.written)
    (hvalue : st'.value = f.replay v₀ st'.log)
    (hfile : f.load (st'.files.read path) = f.replay v₀ (st'.log.take st'.written))
    (hbound : st'.written ≤ st'.log.length)
    (hkeep : ∀ k, st'.written ≤ k → pc.number = some k → pc'.number = some k ∨ pc'.outcome = some .failed)
    (hfail : pc.outcome = some .failed → pc'.outcome = some .failed)
    (hnew : ∀ k, st.log.length ≤ k → k < st'.log.length → pc'.number = some k) : Inv f path tmp v₀ st' := by
  have hlt := (List.getElem?_eq_some_iff.mp hi).1
  refine ⟨hvalue, hfile, hbound, ?_, fun k hle hk ↦ ?_⟩
  · rw [hcalls]
    refine forall_set (P := fun j (x : δ × Pc α) ↦ CallOk f tmp v₀ st' j x.1 x.2) hown fun j x hj hx ↦ ?_
    exact (h.calls j x hx).keep hlog hwritten (hidle j x hj hx)
  · rw [hcalls]
    have hself : (st.calls.set i (d, pc'))[i]? = some (d, pc') := List.getElem?_set_self hlt
    by_cases hold : k < st.log.length
    · obtain ⟨j, x, hx, hwait⟩ := h.waits k (hwritten.trans hle) hold
      by_cases hj : j = i
      · subst hj
        obtain rfl : (d, pc) = x := Option.some_inj.mp (hi.symm.trans hx)
        exact ⟨j, _, hself, hwait.elim (hkeep k hle) fun hf ↦ .inr (hfail hf)⟩
      · exact ⟨j, x, (List.getElem?_set_ne (Ne.symm hj)).trans hx, hwait⟩
    · exact ⟨i, _, hself, .inl (hnew k (not_lt.mp hold) hk)⟩

theorem quiet (h : Inv f path tmp v₀ st) (hi : st.calls[i]? = some (d, pc)) (pc' : Pc α)
    {files : Files P α} {lock : Option ℕ} (hread : files.read path = st.files.read path)
    (hown : CallOk f tmp v₀ { st with files, lock } i d pc')
    (hidle : ∀ (j : ℕ) (x : δ × Pc α), j ≠ i → st.calls[j]? = some x → x.2.holds = false ∨
      lock = st.lock ∧ files = st.files)
    (hkeep : ∀ k, pc.number = some k → pc'.number = some k ∨ pc'.outcome = some .failed)
    (hfail : pc.outcome = some .failed → pc'.outcome = some .failed) :
    Inv f path tmp v₀ { st with files, lock, calls := st.calls.set i (d, pc') } := by
  have hlog : st.log = st.log ++ [] := (List.append_nil _).symm
  refine h.advance hi rfl hlog le_rfl ⟨hown.number, hown.holds,
    fun k v text hpc ↦ ?_, fun k v text file rest hpc ↦ ?_,
    hown.written⟩ (fun j x hj hx hholds ↦ ?_) h.value (by rw [← h.file, ← hread]) h.bound
    (fun k _ ↦ hkeep k) hfail fun k hle hlt ↦ absurd hlt hle.not_gt
  · exact (hown.opening k v text hpc).append hlog rfl
  · obtain ⟨htaken, hlink⟩ := hown.writing k v text file rest hpc
    exact ⟨htaken.append hlog rfl, hlink⟩
  · obtain hnot | ⟨rfl, rfl⟩ := hidle j x hj hx
    · rw [hnot] at hholds
      cases hholds
    · exact ⟨rfl, rfl, rfl⟩

theorem call (h : Inv f path tmp v₀ st) (d : δ) :
    Inv f path tmp v₀ { st with calls := st.calls ++ [(d, .start)] } where
  value := h.value
  file := h.file
  bound := h.bound
  calls := by
    have hlog : st.log = st.log ++ [] := (List.append_nil _).symm
    refine forall_append (P := fun j (x : δ × Pc α) ↦ CallOk f tmp v₀
      { st with calls := st.calls ++ [(d, .start)] } j x.1 x.2) ⟨nofun, nofun, nofun, nofun, nofun⟩
        fun j x hx ↦ ?_
    exact (h.calls j x hx).keep hlog le_rfl fun _ ↦ ⟨rfl, rfl, rfl⟩
  waits k hle hlt := by
    obtain ⟨j, x, hx, hwait⟩ := h.waits k hle hlt
    exact ⟨j, x, (List.getElem?_append_left (List.getElem?_eq_some_iff.mp hx).1).trans hx, hwait⟩

theorem fails (h : Inv f path tmp v₀ st) (hi : st.calls[i]? = some (d, pc)) (hpc : pc.holds = true) :
    Inv f path tmp v₀ { st with calls := st.calls.set i (d, .leaving .failed) } := by
  have hlock := (h.calls i _ hi).holds hpc
  refine h.quiet hi (.leaving .failed) rfl ?_ (fun j x hj hx ↦ .inl (h.alone hlock hj hx))
    (fun _ _ ↦ .inr rfl) fun _ ↦ rfl
  exact CallOk.of_ended (.inr ⟨rfl, hlock⟩) nofun

theorem starts (h : Inv f path tmp v₀ st) (hi : st.calls[i]? = some (d, .start)) {value : σ}
    (hact : f.act d st.value = some value) : Inv f path tmp v₀ { st with
      value, log := st.log ++ [d], calls := st.calls.set i (d, .waiting st.log.length) } := by
  refine h.advance hi rfl rfl le_rfl ⟨fun k hk ↦ ?_, nofun, nofun, nofun, nofun⟩
    (fun _ _ _ _ _ ↦ ⟨rfl, rfl, rfl⟩) ?_ ?_ ?_ nofun nofun fun k hle hlt ↦ ?_
  · cases hk
    exact List.getElem?_concat_length
  · rw [h.value] at hact
    exact (f.replay_concat hact).symm
  · rw [List.take_append_of_le_length h.bound]
    exact h.file
  · rw [List.length_append]
    exact h.bound.trans (Nat.le_add_right _ _)
  · rw [List.length_append, List.length_singleton] at hlt
    obtain rfl : k = st.log.length := by omega
    rfl

theorem opens [Inhabited α] (hne : path ≠ tmp) (h : Inv f path tmp v₀ st) {k v : ℕ} {text : List α}
    (hi : st.calls[i]? = some (d, .opening k v text)) : Inv f path tmp v₀ { st with
      files := (st.files.create tmp).2,
      calls := st.calls.set i (d, .writing k v text (st.files.create tmp).1 text) } := by
  have hc := h.calls i _ hi
  refine h.quiet hi _ (Files.create_read_of_ne hne) ⟨hc.number, hc.holds, nofun, ?_, nofun⟩
    (fun j x hj hx ↦ .inl (h.alone (hc.holds rfl) hj hx)) (fun k hk ↦ .inl hk) nofun
  rintro k v text file rest ⟨⟩
  obtain ⟨hown, hnewer, hbefore, hrendered⟩ := hc.opening _ _ _ rfl
  refine ⟨⟨hown, hnewer, hbefore, hrendered⟩, Files.create_links_self _ _, ?_⟩
  rw [Files.create_data_self, List.nil_append]

theorem writes [Inhabited α] (hne : path ≠ tmp) (h : Inv f path tmp v₀ st) {k v n file : ℕ} {text rest : List α}
    (hi : st.calls[i]? = some (d, .writing k v text file rest)) : Inv f path tmp v₀ { st with
      files := st.files.write file (text.length - rest.length) (rest.take n),
      calls := st.calls.set i (d, .writing k v text file (rest.drop n)) } := by
  have hc := h.calls i _ hi
  obtain ⟨⟨hown, hnewer, hbefore, hrendered⟩, hlink, hdata⟩ := hc.writing _ _ _ _ _ rfl
  have honly : st.files.Only tmp file :=
    ⟨st.files.below tmp file hlink, fun q hq ↦ st.files.distinct q tmp file hq hlink⟩
  refine h.quiet hi _ (Files.write_read_of_only honly hne) ⟨hc.number, hc.holds, nofun, ?_, nofun⟩
    (fun j x hj hx ↦ .inl (h.alone (hc.holds rfl) hj hx)) (fun k hk ↦ .inl hk) nofun
  rintro _ _ _ _ _ ⟨⟩
  refine ⟨⟨hown, hnewer, hbefore, hrendered⟩, hlink, ?_⟩
  have hoff : text.length - rest.length = (st.files.data file).length := by
    rw [← hdata, List.length_append, Nat.add_sub_cancel]
  rw [Files.write_data_self, hoff, splice_length, List.append_assoc, List.take_append_drop]
  exact hdata

/-- What was read of the temp file is the snapshot, all of it. -/
theorem renames (h : Inv f path tmp v₀ st) {k v file : ℕ} {text : List α}
    (hi : st.calls[i]? = some (d, .writing k v text file [])) {files : Files P α}
    (hrename : st.files.rename tmp path = some files) : Inv f path tmp v₀ { st with
      files, written := v, calls := st.calls.set i (d, .leaving (.written k)) } := by
  have hc := h.calls i _ hi
  obtain ⟨⟨hown, hnewer, hbefore, hrendered⟩, hlink, hdata⟩ := hc.writing _ _ _ _ _ rfl
  rw [List.append_nil] at hdata
  obtain ⟨file', hlink', hlinks, hsame, -⟩ := Files.rename_eq hrename
  obtain rfl : file = file' := Option.some_inj.mp (hlink.symm.trans hlink')
  have hread : files.read path = some text := by
    rw [Files.read, hlinks, update_self, Option.map_some, hsame, hdata]
  refine h.advance hi rfl (List.append_nil _).symm hnewer ?_ (fun j x hj hx hholds ↦ ?_) h.value ?_ hbefore
    (fun k' hle hk' ↦ ?_) (fun ho ↦ by cases ho) fun k' hle hlt ↦ absurd hlt hle.not_gt
  · refine CallOk.of_ended (.inr ⟨rfl, hc.holds rfl⟩) fun k' hk' ↦ ?_
    cases hk'
    exact ⟨hc.number k rfl, hown⟩
  · rw [h.alone (hc.holds rfl) hj hx] at hholds
    cases hholds
  · rw [hread]
    obtain ⟨order, hrendered⟩ := hrendered
    exact f.load_of_render hrendered
  · cases hk'
    exact absurd hown hle.not_gt

/-- A restart drops the changes that are not in the file, and with them the calls that made them. -/
theorem restart (h : Inv f path tmp v₀ st) : Inv f path tmp v₀ (st.restart f path) := by
  have htake : (st.log.take st.written).take st.written = st.log.take st.written := by
    rw [List.take_take, min_self]
  refine ⟨h.file, ?_, (List.length_take_of_le h.bound).ge, fun j x hx ↦ ?_, fun k hle hlt ↦ ?_⟩
  · rw [State.restart, htake]
    exact h.file
  · rw [State.restart, List.getElem?_map, Option.map_eq_some_iff] at hx
    obtain ⟨y, hy, rfl⟩ := hx
    obtain ⟨o, ho, hlast⟩ := y.2.cut_eq
    refine CallOk.of_ended (.inl ho) fun k hk ↦ ?_
    obtain ⟨hget, hk⟩ := (h.calls j y hy).written k (hlast k hk)
    refine ⟨?_, hk⟩
    rw [State.restart, List.getElem?_take_of_lt hk]
    exact hget
  · exact absurd hlt (not_lt.mpr ((List.length_take_le _ _).trans hle))

theorem locks (h : Inv f path tmp v₀ st) {k : ℕ} (hi : st.calls[i]? = some (d, .waiting k))
    (hfree : st.lock = none) :
    Inv f path tmp v₀ { st with lock := some i, calls := st.calls.set i (d, .locked k) } := by
  refine h.quiet hi (.locked k) rfl ⟨(h.calls i _ hi).number, fun _ ↦ rfl, nofun, nofun, nofun⟩
    (fun j x _ hx ↦ ?_) (fun _ hk ↦ .inl hk) nofun
  apply Or.inl
  apply Bool.eq_false_iff.mpr
  intro hholds
  have hlock := (h.calls j x hx).holds hholds
  rw [hfree] at hlock
  cases hlock

theorem takes (h : Inv f path tmp v₀ st) {k : ℕ} {text : List α} (hi : st.calls[i]? = some (d, .locked k))
    {order : ρ} (hrendered : f.render st.value order = some text) :
    Inv f path tmp v₀ { st with calls := st.calls.set i (d, .opening k st.log.length text) } := by
  have hc := h.calls i _ hi
  refine h.quiet hi (.opening k st.log.length text) rfl ⟨hc.number, hc.holds, ?_, nofun, nofun⟩
    (fun j x hj hx ↦ .inl (h.alone (hc.holds rfl) hj hx)) (fun _ hk ↦ .inl hk) nofun
  rintro _ _ _ ⟨⟩
  refine ⟨(List.getElem?_eq_some_iff.mp (hc.number k rfl)).1, h.bound, le_rfl, ?_⟩
  rw [List.take_length, ← h.value]
  exact ⟨order, hrendered⟩

theorem leaves (h : Inv f path tmp v₀ st) {o : Outcome} (hi : st.calls[i]? = some (d, .leaving o)) :
    Inv f path tmp v₀ { st with lock := none, calls := st.calls.set i (d, .done o) } := by
  have hc := h.calls i _ hi
  refine h.quiet hi (.done o) rfl (CallOk.of_ended (.inl rfl) fun k hk ↦ ?_)
    (fun j x hj hx ↦ .inl (h.alone (hc.holds rfl) hj hx)) nofun fun ho ↦ ho
  exact hc.written k (congrArg some hk)

theorem callStep [Inhabited α] (hne : path ≠ tmp) (h : Inv f path tmp v₀ st) (hi : st.calls[i]? = some (d, pc))
    {ev : Event ρ} {r : State P σ δ α × Pc α}
    (hr : st.callStep f path tmp i d pc ev = some r) :
    Inv f path tmp v₀ { r.1 with calls := st.calls.set i (d, r.2) } := by
  unfold State.callStep at hr
  split at hr
  · split at hr
    · cases hr
      exact h.quiet hi (.done .unchanged) rfl (CallOk.of_ended (.inl rfl) nofun) (fun _ _ _ _ ↦ .inr ⟨rfl, rfl⟩)
        nofun nofun
    · rename_i hact
      cases hr
      exact h.starts hi hact
  · split at hr
    · rename_i hfree
      cases hr
      exact h.locks hi hfree
    · cases hr
  · obtain ⟨text, hrendered, rfl⟩ := Option.map_eq_some_iff.mp hr
    exact h.takes hi hrendered
  · cases hr
    exact h.opens hne hi
  · split at hr
    · cases hr
      exact h.writes hne hi
    · cases hr
  · split at hr
    · rename_i hrename
      cases hr
      exact h.renames hi hrename
    · cases hr
      exact h.fails hi rfl
  · cases hr
    exact h.fails hi rfl
  · cases hr
    exact h.fails hi rfl
  · cases hr
    exact h.leaves hi
  · cases hr

theorem step [Inhabited α] (hne : path ≠ tmp) (h : Inv f path tmp v₀ st) {a : Action δ ρ}
    (hs : step f path tmp a st = some st') : Inv f path tmp v₀ st' := by
  cases a with
  | call d =>
    cases hs
    exact h.call d
  | restart =>
    cases hs
    exact h.restart
  | step i ev =>
    obtain ⟨x, hx, hs⟩ := Option.bind_eq_some_iff.mp hs
    obtain ⟨r, hr, rfl⟩ := Option.map_eq_some_iff.mp hs
    exact h.callStep hne hx hr

theorem init [Inhabited α] (f : Format σ δ ρ α) (path tmp : P) (files : Files P α) :
    Inv f path tmp (f.load (files.read path)) (State.init f path files : State P σ δ α) :=
  ⟨rfl, rfl, le_rfl, fun _ _ hx ↦ absurd hx (by simp [State.init]), fun k _ hk ↦ absurd hk (Nat.not_lt_zero k)⟩

theorem of_run [Inhabited α] (hne : path ≠ tmp) {files : Files P α}
    (h : Run (SnapshotFile.step f path tmp) (fun _ _ ↦ True) (State.init f path files) st) :
    Inv f path tmp (f.load (files.read path)) st :=
  h.invariant (.init f path tmp files) fun _ _ _ hinv _ hs ↦ hinv.step hne hs

/-- A change that was written is one of those that the file has. -/
theorem file_written (h : Inv f path tmp v₀ st) {k : ℕ} (hi : st.calls[i]? = some (d, .done (.written k))) :
    (st.log.take st.written)[k]? = some d ∧ st.log[k]? = some d := by
  obtain ⟨hget, hlt⟩ := (h.calls i _ hi).written k rfl
  rw [List.getElem?_take_of_lt hlt]
  exact ⟨hget, hget⟩

/-- Once all calls have ended and none has failed, the file has the value. -/
theorem file_settled (h : Inv f path tmp v₀ st) (hended : ∀ x ∈ st.calls, x.2.ended = true)
    (hdone : ∀ x ∈ st.calls, x.2.outcome ≠ some .failed) : f.load (st.files.read path) = st.value := by
  have hall : st.log.length ≤ st.written := by
    by_contra hlt
    obtain ⟨j, x, hx, hwait⟩ := h.waits st.written le_rfl (not_le.mp hlt)
    have hmem := List.mem_of_getElem? hx
    have hend := hended x hmem
    obtain hnumber | hfailed := hwait
    · cases hpc : x.2 <;> rw [hpc] at hnumber hend <;> first | cases hnumber; done | cases hend
    · exact hdone x hmem hfailed
  rw [h.file, h.value, List.take_of_length_le hall]

end Inv

end Proofs

end SnapshotFile
