import Mathlib

namespace PgVmPool

/-- An error of the Postgres client; a SQLSTATE is there when the server composed it. -/
structure PgError where
  code : Option String
  msg : String
  deriving DecidableEq

/-- What `SELECT 1` through the pool comes to: the pool hands out a client that answers or fails,
the connection fails, or the pool itself refuses. -/
inductive PgReply
  | answered
  | query (e : PgError)
  | backend (e : PgError)
  | pool (msg : String)
  deriving DecidableEq

/-- One attempt, with the milliseconds it takes to come back. -/
structure PgAttempt where
  reply : PgReply
  took : ℕ
  deriving DecidableEq

inductive PgProbe
  | ready
  | responding (msg : String)
  | stalled (msg : String)
  | unreachable (msg : String)
  deriving DecidableEq

def pgProbeWindow : ℕ := 15000

def pgProbeAttempt : ℕ := 3000

def pgPollFast : ℕ := 100

def pgPollSlow : ℕ := 500

def pgPollFastWindow : ℕ := 5000

def pgPollInterval (elapsed : ℕ) : ℕ := if elapsed < pgPollFastWindow then pgPollFast else pgPollSlow

def classifyPgError (e : PgError) : PgProbe :=
  if e.code.isSome then .responding e.msg else .unreachable e.msg

def probePg (a : PgAttempt) : PgProbe :=
  if pgProbeAttempt < a.took then .stalled "no answer within 3s"
  else
    match a.reply with
    | .answered => .ready
    | .query e | .backend e => classifyPgError e
    | .pool msg => .stalled ("pool checkout failed locally: " ++ msg)

/-- How long a bounded attempt keeps the window waiting. -/
def PgAttempt.probed (a : PgAttempt) : ℕ := min a.took pgProbeAttempt

/-- The verdict of a window that started `elapsed` ago, and the attempts it did not make. -/
def probePgWindow (window : ℕ) :
    ℕ → String → Option String → List PgAttempt → Option (PgProbe × List PgAttempt)
  | _, _, _, [] => none
  | elapsed, lastErr, stalled, a :: rest =>
    let now := elapsed + a.probed
    let retry (lastErr : String) (stalled : Option String) :=
      if window ≤ now then some (stalled.elim (.unreachable lastErr) .stalled, rest)
      else probePgWindow window (now + pgPollInterval now) lastErr stalled rest
    match probePg a with
    | .unreachable msg => retry msg stalled
    | .stalled msg => retry lastErr (some msg)
    | verdict => some (verdict, rest)

def PgReply.error : PgReply → Option String
  | .answered => none
  | .query e | .backend e => some e.msg
  | .pool msg => some msg

def waitPgReady (timeout : ℕ) : ℕ → List PgAttempt → Option (Except String Unit × List PgAttempt)
  | _, [] => none
  | elapsed, a :: rest =>
    match a.reply.error with
    | none => some (.ok (), rest)
    | some lastErr =>
      let now := elapsed + a.took
      if timeout ≤ now then some (.error lastErr, rest)
      else waitPgReady timeout (now + pgPollInterval now) rest

inductive ReadyPg
  | ready
  | failed (err : String)
  | powerCycle
  deriving DecidableEq

/-- `ready_pg`: `probes` are the attempts of its probe window, `waits` those of the wait it may go
on to; what it does, and the attempts it did not make. -/
def readyPg (readyTimeout : ℕ) (probes waits : List PgAttempt) :
    Option (ReadyPg × List PgAttempt × List PgAttempt) :=
  (probePgWindow pgProbeWindow 0 "" none probes).bind fun p ↦
    match p.1 with
    | .ready => some (.ready, p.2, waits)
    | .responding _ => (waitPgReady readyTimeout 0 waits).map fun q ↦
        (match q.1 with | .ok () => .ready | .error e => .failed e, p.2, q.2)
    | .stalled _ => (waitPgReady readyTimeout 0 waits).map fun q ↦
        (match q.1 with | .ok () => .ready | .error _ => .powerCycle, p.2, q.2)
    | .unreachable _ => some (.powerCycle, p.2, waits)

def PgProbe.Silent : PgProbe → Prop
  | .ready | .responding _ => False
  | .stalled _ | .unreachable _ => True

def PgProbe.Stalled : PgProbe → Prop
  | .stalled _ => True
  | .ready | .responding _ | .unreachable _ => False

/-- The server speaks: it answers, or composes an error. -/
def PgReply.Spoken : PgReply → Prop
  | .answered => True
  | .query e | .backend e => e.code.isSome
  | .pool _ => False

/-- The time at which the last of these attempts ends. -/
def clock (spent : PgAttempt → ℕ) : ℕ → List PgAttempt → ℕ
  | elapsed, [] => elapsed
  | elapsed, [a] => elapsed + spent a
  | elapsed, a :: b :: rest =>
    clock spent (elapsed + spent a + pgPollInterval (elapsed + spent a)) (b :: rest)

/-- These attempts last for the whole of `limit`: the last of them is the first to end past it. -/
def Fills (limit : ℕ) (spent : PgAttempt → ℕ) : ℕ → List PgAttempt → Prop
  | _, [] => False
  | elapsed, [a] => limit ≤ elapsed + spent a
  | elapsed, a :: b :: rest => elapsed + spent a < limit ∧
    Fills limit spent (elapsed + spent a + pgPollInterval (elapsed + spent a)) (b :: rest)

theorem le_clock_of_fills {limit : ℕ} {spent : PgAttempt → ℕ} {elapsed : ℕ} {xs : List PgAttempt}
    (h : Fills limit spent elapsed xs) : limit ≤ clock spent elapsed xs := by
  induction xs generalizing elapsed with
  | nil => exact h.elim
  | cons a rest ih =>
    cases rest with
    | nil => exact h
    | cons b rest => exact ih h.2

/-- What a window that hears nothing remembers. -/
def noteProbe (seen : String × Option String) (a : PgAttempt) : String × Option String :=
  match probePg a with
  | .unreachable msg => (msg, seen.2)
  | .stalled msg => (seen.1, some msg)
  | .ready | .responding _ => seen

def closing (seen : String × Option String) : PgProbe := seen.2.elim (.unreachable seen.1) .stalled

theorem closing_silent (seen : String × Option String) : (closing seen).Silent := by
  rcases seen with ⟨lastErr, _ | msg⟩ <;> trivial

theorem closing_stalled (seen : String × Option String) :
    (closing seen).Stalled ↔ seen.2.isSome = true := by
  rcases seen with ⟨lastErr, _ | msg⟩ <;> simp [closing, PgProbe.Stalled]

theorem noteProbe_isSome (seen : String × Option String) (a : PgAttempt) :
    (noteProbe seen a).2.isSome = true ↔ seen.2.isSome = true ∨ (probePg a).Stalled := by
  unfold noteProbe
  cases probePg a <;> simp [PgProbe.Stalled]

theorem closing_foldl_stalled (xs : List PgAttempt) (seen : String × Option String) :
    (closing (xs.foldl noteProbe seen)).Stalled ↔
      seen.2.isSome = true ∨ ∃ a ∈ xs, (probePg a).Stalled := by
  induction xs generalizing seen with
  | nil => simp [closing_stalled]
  | cons a xs ih => simp [ih, noteProbe_isSome, or_assoc]

/-- A window that hears nothing from the server is one that its attempts fill. -/
theorem probePgWindow_iff {window elapsed : ℕ} {lastErr : String} {stalled : Option String}
    {xs : List PgAttempt} {v : PgProbe} (hv : v.Silent) :
    probePgWindow window elapsed lastErr stalled xs = some (v, []) ↔
      Fills window PgAttempt.probed elapsed xs ∧ (∀ a ∈ xs, (probePg a).Silent) ∧
        v = closing (xs.foldl noteProbe (lastErr, stalled)) := by
  induction xs generalizing elapsed lastErr stalled with
  | nil => simp [probePgWindow, Fills]
  | cons a rest ih =>
    have hretry (l : String) (s : Option String) (hs : (probePg a).Silent)
        (hnote : noteProbe (lastErr, stalled) a = (l, s)) :
        (if window ≤ elapsed + a.probed then some (s.elim (.unreachable l) .stalled, rest)
          else probePgWindow window (elapsed + a.probed + pgPollInterval (elapsed + a.probed)) l s rest) =
          some (v, []) ↔
        Fills window PgAttempt.probed elapsed (a :: rest) ∧ (∀ b ∈ a :: rest, (probePg b).Silent) ∧
          v = closing ((a :: rest).foldl noteProbe (lastErr, stalled)) := by
      cases rest with
      | nil =>
        split
        · rename_i h
          simp [Fills, h, hs, hnote, closing, eq_comm]
        · rename_i h
          simp [probePgWindow, Fills, h]
      | cons b rest =>
        split
        · rename_i h
          simp [Fills, Nat.not_lt.mpr h]
        · rename_i h
          rw [ih]
          simp [Fills, Nat.lt_of_not_le h, hs, hnote, and_assoc]
    unfold probePgWindow
    cases hp : probePg a with
    | ready | responding =>
      simp only [hp, List.mem_cons, forall_eq_or_imp, PgProbe.Silent, false_and, and_false, iff_false]
      rintro h
      cases h
      exact hv
    | stalled msg => exact hretry lastErr (some msg) (hp ▸ trivial) (by simp [noteProbe, hp])
    | unreachable msg => exact hretry msg stalled (hp ▸ trivial) (by simp [noteProbe, hp])

theorem PgReply.error_eq_none {r : PgReply} : r.error = none ↔ r = .answered := by
  cases r <;> simp [PgReply.error]

theorem waitPgReady_error_iff {timeout elapsed : ℕ} {xs : List PgAttempt} :
    (∃ err, waitPgReady timeout elapsed xs = some (.error err, [])) ↔
      Fills timeout PgAttempt.took elapsed xs ∧ ∀ a ∈ xs, a.reply ≠ .answered := by
  induction xs generalizing elapsed with
  | nil => simp [waitPgReady, Fills]
  | cons a rest ih =>
    unfold waitPgReady
    cases he : a.reply.error with
    | none => simp [PgReply.error_eq_none.mp he]
    | some lastErr =>
      have ha : a.reply ≠ .answered := by simp [← PgReply.error_eq_none, he]
      cases rest with
      | nil =>
        dsimp only
        split
        · rename_i h
          simp [Fills, h, ha]
        · rename_i h
          simp [waitPgReady, Fills, h]
      | cons b rest =>
        dsimp only
        split
        · rename_i h
          simp [Fills, Nat.not_lt.mpr h]
        · rename_i h
          rw [ih]
          simp [Fills, Nat.lt_of_not_le h, ha]

/-- The call makes exactly these attempts and stops the VM. -/
def Cycles (readyTimeout : ℕ) (probes waits : List PgAttempt) : Prop :=
  readyPg readyTimeout probes waits = some (.powerCycle, [], [])

instance {t : ℕ} {probes waits : List PgAttempt} : Decidable (Cycles t probes waits) :=
  inferInstanceAs (Decidable (_ = _))

theorem cycles_iff {t : ℕ} {probes waits : List PgAttempt} :
    Cycles t probes waits ↔
      Fills pgProbeWindow PgAttempt.probed 0 probes ∧ (∀ a ∈ probes, (probePg a).Silent) ∧
        ((∀ a ∈ probes, ¬(probePg a).Stalled) ∧ waits = [] ∨
          (∃ a ∈ probes, (probePg a).Stalled) ∧
            Fills t PgAttempt.took 0 waits ∧ ∀ a ∈ waits, a.reply ≠ .answered) := by
  have hiff {v : PgProbe} (hv : v.Silent) := @probePgWindow_iff pgProbeWindow 0 "" none probes v hv
  have hstalled : (closing (probes.foldl noteProbe ("", none))).Stalled ↔
      ∃ a ∈ probes, (probePg a).Stalled := by
    simp [closing_foldl_stalled]
  have hwait := @waitPgReady_error_iff t 0 waits
  constructor
  · intro h
    obtain ⟨⟨v, left⟩, hp, h⟩ := Option.bind_eq_some_iff.mp h
    cases v with
    | ready => cases h
    | responding msg =>
      obtain ⟨⟨r, rest⟩, -, h⟩ := Option.map_eq_some_iff.mp h
      cases r <;> cases h
    | stalled msg =>
      obtain ⟨⟨r, rest⟩, hw, h⟩ := Option.map_eq_some_iff.mp h
      cases r with
      | ok => cases h
      | error err =>
        cases h
        obtain ⟨hfills, hsilent, hv⟩ := (@hiff (.stalled msg) trivial).mp hp
        exact ⟨hfills, hsilent, .inr ⟨hstalled.mp (hv ▸ trivial), hwait.mp ⟨err, hw⟩⟩⟩
    | unreachable msg =>
      cases h
      obtain ⟨hfills, hsilent, hv⟩ := (@hiff (.unreachable msg) trivial).mp hp
      have hnone : ¬∃ a ∈ probes, (probePg a).Stalled := fun hs ↦ by
        rw [← hstalled, ← hv] at hs
        exact hs
      exact ⟨hfills, hsilent, .inl ⟨by simpa using hnone, rfl⟩⟩
  · rintro ⟨hfills, hsilent, hcase⟩
    have hp := (hiff (closing_silent _)).mpr ⟨hfills, hsilent, rfl⟩
    unfold Cycles readyPg
    rw [hp, Option.bind_some]
    cases hv : closing (probes.foldl noteProbe ("", none)) with
    | ready | responding =>
      have hsil := closing_silent (probes.foldl noteProbe ("", none))
      rw [hv] at hsil
      exact hsil.elim
    | stalled msg =>
      rcases hcase with ⟨hnone, -⟩ | ⟨-, hw⟩
      · obtain ⟨a, ha, hs⟩ := hstalled.mp (hv ▸ trivial)
        exact absurd hs (hnone a ha)
      · obtain ⟨err, hw⟩ := hwait.mpr hw
        simp [hw]
    | unreachable msg =>
      rcases hcase with ⟨-, rfl⟩ | ⟨hsome, -⟩
      · rfl
      · have hst := hstalled.mpr hsome
        rw [hv] at hst
        exact hst.elim

/-- What licenses a power cycle: the server said nothing in the whole call, and either the window
saw refusals only or the silence lasted for `ready_timeout`. -/
structure Justified (readyTimeout : ℕ) (probes waits : List PgAttempt) : Prop where
  unheard : ∀ a ∈ probes, (probePg a).Silent
  unspoken : ∀ a ∈ waits, ¬a.reply.Spoken
  waited : (∀ a ∈ probes, ¬(probePg a).Stalled) ∨ readyTimeout ≤ clock PgAttempt.took 0 waits

/-- After a window with a stall the server composes errors for as long as it is waited for. -/
structure Misread (readyTimeout : ℕ) (probes waits : List PgAttempt) : Prop where
  window : Fills pgProbeWindow PgAttempt.probed 0 probes
  unheard : ∀ a ∈ probes, (probePg a).Silent
  stalled : ∃ a ∈ probes, (probePg a).Stalled
  wait : Fills readyTimeout PgAttempt.took 0 waits
  unanswered : ∀ a ∈ waits, a.reply ≠ .answered
  spoken : ∃ a ∈ waits, a.reply.Spoken

theorem power_cycle_justified_iff (readyTimeout : ℕ) (probes waits : List PgAttempt) :
    (Cycles readyTimeout probes waits → Justified readyTimeout probes waits) ↔
      ¬Misread readyTimeout probes waits := by
  constructor
  · intro h m
    obtain ⟨a, ha, hs⟩ := m.spoken
    have hcycles := cycles_iff.mpr ⟨m.window, m.unheard, .inr ⟨m.stalled, m.wait, m.unanswered⟩⟩
    exact (h hcycles).unspoken a ha hs
  · intro h hcycles
    obtain ⟨hfills, hsilent, ⟨hnone, rfl⟩ | ⟨hsome, hwait, hunanswered⟩⟩ := cycles_iff.mp hcycles
    · exact ⟨hsilent, by simp, .inl hnone⟩
    · refine ⟨hsilent, fun a ha hs ↦ ?_, .inr (le_clock_of_fills hwait)⟩
      exact h ⟨hfills, hsilent, hsome, hwait, hunanswered, a, ha, hs⟩

def replayingWal : PgAttempt := ⟨.backend ⟨some "57P03", "the database system is starting up"⟩, 400⟩

def slowToFork : PgAttempt := ⟨.answered, 3600⟩

theorem power_cycle_mid_recovery :
    Cycles 1000 (List.replicate 5 slowToFork) (List.replicate 3 replayingWal) ∧
      ¬Justified 1000 (List.replicate 5 slowToFork) (List.replicate 3 replayingWal) := by
  refine ⟨by decide, fun h ↦ ?_⟩
  exact h.unspoken replayingWal (by simp [List.replicate]) rfl

end PgVmPool
