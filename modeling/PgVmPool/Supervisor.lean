import PgVmPool.Transition

namespace Transition

variable {ε : Type} {gets puts : ε → Prop} {R : List ε → ε → ε → Prop} {log : List ε} {e : ε}

/-- The first put behind each get stands to it as `R` wants, given all that came before the put. -/
def Answers (gets puts : ε → Prop) (R : List ε → ε → ε → Prop) (log : List ε) : Prop :=
  ∀ before x between y after, log = before ++ x :: (between ++ y :: after) → gets x → puts y →
    (∀ z ∈ between, ¬ puts z) → R (before ++ x :: between) x y

theorem Answers.nil : Answers gets puts R ([] : List ε) := by
  intro before x between y after heq
  simp at heq

theorem Answers.snoc (h : Answers gets puts R log)
    (he : puts e → ∀ x, gets x → Outstanding (· = x) puts log → R log x e) :
    Answers gets puts R (log ++ [e]) := by
  intro before x between y after heq hx hy hnone
  obtain rfl | ⟨after, z, rfl⟩ := List.eq_nil_or_concat after
  · have hsplit : log ++ [e] = (before ++ x :: between) ++ [y] := by simpa using heq
    obtain ⟨rfl, hlast⟩ := List.append_inj' hsplit rfl
    obtain rfl := List.singleton_inj.mp hlast
    exact he hy x hx ⟨before, x, between, rfl, rfl, hnone⟩
  · have hsplit : log ++ [e] = (before ++ x :: (between ++ y :: after)) ++ [z] := by simpa using heq
    obtain ⟨rfl, -⟩ := List.append_inj' hsplit rfl
    exact h before x between y after rfl hx hy hnone

end Transition

namespace PgVmPool.Supervise

open Transition

inductive PassEnd
  | ok (n : ℕ)
  | panicked
  | cancelled
  deriving DecidableEq

/-- What came when: a wake, the start of a pass and its end. -/
inductive Mark
  | wake (t : ℕ)
  | start (t : ℕ)
  | stop (t : ℕ) (r : PassEnd)
  deriving DecidableEq

namespace Mark

def time : Mark → ℕ
  | .wake t | .start t | .stop t _ => t

def IsWake (m : Mark) : Prop := ∃ t, m = .wake t
def IsStart (m : Mark) : Prop := ∃ t, m = .start t
def IsStop (m : Mark) : Prop := ∃ t r, m = .stop t r

def count : Mark → ℕ
  | .stop _ (.ok n) => n
  | _ => 0

end Mark

/-- Whether there is a handle to wake the loop with, and its times in milliseconds. -/
structure Params where
  wake : Bool
  firstDelay : ℕ
  tick : ℕ
  wakeFloor : ℕ

inductive Phase
  | waiting (till : ℕ)
  | floor (till : ℕ)
  | running
  deriving DecidableEq

/-- The loop of `supervise_with_wake`: the permit is what `Notify` keeps of wakes that no one waits for. -/
structure Loop where
  now : ℕ
  phase : Phase
  permit : Bool
  passes : ℕ
  actions : ℕ
  lastEnd : Option ℕ
  log : List Mark
  deriving DecidableEq

inductive Event
  | notify
  | elapse (ms : ℕ)
  | notified
  | timer
  | ended (r : PassEnd)

def init (p : Params) : Loop := ⟨0, .waiting p.firstDelay, false, 0, 0, none, []⟩

namespace Loop

def startPass (st : Loop) : Loop :=
  { st with phase := .running, passes := st.passes + 1, log := st.log ++ [.start st.now] }

/-- Behind the wait: no pass starts within the floor of the last one's end. -/
def waited (p : Params) (st : Loop) : Loop :=
  match st.lastEnd with
  | some e =>
    let since := st.now - e
    if since < p.wakeFloor then { st with phase := .floor (st.now + (p.wakeFloor - since)) } else st.startPass
  | none => st.startPass

def delay (p : Params) (st : Loop) : ℕ := if st.passes = 0 then p.firstDelay else p.tick

/-- A pass that panics ends as any other does. -/
def endPass (p : Params) (st : Loop) (r : PassEnd) : Loop :=
  { st with
    phase := .waiting (st.now + st.delay p)
    actions := st.actions + (Mark.stop st.now r).count
    lastEnd := some st.now
    log := st.log ++ [.stop st.now r] }

end Loop

/-- One step of the loop, of a waker or of the clock. When both the sleep and the wake are over the loop takes
either. -/
def step (p : Params) : Event → Loop → Option Loop
  | .notify, st => if p.wake then some { st with permit := true, log := st.log ++ [.wake st.now] } else none
  | .elapse ms, st => some { st with now := st.now + ms }
  | .notified, st =>
    match st.phase with
    | .waiting _ => if st.permit then some ({ st with permit := false }.waited p) else none
    | _ => none
  | .timer, st =>
    match st.phase with
    | .waiting till => if till ≤ st.now then some (st.waited p) else none
    | .floor till => if till ≤ st.now then some st.startPass else none
    | .running => none
  | .ended r, st => if st.phase = .running then some (st.endPass p r) else none

/-- Timers go off when they are due, and a loop that was woken goes on at once. -/
def Punctual (st : Loop) : Event → Prop
  | .elapse ms =>
    match st.phase with
    | .waiting till => st.permit = false ∧ st.now + ms ≤ till
    | .floor till => st.now + ms ≤ till
    | .running => True
  | _ => True

instance : ∀ (st : Loop) (ev : Event), Decidable (Punctual st ev)
  | ⟨now, .waiting till, permit, _, _, _, _⟩, .elapse ms =>
    inferInstanceAs (Decidable (permit = false ∧ now + ms ≤ till))
  | ⟨now, .floor till, _, _, _, _, _⟩, .elapse ms => inferInstanceAs (Decidable (now + ms ≤ till))
  | ⟨_, .running, _, _, _, _, _⟩, .elapse _ => .isTrue trivial
  | _, .notify | _, .notified | _, .timer | _, .ended _ => .isTrue trivial

def lastStop (log : List Mark) : Option ℕ :=
  log.reverse.findSome? fun
    | .stop t _ => some t
    | _ => none

/-- The latest time for a pass that was asked for at `w`. -/
def dueBy (p : Params) (log : List Mark) (w : ℕ) : ℕ := max w (((lastStop log).map (· + p.wakeFloor)).getD 0)

/-- One pass at a time, each at least the floor behind the last one's end; what they did is counted. -/
structure Loop.Serial (p : Params) (st : Loop) : Prop where
  serial : Alternating Mark.IsStart Mark.IsStop st.log
  spaced : Answers Mark.IsStop Mark.IsStart (fun _ x y ↦ x.time + p.wakeFloor ≤ y.time) st.log
  actions : st.actions = (st.log.map Mark.count).sum

/-- No wake is lost and no pass is the last: a pass starts when it was asked for, unless one is running or the
floor is not over, and however the last one ended the next one is no later than tick and floor let it be. -/
structure Loop.Prompt (p : Params) (st : Loop) : Prop where
  woken : Answers Mark.IsWake Mark.IsStart (fun log x y ↦ y.time ≤ dueBy p log x.time) st.log
  asked : ∀ w, Outstanding (· = Mark.wake w) Mark.IsStart st.log →
    st.phase = .running ∨ st.now ≤ dueBy p st.log w
  ticked : Answers Mark.IsStop Mark.IsStart (fun _ x y ↦ y.time ≤ x.time + max p.tick p.wakeFloor) st.log
  ended : ∀ e r, Outstanding (· = Mark.stop e r) Mark.IsStart st.log → st.now ≤ e + max p.tick p.wakeFloor
  begun : (∀ m ∈ st.log, ¬ m.IsStart) → st.now ≤ p.firstDelay

/-- What the loop does of itself: no wake, and no pass that ends. -/
def Event.Own : Event → Prop
  | .elapse _ | .notified | .timer => True
  | .notify | .ended _ => False

/-- By itself the loop comes to the start of a pass. -/
def Loop.Starts (p : Params) (st : Loop) : Prop :=
  ∃ st', Run (step p) (fun st ev ↦ ev.Own ∧ Punctual st ev) st st' ∧
    st'.phase = .running ∧ st'.log = st.log ++ [.start st'.now]

/-- Whatever the loop waits for, it goes on once that is there; with nothing else it comes to its next pass. -/
structure Loop.Live (p : Params) (st : Loop) : Prop where
  slept : ∀ till, st.phase = .waiting till ∨ st.phase = .floor till → till ≤ st.now →
    ∃ st', step p .timer st = some st'
  notified : ∀ till, st.phase = .waiting till → st.permit = true → ∃ st', step p .notified st = some st'
  ended : st.phase = .running → ∀ r, ∃ st', step p (.ended r) st = some st'
  starts : st.phase ≠ .running → st.Starts p

section Marks

variable {p : Params} {log : List Mark} {st st' : Loop}

theorem lastStop_stop (log : List Mark) (t : ℕ) (r : PassEnd) : lastStop (log ++ [.stop t r]) = some t := by
  rw [lastStop, List.reverse_concat, List.findSome?_cons]

theorem lastStop_of_not_stop {m : Mark} (h : ¬ m.IsStop) : lastStop (log ++ [m]) = lastStop log := by
  cases m with
  | stop t r => exact absurd ⟨t, r, rfl⟩ h
  | _ => rw [lastStop, List.reverse_concat, List.findSome?_cons, lastStop]

theorem not_isStop_start (t : ℕ) : ¬ (Mark.start t).IsStop := by
  rintro ⟨_, _, h⟩
  cases h

theorem not_isStop_wake (t : ℕ) : ¬ (Mark.wake t).IsStop := by
  rintro ⟨_, _, h⟩
  cases h

theorem not_isStart_wake (t : ℕ) : ¬ (Mark.wake t).IsStart := by
  rintro ⟨_, h⟩
  cases h

theorem not_isStart_stop (t : ℕ) (r : PassEnd) : ¬ (Mark.stop t r).IsStart := by
  rintro ⟨_, h⟩
  cases h

theorem eq_of_outstanding_start {m : Mark} {t : ℕ}
    (h : Outstanding (· = m) Mark.IsStart (log ++ [.start t])) : m = .start t := by
  obtain ⟨-, hnot⟩ | heq := h.of_snoc
  · exact absurd ⟨t, rfl⟩ hnot
  · exact heq.symm

theorem Loop.Serial.congr (h : st.Serial p) (hlog : st'.log = st.log) (hactions : st'.actions = st.actions) :
    st'.Serial p := by
  refine ⟨?_, ?_, ?_⟩
  · rw [hlog]
    exact h.serial
  · rw [hlog]
    exact h.spaced
  · rw [hlog, hactions]
    exact h.actions

/-- What holds of the loop and its marks whatever the clock does. -/
structure Sound (p : Params) (st : Loop) : Prop where
  lastEnd : st.lastEnd = lastStop st.log
  past : ∀ e, st.lastEnd = some e → e ≤ st.now
  floor : ∀ till, st.phase = .floor till → ∃ e, st.lastEnd = some e ∧ e + p.wakeFloor = till
  idle : st.phase ≠ .running → ¬ Outstanding Mark.IsStart Mark.IsStop st.log
  busy : st.phase = .running → ∀ e r, ¬ Outstanding (· = Mark.stop e r) Mark.IsStart st.log
  latest : ∀ e r, Outstanding (· = Mark.stop e r) Mark.IsStart st.log → st.lastEnd = some e
  serial : st.Serial p

/-- The wait is over: the loop waits for the floor, or starts a pass that is far enough from the last one. -/
theorem Sound.waited_cases (h : Sound p st) :
    (∃ e, st.lastEnd = some e ∧ st.now ≤ e + p.wakeFloor ∧
      st.waited p = { st with phase := .floor (e + p.wakeFloor) }) ∨
      (∀ e, st.lastEnd = some e → e + p.wakeFloor ≤ st.now) ∧ st.waited p = st.startPass := by
  unfold Loop.waited
  cases hlast : st.lastEnd with
  | none => exact .inr ⟨fun e he ↦ absurd he (Option.some_ne_none e).symm, rfl⟩
  | some e =>
    have hle := h.past e hlast
    dsimp only
    split_ifs with hsince
    · refine .inl ⟨e, rfl, by omega, ?_⟩
      have htill : st.now + (p.wakeFloor - (st.now - e)) = e + p.wakeFloor := by omega
      rw [htill]
    · refine .inr ⟨fun e' he ↦ ?_, rfl⟩
      obtain rfl := Option.some_inj.mp he
      omega

namespace Sound

theorem startPass (h : Sound p st) (hidle : st.phase ≠ .running)
    (hfloor : ∀ e, st.lastEnd = some e → e + p.wakeFloor ≤ st.now) : Sound p st.startPass where
  lastEnd := h.lastEnd.trans (lastStop_of_not_stop (not_isStop_start _)).symm
  past := h.past
  floor _ hphase := by cases hphase
  idle hphase := absurd rfl hphase
  busy _ e r hout := by cases eq_of_outstanding_start hout
  latest e r hout := by cases eq_of_outstanding_start hout
  serial := by
    refine ⟨h.serial.serial.snoc fun _ ↦ h.idle hidle, h.serial.spaced.snoc fun _ x hx hout ↦ ?_, ?_⟩
    · obtain ⟨e, r, rfl⟩ := hx
      exact hfloor e (h.latest e r hout)
    · exact h.serial.actions.trans (by simp [Loop.startPass, Mark.count])

theorem waited (h : Sound p st) (hidle : st.phase ≠ .running) : Sound p (st.waited p) := by
  obtain ⟨e, he, -, hwaited⟩ | ⟨hfloor, hwaited⟩ := h.waited_cases
  · rw [hwaited]
    refine ⟨h.lastEnd, h.past, fun till hphase ↦ ?_, fun _ ↦ h.idle hidle, fun hphase ↦ ?_, h.latest,
      h.serial.congr rfl rfl⟩
    · cases hphase
      exact ⟨e, he, rfl⟩
    · cases hphase
  · rw [hwaited]
    exact h.startPass hidle hfloor

theorem notify (h : Sound p st) : Sound p { st with permit := true, log := st.log ++ [.wake st.now] } where
  lastEnd := h.lastEnd.trans (lastStop_of_not_stop (not_isStop_wake _)).symm
  past := h.past
  floor := h.floor
  idle hphase hout := by
    obtain ⟨hout, -⟩ | hstart := hout.of_snoc
    · exact h.idle hphase hout
    · exact not_isStart_wake _ hstart
  busy hphase e r hout := by
    obtain ⟨hout, -⟩ | heq := hout.of_snoc
    · exact h.busy hphase e r hout
    · cases heq
  latest e r hout := by
    obtain ⟨hout, -⟩ | heq := hout.of_snoc
    · exact h.latest e r hout
    · cases heq
  serial := by
    refine ⟨h.serial.serial.snoc fun hstart ↦ absurd hstart (not_isStart_wake _),
      h.serial.spaced.snoc fun hstart ↦ absurd hstart (not_isStart_wake _), ?_⟩
    exact h.serial.actions.trans (by simp [Mark.count])

theorem endPass (h : Sound p st) (hphase : st.phase = .running) (r : PassEnd) : Sound p (st.endPass p r) where
  lastEnd := (lastStop_stop _ _ r).symm
  past e he := (Option.some_inj.mp he).ge
  floor _ hfloor := by cases hfloor
  idle _ hout := by
    obtain ⟨-, hnot⟩ | hstart := hout.of_snoc
    · exact hnot ⟨_, _, rfl⟩
    · exact not_isStart_stop _ _ hstart
  busy hrunning := by cases hrunning
  latest e r' hout := by
    obtain ⟨hout, -⟩ | heq := hout.of_snoc
    · exact absurd hout (h.busy hphase e r')
    · cases heq
      rfl
  serial := by
    refine ⟨h.serial.serial.snoc fun hstart ↦ absurd hstart (not_isStart_stop _ _),
      h.serial.spaced.snoc fun hstart ↦ absurd hstart (not_isStart_stop _ _), ?_⟩
    rw [Loop.endPass, List.map_append, List.sum_append, ← h.serial.actions, List.map_singleton, List.sum_singleton]

theorem congr (h : Sound p st) (permit : Bool) : Sound p { st with permit } :=
  ⟨h.lastEnd, h.past, h.floor, h.idle, h.busy, h.latest, h.serial.congr rfl rfl⟩

theorem elapse (h : Sound p st) (ms : ℕ) : Sound p { st with now := st.now + ms } where
  lastEnd := h.lastEnd
  past e he := (h.past e he).trans (Nat.le_add_right _ _)
  floor := h.floor
  idle := h.idle
  busy := h.busy
  latest := h.latest
  serial := h.serial.congr rfl rfl

theorem step (h : Sound p st) {ev : Event} (hs : Supervise.step p ev st = some st') : Sound p st' := by
  cases ev with
  | notify =>
    simp only [Supervise.step] at hs
    split_ifs at hs
    cases hs
    exact h.notify
  | elapse ms =>
    cases hs
    exact h.elapse ms
  | notified =>
    simp only [Supervise.step] at hs
    split at hs
    · rename_i hphase
      split_ifs at hs
      cases hs
      have hidle : st.phase ≠ .running := by
        rw [hphase]
        exact Phase.noConfusion
      exact (h.congr false).waited hidle
    · cases hs
  | timer =>
    simp only [Supervise.step] at hs
    split at hs
    · rename_i hphase
      split_ifs at hs
      cases hs
      apply h.waited
      rw [hphase]
      exact Phase.noConfusion
    · rename_i till hphase
      split_ifs at hs with hdue
      cases hs
      obtain ⟨e, he, htill⟩ := h.floor till hphase
      apply h.startPass
      · rw [hphase]
        exact Phase.noConfusion
      · intro e' he'
        obtain rfl : e = e' := Option.some_inj.mp (he.symm.trans he')
        exact htill.le.trans hdue
    · cases hs
  | ended r =>
    simp only [Supervise.step] at hs
    split_ifs at hs with hphase
    cases hs
    exact h.endPass hphase r

theorem init (p : Params) : Sound p (Supervise.init p) where
  lastEnd := rfl
  past e he := by cases he
  floor till hphase := by cases hphase
  idle _ hout := by
    obtain ⟨before, x, after, heq, -⟩ := hout
    simp [Supervise.init] at heq
  busy hphase := by cases hphase
  latest e r hout := by
    obtain ⟨before, x, after, heq, -⟩ := hout
    simp [Supervise.init] at heq
  serial := ⟨.nil, .nil, rfl⟩

theorem of_run {ok : Loop → Event → Prop} (h : Run (Supervise.step p) ok (Supervise.init p) st) : Sound p st :=
  h.invariant (.init p) fun _ _ _ hsound _ hs ↦ hsound.step hs

end Sound

/-- However late its timers are, a loop runs one pass at a time and leaves the floor between them. -/
theorem passes_serial {ok : Loop → Event → Prop} (h : Run (step p) ok (init p) st) : st.Serial p :=
  (Sound.of_run h).serial

/-- Where a punctual loop is: no timer of it is overdue, and what was asked for is on its way. -/
structure Timely (p : Params) (st : Loop) : Prop where
  waiting : ∀ till, st.phase = .waiting till →
    st.now ≤ till ∧ ∀ e, st.lastEnd = some e → till ≤ e + p.tick
  floor : ∀ till, st.phase = .floor till → st.now ≤ till
  answered : ∀ w, Outstanding (· = Mark.wake w) Mark.IsStart st.log →
    (st.permit = true ∨ ∃ till, st.phase = .floor till) ∧ (st.phase = .running ∨ st.now ≤ dueBy p st.log w)
  fresh : (∀ m ∈ st.log, ¬ m.IsStart) → ∃ till, st.phase = .waiting till ∧ till ≤ p.firstDelay
  stopped : ∀ e, st.lastEnd = some e → ∃ m ∈ st.log, m.IsStart
  passed : st.phase = .running → st.passes ≠ 0 ∧ ∃ m ∈ st.log, m.IsStart
  woken : Answers Mark.IsWake Mark.IsStart (fun log x y ↦ y.time ≤ dueBy p log x.time) st.log
  ticked : Answers Mark.IsStop Mark.IsStart (fun _ x y ↦ y.time ≤ x.time + max p.tick p.wakeFloor) st.log

theorem dueBy_of_lastEnd (h : Sound p st) {e : ℕ} (he : st.lastEnd = some e) (w : ℕ) :
    dueBy p st.log w = max w (e + p.wakeFloor) := by
  rw [dueBy, ← h.lastEnd, he]
  rfl

/-- The next pass is due by the tick, or by the floor where that is longer. -/
theorem Timely.ended (h : Timely p st) (hsound : Sound p st) {e : ℕ} {r : PassEnd}
    (hout : Outstanding (· = Mark.stop e r) Mark.IsStart st.log) : st.now ≤ e + max p.tick p.wakeFloor := by
  have hlast := hsound.latest e r hout
  cases hphase : st.phase with
  | waiting till =>
    obtain ⟨hnow, htill⟩ := h.waiting till hphase
    have hle := htill e hlast
    omega
  | floor till =>
    have hnow := h.floor till hphase
    obtain ⟨e', he', htill⟩ := hsound.floor till hphase
    obtain rfl : e = e' := Option.some_inj.mp (hlast.symm.trans he')
    omega
  | running => exact absurd hout (hsound.busy hphase e r)

namespace Timely

theorem startPass (h : Timely p st) (hsound : Sound p st) (hidle : st.phase ≠ .running) (permit : Bool) :
    Timely p { st with permit }.startPass where
  waiting _ hphase := by cases hphase
  floor _ hphase := by cases hphase
  answered w hout := by cases eq_of_outstanding_start hout
  fresh hnone := absurd ⟨st.now, rfl⟩ (hnone (.start st.now) (by simp [Loop.startPass]))
  stopped _ _ := ⟨.start st.now, by simp [Loop.startPass], st.now, rfl⟩
  passed _ := ⟨Nat.succ_ne_zero _, .start st.now, by simp [Loop.startPass], st.now, rfl⟩
  woken := by
    refine h.woken.snoc fun _ x hx hout ↦ ?_
    obtain ⟨w, rfl⟩ := hx
    exact (h.answered w hout).2.resolve_left hidle
  ticked := by
    refine h.ticked.snoc fun _ x hx hout ↦ ?_
    obtain ⟨e, r, rfl⟩ := hx
    exact h.ended hsound hout

/-- Behind a wait that is over, by the clock or by a wake. -/
theorem waited (h : Timely p st) (hsound : Sound p st) (hidle : st.phase ≠ .running) (permit : Bool) :
    Timely p ({ st with permit }.waited p) := by
  have hkept : Sound p { st with permit } := hsound.congr permit
  obtain ⟨e, he, hle, hwaited⟩ | ⟨-, hwaited⟩ := hkept.waited_cases
  · rw [hwaited]
    refine ⟨fun till hphase ↦ ?_, fun till hphase ↦ ?_,
      fun w hout ↦ ⟨.inr ⟨_, rfl⟩, .inr ?_⟩, fun hnone ↦ ?_,
      h.stopped, fun hphase ↦ ?_, h.woken, h.ticked⟩
    · cases hphase
    · cases hphase
      exact hle
    · exact (h.answered w hout).2.resolve_left hidle
    · obtain ⟨m, hm, hstart⟩ := h.stopped e he
      exact absurd hstart (hnone m hm)
    · cases hphase
  · rw [hwaited]
    exact h.startPass hsound hidle permit

theorem notify (h : Timely p st) : Timely p { st with permit := true, log := st.log ++ [.wake st.now] } where
  waiting := h.waiting
  floor := h.floor
  answered w hout := by
    have hdue : dueBy p (st.log ++ [.wake st.now]) w = dueBy p st.log w := by
      rw [dueBy, dueBy, lastStop_of_not_stop (not_isStop_wake _)]
    refine ⟨.inl rfl, ?_⟩
    rw [hdue]
    obtain ⟨hout, -⟩ | heq := hout.of_snoc
    · exact (h.answered w hout).2
    · cases heq
      exact .inr (le_max_left _ _)
  fresh hnone := h.fresh fun m hm ↦ hnone m (List.mem_append_left _ hm)
  stopped e he := by
    obtain ⟨m, hm, hstart⟩ := h.stopped e he
    exact ⟨m, List.mem_append_left _ hm, hstart⟩
  passed hphase := by
    obtain ⟨hpasses, m, hm, hstart⟩ := h.passed hphase
    exact ⟨hpasses, m, List.mem_append_left _ hm, hstart⟩
  woken := h.woken.snoc fun hstart ↦ absurd hstart (not_isStart_wake _)
  ticked := h.ticked.snoc fun hstart ↦ absurd hstart (not_isStart_wake _)

theorem endPass (h : Timely p st) (hphase : st.phase = .running) (r : PassEnd) : Timely p (st.endPass p r) := by
  obtain ⟨hpasses, m, hm, hstart⟩ := h.passed hphase
  have hmem : m ∈ (st.endPass p r).log := List.mem_append_left _ hm
  have hdelay : st.delay p = p.tick := if_neg hpasses
  refine ⟨fun till htill ↦ ?_, fun _ hfloor ↦ ?_, fun w hout ↦ ?_,
    fun hnone ↦ absurd hstart (hnone m hmem), fun _ _ ↦ ⟨m, hmem, hstart⟩, fun hrunning ↦ ?_,
    h.woken.snoc fun hstart ↦ absurd hstart (not_isStart_stop _ _),
    h.ticked.snoc fun hstart ↦ absurd hstart (not_isStart_stop _ _)⟩
  · cases htill
    refine ⟨Nat.le_add_right _ _, fun e he ↦ ?_⟩
    obtain rfl : st.now = e := Option.some_inj.mp he
    rw [hdelay]
  · cases hfloor
  · obtain ⟨hout, -⟩ | heq := hout.of_snoc
    · have hdue : dueBy p (st.endPass p r).log w = max w (st.now + p.wakeFloor) := by
        rw [dueBy, Loop.endPass, lastStop_stop]
        rfl
      have hpermit : st.permit = true := by
        refine (h.answered w hout).1.resolve_right fun ⟨till, hfloor⟩ ↦ ?_
        rw [hphase] at hfloor
        cases hfloor
      refine ⟨.inl hpermit, .inr ?_⟩
      rw [hdue]
      exact (Nat.le_add_right _ _).trans (le_max_right _ _)
    · cases heq
  · cases hrunning

theorem elapse (h : Timely p st) (hsound : Sound p st) {ms : ℕ} (hok : Punctual st (.elapse ms)) :
    Timely p { st with now := st.now + ms } := by
  refine ⟨fun till hphase ↦ ?_, fun till hphase ↦ ?_, fun w hout ↦ ?_, h.fresh, h.stopped, h.passed, h.woken,
    h.ticked⟩
  · have hphase : st.phase = .waiting till := hphase
    simp only [Punctual, hphase] at hok
    exact ⟨hok.2, (h.waiting till hphase).2⟩
  · have hphase : st.phase = .floor till := hphase
    simp only [Punctual, hphase] at hok
    exact hok
  · obtain ⟨hasked, hdue⟩ := h.answered w hout
    refine ⟨hasked, ?_⟩
    cases hphase : st.phase with
    | running => exact .inl rfl
    | waiting till =>
      -- the loop is at the wait with a permit: no time passes
      simp only [Punctual, hphase] at hok
      rw [hphase, hok.1] at hasked
      obtain hpermit | ⟨_, hfloor⟩ := hasked
      · cases hpermit
      · cases hfloor
    | floor till =>
      simp only [Punctual, hphase] at hok
      obtain ⟨e, he, rfl⟩ := hsound.floor till hphase
      rw [dueBy_of_lastEnd hsound he]
      exact .inr (hok.trans (le_max_right _ _))

theorem step (h : Timely p st) (hsound : Sound p st) {ev : Event} (hok : Punctual st ev)
    (hs : Supervise.step p ev st = some st') : Timely p st' := by
  cases ev with
  | notify =>
    simp only [Supervise.step] at hs
    split_ifs at hs
    cases hs
    exact h.notify
  | elapse ms =>
    cases hs
    exact h.elapse hsound hok
  | notified =>
    simp only [Supervise.step] at hs
    split at hs
    · rename_i hphase
      split_ifs at hs
      cases hs
      apply h.waited hsound
      rw [hphase]
      exact Phase.noConfusion
    · cases hs
  | timer =>
    simp only [Supervise.step] at hs
    split at hs
    · rename_i hphase
      split_ifs at hs
      cases hs
      apply h.waited hsound
      rw [hphase]
      exact Phase.noConfusion
    · rename_i hphase
      split_ifs at hs
      cases hs
      apply h.startPass hsound
      rw [hphase]
      exact Phase.noConfusion
    · cases hs
  | ended r =>
    simp only [Supervise.step] at hs
    split_ifs at hs with hphase
    cases hs
    exact h.endPass hphase r

theorem init (p : Params) : Timely p (Supervise.init p) := by
  refine ⟨fun till hphase ↦ ⟨Nat.zero_le _, fun e he ↦ ?_⟩, fun till hphase ↦ ?_, fun w hout ↦ ?_,
    fun _ ↦ ⟨_, rfl, le_rfl⟩, fun e he ↦ ?_, fun hphase ↦ ?_, .nil, .nil⟩
  · cases he
  · cases hphase
  · obtain ⟨before, x, after, heq, -⟩ := hout
    simp [Supervise.init] at heq
  · cases he
  · cases hphase

theorem of_run (h : Run (Supervise.step p) Punctual (Supervise.init p) st) : Timely p st :=
  h.invariant_of (fun _ hrun ↦ Sound.of_run hrun) (.init p) fun _ _ _ htimely hsound _ hok hs ↦
    htimely.step hsound hok hs

end Timely

section Live

variable {till : ℕ}

theorem Loop.Starts.head (ev : Event) (hown : ev.Own) (hok : Punctual st ev) (hs : step p ev st = some st')
    (hlog : st'.log = st.log) (h : st'.Starts p) : st.Starts p := by
  obtain ⟨last, hrun, hphase, hlast⟩ := h
  refine ⟨last, .head ⟨hown, hok⟩ hs hrun, hphase, ?_⟩
  rw [hlast, hlog]

theorem step_timer_waiting (hphase : st.phase = .waiting till) (hdue : till ≤ st.now) :
    step p .timer st = some (st.waited p) := by
  rw [step, hphase]
  exact if_pos hdue

theorem step_timer_floor (hphase : st.phase = .floor till) (hdue : till ≤ st.now) :
    step p .timer st = some st.startPass := by
  rw [step, hphase]
  exact if_pos hdue

theorem step_notified (hphase : st.phase = .waiting till) (hpermit : st.permit = true) :
    step p .notified st = some ({ st with permit := false }.waited p) := by
  rw [step, hphase]
  exact if_pos hpermit

theorem starts_of_startPass (ev : Event) (hown : ev.Own) (hok : Punctual st ev)
    (hs : step p ev st = some st.startPass) : st.Starts p :=
  ⟨st.startPass, .tail .refl ⟨hown, hok⟩ hs, rfl, rfl⟩

theorem starts_of_floor (hphase : st.phase = .floor till) (hnow : st.now ≤ till) : st.Starts p := by
  have hlate : st.now + (till - st.now) = till := by omega
  have hok : Punctual st (.elapse (till - st.now)) := by
    simp only [Punctual, hphase]
    exact hlate.le
  exact .head (.elapse _) trivial hok rfl rfl
    (starts_of_startPass .timer trivial trivial (step_timer_floor hphase hlate.ge))

/-- Behind the wait a pass starts at once, or when the floor is over. -/
theorem starts_of_waited (h : Sound p st) {before : Loop} (ev : Event) (hown : ev.Own) (hok : Punctual before ev)
    (hs : step p ev before = some (st.waited p)) (hlog : before.log = st.log) : before.Starts p := by
  obtain ⟨e, -, hle, hwaited⟩ | ⟨-, hwaited⟩ := h.waited_cases
  · rw [hwaited] at hs
    exact .head ev hown hok hs hlog.symm (starts_of_floor rfl hle)
  · rw [hwaited] at hs
    refine ⟨st.startPass, .tail .refl ⟨hown, hok⟩ hs, rfl, ?_⟩
    rw [hlog]
    rfl

theorem Timely.starts (h : Timely p st) (hsound : Sound p st) (hidle : st.phase ≠ .running) : st.Starts p := by
  cases hphase : st.phase with
  | running => exact absurd hphase hidle
  | floor till => exact starts_of_floor hphase (h.floor till hphase)
  | waiting till =>
    cases hpermit : st.permit with
    | true =>
      exact starts_of_waited (hsound.congr false) .notified trivial trivial
        (step_notified hphase hpermit) rfl
    | false =>
      -- nobody woke it: it sleeps to the end of its delay
      have hlate : st.now + (till - st.now) = till := by
        have hnow := (h.waiting till hphase).1
        omega
      have hok : Punctual st (.elapse (till - st.now)) := by
        simp only [Punctual, hphase]
        exact ⟨hpermit, hlate.le⟩
      exact .head (.elapse _) trivial hok rfl rfl (starts_of_waited (hsound.elapse (till - st.now)) .timer
        trivial trivial (step_timer_waiting hphase hlate.ge) rfl)

theorem Timely.live (h : Timely p st) (hsound : Sound p st) : st.Live p where
  slept till hphase hdue := by
    obtain hphase | hphase := hphase
    · exact ⟨_, step_timer_waiting hphase hdue⟩
    · exact ⟨_, step_timer_floor hphase hdue⟩
  notified _ hphase hpermit := ⟨_, step_notified hphase hpermit⟩
  ended hphase r := ⟨st.endPass p r, if_pos hphase⟩
  starts := h.starts hsound

end Live

def brief : Params := ⟨true, 100, 1000, 5⟩

/-- A pass that was woken panics; the loop is woken again within the floor. -/
def woken : List Event :=
  [.elapse 3, .notify, .notified, .elapse 2, .ended .panicked, .notify, .notified, .elapse 5, .timer, .ended (.ok 2)]

def wokenMarks : List Mark :=
  [.wake 3, .start 3, .stop 5 .panicked, .wake 5, .start 10, .stop 10 (.ok 2)]

theorem run_woken : ∃ st, Run (step brief) Punctual (init brief) st ∧ st.log = wokenMarks := by
  obtain ⟨st, hrun, hlog⟩ := Run.exists_of_exec (step brief) Punctual (init brief) woken
    (fun st ↦ decide (st.log = wokenMarks)) (by rfl) (by rfl)
  exact ⟨st, hrun, of_decide_eq_true hlog⟩

theorem passes_serial_woken : ∃ st, Run (step brief) Punctual (init brief) st ∧ st.log = wokenMarks ∧
    st.Serial brief := by
  obtain ⟨st, hrun, hlog⟩ := run_woken
  exact ⟨st, hrun, hlog, passes_serial hrun⟩

/-- A loop that is punctual misses no wake and never stops: the clock passes none of its deadlines, and none of
them keeps it from going on. -/
theorem passes_prompt (h : Run (step p) Punctual (init p) st) : st.Prompt p ∧ st.Live p := by
  have hsound := Sound.of_run h
  have htimely := Timely.of_run h
  refine ⟨⟨htimely.woken, fun w hout ↦ (htimely.answered w hout).2, htimely.ticked,
    fun e r hout ↦ htimely.ended hsound hout, fun hnone ↦ ?_⟩, htimely.live hsound⟩
  obtain ⟨till, hphase, htill⟩ := htimely.fresh hnone
  exact (htimely.waiting till hphase).1.trans htill

theorem passes_prompt_woken : ∃ st, Run (step brief) Punctual (init brief) st ∧ st.log = wokenMarks ∧
    st.Prompt brief ∧ st.Live brief := by
  obtain ⟨st, hrun, hlog⟩ := run_woken
  exact ⟨st, hrun, hlog, passes_prompt hrun⟩

end Marks

end PgVmPool.Supervise
