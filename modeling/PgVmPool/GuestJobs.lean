import PgVmPool.ProbeReply

namespace PgVmPool.Guest

open Function Transition

inductive Kind
  | dump | restore
  deriving DecidableEq

def unwitnessedMaxProbeFailures : ℕ := 10

/-- A job's way to its sentinel: `printf %s "$ec" > done.tmp && mv done.tmp done`. -/
inductive JobPc
  | running
  | exited (code : UInt8)
  | printed (code : UInt8)
  | recorded (code : UInt8)
  | stopped
  deriving DecidableEq

def JobPc.alive : JobPc → Bool
  | .running | .exited _ | .printed _ => true
  | .recorded _ | .stopped => false

inductive JobEvent
  | exit (code : UInt8)
  | print | move | die

/-- The files under `/workspace` that all jobs of one kind share. -/
structure Scratch where
  tmp : Option UInt8
  done : Option UInt8
  deriving DecidableEq

/-- What the guest prints for `probe_command`. -/
def Scratch.answer (d : Scratch) : Reply := d.done.elim .pending .done

def jobStep (d : Scratch) : JobPc → JobEvent → Option (Scratch × JobPc)
  | .running, .exit code => some (d, .exited code)
  | .exited code, .print => some ({ d with tmp := some code }, .printed code)
  | .printed code, .move =>
    match d.tmp with
    | some c => some (⟨none, some c⟩, .recorded code)
    | none => some (d, .stopped)
  | .running, .die | .exited _, .die | .printed _, .die => some (d, .stopped)
  | _, _ => none

inductive AttemptPc
  | launching
  | waiting (probeFailures : ℕ)
  | confirmed | over
  deriving DecidableEq

namespace AttemptPc

def probeFailures : AttemptPc → Option ℕ
  | .waiting n => some n
  | _ => none

def settled : AttemptPc → Bool
  | .launching | .waiting _ => false
  | .confirmed | .over => true

end AttemptPc

/-- A dump or a restore of one pooler task, with the job that its own launch started. -/
structure Attempt where
  kind : Kind
  pc : AttemptPc
  job : Option JobPc
  deriving DecidableEq

/-- A line that a probe got back, and whether the probe itself had it printed. -/
structure Heard where
  line : Line
  own : Bool

def replies (heard : List Heard) : List (Bool × Reply) :=
  heard.filterMap fun h ↦ h.line.reply.map fun r ↦ (h.own, r)

/-- The replies to earlier, abandoned probes. -/
def echoed (heard : List Heard) : Multiset Reply :=
  ((replies heard).filter fun p ↦ !p.1).map Prod.snd

/-- Only `await_detached_job` takes a zero for the end of its wait; a dump looks for its object. -/
def verdict : Kind → JobState → AttemptPc
  | .restore, .succeeded => .confirmed
  | _, .failed _ => .over
  | _, _ => .waiting 0

def missed (kind : Kind) (probeFailures : ℕ) : AttemptPc :=
  if kind = .restore ∧ unwitnessedMaxProbeFailures ≤ probeFailures + 1 then .over
  else .waiting (probeFailures + 1)

inductive Move
  | take | answer | giveUp
  | job (e : JobEvent)
  | probe (heard : List Heard)
  | miss (queued : Bool)

/-- `take` is the guest running the launch script, which may come after the pooler gave up on it. -/
def attemptStep (stale : Multiset Reply) (d : Scratch) (a : Attempt) : Move → Option (Attempt × Scratch)
  | .take => if a.job = none then some ({ a with job := some .running }, { d with done := none }) else none
  | .answer => if a.pc = .launching ∧ a.job ≠ none then some ({ a with pc := .waiting 0 }, d) else none
  | .giveUp => if a.pc.settled = false then some ({ a with pc := .over }, d) else none
  | .job e => a.job.bind fun j ↦ (jobStep d j e).map fun r ↦ ({ a with job := some r.2 }, r.1)
  | .probe heard =>
    if a.pc.probeFailures ≠ none ∧ echoed heard ≤ stale ∧
        ∀ p ∈ replies heard, p.1 = true → p.2 = d.answer then
      some ({ a with pc := verdict a.kind (parseProbe (render (heard.map Heard.line))) }, d)
    else none
  | .miss _ => a.pc.probeFailures.map fun n ↦ ({ a with pc := missed a.kind n }, d)

/-- A sandbox found by name again and again, with every attempt made on it. -/
structure GuestVm where
  attempts : List Attempt
  workspace : Kind → Scratch
  abandoned : Kind → ℕ
  stale : Multiset Reply

def GuestVm.found (workspace : Kind → Scratch) : GuestVm := ⟨[], workspace, fun _ ↦ 0, 0⟩

inductive Action
  | start (kind : Kind)
  | attempt (t : ℕ) (m : Move)
  | echo (kind : Kind)
  | stop (ok : Bool)

def Move.heard : Move → Multiset Reply
  | .probe heard => echoed heard
  | _ => 0

def Move.queues : Move → Bool
  | .miss queued => queued
  | _ => false

def halt (a : Attempt) : Attempt := { a with job := a.job.map fun j ↦ if j.alive then .stopped else j }

def step : Action → GuestVm → Option GuestVm
  | .start kind, s => some { s with attempts := s.attempts ++ [⟨kind, .launching, none⟩] }
  | .attempt t m, s =>
    s.attempts[t]?.bind fun a ↦ (attemptStep s.stale (s.workspace a.kind) a m).map fun r ↦
      { attempts := s.attempts.set t r.1, workspace := update s.workspace a.kind r.2,
        abandoned := update s.abandoned a.kind (s.abandoned a.kind + m.queues.toNat),
        stale := s.stale - m.heard }
  | .echo kind, s =>
    if s.abandoned kind ≠ 0 then
      some { s with
        abandoned := update s.abandoned kind (s.abandoned kind - 1),
        stale := (s.workspace kind).answer ::ₘ s.stale }
    else none
  | .stop ok, s =>
    if ok then some { s with attempts := s.attempts.map halt, abandoned := fun _ ↦ 0, stale := 0 }
    else some s

def Attempt.Live (a : Attempt) : Prop := ∃ j, a.job = some j ∧ (a.pc.settled = false ∨ j.alive = true)

instance (a : Attempt) : Decidable a.Live :=
  match h : a.job with
  | none => .isFalse fun ⟨_, hj, _⟩ ↦ by cases h.symm.trans hj
  | some j => decidable_of_iff (a.pc.settled = false ∨ j.alive = true) (by simp [Attempt.Live, h])

/-- A launch takes effect only where no job of its kind is left and nobody waits for one, and no
line of an abandoned probe that says zero is the last reply a probe gets. -/
def Alone (s : GuestVm) : Action → Prop
  | .attempt t .take =>
    ∀ b ∈ s.attempts.eraseIdx t, s.attempts[t]?.map Attempt.kind = some b.kind → ¬ b.Live
  | .attempt _ (.probe heard) => (replies heard).getLast? ≠ some (false, .done 0)
  | _ => True

instance (s : GuestVm) (l : Action) : Decidable (Alone s l) := by
  unfold Alone
  split <;> infer_instance

/-- Whoever was told that its restore is done, its own job recorded a zero. -/
def GuestVm.Confirmed (s : GuestVm) : Prop :=
  ∀ a ∈ s.attempts, a.pc = .confirmed → a.job = some (.recorded 0)

/-- A job that nobody else's job can overwrite: what stands in the files is its own. -/
structure Attempt.Owned (a : Attempt) (d : Scratch) : Prop where
  started : ∀ n, a.pc = .waiting n → a.job ≠ none
  printed : ∀ c, a.job = some (.printed c) → d.tmp = some c
  written : ∀ j c, a.pc.settled = false → a.job = some j → d.done = some c → j = .recorded c
  confirmed : a.pc = .confirmed → a.job = some (.recorded 0)

section Attempts

variable {a a' : Attempt} {d d' : Scratch} {stale : Multiset Reply} {heard : List Heard}

theorem Attempt.Owned.of_not_live (h : a.Owned d) (hl : ¬ a.Live) : a.Owned d' := by
  refine ⟨h.started, ?_, ?_, h.confirmed⟩
  · intro c hj
    exact absurd ⟨_, hj, .inr rfl⟩ hl
  · intro j c hs hj
    exact absurd ⟨j, hj, .inl hs⟩ hl

theorem unsettled_of_probeFailures {pc : AttemptPc} {n : ℕ} (h : pc.probeFailures = some n) :
    pc.settled = false := by
  cases pc with
  | waiting => rfl
  | _ => cases h

theorem Attempt.Live.job_ne_none (h : a.Live) : a.job ≠ none := by
  obtain ⟨j, hj, -⟩ := h
  simp [hj]

theorem verdict_confirmed {kind : Kind} {st : JobState} (h : verdict kind st = .confirmed) :
    kind = .restore ∧ st = .succeeded := by
  cases kind <;> cases st <;> simp_all [verdict]

theorem Attempt.Owned.live (h : a.Owned d) {n : ℕ} (hp : a.pc.probeFailures = some n) : a.Live := by
  cases hpc : a.pc with
  | waiting k =>
    obtain ⟨j, hj⟩ := Option.ne_none_iff_exists'.mp (h.started k hpc)
    exact ⟨j, hj, .inl (by rw [hpc, AttemptPc.settled])⟩
  | _ => rw [hpc] at hp; cases hp

/-- A wait goes on, or ends for a reason other than a zero. -/
theorem Attempt.Owned.with_pc (h : a.Owned d) {pc : AttemptPc}
    (hs : pc.settled = false → a.pc.settled = false)
    (hw : ∀ n, pc = .waiting n → a.job ≠ none) (hc : pc = .confirmed → a.job = some (.recorded 0)) :
    { a with pc := pc }.Owned d :=
  ⟨hw, h.printed, fun j c hpc ↦ h.written j c (hs hpc), hc⟩

/-- A job that has not recorded its code finds nothing in the sentinel. -/
theorem Attempt.Owned.with_job (h : a.Owned d) {j j' : JobPc} (hj : a.job = some j)
    (hopen : ∀ c, j ≠ .recorded c) (hprinted : ∀ c, j' = .printed c → d'.tmp = some c)
    (hdone : d'.done = d.done) : { a with job := some j' }.Owned d' := by
  refine ⟨by simp, ?_, ?_, ?_⟩
  · intro c hc
    exact hprinted c (Option.some_inj.mp hc)
  · intro i c hs _ hd
    exact absurd (h.written j c hs hj (hdone ▸ hd)) (hopen c)
  · intro hc
    exact absurd (Option.some_inj.mp (hj.symm.trans (h.confirmed hc))) (hopen 0)

theorem jobStep_owned {j : JobPc} {e : JobEvent} {r : Scratch × JobPc} (h : jobStep d j e = some r)
    (ha : a.Owned d) (hj : a.job = some j) :
    j.alive = true ∧ { a with job := some r.2 }.Owned r.1 := by
  cases j with
  | running =>
    cases e with
    | exit code | die =>
      obtain rfl := Option.some_inj.mp h
      exact ⟨rfl, ha.with_job hj (by simp) (by simp) rfl⟩
    | print | move => cases h
  | exited code =>
    cases e with
    | print =>
      obtain rfl := Option.some_inj.mp h
      refine ⟨rfl, ha.with_job hj (by simp) (fun c hc ↦ ?_) rfl⟩
      rw [JobPc.printed.inj hc]
    | die =>
      obtain rfl := Option.some_inj.mp h
      exact ⟨rfl, ha.with_job hj (by simp) (by simp) rfl⟩
    | exit | move => cases h
  | printed code =>
    cases e with
    | move =>
      rw [jobStep, ha.printed code hj] at h
      obtain rfl := Option.some_inj.mp h
      refine ⟨rfl, by simp, by simp, ?_, fun hc ↦ ?_⟩
      · intro i c _ hi hd
        obtain rfl : code = c := Option.some_inj.mp hd
        exact (Option.some_inj.mp hi).symm
      · cases (hj.symm.trans (ha.confirmed hc))
    | die =>
      obtain rfl := Option.some_inj.mp h
      exact ⟨rfl, ha.with_job hj (by simp) (by simp) rfl⟩
    | exit | print => cases h
  | recorded code => cases e <;> cases h
  | stopped => cases e <;> cases h

/-- A zero read off the console is in the sentinel when no earlier probe's line comes last. -/
theorem done_of_succeeded (hs : parseProbe (render (heard.map Heard.line)) = .succeeded)
    (hown : ∀ p ∈ replies heard, p.1 = true → p.2 = d.answer)
    (hlast : (replies heard).getLast? ≠ some (false, .done 0)) : d.done = some 0 := by
  have hmap : (heard.map Heard.line).filterMap Line.reply = (replies heard).map Prod.snd := by
    simp only [replies, List.filterMap_map, List.map_filterMap, Option.map_map, Function.comp_def,
      Option.map_id']
  rw [parseProbe_render, hmap, List.getLast?_map] at hs
  cases hp : (replies heard).getLast? with
  | none => simp [hp] at hs
  | some p =>
    obtain ⟨own, r⟩ := p
    rw [hp, Option.map_some, Option.elim_some] at hs
    have hr : r = .done 0 := by
      cases r with
      | pending => cases hs
      | done code =>
        rw [Reply.state] at hs
        split at hs
        · next h0 => rw [h0]
        · cases hs
    subst hr
    cases own with
    | false => exact absurd hp hlast
    | true =>
      have hans : Reply.done 0 = d.answer := hown _ (List.mem_of_getLast? hp) rfl
      cases hd : d.done with
      | none => simp [Scratch.answer, hd] at hans
      | some c =>
        rw [Scratch.answer, hd, Option.elim_some, Reply.done.injEq] at hans
        rw [hans]

theorem attemptStep_owned {m : Move} {r : Attempt × Scratch} (h : attemptStep stale d a m = some r)
    (ha : a.Owned d) (hm : ∀ heard, m = .probe heard → (replies heard).getLast? ≠ some (false, .done 0)) :
    r.1.kind = a.kind ∧ r.1.Owned r.2 ∧ (m = .take ∨ a.Live ∨ r.2 = d ∧ ¬ r.1.Live) := by
  cases m with
  | take =>
    obtain ⟨hj, hr⟩ := Option.ite_none_right_eq_some.mp h
    obtain rfl := Option.some_inj.mp hr
    refine ⟨rfl, ⟨by simp, by simp, by simp, ?_⟩, .inl rfl⟩
    intro hc
    rw [ha.confirmed hc] at hj
    cases hj
  | answer =>
    obtain ⟨⟨hpc, hj⟩, hr⟩ := Option.ite_none_right_eq_some.mp h
    obtain rfl := Option.some_inj.mp hr
    obtain ⟨j, hj⟩ := Option.ne_none_iff_exists'.mp hj
    have hs : a.pc.settled = false := by rw [hpc, AttemptPc.settled]
    refine ⟨rfl, ha.with_pc (fun _ ↦ hs) (fun _ _ ↦ by simp [hj]) (by simp), .inr (.inl ⟨j, hj, .inl hs⟩)⟩
  | giveUp =>
    obtain ⟨hs, hr⟩ := Option.ite_none_right_eq_some.mp h
    obtain rfl := Option.some_inj.mp hr
    refine ⟨rfl, ha.with_pc (fun _ ↦ hs) (by simp) (by simp), .inr ?_⟩
    cases hj : a.job with
    | none => exact .inr ⟨rfl, by simp [Attempt.Live]⟩
    | some j => exact .inl ⟨j, hj, .inl hs⟩
  | job e =>
    obtain ⟨j, hj, h⟩ := Option.bind_eq_some_iff.mp h
    obtain ⟨q, hq, rfl⟩ := Option.map_eq_some_iff.mp h
    obtain ⟨halive, hown⟩ := jobStep_owned hq ha hj
    exact ⟨rfl, hown, .inr (.inl ⟨j, hj, .inr halive⟩)⟩
  | probe heard =>
    obtain ⟨⟨hp, -, hown⟩, hr⟩ := Option.ite_none_right_eq_some.mp h
    obtain rfl := Option.some_inj.mp hr
    obtain ⟨n, hn⟩ := Option.ne_none_iff_exists'.mp hp
    have hlive := ha.live hn
    have hs : a.pc.settled = false := unsettled_of_probeFailures hn
    refine ⟨rfl, ha.with_pc (fun _ ↦ hs) (fun _ _ ↦ hlive.job_ne_none) ?_, .inr (.inl hlive)⟩
    intro hc
    obtain ⟨j, hj, -⟩ := hlive
    have hdone := done_of_succeeded (verdict_confirmed hc).2 hown (hm heard rfl)
    rw [hj, ha.written j 0 hs hj hdone]
  | miss queued =>
    obtain ⟨n, hn, rfl⟩ := Option.map_eq_some_iff.mp h
    have hlive := ha.live hn
    refine ⟨rfl, ha.with_pc (fun _ ↦ unsettled_of_probeFailures hn) (fun _ _ ↦ hlive.job_ne_none) ?_,
      .inr (.inl hlive)⟩
    intro hc
    simp only [missed] at hc
    split at hc <;> cases hc

end Attempts

section System

variable {s s' s₀ : GuestVm} {a a' : Attempt} {d' : Scratch} {l : Action} {t : ℕ}

/-- Of the attempts of one kind only one has a job running or is waiting for one. -/
structure GuestVm.Owned (s : GuestVm) : Prop where
  each : ∀ (t : ℕ) (a : Attempt), s.attempts[t]? = some a → a.Owned (s.workspace a.kind)
  sole : ∀ (t u : ℕ) (a b : Attempt), s.attempts[t]? = some a → s.attempts[u]? = some b → t ≠ u →
    a.kind = b.kind → a.Live → ¬ b.Live

theorem GuestVm.Owned.put (h : s.Owned) (ht : s.attempts[t]? = some a) (hk : a'.kind = a.kind)
    (hown : a'.Owned d')
    (hothers : (∀ (u : ℕ) (b : Attempt), s.attempts[u]? = some b → t ≠ u → b.kind = a.kind → ¬ b.Live) ∨
      d' = s.workspace a.kind ∧ ¬ a'.Live) (abandoned : Kind → ℕ) (stale : Multiset Reply) :
    GuestVm.Owned ⟨s.attempts.set t a', update s.workspace a.kind d', abandoned, stale⟩ := by
  have hsole : ∀ (u : ℕ) (b : Attempt), s.attempts[u]? = some b → t ≠ u → a'.kind = b.kind → a'.Live →
      ¬ b.Live := by
    intro u b hu hne hkb hlive
    rcases hothers with hothers | ⟨-, hidle⟩
    · exact hothers u b hu hne (hkb.symm.trans hk)
    · exact absurd hlive hidle
  constructor
  · refine forall_set ?_ ?_
    · simp only [hk, update_self]
      exact hown
    · intro u b hne hu
      have hb := h.each u b hu
      by_cases hkb : b.kind = a.kind
      · simp only [hkb, update_self]
        rcases hothers with hothers | ⟨rfl, -⟩
        · exact hb.of_not_live (hothers u b hu (Ne.symm hne) hkb)
        · exact hkb ▸ hb
      · simp only [update_of_ne hkb]
        exact hb
  · intro u v b c hu hv huv hkbc hb
    rcases getElem?_set_cases hu with ⟨rfl, rfl⟩ | ⟨hut, hu'⟩
    · rcases getElem?_set_cases hv with ⟨rfl, -⟩ | ⟨-, hv'⟩
      · exact absurd rfl huv
      · exact hsole v c hv' huv hkbc hb
    · rcases getElem?_set_cases hv with ⟨rfl, rfl⟩ | ⟨-, hv'⟩
      · exact fun hc ↦ hsole u b hu' (Ne.symm hut) hkbc.symm hc hb
      · exact h.sole u v b c hu' hv' huv hkbc hb

theorem Attempt.Owned.halt (h : a.Owned (s.workspace a.kind)) :
    (halt a).Owned (s.workspace a.kind) := by
  refine ⟨?_, ?_, ?_, ?_⟩
  · intro n hn
    simpa [Guest.halt] using h.started n hn
  · intro c hj
    obtain ⟨j, -, hj⟩ := Option.map_eq_some_iff.mp hj
    split at hj
    · cases hj
    · next halive =>
      subst hj
      exact absurd rfl halive
  · intro j c hs hj hd
    obtain ⟨i, hi, hj⟩ := Option.map_eq_some_iff.mp hj
    obtain rfl := h.written i c hs hi hd
    exact hj.symm
  · intro hc
    simp [Guest.halt, h.confirmed hc, JobPc.alive]

theorem Attempt.Live.of_halt (h : (halt a).Live) : a.Live := by
  obtain ⟨j, hj, hlive⟩ := h
  obtain ⟨i, hi, rfl⟩ := Option.map_eq_some_iff.mp hj
  refine ⟨i, hi, hlive.imp_right fun halive ↦ ?_⟩
  split at halive
  · assumption
  · exact halive

theorem step_owned (h : step l s = some s') (hl : Alone s l) (hs : s.Owned) : s'.Owned := by
  cases l with
  | start kind =>
    obtain rfl := Option.some_inj.mp h
    have hnew : ¬ (⟨kind, .launching, none⟩ : Attempt).Live := by simp [Attempt.Live]
    constructor
    · exact forall_append ⟨by simp, by simp, by simp, by simp⟩ hs.each
    · intro t u a b ht hu hne hk ha
      rcases getElem?_append_cases ht with ⟨-, rfl⟩ | ht
      · exact absurd ha hnew
      · rcases getElem?_append_cases hu with ⟨-, rfl⟩ | hu
        · exact hnew
        · exact hs.sole t u a b ht hu hne hk ha
  | attempt t m =>
    obtain ⟨a, ht, h⟩ := Option.bind_eq_some_iff.mp h
    obtain ⟨r, hr, rfl⟩ := Option.map_eq_some_iff.mp h
    have hprobe : ∀ heard, m = .probe heard → (replies heard).getLast? ≠ some (false, .done 0) := by
      rintro heard rfl
      exact hl
    obtain ⟨hk, hown, hothers⟩ := attemptStep_owned hr (hs.each t a ht) hprobe
    refine hs.put ht hk hown ?_ _ _
    rcases hothers with rfl | hlive | hidle
    · refine .inl fun u b hu hne hkb ↦ hl b ?_ (by rw [ht, hkb, Option.map_some])
      exact List.mem_eraseIdx_iff_getElem?.mpr ⟨u, Ne.symm hne, hu⟩
    · exact .inl fun u b hu hne hkb ↦ hs.sole t u a b ht hu hne hkb.symm hlive
    · exact .inr hidle
  | echo kind =>
    obtain ⟨-, hr⟩ := Option.ite_none_right_eq_some.mp h
    obtain rfl := Option.some_inj.mp hr
    exact ⟨hs.each, hs.sole⟩
  | stop ok =>
    cases ok with
    | false =>
      obtain rfl := Option.some_inj.mp h
      exact hs
    | true =>
      obtain rfl := Option.some_inj.mp h
      constructor
      · intro t a ht
        rw [List.getElem?_map] at ht
        obtain ⟨b, hb, rfl⟩ := Option.map_eq_some_iff.mp ht
        exact (hs.each t b hb).halt
      · intro t u a b ht hu hne hk ha
        rw [List.getElem?_map] at ht hu
        obtain ⟨a, ha', rfl⟩ := Option.map_eq_some_iff.mp ht
        obtain ⟨b, hb', rfl⟩ := Option.map_eq_some_iff.mp hu
        exact fun hb ↦ hs.sole t u a b ha' hb' hne hk ha.of_halt hb.of_halt

theorem run_owned {workspace : Kind → Scratch} (h : Run step Alone (.found workspace) s) : s.Owned := by
  refine h.invariant ⟨by simp [GuestVm.found], by simp [GuestVm.found]⟩ ?_
  intro s l s' hs hl h
  exact step_owned h hl hs

/-- A restore that was told it is done had its own job record a zero, after every run whose steps
all meet the condition. -/
theorem restore_confirmed_run {workspace : Kind → Scratch}
    (h : Run step Alone (.found workspace) s) : s.Confirmed := by
  intro a ha
  obtain ⟨t, ht⟩ := List.mem_iff_getElem?.mp ha
  exact ((run_owned h).each t a ht).confirmed

def noLine : Line := ⟨[], none, false, by decide, by decide⟩

def replyLine (r : Reply) : Line := { noLine with reply := some r }

/-- The job of the first restore outlives ten probes without an answer and ends while the second
restore loads: what it records is read as the second one's end. -/
def overtaken : List Action :=
  [.start .restore, .attempt 0 .take, .attempt 0 .answer] ++ List.replicate 10 (.attempt 0 (.miss false)) ++
    [.stop false, .start .restore, .attempt 1 .take, .attempt 1 .answer, .attempt 0 (.job (.exit 0)),
      .attempt 0 (.job .print), .attempt 0 (.job .move), .attempt 1 (.probe [⟨replyLine (.done 0), true⟩])]

def misread (s : GuestVm) : Bool := s.attempts[1]? = some ⟨.restore, .confirmed, some .running⟩

/-- A restore is confirmed while its own job still loads. -/
theorem restore_confirmed_by_other : ∃ s, Run step (fun _ _ ↦ True) (.found fun _ ↦ ⟨none, none⟩) s ∧
    s.attempts[1]? = some ⟨.restore, .confirmed, some .running⟩ ∧ ¬ s.Confirmed := by
  obtain ⟨s, hs, hread⟩ := Run.exists_of_exec step (fun _ _ ↦ True) (.found fun _ ↦ ⟨none, none⟩)
    overtaken misread (by decide) (by decide)
  have hget := of_decide_eq_true hread
  refine ⟨s, hs, hget, fun hconf ↦ ?_⟩
  exact absurd (hconf _ (List.mem_of_getElem? hget) rfl) (by decide)

def inTurn : List Action :=
  [.start .dump, .attempt 0 .take, .attempt 0 .answer, .attempt 0 (.miss true), .echo .dump,
    .attempt 0 (.job (.exit 0)), .attempt 0 (.job .print), .attempt 0 (.job .move), .attempt 0 .giveUp,
    .start .restore, .attempt 1 .take, .attempt 1 .answer, .attempt 1 (.job (.exit 0)),
    .attempt 1 (.job .print), .attempt 1 (.job .move),
    .attempt 1 (.probe [⟨replyLine .pending, false⟩, ⟨noLine, false⟩, ⟨replyLine (.done 0), true⟩])]

def served (s : GuestVm) : Bool := s.attempts[1]? = some ⟨.restore, .confirmed, some (.recorded 0)⟩

theorem restore_confirmed_run_inTurn : ∃ s, Run step Alone (.found fun _ ↦ ⟨none, none⟩) s ∧
    s.attempts[1]? = some ⟨.restore, .confirmed, some (.recorded 0)⟩ ∧ s.Confirmed := by
  obtain ⟨s, hs, hserved⟩ := Run.exists_of_exec step Alone (.found fun _ ↦ ⟨none, none⟩)
    inTurn served (by decide) (by decide)
  exact ⟨s, hs, of_decide_eq_true hserved, restore_confirmed_run hs⟩

end System

end PgVmPool.Guest
