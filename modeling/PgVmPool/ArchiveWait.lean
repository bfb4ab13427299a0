import PgVmPool.ProbeReply

namespace PgVmPool.Archiving

open Transition
open Guest (JobState)

def presignTtl : ℕ := 3600
def archiveDeadline : ℕ := 1800
def archivePollInterval : ℕ := 10
def minArchiveBytes : ℕ := 512
def archiveMaxProbeFailures : ℕ := 3
def archiveConfirmGrace : ℕ := 60
def baselineHeadAttempts : ℕ := 3

structure ObjectId where
  etag : String
  lastModified : String
  contentLength : ℕ
  deriving DecidableEq

inductive Head
  | unavailable
  | found (id : Option ObjectId)

inductive ArchiveError
  | baselineUnreadable | launchFailed
  | tooSmall (bytes : ℕ)
  | jobFailed (code : ℤ)
  | unconfirmed (headUnavailable : Bool)
  | deadline | uploadFailed
  | untrusted (bytes : ℕ) (unchanged : Bool)
  | missing | unverified | dropped
  deriving DecidableEq

/-- How a part of the wait ends: it goes on, or returns. -/
inductive Outcome (α : Type)
  | more (a : α)
  | landed (id : ObjectId)
  | failed (e : ArchiveError)

def Outcome.bind {α β : Type} : Outcome α → (α → Outcome β) → Outcome β
  | .more a, f => f a
  | .landed id, _ => .landed id
  | .failed e, _ => .failed e

/-- The variables of `await_archive`. -/
structure Await where
  baseline : Option ObjectId
  deadline : ℕ
  probeFailures : ℕ
  probesMuted : Bool
  claimedDone : Option ℕ
  deriving DecidableEq

namespace Await

def start (baseline : Option ObjectId) (now : ℕ) : Await := ⟨baseline, now + archiveDeadline, 0, false, none⟩

/-- What a HEAD tells; the answer says whether the HEAD could not be completed. -/
def onHead (w : Await) : Head → Outcome Bool
  | .unavailable => .more true
  | .found none => .more false
  | .found (some id) =>
    if some id = w.baseline then .more false
    else if id.contentLength < minArchiveBytes then .failed (.tooSmall id.contentLength)
    else .landed id

/-- What the guest says, unless it is not asked any more; no state is a probe that failed. -/
def onProbe (w : Await) (now : ℕ) (st : Option JobState) : Outcome Await :=
  if w.probesMuted then .more w
  else match st with
    | some (.failed code) => .failed (.jobFailed code)
    | some .succeeded => .more { w with probeFailures := 0, claimedDone := w.claimedDone.or (some now) }
    | some .running => .more { w with probeFailures := 0 }
    | none => .more { w with
        probeFailures := w.probeFailures + 1
        probesMuted := decide (archiveMaxProbeFailures ≤ w.probeFailures + 1) }

def onClock (w : Await) (now : ℕ) (headUnavailable : Bool) : Outcome Await :=
  if w.claimedDone.any fun since ↦ since + archiveConfirmGrace ≤ now then
    .failed (.unconfirmed headUnavailable)
  else if w.deadline ≤ now then .failed .deadline
  else .more w

end Await

/-- One pass of the loop; `took` is its sleep and what the HEAD and the probe took. -/
structure Round where
  head : Head
  probe : Option JobState
  took : ℕ

def Await.round (w : Await) (now : ℕ) (r : Round) : Outcome Await :=
  (w.onHead r.head).bind fun headUnavailable ↦
    (w.onProbe (now + r.took) r.probe).bind fun w' ↦ w'.onClock (now + r.took) headUnavailable

/-- The result of the loop, if it ends with these passes. -/
def awaitArchive (w : Await) (now : ℕ) : List Round → Option (Except ArchiveError ObjectId)
  | [] => none
  | r :: rs =>
    match w.round now r with
    | .more w' => awaitArchive w' (now + r.took) rs
    | .landed id => some (.ok id)
    | .failed e => some (.error e)

inductive Route
  | guest
  | server (len : ℕ)
  deriving DecidableEq

def Route.plausible : Route → ObjectId → Bool
  | .guest, id => minArchiveBytes ≤ id.contentLength
  | .server len, id => id.contentLength = len

inductive UploadPc
  | idle
  | ready (signedAt : ℕ)
  | sending | landed | lost
  deriving DecidableEq

/-- What is at the key, and whose upload it is. -/
structure Stored where
  id : ObjectId
  uploader : Option ℕ
  deriving DecidableEq

inductive AttemptPc
  | reading (tries wake : ℕ)
  | launching (baseline : Option ObjectId)
  | heading (w : Await) (wake : ℕ)
  | probing (w : Await) (headUnavailable : Bool)
  | uploading (baseline : Option ObjectId)
  | verifying (baseline : Option ObjectId)
  | durable (baseline : Option ObjectId) (seen : Stored)
  | failed (e : ArchiveError)
  deriving DecidableEq

/-- The baseline an attempt goes by while it has not ended. -/
def AttemptPc.against : AttemptPc → Option (Option ObjectId)
  | .launching b | .uploading b | .verifying b => some b
  | .heading w _ | .probing w _ => some w.baseline
  | .reading _ _ | .durable _ _ | .failed _ => none

def AttemptPc.ended : AttemptPc → Bool
  | .durable _ _ | .failed _ => true
  | _ => false

/-- An attempt at the archive, with the upload that its own dump makes. -/
structure Attempt where
  route : Route
  pc : AttemptPc
  upload : UploadPc
  deriving DecidableEq

structure Bucket where
  now : ℕ
  object : Option Stored
  attempts : List Attempt
  deriving DecidableEq

def Bucket.uploader (b : Bucket) : Option ℕ := b.object.bind Stored.uploader

inductive Move
  | head (answered : Bool)
  | launch (answered took : Bool)
  | probe (st : Option JobState)
  | put | lose
  | land (id : ObjectId)
  | uploaded (ok : Bool)
  | drop

def Outcome.toPc {α : Type} (f : α → AttemptPc) (baseline : Option ObjectId) (uploader : Option ℕ) :
    Outcome α → AttemptPc
  | .more a => f a
  | .landed id => .durable baseline ⟨id, uploader⟩
  | .failed e => .failed e

def verify (len : ℕ) (baseline : Option ObjectId) : Option Stored → AttemptPc
  | none => .failed .missing
  | some x =>
    if x.id.contentLength = len ∧ some x.id ≠ baseline then .durable baseline x
    else .failed (.untrusted x.id.contentLength (decide (some x.id = baseline)))

/-- A HEAD of the key: before the dump, in the wait for the guest's upload, or after the pooler's own. -/
def onHead (b : Bucket) (a : Attempt) (answered : Bool) : Option Attempt :=
  match a.pc with
  | .reading tries wake =>
    if b.now < wake then none
    else if answered then
      let baseline := b.object.map Stored.id
      match a.route with
      | .guest => some { a with pc := .launching baseline }
      | .server _ => some { a with pc := .uploading baseline, upload := .ready b.now }
    else if tries + 1 < baselineHeadAttempts then
      some { a with pc := .reading (tries + 1) (b.now + archivePollInterval) }
    else some { a with pc := .failed .baselineUnreadable }
  | .heading w wake =>
    let head := if answered then .found (b.object.map Stored.id) else .unavailable
    if b.now < wake then none
    else some { a with pc := (w.onHead head).toPc (.probing w) w.baseline b.uploader }
  | .verifying baseline =>
    match a.route, answered with
    | .server len, true => some { a with pc := verify len baseline b.object }
    | _, _ => some { a with pc := .failed .unverified }
  | _ => none

def attemptStep (b : Bucket) (a : Attempt) : Move → Option Attempt
  | .head answered => onHead b a answered
  | .launch answered took =>
    match a.pc with
    | .launching baseline =>
      if answered = true ∧ took = false then none
      else
        some { a with
          pc := if answered then .heading (.start baseline b.now) (b.now + archivePollInterval)
            else .failed .launchFailed
          upload := if took then .ready b.now else a.upload }
    | _ => none
  | .probe st =>
    match a.pc with
    | .probing w headUnavailable =>
      let outcome := (w.onProbe b.now st).bind fun w' ↦ w'.onClock b.now headUnavailable
      some { a with pc := outcome.toPc (.heading · (b.now + archivePollInterval)) w.baseline b.uploader }
    | _ => none
  | .put =>
    match a.upload with
    | .ready signedAt =>
      if a.route = .guest ∧ signedAt + presignTtl < b.now then none else some { a with upload := .sending }
    | _ => none
  | .lose =>
    match a.upload with
    | .ready _ | .sending => some { a with upload := .lost }
    | _ => none
  | .land _ => if a.upload = .sending then some { a with upload := .landed } else none
  | .uploaded ok =>
    match a.pc with
    | .uploading baseline =>
      if ok = false then some { a with pc := .failed .uploadFailed }
      else if a.upload = .landed then some { a with pc := .verifying baseline }
      else none
    | _ => none
  | .drop => if a.pc.ended then none else some { a with pc := .failed .dropped }

/-- Whose object is at the key after a step of an attempt. -/
def Move.store (t : ℕ) : Move → Option Stored → Option Stored
  | .land id, _ => some ⟨id, some t⟩
  | _, object => object

inductive Action
  | tick (d : ℕ)
  | start (route : Route)
  | attempt (t : ℕ) (m : Move)
  | foreign (id : Option ObjectId)

def step : Action → Bucket → Option Bucket
  | .tick d, b => some { b with now := b.now + d }
  | .start route, b => some { b with attempts := b.attempts ++ [⟨route, .reading 0 0, .idle⟩] }
  | .attempt t m, b => b.attempts[t]?.bind fun a ↦ (attemptStep b a m).map fun a' ↦
      { b with attempts := b.attempts.set t a', object := m.store t b.object }
  | .foreign id, b => some { b with object := id.map fun id ↦ ⟨id, none⟩ }

def Bucket.found (now : ℕ) (object : Option ObjectId) : Bucket :=
  ⟨now, object.map fun id ↦ ⟨id, none⟩, []⟩

section Wait

variable {w w' : Await} {now : ℕ} {r : Round} {rs : List Round} {id : ObjectId} {h : Head}
  {st : Option JobState} {u : Bool}

theorem Outcome.bind_more {α β : Type} {o : Outcome α} {f : α → Outcome β} {b : β}
    (h : o.bind f = .more b) : ∃ a, o = .more a ∧ f a = .more b := by
  cases o with
  | more a => exact ⟨a, rfl, h⟩
  | landed => cases h
  | failed => cases h

theorem Outcome.bind_landed {α β : Type} {o : Outcome α} {f : α → Outcome β}
    (hf : ∀ a, f a ≠ .landed id) (h : o.bind f = .landed id) : o = .landed id := by
  cases o with
  | more a => exact absurd h (hf a)
  | landed => exact congrArg Outcome.landed (Outcome.landed.inj h)
  | failed => cases h

theorem Await.onHead_landed (hw : w.onHead h = .landed id) :
    h = .found (some id) ∧ some id ≠ w.baseline ∧ minArchiveBytes ≤ id.contentLength := by
  unfold Await.onHead at hw
  split at hw
  · cases hw
  · cases hw
  · split at hw
    · cases hw
    · next hne =>
      split at hw
      · cases hw
      · next hsize =>
        obtain rfl := Outcome.landed.inj hw
        exact ⟨rfl, hne, Nat.le_of_not_lt hsize⟩

theorem Await.onClock_more (hw : w.onClock now u = .more w') : w' = w ∧ now < w.deadline := by
  unfold Await.onClock at hw
  split at hw
  · cases hw
  · split at hw
    · cases hw
    · next hlt => exact ⟨(Outcome.more.inj hw).symm, Nat.lt_of_not_le hlt⟩

theorem Await.onProbe_more (hw : w.onProbe now st = .more w') :
    w'.baseline = w.baseline ∧ w'.deadline = w.deadline := by
  unfold Await.onProbe at hw
  split at hw
  · obtain rfl := Outcome.more.inj hw
    exact ⟨rfl, rfl⟩
  · split at hw
    · cases hw
    all_goals
      obtain rfl := Outcome.more.inj hw
      exact ⟨rfl, rfl⟩

/-- Whatever the guest claims, its word never ends the wait well. -/
theorem Await.onProbe_ne_landed :
    (w.onProbe now st).bind (fun w' ↦ w'.onClock now u) ≠ .landed id := by
  intro h
  have hclock (v : Await) : v.onClock now u ≠ .landed id := by
    unfold Await.onClock
    split
    · exact nofun
    · split <;> exact nofun
  have hw := Outcome.bind_landed hclock h
  unfold Await.onProbe at hw
  split at hw
  · cases hw
  · split at hw <;> cases hw

theorem Await.onProbe_onClock (h : (w.onProbe now st).bind (fun w' ↦ w'.onClock now u) = .more w') :
    w'.baseline = w.baseline ∧ w'.deadline = w.deadline ∧ now < w.deadline := by
  obtain ⟨v, hv, h⟩ := Outcome.bind_more h
  obtain ⟨rfl, hlt⟩ := Await.onClock_more h
  obtain ⟨hb, hd⟩ := Await.onProbe_more hv
  exact ⟨hb, hd, hd ▸ hlt⟩

theorem Await.round_more (h : w.round now r = .more w') :
    w'.baseline = w.baseline ∧ w'.deadline = w.deadline ∧ now + r.took < w.deadline := by
  obtain ⟨u, -, h⟩ := Outcome.bind_more h
  exact Await.onProbe_onClock h

theorem Await.round_landed (h : w.round now r = .landed id) :
    r.head = .found (some id) ∧ some id ≠ w.baseline ∧ minArchiveBytes ≤ id.contentLength :=
  Await.onHead_landed (Outcome.bind_landed (fun _ ↦ Await.onProbe_ne_landed) h)

/-- The wait ends well only with a HEAD that shows a new object of a plausible size. -/
theorem awaitArchive_ok (h : awaitArchive w now rs = some (.ok id)) :
    (∃ r ∈ rs, r.head = .found (some id)) ∧ some id ≠ w.baseline ∧
      minArchiveBytes ≤ id.contentLength := by
  induction rs generalizing w now with
  | nil => cases h
  | cons r rs ih =>
    rw [awaitArchive] at h
    cases hr : w.round now r with
    | more w' =>
      rw [hr] at h
      obtain ⟨⟨q, hq, hhead⟩, hne, hsize⟩ := ih h
      exact ⟨⟨q, List.mem_cons_of_mem r hq, hhead⟩, (Await.round_more hr).1 ▸ hne, hsize⟩
    | landed id' =>
      rw [hr] at h
      obtain rfl := Except.ok.inj (Option.some_inj.mp h)
      obtain ⟨hhead, hne, hsize⟩ := Await.round_landed hr
      exact ⟨⟨r, List.mem_cons_self, hhead⟩, hne, hsize⟩
    | failed e =>
      rw [hr] at h
      cases h

theorem awaitArchive_ends (hslept : ∀ r ∈ rs, archivePollInterval ≤ r.took) (hnow : now < w.deadline)
    (hlong : w.deadline ≤ now + archivePollInterval * rs.length) : (awaitArchive w now rs).isSome = true := by
  induction rs generalizing w now with
  | nil => exact absurd hlong (Nat.not_le.mpr (by simpa using hnow))
  | cons r rs ih =>
    rw [awaitArchive]
    cases hr : w.round now r with
    | more w' =>
      obtain ⟨-, hdeadline, hlt⟩ := Await.round_more hr
      obtain ⟨htook, hrest⟩ := List.forall_mem_cons.mp hslept
      refine ih hrest (hdeadline ▸ hlt) ?_
      rw [List.length_cons, Nat.mul_add, Nat.mul_one] at hlong
      omega
    | landed id => rfl
    | failed e => rfl

end Wait

/-- An upload of somebody else lands only while no attempt is between its baseline and its end. -/
def Unmixed (b : Bucket) : Action → Prop
  | .attempt t (.land _) => ∀ a ∈ b.attempts.eraseIdx t, a.pc.against = none
  | .foreign (some _) => ∀ a ∈ b.attempts, a.pc.against = none
  | _ => True

instance (b : Bucket) (l : Action) : Decidable (Unmixed b l) := by
  unfold Unmixed
  split <;> infer_instance

/-- An attempt ends well only where a HEAD showed a new object of a plausible size. -/
def Bucket.Witnessed (b : Bucket) : Prop :=
  ∀ a ∈ b.attempts, ∀ baseline seen, a.pc = .durable baseline seen →
    some seen.id ≠ baseline ∧ a.route.plausible seen.id = true

/-- The object an attempt reports durable is what its own dump uploaded. -/
def Bucket.Own (b : Bucket) : Prop :=
  ∀ (t : ℕ) (a : Attempt), b.attempts[t]? = some a → ∀ baseline seen, a.pc = .durable baseline seen →
    seen.uploader = some t

/-- The states of the guest's route to the bucket. -/
def AttemptPc.viaGuest : AttemptPc → Bool
  | .launching _ | .heading _ _ | .probing _ _ => true
  | _ => false

/-- What a step of an attempt can do to what it knows of the bucket. -/
structure Advance (b : Bucket) (a a' : Attempt) : Prop where
  route : a'.route = a.route
  viaGuest : a'.pc.viaGuest = true → a.route = .guest
  against : ∀ baseline, a'.pc.against = some baseline →
    a.pc.against = some baseline ∨ baseline = b.object.map Stored.id
  durable : ∀ baseline seen, a'.pc = .durable baseline seen → a.pc = .durable baseline seen ∨
    a.pc.against = some baseline ∧ b.object = some seen ∧ some seen.id ≠ baseline ∧
      a.route.plausible seen.id = true

section Attempts

variable {b : Bucket} {a a' : Attempt} {m : Move}

theorem Advance.of_pc (hroute : a'.route = a.route) (hpc : a'.pc = a.pc)
    (hguest : a.pc.viaGuest = true → a.route = .guest) : Advance b a a' := by
  refine ⟨hroute, ?_, ?_, ?_⟩
  · rw [hpc]
    exact hguest
  · intro baseline h
    exact .inl (hpc ▸ h)
  · intro baseline seen h
    exact .inl (hpc.symm.trans h)

theorem Advance.failed (e : ArchiveError) : Advance b a { a with pc := .failed e } :=
  ⟨rfl, nofun, nofun, nofun⟩

theorem Advance.goes (pc : AttemptPc) (hguest : pc.viaGuest = true → a.route = .guest)
    (hagainst : ∀ baseline, pc.against = some baseline →
      a.pc.against = some baseline ∨ baseline = b.object.map Stored.id)
    (hpc : ∀ baseline seen, pc ≠ .durable baseline seen) (upload : UploadPc) :
    Advance b a { a with pc := pc, upload := upload } :=
  ⟨rfl, hguest, hagainst, fun baseline seen h ↦ absurd h (hpc baseline seen)⟩

theorem Outcome.toPc_advance {α : Type} {o : Outcome α} {f : α → AttemptPc} {baseline : Option ObjectId}
    (hroute : a.route = .guest) (hagainst : a.pc.against = some baseline)
    (hmore : ∀ x, o = .more x → (f x).against = some baseline)
    (hlanded : ∀ id, o = .landed id → b.object.map Stored.id = some id ∧ some id ≠ baseline ∧
      minArchiveBytes ≤ id.contentLength) :
    Advance b a { a with pc := o.toPc f baseline b.uploader } := by
  cases o with
  | more x =>
    have hx := hmore x rfl
    refine .goes (f x) (fun _ ↦ hroute) ?_ ?_ a.upload
    · intro other hother
      obtain rfl : baseline = other := Option.some_inj.mp (hx.symm.trans hother)
      exact .inl hagainst
    · intro other seen hpc
      rw [hpc] at hx
      cases hx
  | landed id =>
    obtain ⟨hobject, hne, hsize⟩ := hlanded id rfl
    obtain ⟨x, hx, rfl⟩ := Option.map_eq_some_iff.mp hobject
    refine ⟨rfl, nofun, nofun, fun other seen hpc ↦ .inr ?_⟩
    obtain ⟨rfl, rfl⟩ := AttemptPc.durable.inj hpc
    have huploader : b.uploader = x.uploader := by rw [Bucket.uploader, hx, Option.bind_some]
    refine ⟨hagainst, ?_, hne, ?_⟩
    · rw [hx, huploader]
    · rw [hroute]
      exact decide_eq_true hsize
  | failed e => exact .failed e

theorem verify_durable {len : ℕ} {baseline other : Option ObjectId} {object : Option Stored} {seen : Stored}
    (h : verify len baseline object = .durable other seen) :
    other = baseline ∧ object = some seen ∧ some seen.id ≠ baseline ∧ seen.id.contentLength = len := by
  unfold verify at h
  split at h
  · cases h
  · split at h
    · next hgood =>
      obtain ⟨rfl, rfl⟩ := AttemptPc.durable.inj h
      exact ⟨rfl, rfl, hgood.2, hgood.1⟩
    · cases h

theorem verify_ended (len : ℕ) (baseline : Option ObjectId) (object : Option Stored) :
    (verify len baseline object).against = none ∧ (verify len baseline object).viaGuest = false := by
  unfold verify
  split
  · exact ⟨rfl, rfl⟩
  · split <;> exact ⟨rfl, rfl⟩

theorem onHead_advance {answered : Bool} (h : onHead b a answered = some a')
    (hguest : a.pc.viaGuest = true → a.route = .guest) : Advance b a a' := by
  unfold onHead at h
  split at h
  · split at h
    · cases h
    · split at h
      · dsimp only at h
        split at h
        · next hroute =>
          cases h
          refine .goes (.launching _) (fun _ ↦ hroute) ?_ nofun _
          intro baseline hb
          exact .inr (Option.some_inj.mp hb).symm
        · cases h
          refine .goes (.uploading _) nofun ?_ nofun _
          intro baseline hb
          exact .inr (Option.some_inj.mp hb).symm
      · split at h
        · cases h
          exact .goes (.reading _ _) nofun nofun nofun _
        · cases h
          exact .failed _
  · next w wake hpc =>
    dsimp only at h
    split at h
    · cases h
    · cases h
      refine Outcome.toPc_advance (hguest (by rw [hpc]; rfl)) (by rw [hpc]; rfl) (fun u _ ↦ rfl) ?_
      intro id hlanded
      obtain ⟨hfound, hne, hsize⟩ := Await.onHead_landed hlanded
      cases answered with
      | false => cases hfound
      | true => exact ⟨Head.found.inj hfound, hne, hsize⟩
  · next baseline hpc =>
    split at h
    · next len hroute =>
      cases h
      obtain ⟨hagainst, hvia⟩ := verify_ended len baseline b.object
      refine ⟨rfl, fun hv ↦ ?_, fun other hother ↦ ?_, fun other seen hdurable ↦ .inr ?_⟩
      · rw [hvia] at hv
        cases hv
      · rw [hagainst] at hother
        cases hother
      · obtain ⟨rfl, hobject, hne, hsize⟩ := verify_durable hdurable
        refine ⟨by rw [hpc]; rfl, hobject, hne, ?_⟩
        rw [hroute]
        exact decide_eq_true hsize
    · cases h
      exact .failed _
  · cases h

theorem attemptStep_advance (h : attemptStep b a m = some a')
    (hguest : a.pc.viaGuest = true → a.route = .guest) : Advance b a a' := by
  cases m with
  | head answered => exact onHead_advance h hguest
  | launch answered took =>
    simp only [attemptStep] at h
    split at h
    · next baseline hpc =>
      split at h
      · cases h
      · cases h
        refine .goes _ (fun _ ↦ hguest (by rw [hpc]; rfl)) ?_ ?_ _
        · intro other hother
          cases answered with
          | false => cases hother
          | true =>
            refine .inl ?_
            rw [hpc]
            exact hother
        · intro other seen
          cases answered <;> exact nofun
    · cases h
  | probe st =>
    simp only [attemptStep] at h
    split at h
    · next w u hpc =>
      cases h
      refine Outcome.toPc_advance (hguest (by rw [hpc]; rfl)) (by rw [hpc]; rfl) ?_ ?_
      · intro w' hw
        exact congrArg some (Await.onProbe_onClock hw).1
      · intro id hlanded
        exact absurd hlanded Await.onProbe_ne_landed
    · cases h
  | put =>
    simp only [attemptStep] at h
    split at h
    · split at h
      · cases h
      · cases h
        exact .of_pc rfl rfl hguest
    · cases h
  | lose =>
    simp only [attemptStep] at h
    split at h
    · cases h
      exact .of_pc rfl rfl hguest
    · cases h
      exact .of_pc rfl rfl hguest
    · cases h
  | land id =>
    obtain ⟨-, h⟩ := Option.ite_none_right_eq_some.mp h
    obtain rfl := Option.some_inj.mp h
    exact .of_pc rfl rfl hguest
  | uploaded good =>
    simp only [attemptStep] at h
    split at h
    · next baseline hpc =>
      split at h
      · cases h
        exact .failed _
      · split at h
        · cases h
          refine .goes (.verifying _) nofun ?_ nofun _
          intro other hother
          refine .inl ?_
          rw [hpc]
          exact hother
        · cases h
    · cases h
  | drop =>
    obtain ⟨-, h⟩ := Option.ite_none_left_eq_some.mp h
    obtain rfl := Option.some_inj.mp h
    exact .failed _

end Attempts

section System

variable {b b' : Bucket} {l : Action} {ok : Bucket → Action → Prop} {now : ℕ} {object : Option ObjectId}

theorem Move.store_cases (m : Move) (t : ℕ) (object : Option Stored) :
    m.store t object = object ∨ ∃ id, m = .land id ∧ m.store t object = some ⟨id, some t⟩ := by
  cases m with
  | land id => exact .inr ⟨id, rfl, rfl⟩
  | _ => exact .inl rfl

/-- Who goes by a baseline sees that object, none, or its own upload at the key. -/
structure Bucket.Tracked (b : Bucket) : Prop where
  current : ∀ (t : ℕ) (a : Attempt), b.attempts[t]? = some a → ∀ baseline, a.pc.against = some baseline →
    ∀ x, b.object = some x → some x.id = baseline ∨ x.uploader = some t
  own : b.Own

structure Bucket.Sound (b : Bucket) : Prop where
  viaGuest : ∀ a ∈ b.attempts, a.pc.viaGuest = true → a.route = .guest
  witnessed : b.Witnessed

theorem step_sound (h : step l b = some b') (hb : b.Sound) : b'.Sound := by
  cases l with
  | tick d =>
    obtain rfl := Option.some_inj.mp h
    exact ⟨hb.viaGuest, hb.witnessed⟩
  | foreign id =>
    obtain rfl := Option.some_inj.mp h
    exact ⟨hb.viaGuest, hb.witnessed⟩
  | start route =>
    obtain rfl := Option.some_inj.mp h
    constructor
    · intro a ha
      rcases List.mem_append.mp ha with ha | ha
      · exact hb.viaGuest a ha
      · obtain rfl := List.mem_singleton.mp ha
        exact nofun
    · intro a ha
      rcases List.mem_append.mp ha with ha | ha
      · exact hb.witnessed a ha
      · obtain rfl := List.mem_singleton.mp ha
        exact nofun
  | attempt t m =>
    obtain ⟨a, ht, h⟩ := Option.bind_eq_some_iff.mp h
    obtain ⟨a', ha', rfl⟩ := Option.map_eq_some_iff.mp h
    have hmem := List.mem_of_getElem? ht
    have hadv := attemptStep_advance ha' (hb.viaGuest a hmem)
    constructor
    · intro x hx
      rcases List.mem_or_eq_of_mem_set hx with hx | rfl
      · exact hb.viaGuest x hx
      · rw [hadv.route]
        exact hadv.viaGuest
    · intro x hx baseline seen hpc
      rcases List.mem_or_eq_of_mem_set hx with hx | rfl
      · exact hb.witnessed x hx baseline seen hpc
      · rw [hadv.route]
        rcases hadv.durable baseline seen hpc with hold | ⟨-, -, hne, hsize⟩
        · exact hb.witnessed a hmem baseline seen hold
        · exact ⟨hne, hsize⟩

theorem run_sound (h : Run step ok (.found now object) b) : b.Sound := by
  refine h.invariant ⟨by simp [Bucket.found], by simp [Bucket.found, Bucket.Witnessed]⟩ ?_
  intro s l s' hs _ h
  exact step_sound h hs

theorem step_tracked (h : step l b = some b') (hl : Unmixed b l) (hs : b.Sound) (hb : b.Tracked) :
    b'.Tracked := by
  cases l with
  | tick d =>
    obtain rfl := Option.some_inj.mp h
    exact ⟨hb.current, hb.own⟩
  | foreign id =>
    obtain rfl := Option.some_inj.mp h
    refine ⟨?_, hb.own⟩
    intro t a ht baseline hagainst x hx
    cases id with
    | none => cases hx
    | some id =>
      have hnone := hl a (List.mem_of_getElem? ht)
      cases hnone.symm.trans hagainst
  | start route =>
    obtain rfl := Option.some_inj.mp h
    exact ⟨forall_append nofun hb.current, forall_append nofun hb.own⟩
  | attempt t m =>
    obtain ⟨a, ht, h⟩ := Option.bind_eq_some_iff.mp h
    obtain ⟨a', ha', rfl⟩ := Option.map_eq_some_iff.mp h
    have hadv := attemptStep_advance ha' (hs.viaGuest a (List.mem_of_getElem? ht))
    constructor
    · refine forall_set ?_ ?_
      · intro baseline hagainst x hx
        rcases Move.store_cases m t b.object with hsame | ⟨id, -, hland⟩
        · rw [hsame] at hx
          rcases hadv.against baseline hagainst with hold | rfl
          · exact hb.current t a ht baseline hold x hx
          · exact .inl (by rw [hx, Option.map_some])
        · rw [hland] at hx
          obtain rfl := Option.some_inj.mp hx
          exact .inr rfl
      · intro u c hne hu baseline hagainst x hx
        rcases Move.store_cases m t b.object with hsame | ⟨id, rfl, -⟩
        · rw [hsame] at hx
          exact hb.current u c hu baseline hagainst x hx
        · have hnone := hl c (List.mem_eraseIdx_iff_getElem?.mpr ⟨u, hne, hu⟩)
          cases hnone.symm.trans hagainst
    · refine forall_set ?_ fun u c _ hu ↦ hb.own u c hu
      intro baseline seen hpc
      rcases hadv.durable baseline seen hpc with hold | ⟨hagainst, hobject, hne, -⟩
      · exact hb.own t a ht baseline seen hold
      · exact (hb.current t a ht baseline hagainst seen hobject).resolve_left hne

theorem run_tracked (h : Run step Unmixed (.found now object) b) : b.Tracked := by
  refine h.invariant_of (J := Bucket.Sound) (fun s hs ↦ run_sound hs) ?_ ?_
  · exact ⟨by simp [Bucket.found], by simp [Bucket.found, Bucket.Own]⟩
  · intro s l s' hs hsound _ hl h
    exact step_tracked h hl hsound hs

/-- An attempt ends well only with a HEAD of a new object of a plausible size, never on the guest's
word, and its wait ends in any case; the object is its own upload where nobody else's lands meanwhile. -/
theorem archive_own_run (now : ℕ) (object : Option ObjectId) :
    (∀ ok b, Run step ok (.found now object) b → b.Witnessed) ∧
    (∀ b, Run step Unmixed (.found now object) b → b.Own) ∧
    (∀ baseline begun rs id, awaitArchive (.start baseline begun) begun rs = some (.ok id) →
      (∃ r ∈ rs, r.head = .found (some id)) ∧ some id ≠ baseline ∧ minArchiveBytes ≤ id.contentLength) ∧
    ∀ baseline begun rs, (∀ r ∈ rs, archivePollInterval ≤ r.took) →
      archiveDeadline ≤ archivePollInterval * rs.length →
      (awaitArchive (.start baseline begun) begun rs).isSome = true := by
  refine ⟨fun ok b h ↦ (run_sound h).witnessed, fun b h ↦ (run_tracked h).own, ?_, ?_⟩
  · intro baseline begun rs id h
    exact awaitArchive_ok h
  · intro baseline begun rs hslept hlong
    refine awaitArchive_ends hslept ?_ (Nat.add_le_add_left hlong begun)
    exact Nat.lt_add_of_pos_right (by decide)

def dumped : ObjectId := ⟨"", "", 4096⟩

/-- The launch of the first attempt took effect though its exec failed; its upload lands between the
second attempt's baseline and its first HEAD. -/
def lateUpload : List Action :=
  [.start .guest, .attempt 0 (.head true), .attempt 0 (.launch false true), .attempt 0 .put,
    .start .guest, .attempt 1 (.head true), .attempt 1 (.launch true true), .attempt 0 (.land dumped),
    .tick 10, .attempt 1 (.head true)]

def mistaken (b : Bucket) : Bool :=
  b.attempts[1]? = some ⟨.guest, .durable none ⟨dumped, some 0⟩, .ready 0⟩

/-- An archive is reported durable before its own dump has sent a byte. -/
theorem archive_of_earlier_attempt : ∃ b, Run step (fun _ _ ↦ True) (.found 0 none) b ∧
    b.attempts[1]? = some ⟨.guest, .durable none ⟨dumped, some 0⟩, .ready 0⟩ ∧ ¬ b.Own := by
  obtain ⟨b, hb, hmistaken⟩ := Run.exists_of_exec step (fun _ _ ↦ True) (.found 0 none)
    lateUpload mistaken (by decide) (by decide)
  have hget := of_decide_eq_true hmistaken
  refine ⟨b, hb, hget, fun hown ↦ ?_⟩
  exact absurd (hown 1 _ hget none _ rfl) (by decide)

def oneByOne : List Action :=
  [.start .guest, .attempt 0 (.head true), .attempt 0 (.launch true true), .attempt 0 .put, .tick 10,
    .attempt 0 (.land dumped), .attempt 0 (.head true), .start (.server 8192), .attempt 1 (.head true),
    .attempt 1 .put, .attempt 1 (.land ⟨"", "", 8192⟩), .attempt 1 (.uploaded true), .attempt 1 (.head true)]

def archived (b : Bucket) : Bool :=
  b.attempts = [⟨.guest, .durable none ⟨dumped, some 0⟩, .landed⟩,
    ⟨.server 8192, .durable (some dumped) ⟨⟨"", "", 8192⟩, some 1⟩, .landed⟩]

theorem archive_own_run_oneByOne : ∃ b, Run step Unmixed (.found 0 none) b ∧ archived b = true ∧
    b.Witnessed ∧ b.Own ∧
    (awaitArchive (.start none 0) 0 (List.replicate 180 ⟨.unavailable, none, 10⟩)).isSome = true := by
  obtain ⟨b, hb, harchived⟩ := Run.exists_of_exec step Unmixed (.found 0 none) oneByOne archived
    (by decide) (by decide)
  obtain ⟨hwitnessed, hown, -, hends⟩ := archive_own_run 0 none
  refine ⟨b, hb, harchived, hwitnessed Unmixed b hb, hown b hb, hends none 0 _ ?_ ?_⟩
  · intro r hr
    rw [List.eq_of_mem_replicate hr]
    exact Nat.le_refl 10
  · rw [List.length_replicate]
    decide

end System

end PgVmPool.Archiving
