import PgVmPool.Transition

namespace PgVmPool.Tls

open Transition

variable {Content Der Config Time : Type}

/-- A PEM file. `times` is history: the modification times that it has had. -/
structure File (Content Time : Type) where
  content : Content
  mtime : Time
  times : List Time
  mtime_mem : mtime ∈ times

def File.replace (f : File Content Time) (content : Content) (t : Time) : File Content Time where
  content := content
  mtime := t
  times := t :: f.times
  mtime_mem := List.mem_cons_self

/-- What is used of rustls: the certificates of a file and its key, as far as they parse, and a server
configuration from the two. -/
structure Rustls (Content Der Config : Type) where
  certs : Content → Option (List Der)
  key : Content → Option Der
  singleCert : List Der → Der → Option Config

namespace Rustls

variable (tls : Rustls Content Der Config)

/-- The first half of `build_acceptor`. -/
def loadCerts (cert : Content) : Option (List Der) := (tls.certs cert).filter fun certs ↦ !certs.isEmpty

/-- The second half of `build_acceptor`. -/
def config (certs : List Der) (key : Content) : Option Config := (tls.key key).bind (tls.singleCert certs)

def buildAcceptor (cert key : Content) : Option Config := (tls.loadCerts cert).bind (tls.config · key)

end Rustls

/-- The two files. `rotations` and `undisturbed` are history: how often a file was replaced, and whether
every stat and read of a call has succeeded since the last time. -/
structure Disk (Content Time : Type) where
  cert : File Content Time
  key : File Content Time
  rotations : ℕ
  undisturbed : Bool

inductive Event
  | ok | fail
  deriving DecidableEq

namespace Disk

def mtimes (d : Disk Content Time) : Time × Time := (d.cert.mtime, d.key.mtime)

def acceptor (tls : Rustls Content Der Config) (d : Disk Content Time) : Option Config :=
  tls.buildAcceptor d.cert.content d.key.content

def replaceCert (d : Disk Content Time) (content : Content) (t : Time) : Disk Content Time :=
  { d with cert := d.cert.replace content t, rotations := d.rotations + 1, undisturbed := true }

def replaceKey (d : Disk Content Time) (content : Content) (t : Time) : Disk Content Time :=
  { d with key := d.key.replace content t, rotations := d.rotations + 1, undisturbed := true }

def after (d : Disk Content Time) : Event → Disk Content Time
  | .ok => d
  | .fail => { d with undisturbed := false }

end Disk

/-- `TlsReloader::new` on its way, and the reloader that it makes. `read` is history: the files as they
were read. -/
inductive Reloader (Content Der Config Time : Type)
  | readCert
  | readKey (read : Content) (certs : List Der)
  | statCert (read : Content × Content) (acceptor : Config)
  | statKey (read : Content × Content) (acceptor : Config) (cert : Time)
  | failed
  | serving (cached : (Time × Time) × Config)

/-- A call of `acceptor`. -/
inductive Pc (Der Config Time : Type)
  | statCert
  | statKey (cert : Time)
  | check (current : Option (Time × Time))
  | readCert (mtimes : Time × Time)
  | readKey (mtimes : Time × Time) (certs : List Der)
  | store (mtimes : Time × Time) (built : Option Config)
  | done (acceptor : Config)
  deriving DecidableEq

/-- `since` is history: the replacements before the call began. -/
structure Call (Der Config Time : Type) where
  since : ℕ
  pc : Pc Der Config Time
  deriving DecidableEq

structure State (Content Der Config Time : Type) where
  disk : Disk Content Time
  reloader : Reloader Content Der Config Time
  calls : List (Call Der Config Time)

inductive Action (Content Time : Type)
  | replaceCert (content : Content) (t : Time)
  | replaceKey (content : Content) (t : Time)
  | new (e : Event)
  | call
  | act (i : ℕ) (e : Event)

section Step

variable [DecidableEq Time] (tls : Rustls Content Der Config)

def newStep (d : Disk Content Time) :
    Reloader Content Der Config Time → Event → Option (Reloader Content Der Config Time)
  | .readCert, .ok => some (((tls.loadCerts d.cert.content).map (.readKey d.cert.content)).getD .failed)
  | .readKey read certs, .ok =>
    some (((tls.config certs d.key.content).map (.statCert (read, d.key.content))).getD .failed)
  | .statCert read a, .ok => some (.statKey read a d.cert.mtime)
  | .statKey _ a t, .ok => some (.serving ((t, d.key.mtime), a))
  | .readCert, .fail | .readKey .., .fail | .statCert .., .fail | .statKey .., .fail => some .failed
  | .failed, _ | .serving _, _ => none

/-- A step of a call, with what it leaves in `cached`. -/
def callStep (d : Disk Content Time) (cached : (Time × Time) × Config) :
    Pc Der Config Time → Event → Option (((Time × Time) × Config) × Pc Der Config Time)
  | .statCert, .ok => some (cached, .statKey d.cert.mtime)
  | .statKey t, .ok => some (cached, .check (some (t, d.key.mtime)))
  | .statCert, .fail | .statKey _, .fail => some (cached, .check none)
  | .check none, .ok => some (cached, .done cached.2)
  | .check (some m), .ok => some (cached, if m = cached.1 then .done cached.2 else .readCert m)
  | .readCert m, .ok =>
    some (cached, ((tls.loadCerts d.cert.content).map (.readKey m)).getD (.store m none))
  | .readKey m certs, .ok => some (cached, .store m (tls.config certs d.key.content))
  | .readCert m, .fail | .readKey m _, .fail => some (cached, .store m none)
  | .store m (some a), .ok => some ((m, a), .done a)
  -- the times are kept for a build that failed, so that it is not tried at every handshake
  | .store m none, .ok => some ((m, cached.2), .done cached.2)
  | .check _, .fail | .store .., .fail | .done _, _ => none

/-- A replacement has a modification time that the file never had. -/
def step : Action Content Time → State Content Der Config Time → Option (State Content Der Config Time)
  | .replaceCert content t, st =>
    if t ∈ st.disk.cert.times then none else some { st with disk := st.disk.replaceCert content t }
  | .replaceKey content t, st =>
    if t ∈ st.disk.key.times then none else some { st with disk := st.disk.replaceKey content t }
  | .new e, st => (newStep tls st.disk st.reloader e).map fun r ↦ { st with reloader := r }
  | .call, st =>
    match st.reloader with
    | .serving _ => some { st with calls := st.calls ++ [⟨st.disk.rotations, .statCert⟩] }
    | _ => none
  | .act i e, st =>
    match st.reloader, st.calls[i]? with
    | .serving cached, some c =>
      (callStep tls st.disk cached c.pc e).map fun r ↦
        ⟨st.disk.after e, .serving r.1, st.calls.set i ⟨c.since, r.2⟩⟩
    | _, _ => none

end Step

def State.boot (cert key : File Content Time) : State Content Der Config Time :=
  ⟨⟨cert, key, 0, true⟩, .readCert, []⟩

/-- `new` stats each file while it is as `new` has read it. -/
def FindsAsRead (st : State Content Der Config Time) : Action Content Time → Prop
  | .new .ok =>
    match st.reloader with
    | .statCert read _ => st.disk.cert.content = read.1
    | .statKey read _ _ => st.disk.key.content = read.2
    | _ => True
  | _ => True

instance [DecidableEq Content] (st : State Content Der Config Time) :
    ∀ l : Action Content Time, Decidable (FindsAsRead st l)
  | .new .ok =>
    match h : st.reloader with
    | .statCert read _ => decidable_of_iff (st.disk.cert.content = read.1) (by simp [FindsAsRead, h])
    | .statKey read _ _ => decidable_of_iff (st.disk.key.content = read.2) (by simp [FindsAsRead, h])
    | .readCert | .readKey .. | .failed | .serving _ => isTrue (by simp [FindsAsRead, h])
  | .new .fail | .replaceCert .. | .replaceKey .. | .call | .act .. => isTrue trivial

/-- Times that were read of the files at some time. -/
def Disk.Known (d : Disk Content Time) (m : Time × Time) : Prop := m.1 ∈ d.cert.times ∧ m.2 ∈ d.key.times

section Invariant

variable (tls : Rustls Content Der Config) (d : Disk Content Time)

/-- What is built is built of the files whose times are kept with it, or the files have moved on. -/
def Reloader.Fits : Reloader Content Der Config Time → Prop
  | .readCert | .failed => True
  | .readKey read certs => tls.loadCerts read = some certs
  | .statCert read a => tls.buildAcceptor read.1 read.2 = some a
  | .statKey read a t => tls.buildAcceptor read.1 read.2 = some a ∧ t ∈ d.cert.times ∧
      (t = d.cert.mtime → d.cert.content = read.1)
  | .serving cached => d.Known cached.1 ∧
      (d.undisturbed = true → cached.1 = d.mtimes → ∀ a ∈ d.acceptor tls, cached.2 = a)

def Pc.Fits : Pc Der Config Time → Prop
  | .statCert | .done _ => True
  | .statKey t => t ∈ d.cert.times
  | .check current => ∀ m ∈ current, d.Known m
  | .readCert m => d.Known m
  | .readKey m certs => d.Known m ∧
      (d.undisturbed = true → m = d.mtimes → tls.loadCerts d.cert.content = some certs)
  | .store m built => d.Known m ∧ (d.undisturbed = true → m = d.mtimes → built = d.acceptor tls)

/-- Where a call is that began after the last replacement. -/
def Pc.Settled : Pc Der Config Time → Prop
  | .statCert => True
  | .statKey t => t = d.cert.mtime
  | .check current => current = some d.mtimes
  | .readCert m | .readKey m _ | .store m _ => m = d.mtimes
  | .done a => ∀ b ∈ d.acceptor tls, a = b

structure Call.Fits (c : Call Der Config Time) : Prop where
  since : c.since ≤ d.rotations
  pc : c.pc.Fits tls d
  settled : d.undisturbed = true → c.since = d.rotations → c.pc.Settled tls d

end Invariant

structure State.Fits (tls : Rustls Content Der Config) (st : State Content Der Config Time) : Prop where
  reloader : st.reloader.Fits tls st.disk
  calls : ∀ (i : ℕ) (c : Call Der Config Time), st.calls[i]? = some c → c.Fits tls st.disk

/-- What the files may come to: a time that was read of a file before is its time now only if the file
is the same. -/
structure Disk.Later (d d' : Disk Content Time) : Prop where
  certTimes : d.cert.times ⊆ d'.cert.times
  keyTimes : d.key.times ⊆ d'.key.times
  rotations : d.rotations ≤ d'.rotations
  cert : ∀ t ∈ d.cert.times, t = d'.cert.mtime → d'.cert = d.cert
  known : d'.undisturbed = true → ∀ m, d.Known m → m = d'.mtimes → d' = d
  since : d'.undisturbed = true → ∀ n ≤ d.rotations, n = d'.rotations → d' = d

section Later

variable {tls : Rustls Content Der Config} {d d' : Disk Content Time} {content : Content} {t : Time}

theorem Disk.later_replaceCert (ht : t ∉ d.cert.times) : d.Later (d.replaceCert content t) where
  certTimes := List.subset_cons_self _ _
  keyTimes := List.Subset.refl _
  rotations := Nat.le_succ _
  cert := by
    intro u hu heq
    obtain rfl : u = t := heq
    exact absurd hu ht
  known := by
    intro _ m hm heq
    obtain rfl : m.1 = t := congrArg Prod.fst heq
    exact absurd hm.1 ht
  since := fun _ n hn heq ↦ absurd (heq ▸ hn) (Nat.not_succ_le_self _)

theorem Disk.later_replaceKey (ht : t ∉ d.key.times) : d.Later (d.replaceKey content t) where
  certTimes := List.Subset.refl _
  keyTimes := List.subset_cons_self _ _
  rotations := Nat.le_succ _
  cert := fun _ _ _ ↦ rfl
  known := by
    intro _ m hm heq
    obtain rfl : m.2 = t := congrArg Prod.snd heq
    exact absurd hm.2 ht
  since := fun _ n hn heq ↦ absurd (heq ▸ hn) (Nat.not_succ_le_self _)

theorem Disk.later_after (d : Disk Content Time) (e : Event) : d.Later (d.after e) := by
  cases e with
  | ok => exact ⟨List.Subset.refl _, List.Subset.refl _, le_refl _, fun _ _ _ ↦ rfl, fun _ _ _ _ ↦ rfl,
      fun _ _ _ _ ↦ rfl⟩
  | fail => exact ⟨List.Subset.refl _, List.Subset.refl _, le_refl _, fun _ _ _ ↦ rfl, nofun, nofun⟩

theorem Disk.Later.known_of (h : d.Later d') {m : Time × Time} (hm : d.Known m) : d'.Known m :=
  ⟨h.certTimes hm.1, h.keyTimes hm.2⟩

theorem Reloader.Fits.later {r : Reloader Content Der Config Time} (hr : r.Fits tls d) (h : d.Later d') :
    r.Fits tls d' := by
  cases r with
  | readCert | failed => trivial
  | readKey read certs | statCert read a => exact hr
  | statKey read a t =>
    obtain ⟨hbuild, ht, hread⟩ := hr
    refine ⟨hbuild, h.certTimes ht, fun heq ↦ ?_⟩
    have hcert := h.cert t ht heq
    rw [hcert] at heq ⊢
    exact hread heq
  | serving cached =>
    obtain ⟨hknown, hcached⟩ := hr
    refine ⟨h.known_of hknown, fun hd heq ↦ ?_⟩
    obtain rfl := h.known hd cached.1 hknown heq
    exact hcached hd heq

theorem Pc.Fits.later {pc : Pc Der Config Time} (hpc : pc.Fits tls d) (h : d.Later d') : pc.Fits tls d' := by
  cases pc with
  | statCert | done a => trivial
  | statKey t => exact h.certTimes hpc
  | check current => exact fun m hm ↦ h.known_of (hpc m hm)
  | readCert m => exact h.known_of hpc
  | readKey m certs | store m built =>
    obtain ⟨hknown, hbuilt⟩ := hpc
    refine ⟨h.known_of hknown, fun hd heq ↦ ?_⟩
    obtain rfl := h.known hd m hknown heq
    exact hbuilt hd heq

theorem Call.Fits.later {c : Call Der Config Time} (hc : c.Fits tls d) (h : d.Later d') : c.Fits tls d' := by
  refine ⟨hc.since.trans h.rotations, hc.pc.later h, fun hd hsince ↦ ?_⟩
  obtain rfl := h.since hd c.since hc.since hsince
  exact hc.settled hd hsince

end Later

section Steps

variable {tls : Rustls Content Der Config} {d : Disk Content Time} {e : Event}

theorem newStep_fits {st : State Content Der Config Time} {r' : Reloader Content Der Config Time}
    (hr : st.reloader.Fits tls st.disk) (hfinds : FindsAsRead st (.new e))
    (h : newStep tls st.disk st.reloader e = some r') : r'.Fits tls st.disk := by
  obtain ⟨d, r, calls⟩ := st
  cases e with
  | fail =>
    cases r <;> cases h <;> trivial
  | ok =>
    cases r with
    | readCert =>
      obtain rfl := Option.some_inj.mp h
      cases hload : tls.loadCerts d.cert.content with
      | none => trivial
      | some certs => exact hload
    | readKey read certs =>
      obtain rfl := Option.some_inj.mp h
      cases hconfig : tls.config certs d.key.content with
      | none => trivial
      | some a =>
        have hload : tls.loadCerts read = some certs := hr
        change (tls.loadCerts read).bind (tls.config · d.key.content) = some a
        rw [hload, Option.bind_some, hconfig]
    | statCert read a =>
      obtain rfl := Option.some_inj.mp h
      exact ⟨hr, d.cert.mtime_mem, fun _ ↦ hfinds⟩
    | statKey read a t =>
      obtain rfl := Option.some_inj.mp h
      obtain ⟨hbuild, ht, hread⟩ := hr
      refine ⟨⟨ht, d.key.mtime_mem⟩, fun _ heq b hb ↦ ?_⟩
      have hcert := hread (congrArg Prod.fst heq)
      rw [Disk.acceptor, hcert, hfinds, hbuild] at hb
      exact Option.some_inj.mp hb
    | failed => cases h
    | serving cached => cases h

variable [DecidableEq Time]

/-- The record of a build that failed is no worse than none: the files are not as they were then. -/
theorem callStep_fits {cached : (Time × Time) × Config} {c : Call Der Config Time}
    {r : ((Time × Time) × Config) × Pc Der Config Time} (hr : (Reloader.serving cached).Fits tls d)
    (hc : c.Fits tls d) (he : e = .fail → d.undisturbed = false)
    (h : callStep tls d cached c.pc e = some r) :
    (Reloader.serving r.1).Fits tls d ∧ Call.Fits tls d ⟨c.since, r.2⟩ := by
  obtain ⟨since, pc⟩ := c
  obtain ⟨hsince, hpc, hsettled⟩ := hc
  cases e with
  | fail =>
    have hoff := he rfl
    have hd : d.undisturbed ≠ true := by simp [hoff]
    cases pc with
    | statCert | statKey t =>
      obtain rfl := Option.some_inj.mp h
      exact ⟨hr, hsince, nofun, fun hon ↦ absurd hon hd⟩
    | readCert m =>
      obtain rfl := Option.some_inj.mp h
      exact ⟨hr, hsince, ⟨hpc, fun hon ↦ absurd hon hd⟩, fun hon ↦ absurd hon hd⟩
    | readKey m certs =>
      obtain rfl := Option.some_inj.mp h
      exact ⟨hr, hsince, ⟨hpc.1, fun hon ↦ absurd hon hd⟩, fun hon ↦ absurd hon hd⟩
    | check current => cases current <;> cases h
    | store m built => cases built <;> cases h
    | done a => cases h
  | ok =>
    cases pc with
    | statCert =>
      obtain rfl := Option.some_inj.mp h
      exact ⟨hr, hsince, d.cert.mtime_mem, fun _ _ ↦ rfl⟩
    | statKey t =>
      obtain rfl := Option.some_inj.mp h
      refine ⟨hr, hsince, fun m hm ↦ ?_, fun hon hs ↦ ?_⟩
      · obtain rfl := Option.some_inj.mp hm
        exact ⟨hpc, d.key.mtime_mem⟩
      · have ht : t = d.cert.mtime := hsettled hon hs
        rw [ht]
        rfl
    | check current =>
      cases current with
      | none =>
        obtain rfl := Option.some_inj.mp h
        exact ⟨hr, hsince, trivial, fun hon hs ↦ nomatch hsettled hon hs⟩
      | some m =>
        obtain rfl := Option.some_inj.mp h
        refine ⟨hr, hsince, ?_, fun hon hs ↦ ?_⟩
        · split_ifs
          · trivial
          · exact hpc m rfl
        · have hm : m = d.mtimes := Option.some_inj.mp (hsettled hon hs)
          split_ifs with heq
          · exact hr.2 hon (heq ▸ hm)
          · exact hm
    | readCert m =>
      obtain rfl := Option.some_inj.mp h
      cases hload : tls.loadCerts d.cert.content with
      | none =>
        refine ⟨hr, hsince, ⟨hpc, fun _ _ ↦ ?_⟩, hsettled⟩
        rw [Disk.acceptor, Rustls.buildAcceptor, hload, Option.bind_none]
      | some certs => exact ⟨hr, hsince, ⟨hpc, fun _ _ ↦ hload⟩, hsettled⟩
    | readKey m certs =>
      obtain rfl := Option.some_inj.mp h
      refine ⟨hr, hsince, ⟨hpc.1, fun hon hm ↦ ?_⟩, hsettled⟩
      rw [Disk.acceptor, Rustls.buildAcceptor, hpc.2 hon hm, Option.bind_some]
    | store m built =>
      obtain ⟨hknown, hbuilt⟩ := hpc
      cases built with
      | none =>
        obtain rfl := Option.some_inj.mp h
        refine ⟨⟨hknown, fun hon hm a ha ↦ ?_⟩, hsince, trivial, fun hon hs a ha ↦ ?_⟩
        · rw [← hbuilt hon hm] at ha
          cases ha
        · rw [← hbuilt hon (hsettled hon hs)] at ha
          cases ha
      | some b =>
        obtain rfl := Option.some_inj.mp h
        refine ⟨⟨hknown, fun hon hm a ha ↦ ?_⟩, hsince, trivial, fun hon hs a ha ↦ ?_⟩
        · rw [← hbuilt hon hm] at ha
          exact Option.some_inj.mp ha
        · rw [← hbuilt hon (hsettled hon hs)] at ha
          exact Option.some_inj.mp ha
    | done a => cases h

theorem callStep_after (d : Disk Content Time) (e : Event) (cached : (Time × Time) × Config)
    (pc : Pc Der Config Time) : callStep tls (d.after e) cached pc e = callStep tls d cached pc e := by
  cases e with
  | ok => rfl
  | fail =>
    cases pc with
    | check current => cases current <;> rfl
    | store m built => cases built <;> rfl
    | _ => rfl

/-- The steps that a call has left at most. -/
def Pc.left : Pc Der Config Time → ℕ
  | .statCert => 6
  | .statKey _ => 5
  | .check _ => 4
  | .readCert _ => 3
  | .readKey _ _ => 2
  | .store _ _ => 1
  | .done _ => 0

theorem callStep_left (tls : Rustls Content Der Config) (d : Disk Content Time) (cached : (Time × Time) × Config)
    {pc : Pc Der Config Time} (hpc : 0 < pc.left) :
    ∃ r, callStep tls d cached pc .ok = some r ∧ r.2.left < pc.left := by
  cases pc with
  | statCert | statKey t => exact ⟨_, rfl, by simp [Pc.left]⟩
  | check current =>
    cases current with
    | none => exact ⟨_, rfl, by simp [Pc.left]⟩
    | some m =>
      refine ⟨_, rfl, ?_⟩
      dsimp only
      split_ifs <;> simp [Pc.left]
  | readCert m =>
    refine ⟨_, rfl, ?_⟩
    cases tls.loadCerts d.cert.content <;> simp [Pc.left]
  | readKey m certs => exact ⟨_, rfl, by simp [Pc.left]⟩
  | store m built => cases built <;> exact ⟨_, rfl, by simp [Pc.left]⟩
  | done a => exact absurd hpc (lt_irrefl 0)

theorem step_fits {st st' : State Content Der Config Time} {l : Action Content Time} (hst : st.Fits tls)
    (hfinds : FindsAsRead st l) (h : step tls l st = some st') : st'.Fits tls := by
  cases l with
  | replaceCert content t =>
    simp only [step] at h
    split_ifs at h with ht
    cases h
    have hlater : st.disk.Later (st.disk.replaceCert content t) := Disk.later_replaceCert ht
    exact ⟨hst.reloader.later hlater, fun i c hc ↦ (hst.calls i c hc).later hlater⟩
  | replaceKey content t =>
    simp only [step] at h
    split_ifs at h with ht
    cases h
    have hlater : st.disk.Later (st.disk.replaceKey content t) := Disk.later_replaceKey ht
    exact ⟨hst.reloader.later hlater, fun i c hc ↦ (hst.calls i c hc).later hlater⟩
  | new e =>
    obtain ⟨r, hr, rfl⟩ := Option.map_eq_some_iff.mp h
    have hfits := newStep_fits hst.reloader hfinds hr
    exact ⟨hfits, hst.calls⟩
  | call =>
    simp only [step] at h
    split at h
    · cases h
      refine ⟨hst.reloader,
        forall_append (P := fun _ (c : Call Der Config Time) ↦ c.Fits tls st.disk) ?_ hst.calls⟩
      exact ⟨le_refl _, trivial, fun _ _ ↦ trivial⟩
    · cases h
  | act i e =>
    simp only [step] at h
    split at h
    · rename_i cached c hserving hc
      obtain ⟨r, hr, rfl⟩ := Option.map_eq_some_iff.mp h
      have hlater := st.disk.later_after e
      have hcached := hst.reloader.later hlater
      rw [hserving] at hcached
      obtain ⟨hcached', hc'⟩ := callStep_fits (e := e) hcached ((hst.calls i c hc).later hlater)
        (fun he ↦ by rw [he]; rfl) (by rwa [callStep_after])
      exact ⟨hcached', forall_set (P := fun _ (c : Call Der Config Time) ↦ c.Fits tls (st.disk.after e)) hc'
        fun j y _ hy ↦ (hst.calls j y hy).later hlater⟩
    · cases h

theorem exists_done (tls : Rustls Content Der Config) {st : State Content Der Config Time}
    {cached : (Time × Time) × Config} {i : ℕ} {c : Call Der Config Time}
    (hserving : st.reloader = .serving cached) (hc : st.calls[i]? = some c) :
    ∃ ls st' a, (∀ l ∈ ls, l = .act i .ok) ∧ exec (step tls) ls st = some st' ∧
      st'.calls[i]? = some ⟨c.since, .done a⟩ := by
  let I (st : State Content Der Config Time) : Prop :=
    (∃ cached, st.reloader = .serving cached) ∧ ∃ pc, st.calls[i]? = some ⟨c.since, pc⟩
  let μ (st : State Content Der Config Time) : ℕ := (st.calls[i]?).elim 0 (·.pc.left)
  have hstep : ∀ st, I st → 0 < μ st →
      ∃ l st', l = .act i .ok ∧ step tls l st = some st' ∧ I st' ∧ μ st' < μ st := by
    rintro st ⟨⟨cached, hserving⟩, pc, hpc⟩ hpos
    have hleft : μ st = pc.left := by simp only [μ, hpc, Option.elim_some]
    rw [hleft] at hpos
    obtain ⟨r, hr, hlt⟩ := callStep_left tls st.disk cached hpos
    have hset := List.getElem?_set_self (a := (⟨c.since, r.2⟩ : Call Der Config Time))
      (List.getElem?_eq_some_iff.mp hpc).1
    refine ⟨_, ⟨st.disk, .serving r.1, st.calls.set i ⟨c.since, r.2⟩⟩, rfl, ?_,
      ⟨⟨r.1, rfl⟩, r.2, hset⟩, ?_⟩
    · simp only [step, hserving, hpc, hr]
      rfl
    · rw [hleft]
      simpa only [μ, hset, Option.elim_some] using hlt
  obtain ⟨ls, st', hls, hexec, ⟨-, pc, hpc⟩, hzero⟩ :=
    exists_exec_of_decreasing (step tls) I (· = .act i .ok) μ hstep ⟨⟨cached, hserving⟩, c.pc, hc⟩
  simp only [μ, hpc, Option.elim_some] at hzero
  cases pc with
  | done a => exact ⟨ls, st', a, hls, hexec, hpc⟩
  | _ => cases hzero

variable {cert key : File Content Time} {st : State Content Der Config Time} {a : Config}

theorem run_fits (h : Run (step tls) FindsAsRead (.boot cert key) st) : st.Fits tls :=
  h.invariant (I := State.Fits tls) ⟨trivial, nofun⟩ fun _ _ _ hst hfinds hs ↦ step_fits hst hfinds hs

theorem run_serving (h : Run (step tls) FindsAsRead (.boot cert key) st) :
    st.calls = [] ∨ ∃ cached, st.reloader = .serving cached := by
  refine h.invariant (I := fun st ↦ st.calls = [] ∨ ∃ cached, st.reloader = .serving cached) (.inl rfl)
    fun st l st' hst _ hs ↦ ?_
  cases l with
  | replaceCert content t =>
    simp only [step] at hs
    split_ifs at hs
    cases hs
    exact hst
  | replaceKey content t =>
    simp only [step] at hs
    split_ifs at hs
    cases hs
    exact hst
  | new e =>
    obtain ⟨r, hr, rfl⟩ := Option.map_eq_some_iff.mp hs
    refine hst.imp_right ?_
    rintro ⟨cached, hcached⟩
    rw [hcached] at hr
    cases hr
  | call =>
    simp only [step] at hs
    split at hs
    · rename_i cached hcached
      cases hs
      exact .inr ⟨cached, hcached⟩
    · cases hs
  | act i e =>
    simp only [step] at hs
    split at hs
    · obtain ⟨r, -, rfl⟩ := Option.map_eq_some_iff.mp hs
      exact .inr ⟨r.1, rfl⟩
    · cases hs

/-- When the files are a pair that loads, every call that began after the last replacement returns that
pair, however far it is, whatever older calls leave in the cache; `new` must have found each file at its
stat as it had read it. -/
theorem rotation_converges (h : Run (step tls) FindsAsRead (.boot cert key) st)
    (hread : st.disk.undisturbed = true) (hpair : st.disk.acceptor tls = some a) :
    ∀ (i : ℕ) (c : Call Der Config Time), st.calls[i]? = some c → c.since = st.disk.rotations →
      (∀ b, c.pc = .done b → b = a) ∧
      ∃ ls st', (∀ l ∈ ls, l = .act i .ok) ∧ exec (step tls) ls st = some st' ∧
        st'.calls[i]? = some ⟨c.since, .done a⟩ := by
  intro i c hc hsince
  have hfits := run_fits h
  constructor
  · intro b hb
    have hsettled := (hfits.calls i c hc).settled hread hsince
    rw [hb] at hsettled
    exact hsettled a hpair
  · have hserving : ∃ cached, st.reloader = .serving cached := by
      refine (run_serving h).resolve_left fun hnil ↦ ?_
      rw [hnil] at hc
      cases hc
    obtain ⟨cached, hserving⟩ := hserving
    obtain ⟨ls, st', b, hls, hexec, hb⟩ := exists_done tls hserving hc
    have hend : st'.Fits tls ∧ st'.disk = st.disk := by
      refine exec_invariant (I := fun s ↦ s.Fits tls ∧ s.disk = st.disk) hexec ⟨hfits, rfl⟩ ?_
      rintro l hl s s' ⟨hs, hdisk⟩ hstep
      obtain rfl := hls l hl
      refine ⟨step_fits (l := .act i .ok) hs trivial hstep, ?_⟩
      simp only [step] at hstep
      split at hstep
      · obtain ⟨r, -, rfl⟩ := Option.map_eq_some_iff.mp hstep
        exact hdisk
      · cases hstep
    obtain ⟨hend, hdisk⟩ := hend
    have hsettled := (hend.calls i _ hb).settled (hdisk ▸ hread) (hdisk ▸ hsince)
    rw [hdisk] at hsettled
    obtain rfl := hsettled a hpair
    exact ⟨ls, st', hls, hexec, hb⟩

end Steps

section Rotations

/-- Contents that load are a pair where they are equal. -/
def equalPairs : Rustls ℕ ℕ ℕ :=
  ⟨fun c ↦ some [c], some, fun certs key ↦ if certs = [key] then some key else none⟩

def pemFile : File ℕ ℕ := ⟨0, 0, [0], List.mem_singleton_self 0⟩

def bootNew : List (Action ℕ ℕ) := List.replicate 4 (.new .ok)

/-- A call that read the old key records its times last, and the call after it builds again. -/
theorem rotation_converges_slow_call : ∃ st : State ℕ ℕ ℕ ℕ,
    Run (step equalPairs) FindsAsRead (.boot pemFile pemFile) st ∧
      (st.disk.undisturbed = true ∧ st.disk.acceptor equalPairs = some 1 ∧
        st.calls[2]? = some ⟨st.disk.rotations, .statCert⟩) ∧
      ∃ ls st', (∀ l ∈ ls, l = .act 2 .ok) ∧ exec (step equalPairs) ls st = some st' ∧
        st'.calls[2]? = some ⟨st.disk.rotations, .done 1⟩ := by
  obtain ⟨st, h, hst⟩ := Run.exists_of_exec (step equalPairs) FindsAsRead (.boot pemFile pemFile)
    (bootNew ++ [.replaceCert 1 5, .call] ++ List.replicate 5 (.act 0 .ok) ++ [.replaceKey 1 7, .call] ++
      List.replicate 6 (.act 1 .ok) ++ [.act 0 .ok, .call])
    (fun st ↦ st.disk.undisturbed = true ∧ st.disk.acceptor equalPairs = some 1 ∧
      st.calls[2]? = some ⟨st.disk.rotations, .statCert⟩) (by decide +kernel) (by decide +kernel)
  have hst := of_decide_eq_true hst
  exact ⟨st, h, hst, (rotation_converges h hst.1 hst.2.1 2 _ hst.2.2 rfl).2⟩

/-- Both files are replaced between the reads of `new` and its stats: the new times are kept with the
old pair, and no call looks again. -/
theorem rotation_inside_new : ∃ st : State ℕ ℕ ℕ ℕ,
    Run (step equalPairs) (fun _ _ ↦ True) (.boot pemFile pemFile) st ∧
      st.disk.undisturbed = true ∧ st.disk.acceptor equalPairs = some 1 ∧
      st.calls[0]? = some ⟨st.disk.rotations, .done 0⟩ := by
  obtain ⟨st, h, hst⟩ := Run.exists_of_exec (step equalPairs) (fun _ _ ↦ True) (.boot pemFile pemFile)
    [.new .ok, .new .ok, .replaceCert 1 5, .replaceKey 1 7, .new .ok, .new .ok, .call, .act 0 .ok,
      .act 0 .ok, .act 0 .ok]
    (fun st ↦ st.disk.undisturbed = true ∧ st.disk.acceptor equalPairs = some 1 ∧
      st.calls[0]? = some ⟨st.disk.rotations, .done 0⟩) (by decide +kernel) (by decide +kernel)
  exact ⟨st, h, of_decide_eq_true hst⟩

end Rotations

end PgVmPool.Tls
