import PgVmPool.StartupPacket

namespace PgVmPool.Session

open Dedicated Startup

def authCleartextPassword : ℕ := 3
def sqlstateInvalidPassword : String := "28P01"
def sqlstateInsufficientPrivilege : String := "42501"

inductive SessionError
  | startup (e : Failure)
  | expectedPassword (tag : UInt8)
  | tooSmall (len : ℤ)
  | passwordFailed
  | refused (reason : String)
  | invalidSchema (schema : String)
  deriving DecidableEq

/-- `AuthenticationCleartextPassword`. -/
def challenge : Bytes := 82 :: (toBeBytes 8 ++ toBeBytes authCleartextPassword)

/-- A field of an `ErrorResponse`: its code and its text. -/
def fieldBytes (f : UInt8 × Bytes) : Bytes := f.1 :: (f.2 ++ [0])

def fatalFields (sqlstate message : String) : List (UInt8 × Bytes) :=
  [(83, utf8 "FATAL"), (67, utf8 sqlstate), (77, utf8 message)]

/-- The length is cast to an `i32`. -/
def sendFatal (sqlstate message : String) : Bytes :=
  let fields := (fatalFields sqlstate message).flatMap fieldBytes ++ [0]
  69 :: (toBeBytes (fields.length + 4) ++ fields)

def readPassword (stream : Bytes) : Except SessionError (Bytes × Bytes) := do
  let (tag, stream) ← (readExact 1 stream).mapError .startup
  let tag := tag.headD 0
  if tag ≠ 112 then throw (.expectedPassword tag)
  let (lenBuf, stream) ← (readExact 4 stream).mapError .startup
  let len := fromBeBytes lenBuf
  if len < 5 then throw (.tooSmall len)
  (readExact (len - 4).toNat stream).mapError .startup

/-- What the client is sent, and what it has sent behind its password. -/
def requirePassword (expected : String) (stream : Bytes) : Bytes × Except SessionError Bytes :=
  match readPassword stream with
  | .error e => (challenge, .error e)
  | .ok (body, rest) =>
    if constantTimeEq (stripNul body) (utf8 expected) then (challenge, .ok rest)
    else (challenge ++ sendFatal sqlstateInvalidPassword "password authentication failed",
      .error .passwordFailed)

/-- What a client is told whose connection is over: the class of the error and its text. -/
def SessionError.told : SessionError → Option (String × String)
  | .passwordFailed => some (sqlstateInvalidPassword, "password authentication failed")
  | .refused reason => some (sqlstateInsufficientPrivilege, reason)
  | _ => none

/-- The records at the three moments at which a connection reads them. -/
structure Records where
  challenge : Creds
  byRole : Creds
  dedicated : Creds

def authorize (records : Records) (role database : String) : Except String Unit :=
  match records.byRole.ofRole role with
  | some r =>
    let own := r.1.text
    if own = database then .ok ()
    else .error
      s!"role \"{role}\" is provisioned for database \"{own}\" only and cannot open or create any other database"
  | none =>
    if records.dedicated.isDedicated database then
      .error s!"database \"{database}\" is dedicated and can only be opened by its own role"
    else .ok ()

/-- A client that may have its schema, and what its VM is sent. -/
structure Spliced where
  schema : String
  upstream : Bytes
  deriving DecidableEq

/-- `splice` towards the VM: the startup once more, and then all that the client sends. -/
def splice (startupRaw fromClient : Bytes) : Bytes := startupRaw ++ fromClient

def letIn (records : Records) (info : StartupInfo) (rest : Bytes) : Bytes × Except SessionError Spliced :=
  match authorize records info.user info.database with
  | .error reason => (sendFatal sqlstateInsufficientPrivilege reason, .error (.refused reason))
  | .ok () =>
    if isValidSchema info.database then ([], .ok ⟨info.database, splice info.raw rest⟩)
    else ([], .error (.invalidSchema info.database))

/-- `handle_conn` on all that a client sends, up to the checkout of its schema. -/
def handleConn (records : Records) (shared : Option String) (tls : Option (Bytes → Option Bytes))
    (stream : Bytes) : Bytes × Except SessionError Spliced :=
  match readStartup tls stream with
  | (replies, .error e) => (replies, .error (.startup e))
  | (replies, .ok (info, rest)) =>
    match records.challenge.challengePassword info.user shared with
    | none => (replies ++ (letIn records info rest).1, (letIn records info rest).2)
    | some expected =>
      match requirePassword expected rest with
      | (asked, .error e) => (replies ++ asked, .error e)
      | (asked, .ok rest) => (replies ++ (asked ++ (letIn records info rest).1), (letIn records info rest).2)

/-- The requests for encryption that come first, with their answers, up to the bytes that the startup
is read from. Behind a request that is granted these went through the handshake. -/
inductive Opened : Option (Bytes → Option Bytes) → Bytes → Bytes → Bytes → Prop
  | start (tls stream) : Opened tls stream [] stream
  | declined {tls stream code lenBuf body rest replies inner}
      (hread : readMessage stream = .ok ((code, lenBuf, body), rest))
      (hcode : code = gssEncRequestCode ∨ code = sslRequestCode ∧ tls = none)
      (h : Opened tls rest replies inner) : Opened tls stream (78 :: replies) inner
  | granted {accept : Bytes → Option Bytes} {stream lenBuf body sealed behind replies inner}
      (hread : readMessage stream = .ok ((sslRequestCode, lenBuf, body), sealed))
      (hs : accept sealed = some behind) (h : Opened none behind replies inner) :
      Opened (some accept) stream (83 :: replies) inner

def IsStartup (info : StartupInfo) : Prop :=
  ∃ lenBuf body, readMessage info.raw = .ok ((protocolV3, lenBuf, body), []) ∧
    parseStartupMessage lenBuf body = .ok info

/-- A `PasswordMessage` with the password `expected`. -/
def Proves (expected : String) (message : Bytes) : Prop :=
  ∃ body, message = 112 :: frame body ∧ 4 + body.length < 2 ^ 31 ∧ body ≠ [] ∧ stripNul body = utf8 expected

/-- What a client is asked to prove, what it sends for it, and what it is asked with. -/
inductive Proved : Option String → Bytes → Bytes → Prop
  | unasked : Proved none [] []
  | asked {expected message} (h : Proves expected message) : Proved (some expected) message challenge

section Messages

variable {stream lenBuf body rest : Bytes} {n : ℕ}

theorem readExact_iff {got : Bytes} :
    readExact n stream = .ok (got, rest) ↔ stream = got ++ rest ∧ got.length = n := by
  constructor
  · intro h
    exact (readExact_ok h).imp_left Eq.symm
  · rintro ⟨rfl, rfl⟩
    exact readExact_append got rest

theorem length_eq_four {bs : Bytes} (h : bs.length = 4) : ∃ a b c d, bs = [a, b, c, d] := by
  match bs, h with
  | [a, b, c, d], _ => exact ⟨a, b, c, d, rfl⟩

theorem eq_toBeBytes (hlen : lenBuf.length = 4) (h : fromBeBytes lenBuf = n) : lenBuf = toBeBytes n := by
  obtain ⟨a, b, c, d, rfl⟩ := length_eq_four hlen
  have ha := a.toNat_lt
  have hb := b.toNat_lt
  have hc := c.toNat_lt
  have hd := d.toNat_lt
  simp only [fromBeBytes, List.foldl_cons, List.foldl_nil] at h
  have hn : n = ((a.toNat * 256 + b.toNat) * 256 + c.toNat) * 256 + d.toNat := by
    split_ifs at h <;> omega
  simp only [toBeBytes, List.map_cons, List.map_nil, List.cons.injEq, and_true, ← UInt8.toNat_inj,
    UInt8.toNat_ofNat']
  omega

theorem fromBeBytes_lt (hlen : lenBuf.length = 4) : fromBeBytes lenBuf < 2 ^ 31 := by
  obtain ⟨a, b, c, d, rfl⟩ := length_eq_four hlen
  have ha := a.toNat_lt
  have hb := b.toNat_lt
  have hc := c.toNat_lt
  have hd := d.toNat_lt
  simp only [fromBeBytes, List.foldl_cons, List.foldl_nil]
  split_ifs <;> omega

theorem readMessage_iff {code : ℤ} : readMessage stream = .ok ((code, lenBuf, body), rest) ↔
    stream = lenBuf ++ body ++ rest ∧ lenBuf.length = 4 ∧ 8 ≤ fromBeBytes lenBuf ∧
      (body.length : ℤ) = fromBeBytes lenBuf - 4 ∧ code = fromBeBytes (body.take 4) := by
  constructor
  · intro h
    unfold readMessage at h
    cases h₁ : readExact 4 stream with
    | error e =>
      rw [h₁] at h
      cases h
    | ok x =>
      obtain ⟨buf, behind⟩ := x
      simp only [h₁, bind, Except.bind] at h
      split at h
      · cases h
      rename_i hlen
      cases h₂ : readExact (fromBeBytes buf - 4).toNat behind with
      | error e =>
        rw [h₂] at h
        cases h
      | ok y =>
        rw [h₂] at h
        cases h
        obtain ⟨rfl, hbuf⟩ := readExact_iff.mp h₁
        obtain ⟨rfl, hbody⟩ := readExact_iff.mp h₂
        exact ⟨(List.append_assoc ..).symm, hbuf, by omega, by omega, rfl⟩
  · rintro ⟨rfl, hbuf, hlen, hbody, rfl⟩
    have h₁ : readExact 4 (lenBuf ++ body ++ rest) = .ok (lenBuf, body ++ rest) :=
      readExact_iff.mpr ⟨List.append_assoc .., hbuf⟩
    have h₂ : readExact (fromBeBytes lenBuf - 4).toNat (body ++ rest) = .ok (body, rest) :=
      readExact_iff.mpr ⟨rfl, by omega⟩
    unfold readMessage
    simp only [h₁, h₂, bind, Except.bind, if_neg (not_lt.mpr hlen), pure, Except.pure]

theorem readPassword_iff : readPassword stream = .ok (body, rest) ↔
    stream = 112 :: (frame body ++ rest) ∧ 4 + body.length < 2 ^ 31 ∧ body ≠ [] := by
  constructor
  · intro h
    unfold readPassword at h
    cases h₁ : readExact 1 stream with
    | error e =>
      rw [h₁] at h
      cases h
    | ok x =>
      obtain ⟨tag, behind⟩ := x
      simp only [h₁, bind, Except.bind, Except.mapError] at h
      split at h
      · cases h
      rename_i htag
      cases h₂ : readExact 4 behind with
      | error e =>
        rw [h₂] at h
        cases h
      | ok y =>
        obtain ⟨buf, behind₂⟩ := y
        simp only [h₂] at h
        split at h
        · cases h
        rename_i hlen
        cases h₃ : readExact (fromBeBytes buf - 4).toNat behind₂ with
        | error e =>
          rw [h₃] at h
          cases h
        | ok z =>
          rw [h₃] at h
          cases h
          obtain ⟨rfl, hone⟩ := readExact_iff.mp h₁
          obtain ⟨rfl, hbuf⟩ := readExact_iff.mp h₂
          obtain ⟨rfl, hbody⟩ := readExact_iff.mp h₃
          obtain ⟨b, rfl⟩ := List.length_eq_one_iff.mp hone
          obtain rfl : b = 112 := not_not.mp htag
          have hbound := fromBeBytes_lt hbuf
          have heq : fromBeBytes buf = (4 + body.length : ℕ) := by omega
          have hne : body ≠ [] := by
            rintro rfl
            rw [List.length_nil] at hbody
            omega
          refine ⟨?_, by omega, hne⟩
          rw [frame, ← eq_toBeBytes hbuf heq, List.append_assoc]
          rfl
  · rintro ⟨rfl, hlen, hne⟩
    have hpos := List.length_pos_of_ne_nil hne
    have h₁ : readExact 1 (112 :: (frame body ++ rest)) = .ok ([112], frame body ++ rest) :=
      readExact_iff.mpr ⟨rfl, rfl⟩
    have h₂ : readExact 4 (frame body ++ rest) = .ok (toBeBytes (4 + body.length), body ++ rest) :=
      readExact_iff.mpr ⟨List.append_assoc .., rfl⟩
    have h₃ : readExact (((4 + body.length : ℕ) : ℤ) - 4).toNat (body ++ rest) = .ok (body, rest) :=
      readExact_iff.mpr ⟨rfl, by omega⟩
    have hnot : ¬ ((4 + body.length : ℕ) : ℤ) < 5 := by omega
    unfold readPassword
    simp only [h₁, h₂, bind, Except.bind, Except.mapError, List.headD_cons, ne_eq, not_true_eq_false, if_false,
      fromBeBytes_toBeBytes hlen, if_neg hnot, h₃]

end Messages

section Startup

variable {tls : Option (Bytes → Option Bytes)} {stream lenBuf body rest replies : Bytes} {code : ℤ}
  {info : StartupInfo}

theorem readMessage_length (h : readMessage stream = .ok ((code, lenBuf, body), rest)) :
    rest.length < stream.length := by
  obtain ⟨rfl, hbuf, -⟩ := readMessage_iff.mp h
  simp only [List.length_append]
  omega

/-- The bytes that a startup is read from are its message and what the client has sent behind it. -/
theorem parseStartupMessage_ok (h : readMessage stream = .ok ((protocolV3, lenBuf, body), rest))
    (hparse : parseStartupMessage lenBuf body = .ok info) : stream = info.raw ++ rest ∧ IsStartup info := by
  have hraw : info.raw = lenBuf ++ body := by
    unfold parseStartupMessage at hparse
    dsimp only at hparse
    split at hparse
    · cases hparse
    · cases hparse
      rfl
  obtain ⟨rfl, hbuf, hlen, hbody, hcode⟩ := readMessage_iff.mp h
  rw [hraw]
  refine ⟨rfl, lenBuf, body, ?_, hparse⟩
  rw [hraw, readMessage_iff]
  exact ⟨(List.append_nil _).symm, hbuf, hlen, hbody, hcode⟩

theorem IsStartup.readMessage (h : IsStartup info) (rest : Bytes) : ∃ lenBuf body,
    readMessage (info.raw ++ rest) = .ok ((protocolV3, lenBuf, body), rest) ∧
      parseStartupMessage lenBuf body = .ok info := by
  obtain ⟨lenBuf, body, hread, hparse⟩ := h
  obtain ⟨hraw, hbuf, hlen, hbody, hcode⟩ := readMessage_iff.mp hread
  refine ⟨lenBuf, body, readMessage_iff.mpr ⟨?_, hbuf, hlen, hbody, hcode⟩, hparse⟩
  rw [hraw, List.append_nil]

theorem readStartup_of_declined (h : readMessage stream = .ok ((code, lenBuf, body), rest))
    (hcode : code = gssEncRequestCode ∨ code = sslRequestCode ∧ tls = none) :
    readStartup tls stream = (78 :: (readStartup tls rest).1, (readStartup tls rest).2) := by
  have hnot : ¬ (code = sslRequestCode ∧ tls.isSome) := by
    rintro ⟨rfl, hsome⟩
    obtain h | ⟨-, rfl⟩ := hcode
    · exact absurd h (by decide)
    · cases hsome
  rw [readStartup]
  split
  · rename_i he
    rw [h] at he
    cases he
  · rename_i he
    rw [h] at he
    cases he
    rw [if_neg hnot, if_pos (hcode.symm.imp_left And.left)]

theorem readStartup_of_granted {accept : Bytes → Option Bytes} {behind : Bytes}
    (h : readMessage stream = .ok ((sslRequestCode, lenBuf, body), rest)) (ha : accept rest = some behind) :
    readStartup (some accept) stream = (83 :: (readStartup none behind).1, (readStartup none behind).2) := by
  rw [readStartup]
  split
  · rename_i he
    rw [h] at he
    cases he
  · rename_i he
    rw [h] at he
    cases he
    rw [if_pos ⟨rfl, rfl⟩, Option.bind_some, ha, ← readStartupPlain_eq]

theorem Opened.readStartup_eq {inner : Bytes} (h : Opened tls stream replies inner) (hinfo : IsStartup info)
    (hinner : inner = info.raw ++ rest) : readStartup tls stream = (replies, .ok (info, rest)) := by
  induction h with
  | start tls stream =>
    obtain ⟨lenBuf, body, hread, hparse⟩ := hinfo.readMessage rest
    rw [hinner, readStartup_v3 hread, hparse]
    rfl
  | declined hread hcode h ih => rw [readStartup_of_declined hread hcode, ih hinner]
  | granted hread hs h ih => rw [readStartup_of_granted hread hs, ih hinner]

/-- One direction for the handshake, given it for what comes out of the encryption. -/
theorem opened_of_readStartup_of (hplain : tls.isSome = true → ∀ {inner answers : Bytes},
      readStartup none inner = (answers, .ok (info, rest)) →
        Opened none inner answers (info.raw ++ rest) ∧ IsStartup info)
    (h : readStartup tls stream = (replies, .ok (info, rest))) :
    Opened tls stream replies (info.raw ++ rest) ∧ IsStartup info := by
  induction hn : stream.length using Nat.strong_induction_on generalizing stream replies with
  | _ n ih =>
    rw [readStartup] at h
    split at h
    · cases h
    rename_i code lenBuf body behind hread
    have hshort := readMessage_length hread
    split_ifs at h with hssl hrequest hv3
    · obtain ⟨rfl, hsome⟩ := hssl
      obtain ⟨accept, rfl⟩ := Option.isSome_iff_exists.mp hsome
      rw [Option.bind_some] at h
      split at h
      · cases h
      · rename_i inner hs
        obtain ⟨hanswers, hr⟩ := Prod.mk.inj h
        rw [readStartupPlain_eq] at hanswers hr
        obtain ⟨hopened, hinfo⟩ := hplain rfl (Prod.ext rfl hr)
        exact ⟨hanswers ▸ .granted hread hs hopened, hinfo⟩
    · obtain ⟨hanswers, hr⟩ := Prod.mk.inj h
      obtain ⟨hopened, hinfo⟩ := ih _ (hn ▸ hshort) (Prod.ext rfl hr) rfl
      have hcode : code = gssEncRequestCode ∨ code = sslRequestCode ∧ tls = none := by
        refine hrequest.symm.imp_right fun hcode ↦ ⟨hcode, ?_⟩
        exact Option.not_isSome_iff_eq_none.mp fun hsome ↦ hssl ⟨hcode, hsome⟩
      exact ⟨hanswers ▸ .declined hread hcode hopened, hinfo⟩
    · subst hv3
      obtain ⟨rfl, hr⟩ := Prod.mk.inj h
      cases hparse : parseStartupMessage lenBuf body with
      | error e =>
        rw [hparse] at hr
        cases hr
      | ok found =>
        rw [hparse] at hr
        cases hr
        obtain ⟨rfl, hinfo⟩ := parseStartupMessage_ok hread hparse
        exact ⟨.start tls _, hinfo⟩
    · cases (Prod.mk.inj h).2

theorem readStartup_ok_iff : readStartup tls stream = (replies, .ok (info, rest)) ↔
    Opened tls stream replies (info.raw ++ rest) ∧ IsStartup info := by
  constructor
  · intro h
    refine opened_of_readStartup_of (fun _ inner answers hinner ↦ ?_) h
    exact opened_of_readStartup_of (fun hsome ↦ absurd hsome (by decide)) hinner
  · rintro ⟨hopened, hinfo⟩
    exact hopened.readStartup_eq hinfo rfl

end Startup

section Password

variable {expected : String} {stream rest asked : Bytes}

theorem requirePassword_ok_iff : requirePassword expected stream = (asked, .ok rest) ↔
    asked = challenge ∧ ∃ message, Proves expected message ∧ stream = message ++ rest := by
  constructor
  · intro h
    unfold requirePassword at h
    split at h
    · cases (Prod.mk.inj h).2
    rename_i body behind hread
    split_ifs at h with heq
    · obtain ⟨rfl, hrest⟩ := Prod.mk.inj h
      cases hrest
      obtain ⟨rfl, hlen, hne⟩ := readPassword_iff.mp hread
      exact ⟨rfl, _, ⟨body, rfl, hlen, hne, constantTimeEq_iff.mp heq⟩, rfl⟩
    · cases (Prod.mk.inj h).2
  · rintro ⟨rfl, message, ⟨body, rfl, hlen, hne, heq⟩, rfl⟩
    have hread : readPassword (112 :: frame body ++ rest) = .ok (body, rest) :=
      readPassword_iff.mpr ⟨rfl, hlen, hne⟩
    rw [requirePassword, hread]
    exact if_pos (constantTimeEq_iff.mpr heq)

end Password

section Admission

variable {records : Records} {shared : Option String} {tls : Option (Bytes → Option Bytes)}
  {stream rest replies : Bytes} {info : StartupInfo} {s : Spliced}

theorem letIn_ok_iff : letIn records info rest = (replies, .ok s) ↔ replies = [] ∧
    authorize records info.user info.database = .ok () ∧ isValidSchema info.database = true ∧
      s = ⟨info.database, info.raw ++ rest⟩ := by
  unfold letIn
  cases hauth : authorize records info.user info.database with
  | error reason => simp
  | ok u =>
    dsimp only
    split_ifs with hvalid
    · simp only [Prod.mk.injEq, Except.ok.injEq, hvalid, true_and, splice, eq_comm]
    · simp [hvalid]

theorem handleConn_ok_iff : handleConn records shared tls stream = (replies, .ok s) ↔
    ∃ answers info message asked rest, readStartup tls stream = (answers, .ok (info, message ++ rest)) ∧
      Proved (records.challenge.challengePassword info.user shared) message asked ∧ replies = answers ++ asked ∧
      letIn records info rest = ([], .ok s) := by
  constructor
  · intro h
    unfold handleConn at h
    split at h
    · cases (Prod.mk.inj h).2
    rename_i answers info behind hread
    split at h
    · rename_i hnone
      obtain ⟨rfl, hlet⟩ := Prod.mk.inj h
      have hempty := (letIn_ok_iff.mp (Prod.ext rfl hlet)).1
      refine ⟨answers, info, [], [], behind, hread, hnone ▸ .unasked, ?_, Prod.ext hempty hlet⟩
      exact congrArg (answers ++ ·) hempty
    · rename_i expected hsome
      split at h
      · cases (Prod.mk.inj h).2
      rename_i asked rest hasked
      obtain ⟨rfl, hlet⟩ := Prod.mk.inj h
      have hempty := (letIn_ok_iff.mp (Prod.ext rfl hlet)).1
      obtain ⟨rfl, message, hproves, rfl⟩ := requirePassword_ok_iff.mp hasked
      refine ⟨answers, info, message, challenge, _, hread, hsome ▸ .asked hproves, ?_, Prod.ext hempty hlet⟩
      exact congrArg (fun sent ↦ answers ++ (challenge ++ sent)) hempty
  · rintro ⟨answers, info, message, asked, rest, hread, hproved, rfl, hlet⟩
    unfold handleConn
    rw [hread]
    dsimp only
    generalize records.challenge.challengePassword info.user shared = expected at hproved ⊢
    cases hproved with
    | unasked =>
      dsimp only
      rw [List.nil_append, hlet]
    | asked hproves =>
      dsimp only
      rw [requirePassword_ok_iff.mpr ⟨rfl, message, hproves, rfl⟩]
      dsimp only
      rw [hlet, List.append_nil]

/-- A client gets to its schema if and only if it proves what its role is asked for and may open what it
names; its VM is sent what the client has sent, from its startup on, less the password. -/
theorem session_iff : handleConn records shared tls stream = (replies, .ok s) ↔
    ∃ answers info message asked rest, Opened tls stream answers (info.raw ++ (message ++ rest)) ∧
      IsStartup info ∧ Proved (records.challenge.challengePassword info.user shared) message asked ∧
      replies = answers ++ asked ∧ authorize records info.user info.database = .ok () ∧
      isValidSchema info.database = true ∧ s = ⟨info.database, info.raw ++ rest⟩ := by
  rw [handleConn_ok_iff]
  constructor
  · rintro ⟨answers, info, message, asked, rest, hread, hproved, hreplies, hlet⟩
    obtain ⟨hopened, hinfo⟩ := readStartup_ok_iff.mp hread
    obtain ⟨-, hauth, hvalid, hs⟩ := letIn_ok_iff.mp hlet
    exact ⟨answers, info, message, asked, rest, hopened, hinfo, hproved, hreplies, hauth, hvalid, hs⟩
  · rintro ⟨answers, info, message, asked, rest, hopened, hinfo, hproved, hreplies, hauth, hvalid, hs⟩
    have hread := readStartup_ok_iff.mpr ⟨hopened, hinfo⟩
    have hlet := letIn_ok_iff.mpr ⟨rfl, hauth, hvalid, hs⟩
    exact ⟨answers, info, message, asked, rest, hread, hproved, hreplies, hlet⟩

end Admission

section Refusals

variable {records : Records} {shared : Option String} {tls : Option (Bytes → Option Bytes)}
  {stream rest replies : Bytes} {info : StartupInfo} {e : SessionError} {sqlstate message : String}

def NulFree (map : Params) : Prop := ∀ key value, map key = some value → 0 ∉ utf8 value

theorem zero_notMem_fromUtf8Lossy {bytes : Bytes} (h : 0 ∉ bytes) : 0 ∉ utf8 (fromUtf8Lossy bytes) := by
  have hzero : (0 : UInt8) < 0x80 := by decide
  rw [zero_mem_utf8_iff, fromUtf8Lossy, String.toList_ofList]
  exact mt (LossyUtf8.mem_decode_iff hzero).mp h

theorem NulFree.update {map : Params} (h : NulFree map) (k : String) {bytes : Bytes} (hbytes : 0 ∉ bytes) :
    NulFree (Function.update map k (some (fromUtf8Lossy bytes))) := by
  intro key value hvalue
  rw [Function.update_apply] at hvalue
  split_ifs at hvalue
  · cases hvalue
    exact zero_notMem_fromUtf8Lossy hbytes
  · exact h key value hvalue

/-- What a client hears before its startup is read are single letters. -/
def Letters (answers : Bytes) : Prop := ∀ b ∈ answers, b = 78 ∨ b = 83

theorem Letters.nil : Letters [] := List.forall_mem_nil _

theorem Letters.cons {answers : Bytes} {first : UInt8} (hfirst : first = 78 ∨ first = 83)
    (h : Letters answers) : Letters (first :: answers) := List.forall_mem_cons.mpr ⟨hfirst, h⟩

end Refusals

end PgVmPool.Session
