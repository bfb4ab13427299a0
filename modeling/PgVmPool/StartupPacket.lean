import PgVmPool.LossyUtf8
import PgVmPool.PasswordGate

namespace PgVmPool.Startup

open Dedicated (utf8)

abbrev Bytes := List UInt8

def sslRequestCode : ℤ := 80877103
def gssEncRequestCode : ℤ := 80877104
def protocolV3 : ℤ := 196608

structure StartupInfo where
  database : String
  user : String
  raw : Bytes
  deriving DecidableEq

inductive Failure
  | eof
  | bail (text : String)
  | handshake
  deriving DecidableEq

def fromUtf8Lossy (bytes : Bytes) : String := String.ofList (LossyUtf8.decode bytes)

/-- `i32::from_be_bytes`. -/
def fromBeBytes (bytes : Bytes) : ℤ :=
  let n : ℕ := bytes.foldl (fun n b ↦ n * 256 + b.toNat) 0
  if n < 2 ^ 31 then n else (n : ℤ) - 2 ^ 32

def readExact (n : ℕ) (stream : Bytes) : Except Failure (Bytes × Bytes) :=
  if stream.length < n then .error .eof else .ok (stream.take n, stream.drop n)

def readMessage (stream : Bytes) : Except Failure ((ℤ × Bytes × Bytes) × Bytes) := do
  let (lenBuf, stream) ← readExact 4 stream
  let len := fromBeBytes lenBuf
  if len < 8 then throw (.bail s!"startup message length too small: {len}")
  let (body, stream) ← readExact (len - 4).toNat stream
  return ((fromBeBytes (body.take 4), lenBuf, body), stream)

abbrev Params := String → Option String

/-- The loop of `parse_params` over what is left between the zeros. -/
def insertPairs (map : Params) : List Bytes → Params
  | [] => map
  | [key] => if key = [] then map else Function.update map (fromUtf8Lossy key) (some (fromUtf8Lossy []))
  | key :: val :: parts =>
    if key = [] then map
    else insertPairs (Function.update map (fromUtf8Lossy key) (some (fromUtf8Lossy val))) parts

def parseParams (bytes : Bytes) : Params := insertPairs (fun _ ↦ none) (bytes.splitOn 0)

def parseStartupMessage (lenBuf body : Bytes) : Except Failure StartupInfo :=
  let params := parseParams (body.drop 4)
  let user := (params "user").getD ""
  let database := ((params "database").filter fun d ↦ d ≠ "").getD user
  if database = "" then .error (.bail "startup packet had neither database nor user")
  else .ok ⟨database, user, lenBuf ++ body⟩

theorem readExact_ok {n : ℕ} {stream got rest : Bytes} (h : readExact n stream = .ok (got, rest)) :
    got ++ rest = stream ∧ got.length = n := by
  unfold readExact at h
  split at h
  · cases h
  · rename_i hlen
    cases h
    exact ⟨List.take_append_drop _ _, List.length_take_of_le (Nat.not_lt.mp hlen)⟩

theorem readExact_append (got rest : Bytes) : readExact got.length (got ++ rest) = .ok (got, rest) := by
  simp [readExact]

theorem readMessage_ok {stream : Bytes} {code : ℤ} {lenBuf body rest : Bytes}
    (h : readMessage stream = .ok ((code, lenBuf, body), rest)) :
    lenBuf ++ body ++ rest = stream ∧ lenBuf.length = 4 ∧ 4 ≤ body.length := by
  unfold readMessage at h
  cases h₁ : readExact 4 stream with
  | error e =>
    rw [h₁] at h
    cases h
  | ok x =>
    obtain ⟨buf, stream₁⟩ := x
    obtain ⟨rfl, hbuf⟩ := readExact_ok h₁
    simp only [h₁, bind, Except.bind] at h
    split at h
    · cases h
    rename_i hlen
    cases h₂ : readExact (fromBeBytes buf - 4).toNat stream₁ with
    | error e =>
      rw [h₂] at h
      cases h
    | ok y =>
      obtain ⟨got, stream₂⟩ := y
      obtain ⟨rfl, hgot⟩ := readExact_ok h₂
      rw [h₂] at h
      cases h
      refine ⟨List.append_assoc _ _ _, hbuf, ?_⟩
      change 4 ≤ got.length
      omega

/-- The replies, and what the connection is left with: its startup and the bytes behind it. -/
abbrev Outcome := Bytes × Except Failure (StartupInfo × Bytes)

def readStartupPlain (stream : Bytes) : Outcome :=
  match _h : readMessage stream with
  | .error e => ([], .error e)
  | .ok ((code, lenBuf, body), rest) =>
    if code = sslRequestCode ∨ code = gssEncRequestCode then
      let r := readStartupPlain rest
      (78 :: r.1, r.2)
    else if code = protocolV3 then ([], (parseStartupMessage lenBuf body).map (·, rest))
    else ([], .error (.bail s!"unsupported startup protocol code: {code}"))
  termination_by stream.length
  decreasing_by
    obtain ⟨rfl, hlen, -⟩ := readMessage_ok _h
    simp only [List.length_append]
    omega

/-- `tls` is the server's half of the handshake: what the client sends after its request, to what it
then says under the encryption. -/
def readStartup (tls : Option (Bytes → Option Bytes)) (stream : Bytes) : Outcome :=
  match _h : readMessage stream with
  | .error e => ([], .error e)
  | .ok ((code, lenBuf, body), rest) =>
    if code = sslRequestCode ∧ tls.isSome then
      match tls.bind fun accept ↦ accept rest with
      | none => ([83], .error .handshake)
      | some inner =>
        let r := readStartupPlain inner
        (83 :: r.1, r.2)
    else if code = sslRequestCode ∨ code = gssEncRequestCode then
      let r := readStartup tls rest
      (78 :: r.1, r.2)
    else if code = protocolV3 then ([], (parseStartupMessage lenBuf body).map (·, rest))
    else ([], .error (.bail s!"unsupported startup protocol code: {code}"))
  termination_by stream.length
  decreasing_by
    obtain ⟨rfl, hlen, -⟩ := readMessage_ok _h
    simp only [List.length_append]
    omega

/-- `i32::to_be_bytes` of a number that an `i32` holds. -/
def toBeBytes (n : ℕ) : Bytes := [n / 2 ^ 24, n / 2 ^ 16, n / 2 ^ 8, n].map UInt8.ofNat

def frame (body : Bytes) : Bytes := toBeBytes (4 + body.length) ++ body

inductive Request
  | ssl
  | gss

def Request.code : Request → ℤ
  | .ssl => sslRequestCode
  | .gss => gssEncRequestCode

def Request.bytes (r : Request) : Bytes := frame (toBeBytes r.code.toNat)

abbrev Pairs := List (Bytes × Bytes)

def parameterBytes (pairs : Pairs) : Bytes := (pairs.flatMap fun p ↦ p.1 ++ 0 :: (p.2 ++ [0])) ++ [0]

/-- A `StartupMessage` as a client writes it. None has more bytes than an `i32` counts. -/
def encode (pairs : Pairs) : Option Bytes :=
  let body := toBeBytes protocolV3.toNat ++ parameterBytes pairs
  if 4 + body.length < 2 ^ 31 then some (frame body) else none

def lastValue (key : Bytes) (pairs : Pairs) : Option Bytes :=
  ((pairs.filter fun p ↦ p.1 = key).getLast?).map Prod.snd

def userOf (pairs : Pairs) : Bytes := (lastValue (utf8 "user") pairs).getD []

/-- The database that the message names, empty where it names none. -/
def namedDatabase (pairs : Pairs) : Bytes := (lastValue (utf8 "database") pairs).getD []

def databaseOf (pairs : Pairs) : Bytes :=
  if namedDatabase pairs = [] then userOf pairs else namedDatabase pairs

/-- What the message asks for: the names as text, and the message itself. -/
def startupOf (pairs : Pairs) (msg : Bytes) : Except Failure StartupInfo :=
  if namedDatabase pairs = [] ∧ userOf pairs = [] then
    .error (.bail "startup packet had neither database nor user")
  else .ok ⟨fromUtf8Lossy (databaseOf pairs), fromUtf8Lossy (userOf pairs), msg⟩

/-- What a client sends before `inner`, and how each request in it is answered. Behind a request that
is granted everything goes through the handshake. -/
inductive Preamble (inner : Bytes) : Option (Bytes → Option Bytes) → Bytes → Bytes → Prop
  | start (tls) : Preamble inner tls inner []
  | gss {tls stream replies} (h : Preamble inner tls stream replies) :
      Preamble inner tls (Request.gss.bytes ++ stream) (78 :: replies)
  | declined {stream replies} (h : Preamble inner none stream replies) :
      Preamble inner none (Request.ssl.bytes ++ stream) (78 :: replies)
  | granted {accept : Bytes → Option Bytes} {sealed stream replies} (hs : accept sealed = some stream)
      (h : Preamble inner none stream replies) :
      Preamble inner (some accept) (Request.ssl.bytes ++ sealed) (83 :: replies)

theorem fromBeBytes_toBeBytes {n : ℕ} (hn : n < 2 ^ 31) : fromBeBytes (toBeBytes n) = n := by
  simp only [fromBeBytes, toBeBytes, List.map_cons, List.map_nil, List.foldl_cons, List.foldl_nil,
    UInt8.toNat_ofNat']
  split <;> omega

theorem readMessage_frame {body : Bytes} (rest : Bytes) (hbody : 4 ≤ body.length)
    (hlen : 4 + body.length < 2 ^ 31) : readMessage (frame body ++ rest) =
      .ok ((fromBeBytes (body.take 4), toBeBytes (4 + body.length), body), rest) := by
  have hread : readExact 4 (frame body ++ rest) = .ok (toBeBytes (4 + body.length), body ++ rest) := by
    rw [frame, List.append_assoc]
    exact readExact_append (toBeBytes (4 + body.length)) (body ++ rest)
  have hge : ¬((4 + body.length : ℕ) : ℤ) < 8 := by omega
  have hsub : (((4 + body.length : ℕ) : ℤ) - 4).toNat = body.length := by omega
  simp only [readMessage, hread, bind, Except.bind, fromBeBytes_toBeBytes hlen, if_neg hge, hsub,
    readExact_append, pure, Except.pure]

theorem length_toBeBytes (n : ℕ) : (toBeBytes n).length = 4 := rfl

theorem Request.code_eq (r : Request) : fromBeBytes (toBeBytes r.code.toNat) = r.code := by
  rw [fromBeBytes_toBeBytes] <;> cases r <;> simp [Request.code, sslRequestCode, gssEncRequestCode]

theorem readMessage_request (r : Request) (rest : Bytes) : readMessage (r.bytes ++ rest) =
    .ok ((r.code, toBeBytes 8, toBeBytes r.code.toNat), rest) := by
  have hlen := length_toBeBytes r.code.toNat
  rw [Request.bytes, readMessage_frame rest (by omega) (by omega), List.take_of_length_le (by omega),
    r.code_eq, hlen]

theorem utf8_ofList {text : List Char} (h : ∀ c ∈ text, LossyUtf8.Ascii c) :
    utf8 (String.ofList text) = text.map fun c ↦ UInt8.ofNat c.toNat := by
  rw [utf8, String.toUTF8_eq_toByteArray, String.toByteArray_ofList]
  induction text with
  | nil => rfl
  | cons c text ih =>
    rw [List.forall_mem_cons] at h
    have hc : String.utf8EncodeChar c = [UInt8.ofNat c.toNat] := if_pos (Nat.le_of_lt_succ h.1)
    rw [List.utf8Encode_cons, ByteArray.data_append, Array.toList_append, ih h.2, List.map_cons]
    simp [List.utf8Encode, hc]

theorem utf8_eq (s : String) : utf8 s = s.toList.flatMap String.utf8EncodeChar := by
  rw [utf8, String.toUTF8_eq_toByteArray, ← s.ofList_toList, String.toByteArray_ofList, String.toList_ofList,
    List.utf8Encode, List.data_toByteArray, List.toList_toArray]

theorem zero_mem_utf8_iff {s : String} : 0 ∈ utf8 s ↔ '\x00' ∈ s.toList := by
  have hzero : (0 : UInt8) < 0x80 := by decide
  rw [← LossyUtf8.mem_decode_iff hzero, utf8_eq, LossyUtf8.decode_encoded]
  rfl

theorem decode_eq_string_iff {bytes : Bytes} {s : String} (h : ∀ c ∈ s.toList, LossyUtf8.Ascii c) :
    fromUtf8Lossy bytes = s ↔ bytes = utf8 s := by
  have hs := utf8_ofList h
  rw [String.ofList_toList] at hs
  rw [hs, ← LossyUtf8.decode_eq_iff h, fromUtf8Lossy, ← String.toList_inj, String.toList_ofList]

/-- A name of ASCII letters is the bytes that it was decoded from. -/
theorem utf8_fromUtf8Lossy {bytes : Bytes} (h : ∀ b ∈ bytes, b < 0x80) :
    utf8 (fromUtf8Lossy bytes) = bytes := by
  refine ((decode_eq_string_iff fun c hc ↦ ?_).mp rfl).symm
  rw [fromUtf8Lossy, String.toList_ofList, LossyUtf8.decode_ascii h] at hc
  obtain ⟨b, hb, rfl⟩ := List.mem_map.mp hc
  rw [LossyUtf8.Ascii, LossyUtf8.ofNat_toNat_ascii (h b hb)]
  exact h b hb

theorem fromUtf8Lossy_eq_empty_iff {bytes : Bytes} : fromUtf8Lossy bytes = "" ↔ bytes = [] := by
  rw [fromUtf8Lossy, String.ofList_eq_empty_iff, LossyUtf8.decode_eq_nil_iff]

theorem insertPairs_pairs (map : Params) {pairs : Pairs} (h : ∀ p ∈ pairs, p.1 ≠ []) :
    insertPairs map ((pairs.flatMap fun p ↦ [p.1, p.2]) ++ [[], []]) =
      pairs.foldl (fun map p ↦ Function.update map (fromUtf8Lossy p.1) (some (fromUtf8Lossy p.2))) map := by
  induction pairs generalizing map with
  | nil => simp [insertPairs]
  | cons p pairs ih =>
    rw [List.forall_mem_cons] at h
    rw [List.flatMap_cons, List.append_assoc, List.cons_append, List.cons_append, List.nil_append,
      insertPairs, if_neg h.1, ih _ h.2, List.foldl_cons]

theorem splitOn_parameterBytes {pairs : Pairs} (h : ∀ p ∈ pairs, 0 ∉ p.1 ∧ 0 ∉ p.2) :
    (parameterBytes pairs).splitOn 0 = (pairs.flatMap fun p ↦ [p.1, p.2]) ++ [[], []] := by
  unfold parameterBytes
  induction pairs with
  | nil => rfl
  | cons p pairs ih =>
    rw [List.forall_mem_cons] at h
    simp only [List.flatMap_cons, List.append_assoc, List.cons_append, List.nil_append,
      List.splitOn_append_cons_self, List.splitOn_eq_singleton h.1.1, List.splitOn_eq_singleton h.1.2, ih h.2]

theorem foldl_update_apply (map : Params) (pairs : Pairs) (s : String) :
    (pairs.foldl (fun map p ↦ Function.update map (fromUtf8Lossy p.1) (some (fromUtf8Lossy p.2))) map) s =
      ((((pairs.filter fun p ↦ fromUtf8Lossy p.1 = s).getLast?).map fun p ↦ fromUtf8Lossy p.2).or (map s)) := by
  induction pairs using List.reverseRecOn with
  | nil => rfl
  | append_singleton pairs p ih =>
    rw [List.foldl_append, List.foldl_cons, List.foldl_nil, List.filter_append]
    by_cases hp : fromUtf8Lossy p.1 = s
    · rw [hp, Function.update_self, List.filter_cons_of_pos (by simpa using hp)]
      simp
    · rw [Function.update_of_ne (Ne.symm hp), ih, List.filter_cons_of_neg (by simpa using hp), List.filter_nil,
        List.append_nil]

/-- What the parser finds under an ASCII name is the last value whose key is that name, byte for byte. -/
theorem parseParams_apply {pairs : Pairs} (h : ∀ p ∈ pairs, p.1 ≠ [] ∧ 0 ∉ p.1 ∧ 0 ∉ p.2) {s : String}
    (hs : ∀ c ∈ s.toList, LossyUtf8.Ascii c) :
    parseParams (parameterBytes pairs) s = (lastValue (utf8 s) pairs).map fromUtf8Lossy := by
  rw [parseParams, splitOn_parameterBytes fun p hp ↦ (h p hp).2, insertPairs_pairs _ fun p hp ↦ (h p hp).1,
    foldl_update_apply, Option.or_none, lastValue, Option.map_map]
  simp only [decode_eq_string_iff hs]
  rfl

theorem fromUtf8Lossy_getD (o : Option Bytes) :
    (o.map fromUtf8Lossy).getD "" = fromUtf8Lossy (o.getD []) := by
  cases o with
  | none => exact (fromUtf8Lossy_eq_empty_iff.mpr rfl).symm
  | some bytes => rfl

theorem filter_getD (o : Option Bytes) (user : String) :
    ((o.map fromUtf8Lossy).filter fun d ↦ d ≠ "").getD user =
      if o.getD [] = [] then user else fromUtf8Lossy (o.getD []) := by
  cases o with
  | none => rfl
  | some bytes =>
    by_cases hb : bytes = []
    · subst hb
      have hempty : fromUtf8Lossy [] = "" := fromUtf8Lossy_eq_empty_iff.mpr rfl
      simp [hempty, Option.filter]
    · have hname := mt fromUtf8Lossy_eq_empty_iff.mp hb
      simp [hb, hname, Option.filter]

theorem parseStartupMessage_eq {pairs : Pairs} (h : ∀ p ∈ pairs, p.1 ≠ [] ∧ 0 ∉ p.1 ∧ 0 ∉ p.2)
    (lenBuf : Bytes) {code : Bytes} (hcode : code.length = 4) :
    parseStartupMessage lenBuf (code ++ parameterBytes pairs) =
      startupOf pairs (lenBuf ++ (code ++ parameterBytes pairs)) := by
  have hdrop : (code ++ parameterBytes pairs).drop 4 = parameterBytes pairs := List.drop_left' hcode
  have huser : (parseParams (parameterBytes pairs) "user").getD "" = fromUtf8Lossy (userOf pairs) := by
    rw [parseParams_apply h (by simp [LossyUtf8.Ascii]), fromUtf8Lossy_getD, userOf]
  have hnamed : ((parseParams (parameterBytes pairs) "database").filter fun d ↦ d ≠ "").getD
      (fromUtf8Lossy (userOf pairs)) = fromUtf8Lossy (databaseOf pairs) := by
    rw [parseParams_apply h (by simp [LossyUtf8.Ascii]), filter_getD, databaseOf, namedDatabase]
    split <;> rfl
  have hempty : databaseOf pairs = [] ↔ namedDatabase pairs = [] ∧ userOf pairs = [] := by
    unfold databaseOf
    split <;> simp_all
  simp only [parseStartupMessage, hdrop, huser, hnamed, fromUtf8Lossy_eq_empty_iff, hempty, startupOf]

theorem readMessage_encode {pairs : Pairs} {msg : Bytes} (hmsg : encode pairs = some msg) (rest : Bytes) :
    readMessage (msg ++ rest) =
      .ok ((protocolV3, msg.take 4, toBeBytes protocolV3.toNat ++ parameterBytes pairs), rest) ∧
    msg = msg.take 4 ++ (toBeBytes protocolV3.toNat ++ parameterBytes pairs) := by
  unfold encode at hmsg
  dsimp only at hmsg
  split at hmsg
  · rename_i hlen
    cases hmsg
    have hcode : fromBeBytes (toBeBytes protocolV3.toNat) = protocolV3 :=
      fromBeBytes_toBeBytes (by simp [protocolV3])
    have htake : (frame (toBeBytes protocolV3.toNat ++ parameterBytes pairs)).take 4 =
        toBeBytes (4 + (toBeBytes protocolV3.toNat ++ parameterBytes pairs).length) :=
      List.take_left' (length_toBeBytes _)
    rw [htake, readMessage_frame rest (by simp [length_toBeBytes]) hlen,
      List.take_left' (length_toBeBytes _), hcode]
    exact ⟨rfl, rfl⟩
  · cases hmsg

variable {tls : Option (Bytes → Option Bytes)} {stream lenBuf body rest : Bytes}

theorem readStartup_v3 (h : readMessage stream = .ok ((protocolV3, lenBuf, body), rest)) :
    readStartup tls stream = ([], (parseStartupMessage lenBuf body).map (·, rest)) := by
  rw [readStartup]
  split
  · rename_i he
    rw [h] at he
    cases he
  · rename_i he
    rw [h] at he
    cases he
    simp [protocolV3, sslRequestCode, gssEncRequestCode]

/-- A request that is not granted is answered with `N`, and the loop goes on behind it. -/
theorem readStartup_declined (r : Request) (hr : r = .gss ∨ tls = none) :
    readStartup tls (r.bytes ++ rest) =
    (78 :: (readStartup tls rest).1, (readStartup tls rest).2) := by
  have hread := readMessage_request r rest
  have hcode : r.code = sslRequestCode ∨ r.code = gssEncRequestCode := by
    cases r
    · exact .inl rfl
    · exact .inr rfl
  have hnot : ¬(r.code = sslRequestCode ∧ tls.isSome) := by
    obtain rfl | rfl := hr
    · simp [Request.code, gssEncRequestCode, sslRequestCode]
    · simp
  rw [readStartup]
  split
  · rename_i he
    rw [hread] at he
    cases he
  · rename_i he
    rw [hread] at he
    cases he
    rw [if_neg hnot, if_pos hcode]

theorem readStartup_granted {accept : Bytes → Option Bytes} {inner : Bytes}
    (ha : accept rest = some inner) :
    readStartup (some accept) (Request.ssl.bytes ++ rest) =
      (83 :: (readStartupPlain inner).1, (readStartupPlain inner).2) := by
  have hread := readMessage_request .ssl rest
  rw [readStartup]
  split
  · rename_i he
    rw [hread] at he
    cases he
  · rename_i he
    rw [hread] at he
    cases he
    rw [if_pos ⟨rfl, rfl⟩, Option.bind_some, ha]

/-- Without a certificate the two loops are one. -/
theorem readStartupPlain_eq (stream : Bytes) : readStartupPlain stream = readStartup none stream := by
  induction stream using readStartupPlain.induct with
  | case1 stream e he =>
    rw [readStartupPlain, readStartup, he]
  | case2 stream code lenBuf body rest he hcode ih =>
    rw [readStartupPlain, readStartup, he]
    simp only [if_pos hcode, Option.isSome_none, Bool.false_eq_true, and_false, if_false, ih]
  | case3 stream lenBuf body rest he hcode =>
    rw [readStartupPlain, readStartup, he]
    simp only [if_neg hcode, Option.isSome_none, Bool.false_eq_true, and_false, if_false]
  | case4 stream code lenBuf body rest he hcode hv3 =>
    rw [readStartupPlain, readStartup, he]
    simp only [if_neg hcode, if_neg hv3, Option.isSome_none, Bool.false_eq_true, and_false, if_false]

theorem Preamble.readStartup_eq {inner replies : Bytes} (h : Preamble inner tls stream replies)
    {r : Except Failure (StartupInfo × Bytes)} (hr : ∀ tls, readStartup tls inner = ([], r)) :
    readStartup tls stream = (replies, r) := by
  induction h with
  | start tls => exact hr tls
  | gss h ih => rw [readStartup_declined .gss (.inl rfl), ih]
  | declined h ih => rw [readStartup_declined .ssl (.inr rfl), ih]
  | granted hs h ih => rw [readStartup_granted hs, readStartupPlain_eq, ih]

/-- Whatever requests come first, the pooler reads a startup message as the names that stand in it, and
keeps the message as it is. Names of ASCII letters are the bytes that the VM will read. -/
theorem startup_routed {pairs : Pairs} (hpairs : ∀ p ∈ pairs, p.1 ≠ [] ∧ 0 ∉ p.1 ∧ 0 ∉ p.2) {msg : Bytes}
    (hmsg : encode pairs = some msg) {replies : Bytes} (hpre : Preamble (msg ++ rest) tls stream replies) :
    (∃ lenBuf body, readMessage (msg ++ rest) = .ok ((protocolV3, lenBuf, body), rest) ∧
      parseStartupMessage lenBuf body = startupOf pairs msg) ∧
    readStartup tls stream = (replies, (startupOf pairs msg).map (·, rest)) ∧
    ((∀ b ∈ userOf pairs, b < 0x80) → utf8 (fromUtf8Lossy (userOf pairs)) = userOf pairs) ∧
    ((∀ b ∈ databaseOf pairs, b < 0x80) → utf8 (fromUtf8Lossy (databaseOf pairs)) = databaseOf pairs) := by
  obtain ⟨hread, heq⟩ := readMessage_encode hmsg rest
  have hparse := parseStartupMessage_eq hpairs (msg.take 4) (length_toBeBytes protocolV3.toNat)
  rw [← heq] at hparse
  refine ⟨⟨_, _, hread, hparse⟩, hpre.readStartup_eq fun tls ↦ ?_, utf8_fromUtf8Lossy, utf8_fromUtf8Lossy⟩
  rw [readStartup_v3 hread, hparse]

/-- Two users are named; the later one counts. -/
def twoUsers : Pairs :=
  [(utf8 "user", utf8 "app"), (utf8 "database", utf8 "orders"), (utf8 "user", utf8 "alice")]

theorem startup_routed_twoUsers : ∃ msg, encode twoUsers = some msg ∧
    readStartup (some some) (Request.gss.bytes ++ (Request.ssl.bytes ++ (Request.ssl.bytes ++ msg))) =
      ([78, 83, 78], .ok (⟨"orders", "alice", msg⟩, [])) := by
  have hmsg : (encode twoUsers).isSome := by decide
  obtain ⟨msg, hmsg⟩ := Option.isSome_iff_exists.mp hmsg
  have hpre : Preamble (msg ++ []) (some some)
      (Request.gss.bytes ++ (Request.ssl.bytes ++ (Request.ssl.bytes ++ (msg ++ [])))) [78, 83, 78] :=
    .gss (.granted rfl (.declined (.start none)))
  have hread := (startup_routed (by decide) hmsg hpre).2.1
  have huser : fromUtf8Lossy (userOf twoUsers) = "alice" :=
    (decode_eq_string_iff (by simp [LossyUtf8.Ascii])).mpr (by decide)
  have hdatabase : fromUtf8Lossy (databaseOf twoUsers) = "orders" :=
    (decode_eq_string_iff (by simp [LossyUtf8.Ascii])).mpr (by decide)
  rw [startupOf, if_neg (by decide), huser, hdatabase, List.append_nil] at hread
  exact ⟨msg, hmsg, hread⟩

end PgVmPool.Startup
