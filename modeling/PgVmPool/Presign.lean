import PgVmPool.Uri
import PgVmPool.SchemaPaths

namespace PgVmPool.S3

open HostPath Uri

structure S3Config where
  bucket : Text
  keyPrefix : Text
  configuredRegion : Text
  discoveredRegion : Option Text
  endpoint : Option Text
  accessKeyId : Text
  secretAccessKey : Text

/-- The two digests that the signature is built from. -/
structure Crypto where
  sha256 : List UInt8 → List UInt8
  hmac : List UInt8 → List UInt8 → List UInt8

namespace S3Config

variable (cfg : S3Config)

def region : Text := cfg.discoveredRegion.getD cfg.configuredRegion

def objectKey (schema : Text) : Text := cfg.keyPrefix ++ schema ++ ".dump".toList

def imageObjectKey (schema : Text) : Text := cfg.keyPrefix ++ schema ++ ".img.zst".toList

end S3Config

def splitSchemeHost (url : Text) : Text × Text :=
  if "https://".toList.isPrefixOf url then ("https".toList, url.drop 8)
  else if "http://".toList.isPrefixOf url then ("http".toList, url.drop 7)
  else ("https".toList, url)

def encodeByte (keepSlash : Bool) (b : UInt8) : Text :=
  if (65 ≤ b ∧ b ≤ 90) ∨ (97 ≤ b ∧ b ≤ 122) ∨ (48 ≤ b ∧ b ≤ 57) ∨
      b = 45 ∨ b = 95 ∨ b = 46 ∨ b = 126 then
    [Char.ofNat b.toNat]
  else if b = 47 ∧ keepSlash then ['/']
  else escape b

def encode (s : Text) (keepSlash : Bool) : Text := (bytes s).flatMap (encodeByte keepSlash)

def encodeUriPath (s : Text) : Text := encode s true

def encodeUriComponent (s : Text) : Text := encode s false

def trimSlashes (s : Text) : Text := s.rdropWhile (· = '/')

def S3Config.address (cfg : S3Config) (key : Text) : Text × Text × Text :=
  match cfg.endpoint with
  | some ep =>
    let sh := splitSchemeHost (trimSlashes ep)
    (sh.1, sh.2, '/' :: (cfg.bucket ++ '/' :: encodeUriPath key))
  | none =>
    ("https".toList, cfg.bucket ++ ".s3.".toList ++ cfg.region ++ ".amazonaws.com".toList,
      '/' :: encodeUriPath key)

def decimal (n : ℕ) : Text := (toString n).toList

/-- `{n:0width$}`. -/
def padded (width : ℕ) (n : ℤ) : Text := (decimal n.toNat).leftpad width '0'

/-- The civil date of a day count, then the time of day. -/
def formatAmzTime (secs : UInt64) : Text × Text :=
  let days : ℤ := secs.toNat / 86400
  let rem := secs.toNat % 86400
  let hour := rem / 3600
  let min := rem % 3600 / 60
  let sec := rem % 60
  let z := days + 719468
  let era := (if 0 ≤ z then z else z - 146096).tdiv 146097
  let doe := z - era * 146097
  let yoe := (doe - doe.tdiv 1460 + doe.tdiv 36524 - doe.tdiv 146096).tdiv 365
  let year := yoe + era * 400
  let doy := doe - (365 * yoe + yoe.tdiv 4 - yoe.tdiv 100)
  let mp := (5 * doy + 2).tdiv 153
  let day := doy - (153 * mp + 2).tdiv 5 + 1
  let month := if mp < 10 then mp + 3 else mp - 9
  let year := year + if month ≤ 2 then 1 else 0
  let date := padded 4 year ++ padded 2 month ++ padded 2 day
  (date, date ++ 'T' :: (padded 2 hour ++ padded 2 min ++ padded 2 sec ++ ['Z']))

example : formatAmzTime 1709213831 = ("20240229".toList, "20240229T133711Z".toList) := by decide

structure PresignParams where
  method : Text
  scheme : Text
  host : Text
  canonicalUri : Text
  region : Text
  accessKey : Text
  secretKey : Text
  unixSecs : UInt64
  expires : UInt64
  extraQuery : List (Text × Text)

/-- `hex::encode`. -/
def hexEncode (bs : List UInt8) : Text :=
  bs.flatMap fun b ↦ [(hexDigit (b.toNat / 16)).toLower, (hexDigit (b.toNat % 16)).toLower]

def signingKey (c : Crypto) (secret date region service : Text) : List UInt8 :=
  let kDate := c.hmac (bytes ("AWS4".toList ++ secret)) (bytes date)
  let kRegion := c.hmac kDate (bytes region)
  let kService := c.hmac kRegion (bytes service)
  c.hmac kService (bytes "aws4_request".toList)

namespace PresignParams

variable (p : PresignParams)

def scope : Text :=
  (formatAmzTime p.unixSecs).1 ++ '/' :: (p.region ++ "/s3/aws4_request".toList)

/-- The parameters that are signed, in no order yet. -/
def query : List (Text × Text) :=
  [("X-Amz-Algorithm".toList, "AWS4-HMAC-SHA256".toList),
    ("X-Amz-Credential".toList, p.accessKey ++ '/' :: p.scope),
    ("X-Amz-Date".toList, (formatAmzTime p.unixSecs).2),
    ("X-Amz-Expires".toList, decimal p.expires.toNat),
    ("X-Amz-SignedHeaders".toList, "host".toList)] ++ p.extraQuery

/-- `sort_by` on the names: it is stable, and strings compare by their bytes. -/
def sortedQuery : List (Text × Text) := p.query.mergeSort fun a b ↦ bytes a.1 ≤ bytes b.1

def canonicalQuery : Text :=
  ['&'].intercalate (p.sortedQuery.map fun q ↦ encodeUriComponent q.1 ++ '=' :: encodeUriComponent q.2)

end PresignParams

def canonicalRequest (method uri query host : Text) : Text :=
  method ++ '\n' :: (uri ++ '\n' :: (query ++ '\n' :: ("host:".toList ++ host ++ ['\n'] ++
    "\nhost\nUNSIGNED-PAYLOAD".toList)))

def PresignParams.signature (c : Crypto) (p : PresignParams) (request : Text) : Text :=
  let time := formatAmzTime p.unixSecs
  let stringToSign := "AWS4-HMAC-SHA256\n".toList ++ time.2 ++ '\n' :: (p.scope ++ '\n' ::
    hexEncode (c.sha256 (bytes request)))
  hexEncode (c.hmac (signingKey c p.secretKey time.1 p.region "s3".toList) (bytes stringToSign))

def presignCore (c : Crypto) (p : PresignParams) : Text :=
  let request := canonicalRequest p.method p.canonicalUri p.canonicalQuery p.host
  p.scheme ++ "://".toList ++ p.host ++ p.canonicalUri ++ '?' :: (p.canonicalQuery ++
    "&X-Amz-Signature=".toList ++ p.signature c request)

/-- What the pooler asks S3 to do, by the parameters that it adds. -/
inductive Call
  | object
  | initiate
  | part (number : UInt32) (uploadId : Text)
  | complete (uploadId : Text)
  | abort (uploadId : Text)

def Call.extraQuery : Call → List (Text × Text)
  | .object => []
  | .initiate => [("uploads".toList, [])]
  | .part number uploadId =>
    [("partNumber".toList, decimal number.toNat), ("uploadId".toList, uploadId)]
  | .complete uploadId | .abort uploadId => [("uploadId".toList, uploadId)]

namespace S3Config

variable (cfg : S3Config)

def params (method key : Text) (expires unixSecs : UInt64)
    (extraQuery : List (Text × Text)) : PresignParams :=
  let address := cfg.address key
  ⟨method, address.1, address.2.1, address.2.2, cfg.region, cfg.accessKeyId, cfg.secretAccessKey, unixSecs,
    expires, extraQuery⟩

def presignWithQuery (c : Crypto) (method key : Text) (expires unixSecs : UInt64)
    (extraQuery : List (Text × Text)) : Text :=
  presignCore c (cfg.params method key expires unixSecs extraQuery)

end S3Config

theorem decode_encodeByte (slash : Bool) (b : UInt8) (t : Text) :
    decode slash (encodeByte slash b ++ t) = (decode slash t).map (b :: ·) := by
  have hchar : ∀ n < 128, (65 ≤ n ∧ n ≤ 90) ∨ (97 ≤ n ∧ n ≤ 122) ∨ (48 ≤ n ∧ n ≤ 57) ∨
      n = 45 ∨ n = 95 ∨ n = 46 ∨ n = 126 → unreserved (Char.ofNat n) = true ∧ (Char.ofNat n).toNat = n := by decide
  unfold encodeByte
  split_ifs with hkeep hslash
  · simp only [UInt8.le_iff_toNat_le, ← UInt8.toNat_inj, UInt8.reduceToNat] at hkeep
    obtain ⟨hun, hnat⟩ := hchar b.toNat (by omega) hkeep
    rw [List.singleton_append, decode_plain (by rw [plain, hun, Bool.true_or]), hnat, UInt8.ofNat_toNat]
  · obtain ⟨rfl, rfl⟩ := hslash
    exact decode_plain rfl t
  · exact decode_escape slash b t

theorem decode_encode (s : Text) (slash : Bool) : decode slash (encode s slash) = some (bytes s) := by
  unfold encode
  induction bytes s with
  | nil => rfl
  | cons b bs ih => rw [List.flatMap_cons, decode_encodeByte, ih, Option.map_some]

theorem encode_append (s t : Text) (slash : Bool) :
    encode (s ++ t) slash = encode s slash ++ encode t slash := by
  rw [encode, bytes_append, List.flatMap_append, ← encode, ← encode]

theorem encode_of_plain {s : Text} {slash : Bool} (h : ∀ c ∈ s, plain slash c = true) :
    encode s slash = s := by
  have hchar : ∀ slash, ∀ n < 128, plain slash (Char.ofNat n) = true →
      encode [Char.ofNat n] slash = [Char.ofNat n] := by decide
  induction s with
  | nil => rfl
  | cons c s ih =>
    rw [List.forall_mem_cons] at h
    have hc := hchar slash c.toNat (toNat_lt_of_plain h.1)
    rw [Char.ofNat_toNat] at hc
    rw [← List.singleton_append, encode_append, hc h.1, ih h.2]

theorem not_mem_encode {s : Text} {slash : Bool} {c : Char} (hc : plain slash c = false) (hp : c ≠ '%') :
    c ∉ encode s slash := by
  intro hmem
  obtain h | h := mem_of_decode (decode_encode s slash) hmem
  · rw [hc] at h
    cases h
  · exact hp h

theorem sortedQuery_perm (p : PresignParams) : p.sortedQuery.Perm p.query := List.mergeSort_perm _ _

theorem sortedQuery_pairwise (p : PresignParams) :
    p.sortedQuery.Pairwise fun a b ↦ bytes a.1 ≤ bytes b.1 := by
  have hsorted : p.sortedQuery.Pairwise fun a b ↦ decide (bytes a.1 ≤ bytes b.1) = true := by
    refine List.pairwise_mergeSort (fun a b c hab hbc ↦ ?_) (fun a b ↦ ?_) p.query
    · exact decide_eq_true (List.le_trans (of_decide_eq_true hab) (of_decide_eq_true hbc))
    · simpa using List.le_total (bytes a.1) (bytes b.1)
  exact hsorted.imp fun h ↦ of_decide_eq_true h

/-- What is written into the query is read back from it. -/
theorem queryPairs_canonicalQuery (p : PresignParams) : queryPairs p.canonicalQuery =
    p.sortedQuery.map fun q ↦ (encodeUriComponent q.1, encodeUriComponent q.2) := by
  have hne : (p.sortedQuery.map fun q ↦ (encodeUriComponent q.1, encodeUriComponent q.2)) ≠ [] := by
    rw [Ne, List.map_eq_nil_iff, ← List.length_eq_zero_iff, (sortedQuery_perm p).length_eq]
    simp [PresignParams.query]
  rw [← queryPairs_intercalate hne]
  · rw [PresignParams.canonicalQuery, List.map_map]
    rfl
  · intro q hq
    obtain ⟨r, hr, rfl⟩ := List.mem_map.mp hq
    exact ⟨not_mem_encode rfl (by decide), not_mem_encode rfl (by decide), not_mem_encode rfl (by decide)⟩

namespace S3Config

variable (cfg : S3Config)

def host : Text := (cfg.address []).2.1

def objectPath (key : Text) : Text :=
  match cfg.endpoint with
  | some _ => cfg.bucket ++ '/' :: encodeUriPath key
  | none => encodeUriPath key

theorem address_eq (key : Text) : (cfg.address key).2 = (cfg.host, '/' :: cfg.objectPath key) := by
  unfold host address objectPath
  cases cfg.endpoint <;> rfl

theorem colon_notMem_scheme (key : Text) : ':' ∉ (cfg.address key).1 := by
  have hsplit : ∀ url, ':' ∉ (splitSchemeHost url).1 := by
    intro url
    unfold splitSchemeHost
    split_ifs <;> simp
  unfold address
  cases cfg.endpoint with
  | none => simp
  | some ep => exact hsplit _

end S3Config

def PresignParams.signedQuery (c : Crypto) (p : PresignParams) (request : Text) : Text :=
  p.canonicalQuery ++ ("&X-Amz-Signature=".toList ++ p.signature c request)

/-- The URL, in the pieces that a client reads. -/
theorem presignWithQuery_eq (c : Crypto) (cfg : S3Config) (method key : Text) (expires secs : UInt64)
    (extraQuery : List (Text × Text)) :
    cfg.presignWithQuery c method key expires secs extraQuery =
      (cfg.address key).1 ++ ':' :: '/' :: '/' :: (cfg.host ++ '/' :: (cfg.objectPath key ++ '?' ::
        (cfg.params method key expires secs extraQuery).signedQuery c (canonicalRequest method
          ('/' :: cfg.objectPath key) (cfg.params method key expires secs extraQuery).canonicalQuery
          cfg.host))) := by
  have haddress := cfg.address_eq key
  have hsep : "://".toList = [':', '/', '/'] := rfl
  simp only [S3Config.presignWithQuery, presignCore, S3Config.params, haddress, hsep,
    PresignParams.signedQuery, List.append_assoc, List.cons_append, List.nil_append]

/-- The path leads to the object: behind the bucket, with an endpoint of its own. -/
def S3Config.Names (cfg : S3Config) (key path : Text) : Prop :=
  match cfg.endpoint with
  | some _ => ∃ seg rest, path = '/' :: (seg ++ '/' :: rest) ∧ decode false seg = some (bytes cfg.bucket) ∧
      decode true rest = some (bytes key)
  | none => ∃ rest, path = '/' :: rest ∧ decode true rest = some (bytes key)

/-- What a URL says is what was asked for, and what was signed. -/
structure Exact (c : Crypto) (cfg : S3Config) (method key : Text) (expires secs : UInt64) (call : Call)
    (url : Url) : Prop where
  host : url.authority = cfg.host
  object : cfg.Names key url.path
  query : ∃ signed,
    url.query = signed ++ "&X-Amz-Signature=".toList ++
      (cfg.params method key expires secs call.extraQuery).signature c
        (canonicalRequest method url.path signed url.authority) ∧
    (queryPairs signed).Pairwise (fun a b ↦ bytes a.1 ≤ bytes b.1) ∧
    ∃ params : List (Text × Text), params.Perm (cfg.params method key expires secs call.extraQuery).query ∧
      (queryPairs signed).map (fun q ↦ (decode false q.1, decode false q.2)) =
        params.map fun q ↦ (some (bytes q.1), some (bytes q.2))

/-- The configured names fit into a URL as they stand. -/
structure S3Config.Addressable (cfg : S3Config) : Prop where
  host : ∀ c ∈ cfg.host, endsAuthority c = false
  bucket : cfg.endpoint.isSome → ∀ c ∈ cfg.bucket, unreserved c = true

variable {c : Crypto} {cfg : S3Config} {method key : Text} {expires secs : UInt64} {call : Call}

/-- The segment of a path that decodes to the bucket is the bucket, without an escape. -/
theorem bucket_clean {seg rest tail : Text} (hpath : seg ++ '/' :: rest <+: cfg.bucket ++ '/' :: tail)
    (hdec : decode false seg = some (bytes cfg.bucket)) : ∀ c ∈ cfg.bucket, unreserved c = true := by
  have hslash : '/' ∉ seg := by
    intro hmem
    obtain h | h := mem_of_decode hdec hmem
    · cases h
    · cases h
  have hseg : seg <+: cfg.bucket := by
    have hle : seg <+: cfg.bucket ++ '/' :: tail := (List.prefix_append _ _).trans hpath
    obtain h | ⟨d, rfl⟩ := List.prefix_or_prefix_of_prefix hle (List.prefix_append cfg.bucket ('/' :: tail))
    · exact h
    · rw [List.append_assoc, List.prefix_append_right_inj] at hpath
      cases d with
      | nil => rw [List.append_nil]
      | cons e d =>
        rw [List.cons_append, List.cons_prefix_cons] at hpath
        exact absurd (List.mem_append_right _ (hpath.1 ▸ List.mem_cons_self)) hslash
  obtain ⟨hle, hplain⟩ := length_decode hdec
  have hbytes := length_le_length_bytes cfg.bucket
  have hlen := hseg.length_le
  have hsame : seg = cfg.bucket := hseg.eq_of_length (by omega)
  intro c hc
  have hp := hplain (by omega) c (hsame ▸ hc)
  simpa [plain] using hp

theorem eq_of_endsPath {c : Char} (h : ¬endsPath c = false) : c = '?' ∨ c = '#' := by
  simpa only [endsPath, Bool.not_eq_false, Bool.or_eq_true, decide_eq_true_eq] using h

theorem endsPath_encode (s : Text) (slash : Bool) : ∀ c ∈ encode s slash, endsPath c = false := by
  intro c hc
  by_contra hend
  obtain rfl | rfl := eq_of_endsPath hend
  · exact not_mem_encode (by cases slash <;> rfl) (by decide) hc
  · exact not_mem_encode (by cases slash <;> rfl) (by decide) hc

theorem endsPath_of_unreserved {c : Char} (h : unreserved c = true) : endsPath c = false := by
  by_contra hend
  obtain rfl | rfl := eq_of_endsPath hend
  · cases h
  · cases h

theorem S3Config.Addressable.endsPath_objectPath (h : cfg.Addressable) (key : Text) :
    ∀ c ∈ cfg.objectPath key, endsPath c = false := by
  intro c hc
  unfold S3Config.objectPath at hc
  split at hc
  · rename_i ep hep
    obtain hc | hc := List.mem_append.mp hc
    · exact endsPath_of_unreserved (h.bucket (by rw [hep]; rfl) c hc)
    · obtain rfl | hc := List.mem_cons.mp hc
      · rfl
      · exact endsPath_encode key true c hc
  · exact endsPath_encode key true c hc

theorem S3Config.Addressable.names (h : cfg.Addressable) (key : Text) :
    cfg.Names key ('/' :: cfg.objectPath key) := by
  have hkey := decode_encode key true
  unfold S3Config.Names S3Config.objectPath
  cases hep : cfg.endpoint with
  | none => exact ⟨_, rfl, hkey⟩
  | some ep =>
    have hplain : ∀ c ∈ cfg.bucket, plain false c = true := by
      intro c hc
      rw [plain, h.bucket (by rw [hep]; rfl) c hc, Bool.true_or]
    have hbucket := decode_encode cfg.bucket false
    rw [encode_of_plain hplain] at hbucket
    exact ⟨_, _, rfl, hbucket, hkey⟩

theorem hash_notMem_hexEncode (bs : List UInt8) : '#' ∉ hexEncode bs := by
  intro hmem
  obtain ⟨b, -, hb⟩ := List.mem_flatMap.mp hmem
  have hdigit : ∀ n < 16, '#' ≠ (hexDigit n).toLower := by decide
  have hlt : b.toNat < 256 := b.toNat_lt
  simp only [List.mem_cons, List.not_mem_nil, or_false] at hb
  obtain hb | hb := hb
  · exact hdigit _ (by omega) hb
  · exact hdigit _ (by omega) hb

theorem hash_notMem_signedQuery (c : Crypto) (p : PresignParams) (request : Text) :
    '#' ∉ p.signedQuery c request := by
  have hquery : '#' ∉ p.canonicalQuery := by
    intro hmem
    obtain h | ⟨field, hfield, hc⟩ := mem_intercalate hmem
    · cases h
    · obtain ⟨q, -, rfl⟩ := List.mem_map.mp hfield
      have hname : '#' ∉ encodeUriComponent q.1 := not_mem_encode rfl (by decide)
      have hvalue : '#' ∉ encodeUriComponent q.2 := not_mem_encode rfl (by decide)
      simp [hname, hvalue] at hc
  have hname : '#' ∉ "&X-Amz-Signature=".toList := by simp
  simp only [PresignParams.signedQuery, List.mem_append, not_or]
  exact ⟨hquery, hname, hash_notMem_hexEncode _⟩

theorem amzNames_sorted (p : PresignParams) (hextra : p.extraQuery = call.extraQuery) :
    (p.sortedQuery.map fun q ↦ (encodeUriComponent q.1, encodeUriComponent q.2)).Pairwise
      fun a b ↦ bytes a.1 ≤ bytes b.1 := by
  have hnames : ∀ q ∈ p.query, ∀ c ∈ q.1, plain false c = true := by
    rw [PresignParams.query, hextra]
    cases call <;> simp [Call.extraQuery, plain, unreserved]
  have hplain : ∀ q ∈ p.query, encodeUriComponent q.1 = q.1 := fun q hq ↦ encode_of_plain (hnames q hq)
  rw [List.pairwise_map]
  refine (sortedQuery_pairwise p).imp_of_mem fun {a b} ha hb hle ↦ ?_
  rw [hplain a ((sortedQuery_perm p).mem_iff.mp ha), hplain b ((sortedQuery_perm p).mem_iff.mp hb)]
  exact hle

theorem exact_iff : Exact c cfg method key expires secs call
    (Uri.parse (cfg.presignWithQuery c method key expires secs call.extraQuery)) ↔ cfg.Addressable := by
  have hcolon := cfg.colon_notMem_scheme key
  rw [presignWithQuery_eq]
  constructor
  · rintro ⟨hhost, hobject, -⟩
    have hclean := (authority_eq_iff hcolon _).mp hhost
    refine ⟨hclean, fun hsome ↦ ?_⟩
    obtain ⟨ep, hep⟩ := Option.isSome_iff_exists.mp hsome
    rw [path_of_authority hcolon hclean, List.takeWhile_cons_of_pos rfl] at hobject
    simp only [S3Config.Names, S3Config.objectPath, hep] at hobject
    obtain ⟨seg, rest, hpath, hseg, -⟩ := hobject
    have htake := List.cons_injective hpath
    rw [List.append_assoc, List.cons_append] at htake
    exact bucket_clean (htake ▸ List.takeWhile_prefix _) hseg
  · intro h
    obtain ⟨hauth, hpath, hquery⟩ := parse_of_clean hcolon h.host (h.endsPath_objectPath key)
      (hash_notMem_signedQuery c (cfg.params method key expires secs call.extraQuery) (canonicalRequest method
          ('/' :: cfg.objectPath key) (cfg.params method key expires secs call.extraQuery).canonicalQuery
          cfg.host))
    refine ⟨hauth, ?_, ?_⟩
    · rw [hpath]
      exact h.names key
    · rw [hpath, hquery, hauth]
      refine ⟨_, (List.append_assoc _ _ _).symm, ?_, _, sortedQuery_perm _, ?_⟩
      · rw [queryPairs_canonicalQuery]
        exact amzNames_sorted _ rfl
      · rw [queryPairs_canonicalQuery, List.map_map]
        exact List.map_congr_left fun q _ ↦ by
          simp only [Function.comp_apply, encodeUriComponent, decode_encode]

theorem encode_injective (slash : Bool) : Function.Injective (encode · slash) := by
  intro s t h
  have hbytes := decode_encode s slash
  rw [show encode s slash = encode t slash from h, decode_encode] at hbytes
  exact (bytes_injective (Option.some_inj.mp hbytes)).symm

theorem isDot_encode_iff {seg : Text} : IsDot (encodeUriPath seg) ↔ IsDot seg := by
  have hdots : ∀ {dots : Text}, (∀ c ∈ dots, c = '.') → (encodeUriPath seg = dots ↔ seg = dots) := by
    intro dots hd
    have hplain : encode dots true = dots := encode_of_plain fun c hc ↦ by
      rw [hd c hc]
      rfl
    rw [encodeUriPath, ← hplain, hplain]
    conv_lhs => rw [← hplain]
    exact (encode_injective true).eq_iff
  rw [IsDot, IsDot, hdots (by simp), hdots (by simp)]

/-- A slash comes from the byte of a slash only. -/
theorem slash_mem_encodeByte {slash : Bool} {b : UInt8} (h : '/' ∈ encodeByte slash b) : b.toNat = 47 := by
  have hlt : b.toNat < 256 := b.toNat_lt
  have hdigit : ∀ n < 16, '/' ≠ hexDigit n := by decide
  unfold encodeByte at h
  split_ifs at h with hkeep hslash
  · have hback : (Char.ofNat b.toNat).toNat = b.toNat := by
      rw [Char.toNat_ofNat, if_pos (.inl (by omega))]
    rw [← hback, ← List.mem_singleton.mp h]
    rfl
  · rw [hslash.1]
    rfl
  · simp only [escape, List.mem_cons, List.not_mem_nil, or_false] at h
    obtain h | h | h := h
    · cases h
    · exact absurd h (hdigit _ (by omega))
    · exact absurd h (hdigit _ (by omega))

theorem splitOn_encodeUriPath (s : Text) :
    (encodeUriPath s).splitOn '/' = (s.splitOn '/').map encodeUriPath := by
  have hflat : ∀ t, encodeUriPath t = t.flatMap fun c ↦ encodeUriPath [c] := by
    intro t
    induction t with
    | nil => rfl
    | cons c t ih =>
      rw [List.flatMap_cons, ← ih, encodeUriPath, ← List.singleton_append, encode_append]
      rfl
  have hslash : ∀ c ≠ '/', '/' ∉ encodeUriPath [c] := by
    intro c hc hmem
    obtain ⟨b, hb, hbyte⟩ := List.mem_flatMap.mp hmem
    have hnat := slash_mem_encodeByte hbyte
    rw [bytes, List.flatMap_singleton] at hb
    have hval := eq_of_mem_utf8EncodeChar hb (by omega)
    exact hc (Char.toNat_inj.mp (hval.trans hnat))
  rw [hflat s, splitOn_flatMap rfl hslash]
  exact List.map_congr_left fun t _ ↦ (hflat t).symm

/-- What the directory of the archive is called where nothing else is configured. -/
def defaultPrefix : Text := "pg-vm-pool/".toList

/-- No key of one schema is a key of another, and the two kinds do not meet. -/
def S3Config.KeysApart (cfg : S3Config) : Prop :=
  ∀ a b : Text, cfg.objectKey a ≠ cfg.imageObjectKey b ∧
    (a ≠ b → cfg.objectKey a ≠ cfg.objectKey b ∧ cfg.imageObjectKey a ≠ cfg.imageObjectKey b)

/-- A client that removes dot segments sends the path as it was signed. -/
def SentAsSigned (c : Crypto) (cfg : S3Config) (schema : ClientSchema) : Prop :=
  ∀ key ∈ [cfg.objectKey schema.text.toList, cfg.imageObjectKey schema.text.toList],
    ∀ (method : Text) (expires secs : UInt64) (call : Call),
      removeDotSegments (Uri.parse (cfg.presignWithQuery c method key expires secs call.extraQuery)).path =
        (Uri.parse (cfg.presignWithQuery c method key expires secs call.extraQuery)).path

structure Presigns (c : Crypto) (cfg : S3Config) (schema : ClientSchema) : Prop where
  exact : ∀ (method key : Text) (expires secs : UInt64) (call : Call),
    Exact c cfg method key expires secs call
      (Uri.parse (cfg.presignWithQuery c method key expires secs call.extraQuery))
  apart : cfg.KeysApart
  sent : cfg.keyPrefix = defaultPrefix → SentAsSigned c cfg schema

/-- No segment before the last slash of the schema is a dot segment, and the bucket is none. -/
structure S3Config.Settled (cfg : S3Config) (schema : ClientSchema) : Prop where
  bucket : cfg.endpoint.isSome → ¬IsDot cfg.bucket
  schema : ∀ seg ∈ folder schema.text.toList, ¬IsDot seg

theorem keysApart (cfg : S3Config) : cfg.KeysApart := by
  have hdump : ".dump".toList ∈ suffixes := by simp [suffixes]
  have himage : ".img.zst".toList ∈ suffixes := by simp [suffixes]
  have hkinds : ".dump".toList ≠ ".img.zst".toList := by simp
  intro a b
  refine ⟨fun h ↦ hkinds (suffix_inj hdump himage h).1, fun hne ↦ ⟨fun h ↦ hne ?_, fun h ↦ hne ?_⟩⟩
  · exact List.append_cancel_left (suffix_inj hdump hdump h).2
  · exact List.append_cancel_left (suffix_inj himage himage h).2

theorem not_isDot_of_length {seg : Text} (h : 2 < seg.length) : ¬IsDot seg := by
  rintro (rfl | rfl)
  · simp at h
  · simp at h

/-- The dot segments of a key's path are those of the bucket and of the schema. -/
theorem settled_iff (hdefault : cfg.keyPrefix = defaultPrefix) (h : cfg.Addressable) (schema : ClientSchema)
    (suffix : Text) (hs : suffix ∈ suffixes) :
    (∀ seg ∈ (cfg.objectPath (cfg.keyPrefix ++ schema.text.toList ++ suffix)).splitOn '/', ¬IsDot seg) ↔
      cfg.Settled schema := by
  have hkey : (cfg.keyPrefix ++ schema.text.toList ++ suffix).splitOn '/' =
      "pg-vm-pool".toList :: (folder schema.text.toList ++ [leaf schema.text.toList ++ suffix]) := by
    have hdir : defaultPrefix = "pg-vm-pool".toList ++ ['/'] := rfl
    rw [hdefault, hdir, List.append_assoc, List.append_assoc, List.singleton_append,
      List.splitOn_append_cons_self_of_not_mem (by simp), splitOn_append (suffix_noSlash hs)]
  have hlast : ¬IsDot (leaf schema.text.toList ++ suffix) :=
    not_isDot_of_length (by have := suffix_length hs; rw [List.length_append]; omega)
  have hdir : ¬IsDot "pg-vm-pool".toList := not_isDot_of_length (by simp)
  have hpath : (∀ seg ∈ (encodeUriPath (cfg.keyPrefix ++ schema.text.toList ++ suffix)).splitOn '/',
      ¬IsDot seg) ↔ ∀ seg ∈ folder schema.text.toList, ¬IsDot seg := by
    rw [splitOn_encodeUriPath, List.forall_mem_map, hkey]
    simp only [isDot_encode_iff, List.forall_mem_cons, List.forall_mem_append, List.not_mem_nil,
      false_implies, implies_true, and_true, hdir, hlast, not_false_eq_true, true_and]
  unfold S3Config.objectPath
  cases hep : cfg.endpoint with
  | none => exact hpath.trans ⟨fun hseg ↦ ⟨by simp [hep], hseg⟩, fun hset ↦ hset.schema⟩
  | some ep =>
    have hslash : '/' ∉ cfg.bucket := fun hmem ↦ absurd (h.bucket (by rw [hep]; rfl) _ hmem) (by decide)
    simp only [List.splitOn_append_cons_self_of_not_mem hslash, List.forall_mem_cons]
    exact ⟨fun hseg ↦ ⟨fun _ ↦ hseg.1, hpath.mp hseg.2⟩,
      fun hset ↦ ⟨hset.bucket (by rw [hep]; rfl), hpath.mpr hset.schema⟩⟩

theorem S3Config.Addressable.path_eq (h : cfg.Addressable) (c : Crypto) (method key : Text)
    (expires secs : UInt64) (call : Call) :
    (Uri.parse (cfg.presignWithQuery c method key expires secs call.extraQuery)).path =
      '/' :: cfg.objectPath key := by
  rw [presignWithQuery_eq]
  exact (parse_of_clean (cfg.colon_notMem_scheme key) h.host (h.endsPath_objectPath key)
    (hash_notMem_signedQuery c _ _)).2.1

theorem sentAsSigned_iff (hdefault : cfg.keyPrefix = defaultPrefix) (h : cfg.Addressable) (c : Crypto)
    (schema : ClientSchema) : SentAsSigned c cfg schema ↔ cfg.Settled schema := by
  have hdump := settled_iff hdefault h schema ".dump".toList (by simp [suffixes])
  have himage := settled_iff hdefault h schema ".img.zst".toList (by simp [suffixes])
  constructor
  · intro hsent
    have hpath := hsent _ List.mem_cons_self [] 0 0 .object
    rw [h.path_eq, removeDotSegments_eq_iff] at hpath
    exact hdump.mp hpath
  · intro hset key hkey method expires secs call
    rw [h.path_eq, removeDotSegments_eq_iff]
    obtain rfl | hkey := List.mem_cons.mp hkey
    · exact hdump.mpr hset
    · rw [List.mem_singleton.mp hkey]
      exact himage.mpr hset

/-- A presigned URL names the object that was asked for, and is sent as it was signed, exactly when the
configured names fit into a URL and no dot segment stands in its path. -/
theorem presigns_iff (c : Crypto) (cfg : S3Config) (schema : ClientSchema) :
    Presigns c cfg schema ↔ cfg.Addressable ∧ (cfg.keyPrefix = defaultPrefix → cfg.Settled schema) := by
  constructor
  · intro h
    have haddr : cfg.Addressable := exact_iff.mp (h.exact [] [] 0 0 .object)
    exact ⟨haddr, fun hdefault ↦ (sentAsSigned_iff hdefault haddr c schema).mp (h.sent hdefault)⟩
  · rintro ⟨haddr, hset⟩
    exact ⟨fun _ _ _ _ _ ↦ exact_iff.mpr haddr, keysApart cfg,
      fun hdefault ↦ (sentAsSigned_iff hdefault haddr c schema).mpr (hset hdefault)⟩

def dotted : ClientSchema := ⟨"a/../b", by decide⟩

def undotted : ClientSchema := ⟨"b", by decide⟩

def aws : S3Config :=
  ⟨"wb".toList, defaultPrefix, "us-east-1".toList, none, none, "AK".toList, "sk".toList⟩

def digests : Crypto := ⟨id, fun key data ↦ key ++ data⟩

theorem aws_addressable : aws.Addressable :=
  ⟨by simp [aws, S3Config.host, S3Config.address, S3Config.region, endsAuthority], by simp [aws]⟩

/-- A request for the archive of one schema goes out for that of another, with the wrong signature. -/
theorem presign_dotted : ¬Presigns digests aws dotted ∧
    removeDotSegments (Uri.parse (aws.presignWithQuery digests "GET".toList (aws.objectKey dotted.text.toList)
      60 0 [])).path =
      (Uri.parse (aws.presignWithQuery digests "GET".toList (aws.objectKey undotted.text.toList) 60 0 [])).path := by
  constructor
  · intro h
    have hset := (sentAsSigned_iff rfl aws_addressable digests dotted).mp (h.sent rfl)
    exact hset.schema ['.', '.'] (by decide) (.inr rfl)
  · have hpath := fun key ↦ aws_addressable.path_eq digests "GET".toList key 60 0 .object
    simp only [Call.extraQuery] at hpath
    rw [hpath, hpath]
    decide

end PgVmPool.S3
