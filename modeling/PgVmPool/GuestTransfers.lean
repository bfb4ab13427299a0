import PgVmPool.ClientCommands
import PgVmPool.Presign

namespace PgVmPool

open S3 Sh

namespace Sh

theorem urlChar_iff {c : Char} : urlChar c = true ↔ c ∉ "\x00`\"\\(\x7b'\n".toList := by
  rw [urlChar, Bool.not_eq_true', ← Bool.not_eq_true, List.contains_iff_mem]

theorem urlChar_of_isDigit {c : Char} (h : c.isDigit = true) : urlChar c = true := by
  have hnone : "\x00`\"\\(\x7b'\n".toList.all (fun b ↦ !b.isDigit) = true := by decide
  refine urlChar_iff.mpr fun hmem ↦ ?_
  have hno := List.all_eq_true.mp hnone c hmem
  rw [h] at hno
  cases hno

theorem urlChar_decimal (n : ℕ) : (S3.decimal n).all urlChar = true := by
  refine List.all_eq_true.mpr fun c hc ↦ urlChar_of_isDigit ?_
  rw [S3.decimal, Nat.toString_eq_ofList_toDigits, String.toList_ofList] at hc
  exact Nat.isDigit_of_mem_toDigits (by decide) (by decide) hc

theorem urlChar_encode (s : Text) (slash : Bool) : (encode s slash).all urlChar = true := by
  have hnone : "\x00`\"\\(\x7b'\n".toList.all (fun b ↦ !Uri.plain slash b && b != '%') = true := by
    cases slash <;> decide
  refine List.all_eq_true.mpr fun c hc ↦ urlChar_iff.mpr fun hmem ↦ ?_
  have hno := List.all_eq_true.mp hnone c hmem
  rw [Bool.and_eq_true, Bool.not_eq_true', bne_iff_ne] at hno
  exact not_mem_encode hno.1 hno.2 hc

theorem urlChar_hexEncode (bs : List UInt8) : (hexEncode bs).all urlChar = true := by
  have hdigit : ∀ n < 16, urlChar (Uri.hexDigit n).toLower = true := by decide
  rw [hexEncode, List.all_flatMap, List.all_eq_true]
  intro b _
  have hb : b.toNat < 256 := b.toNat_lt
  simp only [List.all_cons, List.all_nil, Bool.and_true, Bool.and_eq_true]
  exact ⟨hdigit _ (by omega), hdigit _ (by omega)⟩

end Sh

/-- An S3 setting whose names may stand in a job as they are. -/
structure PlainNames (cfg : S3Config) : Prop where
  host : cfg.host.all urlChar = true
  bucket : cfg.bucket.all urlChar = true

section Urls

variable {cfg : S3Config}

theorem urlChar_scheme (key : Text) : (cfg.address key).1.all urlChar = true := by
  have hhttps : "https".toList.all urlChar = true := by decide
  have hhttp : "http".toList.all urlChar = true := by decide
  have hsplit : ∀ url, (splitSchemeHost url).1.all urlChar = true := by
    intro url
    unfold splitSchemeHost
    split_ifs
    · exact hhttps
    · exact hhttp
    · exact hhttps
  unfold S3Config.address
  cases cfg.endpoint with
  | none => exact hhttps
  | some ep => exact hsplit _

theorem urlChar_objectPath (h : PlainNames cfg) (key : Text) : (cfg.objectPath key).all urlChar = true := by
  have hkey := urlChar_encode key true
  unfold S3Config.objectPath
  cases cfg.endpoint with
  | none => exact hkey
  | some ep =>
    rw [List.all_append, h.bucket, List.all_cons, encodeUriPath, hkey]
    decide

theorem urlChar_canonicalQuery (p : PresignParams) : p.canonicalQuery.all urlChar = true := by
  refine List.all_eq_true.mpr fun c hc ↦ ?_
  obtain rfl | ⟨field, hfield, hc⟩ := Uri.mem_intercalate hc
  · decide
  · obtain ⟨q, -, rfl⟩ := List.mem_map.mp hfield
    have hname := urlChar_encode q.1 false
    have hvalue := urlChar_encode q.2 false
    have hall : (encodeUriComponent q.1 ++ '=' :: encodeUriComponent q.2).all urlChar = true := by
      rw [List.all_append, encodeUriComponent, hname, List.all_cons, encodeUriComponent, hvalue]
      decide
    exact List.all_eq_true.mp hall c hc

/-- Whatever the key is, a signed URL stays within double quotes. -/
theorem urlChar_presign (h : PlainNames cfg) (c : Crypto) (method key : Text) (expires secs : UInt64) :
    (cfg.presignWithQuery c method key expires secs []).all urlChar = true := by
  have hname : "&X-Amz-Signature=".toList.all urlChar = true := by decide
  rw [presignWithQuery_eq]
  simp only [PresignParams.signedQuery, List.all_append, List.all_cons, urlChar_scheme, h.host,
    urlChar_objectPath h, urlChar_canonicalQuery, hname, PresignParams.signature, urlChar_hexEncode]
  decide

end Urls

abbrev Ipv4 := UInt8 × UInt8 × UInt8 × UInt8

def Ipv4.text : Ipv4 → Text
  | (a, b, c, d) =>
    S3.decimal a.toNat ++ '.' :: (S3.decimal b.toNat ++ '.' :: (S3.decimal c.toNat ++ '.' :: S3.decimal d.toNat))

theorem urlChar_ipv4 (ip : Ipv4) : ip.text.all urlChar = true := by
  obtain ⟨a, b, c, d⟩ := ip
  simp only [Ipv4.text, List.all_append, List.all_cons, urlChar_decimal]
  decide

/-- The bucket that dumps go to and come from. -/
structure DumpBucket where
  cfg : S3Config
  plain : PlainNames cfg

namespace DumpBucket

variable (bucket : DumpBucket)

/-- `ips` is what the host's name resolves to; another endpoint is left to the guest. -/
def resolve (ips : List Ipv4) : Resolve where
  host := bucket.cfg.host
  ips := if bucket.cfg.endpoint.isSome then [] else ips.map Ipv4.text
  safe := by
    refine List.forall_mem_cons.mpr ⟨bucket.plain.host, ?_⟩
    split_ifs
    · simp
    · exact List.forall_mem_map.mpr fun ip _ ↦ urlChar_ipv4 ip

def presign (c : Crypto) (method : String) (schema : ClientSchema) (now : UInt64) : JobUrl where
  text := bucket.cfg.presignWithQuery c method.toList (bucket.cfg.objectKey schema.text.toList) 3600 now []
  safe := urlChar_presign bucket.plain c _ _ _ _

end DumpBucket

/-- Where the dump server takes an upload or gives a dump, behind a token. -/
def serverUrl (port : UInt16) (token : List UInt8) : JobUrl where
  text := "http://$GW:".toList ++ S3.decimal port.toNat ++ "/d/".toList ++ hexEncode token
  safe := by
    have hfront : "http://$GW:".toList.all urlChar = true := by decide
    have hpath : "/d/".toList.all urlChar = true := by decide
    rw [List.all_append, List.all_append, List.all_append, hfront, hpath, urlChar_decimal, urlChar_hexEncode]
    rfl

/-- The jobs that are launched for a schema. The dump server issues no token for a name that is no file
name. -/
inductive Launches (bucket : DumpBucket) (c : Crypto) (schema : ClientSchema) : Transfer → Prop
  | dumpToS3 (ips : List Ipv4) (now : UInt64) :
      Launches bucket c schema (.archive (bucket.resolve ips) (bucket.presign c "PUT" schema now))
  | dumpToServer (port : UInt16) (token : List UInt8) (h : issueAccepts schema = true) :
      Launches bucket c schema (.stream (serverUrl port token))
  | restoreFromS3 (ips : List Ipv4) (now : UInt64) (keepOwnership : Bool) :
      Launches bucket c schema (.restore (bucket.resolve ips) (bucket.presign c "GET" schema now) keepOwnership)
  | restoreFromLocal (port : UInt16) (token : List UInt8) (keepOwnership : Bool) (h : issueAccepts schema = true) :
      Launches bucket c schema (.restoreLocal (serverUrl port token) keepOwnership)

end PgVmPool
