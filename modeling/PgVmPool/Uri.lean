import Mathlib

namespace Uri

abbrev Text := List Char

def unreserved (c : Char) : Bool := c.isAlphanum || c = '-' || c = '_' || c = '.' || c = '~'

/-- The characters that stand for themselves; a path keeps its slashes too. -/
def plain (slash : Bool) (c : Char) : Bool := unreserved c || (slash && c = '/')

def bytes (t : Text) : List UInt8 := t.flatMap String.utf8EncodeChar

theorem bytes_append (s t : Text) : bytes (s ++ t) = bytes s ++ bytes t := List.flatMap_append

theorem bytes_injective : Function.Injective bytes := by
  intro s t h
  have hutf8 : (String.ofList s).toByteArray = (String.ofList t).toByteArray := by
    rw [String.toByteArray_ofList, String.toByteArray_ofList, List.utf8Encode, List.utf8Encode]
    exact congrArg List.toByteArray h
  exact String.ofList_injective (String.toByteArray_inj.mp hutf8)

theorem length_le_length_bytes (t : Text) : t.length ≤ (bytes t).length := by
  induction t with
  | nil => exact Nat.le_refl _
  | cons c t ih =>
    have hpos := String.length_utf8EncodeChar c
    have := c.utf8Size_pos
    rw [bytes, List.flatMap_cons, List.length_append, List.length_cons]
    rw [bytes] at ih
    omega

/-- A byte below 128 in a text is the ASCII character of that number. -/
theorem eq_of_mem_utf8EncodeChar {c : Char} {b : UInt8} (h : b ∈ String.utf8EncodeChar c)
    (hb : b.toNat < 128) :
    c.toNat = b.toNat := by
  have hval : c.val.toNat = c.toNat := rfl
  unfold String.utf8EncodeChar at h
  dsimp only at h
  split_ifs at h
  all_goals
    simp only [List.mem_cons, List.not_mem_nil, or_false, ← UInt8.toNat_inj, UInt8.toNat_ofNat'] at h
    omega

def hexDigits : Text := ['0', '1', '2', '3', '4', '5', '6', '7', '8', '9', 'A', 'B', 'C', 'D', 'E', 'F']

def hexDigit (n : ℕ) : Char := hexDigits.getD n '0'

def hexValue (c : Char) : Option ℕ := hexDigits.idxOf? c

def escape (b : UInt8) : Text := ['%', hexDigit (b.toNat / 16), hexDigit (b.toNat % 16)]

/-- What a text of plain characters and escapes stands for; any other text is refused. -/
def decode (slash : Bool) : Text → Option (List UInt8)
  | [] => some []
  | '%' :: a :: b :: t => do
    let x ← hexValue a
    let y ← hexValue b
    let rest ← decode slash t
    return UInt8.ofNat (16 * x + y) :: rest
  | c :: t => if plain slash c then (decode slash t).map (UInt8.ofNat c.toNat :: ·) else none

theorem hexValue_hexDigit : ∀ n < 16, hexValue (hexDigit n) = some n := by decide

theorem plain_percent (slash : Bool) : plain slash '%' = false := by
  cases slash <;> decide

theorem decode_escape (slash : Bool) (b : UInt8) (t : Text) :
    decode slash (escape b ++ t) = (decode slash t).map (b :: ·) := by
  have hb : b.toNat < 256 := b.toNat_lt
  have hsum : 16 * (b.toNat / 16) + b.toNat % 16 = b.toNat := Nat.div_add_mod b.toNat 16
  rw [escape, List.cons_append, List.cons_append, List.cons_append, List.nil_append, decode,
    hexValue_hexDigit _ (by omega), hexValue_hexDigit _ (by omega)]
  cases decode slash t with
  | none => rfl
  | some rest =>
    change some (UInt8.ofNat (16 * (b.toNat / 16) + b.toNat % 16) :: rest) = some (b :: rest)
    rw [hsum, UInt8.ofNat_toNat]

theorem decode_cons {slash : Bool} {c : Char} (hc : c ≠ '%') (t : Text) : decode slash (c :: t) =
    if plain slash c then (decode slash t).map (UInt8.ofNat c.toNat :: ·) else none := by
  rw [decode]
  rintro _ _ _ rfl
  exact absurd rfl hc

theorem decode_plain {slash : Bool} {c : Char} (hc : plain slash c = true) (t : Text) :
    decode slash (c :: t) = (decode slash t).map (UInt8.ofNat c.toNat :: ·) := by
  rw [decode_cons, if_pos hc]
  rintro rfl
  rw [plain_percent] at hc
  cases hc

theorem plain_of_hexValue {slash : Bool} {c : Char} {n : ℕ} (h : hexValue c = some n) :
    plain slash c = true := by
  have hmem : c ∈ hexDigits := by
    rw [← List.isSome_idxOf?, ← hexValue, h]
    rfl
  have hun : ∀ c ∈ hexDigits, unreserved c = true := by simp [hexDigits, unreserved]
  rw [plain, hun c hmem, Bool.true_or]

theorem toNat_lt_of_plain {slash : Bool} {c : Char} (h : plain slash c = true) : c.toNat < 128 := by
  have hval : c.val.toNat = c.toNat := rfl
  simp only [plain, unreserved, Char.isAlphanum, Char.isAlpha, Char.isUpper, Char.isLower, Char.isDigit,
    Bool.or_eq_true, Bool.and_eq_true, decide_eq_true_eq, ge_iff_le, UInt32.le_iff_toNat_le] at h
  obtain ((((((⟨-, h⟩ | ⟨-, h⟩) | ⟨-, h⟩) | rfl) | rfl) | rfl) | rfl) | ⟨-, rfl⟩ := h
  · exact (hval ▸ h).trans_lt (by decide)
  · exact (hval ▸ h).trans_lt (by decide)
  · exact (hval ▸ h).trans_lt (by decide)
  all_goals decide

/-- What is decoded has nothing but plain characters and escapes, and an escape is longer than what it
stands for. -/
theorem decode_parts {slash : Bool} {t : Text} {bs : List UInt8} (h : decode slash t = some bs) :
    (bs.length ≤ t.length ∧ (bs.length = t.length → ∀ c ∈ t, plain slash c = true)) ∧
      ∀ c ∈ t, plain slash c = true ∨ c = '%' := by
  induction t using decode.induct slash generalizing bs with
  | case1 => simp_all [decode]
  | case2 a b t ih =>
    simp only [decode, Option.bind_eq_bind, Option.bind_eq_some_iff, Option.pure_def] at h
    obtain ⟨x, hx, y, hy, rest, hrest, heq⟩ := h
    cases heq
    obtain ⟨⟨hle, -⟩, hmem⟩ := ih hrest
    simp only [List.length_cons, List.forall_mem_cons]
    exact ⟨⟨by omega, by omega⟩, .inr trivial, .inl (plain_of_hexValue hx), .inl (plain_of_hexValue hy), hmem⟩
  | case3 c t hc hplain ih =>
    rw [decode, if_pos hplain] at h
    · obtain ⟨rest, hrest, rfl⟩ := Option.map_eq_some_iff.mp h
      obtain ⟨⟨hle, heq⟩, hmem⟩ := ih hrest
      simp only [List.length_cons, List.forall_mem_cons]
      exact ⟨⟨by omega, fun h ↦ ⟨hplain, heq (by omega)⟩⟩, .inl hplain, hmem⟩
    · exact hc
  | case4 c t hc hplain =>
    rw [decode, if_neg hplain] at h
    · cases h
    · exact hc

theorem length_decode {slash : Bool} {t : Text} {bs : List UInt8} (h : decode slash t = some bs) :
    bs.length ≤ t.length ∧ (bs.length = t.length → ∀ c ∈ t, plain slash c = true) := (decode_parts h).1

theorem mem_of_decode {slash : Bool} {t : Text} {bs : List UInt8} (h : decode slash t = some bs) {c : Char}
    (hc : c ∈ t) : plain slash c = true ∨ c = '%' := (decode_parts h).2 c hc

/-- The walk of RFC 3986, 5.2.4 over the segments of an absolute path, with the output turned round. -/
def walk (output : List Text) : List Text → List Text
  | [] => output.reverse
  | [seg] =>
    if seg = ['.'] then ([] :: output).reverse
    else if seg = ['.', '.'] then ([] :: output.tail).reverse
    else (seg :: output).reverse
  | seg :: next :: rest =>
    if seg = ['.'] then walk output (next :: rest)
    else if seg = ['.', '.'] then walk output.tail (next :: rest)
    else walk (seg :: output) (next :: rest)

def join (segs : List Text) : Text := segs.flatMap fun seg ↦ '/' :: seg

/-- A path without its dot segments. The path behind an authority is absolute or empty. -/
def removeDotSegments (path : Text) : Text :=
  match path.splitOn '/' with
  | [] :: segs => join (walk [] segs)
  | _ => path

def IsDot (seg : Text) : Prop := seg = ['.'] ∨ seg = ['.', '.']

instance (seg : Text) : Decidable (IsDot seg) := inferInstanceAs (Decidable (_ ∨ _))

theorem walk_eq {segs : List Text} (h : ∀ seg ∈ segs, ¬IsDot seg) (output : List Text) :
    walk output segs = output.reverse ++ segs := by
  induction output, segs using walk.induct with
  | case1 output => simp [walk]
  | case2 output => simp [IsDot] at h
  | case3 output h₁ => simp [IsDot] at h
  | case4 output seg h₁ h₂ => simp [walk, h₁, h₂]
  | case5 output next rest ih => simp [IsDot] at h
  | case6 output next rest h₁ ih => simp [IsDot] at h
  | case7 output seg next rest h₁ h₂ ih =>
    rw [walk, if_neg h₁, if_neg h₂, ih fun seg hseg ↦ h seg (List.mem_cons_of_mem _ hseg)]
    simp

def size (segs : List Text) : ℕ := (segs.map fun seg ↦ seg.length + 1).sum

theorem length_join (segs : List Text) : (join segs).length = size segs := by
  simp [join, size, List.length_flatMap]

theorem size_cons (seg : Text) (segs : List Text) : size (seg :: segs) = seg.length + 1 + size segs := rfl

theorem size_reverse (segs : List Text) : size segs.reverse = size segs := by
  rw [size, List.map_reverse, List.sum_reverse, size]

theorem size_tail_le (segs : List Text) : size segs.tail ≤ size segs := by
  cases segs with
  | nil => exact Nat.le_refl _
  | cons seg segs => exact Nat.le_add_left _ _

/-- Every dot segment costs the path at least a character. -/
theorem size_walk (output segs : List Text) :
    size (walk output segs) + segs.countP (IsDot ·) ≤ size output + size segs := by
  induction output, segs using walk.induct with
  | case1 output => simp [walk, size]
  | case2 output => simp [walk, size, IsDot]
  | case3 output h₁ =>
    have := size_tail_le output
    rw [walk, if_neg h₁, if_pos rfl, size_reverse, size_cons, size_cons]
    simp [IsDot, size] at this ⊢
    omega
  | case4 output seg h₁ h₂ =>
    have hdot : ¬IsDot seg := not_or.mpr ⟨h₁, h₂⟩
    rw [walk, if_neg h₁, if_neg h₂, size_reverse, size_cons, size_cons,
      List.countP_cons_of_neg (by simpa using hdot)]
    simp [size]
    omega
  | case5 output next rest ih =>
    rw [walk, if_pos rfl, List.countP_cons_of_pos (by decide), size_cons]
    simp only [List.length_singleton]
    omega
  | case6 output next rest h₁ ih =>
    have := size_tail_le output
    rw [walk, if_neg h₁, if_pos rfl, List.countP_cons_of_pos (by decide), size_cons]
    simp only [List.length_cons, List.length_nil]
    omega
  | case7 output seg next rest h₁ h₂ ih =>
    have hdot : ¬IsDot seg := not_or.mpr ⟨h₁, h₂⟩
    rw [walk, if_neg h₁, if_neg h₂, List.countP_cons_of_neg (by simpa using hdot), size_cons seg]
    rw [size_cons] at ih
    omega

theorem join_splitOn (path : Text) : join (path.splitOn '/') = '/' :: path := by
  have hjoin : ∀ {segs : List Text}, segs ≠ [] → join segs = '/' :: ['/'].intercalate segs := by
    intro segs hne
    induction segs with
    | nil => exact absurd rfl hne
    | cons seg segs ih =>
      by_cases hs : segs = []
      · simp [hs, join]
      · rw [List.intercalate_cons_of_ne_nil hs, List.append_assoc, List.singleton_append, ← ih hs]
        rfl
  rw [hjoin (List.splitOn_ne_nil '/' path), List.intercalate_splitOn]

/-- An absolute path stands as it is exactly when none of its segments is a dot segment. -/
theorem removeDotSegments_eq_iff (path : Text) :
    removeDotSegments ('/' :: path) = '/' :: path ↔ ∀ seg ∈ path.splitOn '/', ¬IsDot seg := by
  have hsplit : ('/' :: path).splitOn '/' = [] :: path.splitOn '/' := List.splitOn_append_cons_self [] path
  rw [removeDotSegments, hsplit]
  change join (walk [] (path.splitOn '/')) = '/' :: path ↔ _
  constructor
  · intro h seg hseg hdot
    have hsize := size_walk [] (path.splitOn '/')
    have hpos : 0 < (path.splitOn '/').countP (IsDot ·) :=
      List.countP_pos_iff.mpr ⟨seg, hseg, decide_eq_true hdot⟩
    have hlen := congrArg List.length (h.trans (join_splitOn path).symm)
    rw [length_join, length_join] at hlen
    simp only [size, List.map_nil, List.sum_nil] at hsize hlen
    omega
  · intro h
    rw [walk_eq h, List.reverse_nil, List.nil_append, join_splitOn]

/-- Splitting at a character that the translation keeps to itself. -/
theorem splitOn_flatMap {f : Char → Text} {x : Char} (hx : f x = [x]) (hf : ∀ c ≠ x, x ∉ f c) (t : Text) :
    (t.flatMap f).splitOn x = (t.splitOn x).map (·.flatMap f) := by
  have hclean : ∀ {t : Text}, x ∉ t → x ∉ t.flatMap f := by
    intro t ht hmem
    obtain ⟨c, hc, hxc⟩ := List.mem_flatMap.mp hmem
    refine hf c ?_ hxc
    rintro rfl
    exact ht hc
  by_cases hmem : x ∈ t
  · obtain ⟨pre, post, ht, hpre⟩ := List.eq_append_cons_of_mem hmem
    have hlen : post.length < t.length := by
      rw [ht, List.length_append, List.length_cons]
      omega
    have ih := splitOn_flatMap hx hf post
    rw [ht, List.flatMap_append, List.flatMap_cons, hx, List.singleton_append,
      List.splitOn_append_cons_self_of_not_mem (hclean hpre), List.splitOn_append_cons_self_of_not_mem hpre,
      ih, List.map_cons]
  · rw [List.splitOn_eq_singleton hmem, List.splitOn_eq_singleton (hclean hmem), List.map_singleton]
  termination_by t.length
  decreasing_by exact hlen

theorem mem_intercalate {x c : Char} {segs : List Text} (h : c ∈ [x].intercalate segs) :
    c = x ∨ ∃ seg ∈ segs, c ∈ seg := by
  induction segs with
  | nil => cases h
  | cons seg segs ih =>
    by_cases hs : segs = []
    · rw [hs, List.intercalate_singleton] at h
      exact .inr ⟨seg, List.mem_cons_self, h⟩
    · rw [List.intercalate_cons_of_ne_nil hs, List.append_assoc, List.mem_append, List.singleton_append,
        List.mem_cons] at h
      obtain h | rfl | h := h
      · exact .inr ⟨seg, List.mem_cons_self, h⟩
      · exact .inl rfl
      · exact (ih h).imp_right fun ⟨seg', hseg', hc⟩ ↦ ⟨seg', List.mem_cons_of_mem _ hseg', hc⟩

/-- The fields of a query, each up to its first `=` and behind it. -/
def queryPairs (query : Text) : List (Text × Text) :=
  (query.splitOn '&').map fun field ↦ (field.takeWhile (· ≠ '='), (field.dropWhile (· ≠ '=')).drop 1)

theorem queryPairs_intercalate {pairs : List (Text × Text)} (hne : pairs ≠ [])
    (h : ∀ p ∈ pairs, '=' ∉ p.1 ∧ '&' ∉ p.1 ∧ '&' ∉ p.2) :
    queryPairs (['&'].intercalate (pairs.map fun p ↦ p.1 ++ '=' :: p.2)) = pairs := by
  rw [queryPairs, List.splitOn_intercalate, List.map_map]
  · refine (List.map_congr_left fun p hp ↦ ?_).trans (List.map_id pairs)
    have hname : ∀ c ∈ p.1, decide (c ≠ '=') = true := by
      intro c hc
      refine decide_eq_true ?_
      rintro rfl
      exact (h p hp).1 hc
    rw [Function.comp_apply, List.takeWhile_append_of_pos hname, List.dropWhile_append_of_pos hname]
    simp
  · intro field hfield
    obtain ⟨p, hp, rfl⟩ := List.mem_map.mp hfield
    simp [h p hp]
  · simpa using hne

structure Url where
  scheme : Text
  authority : Text
  path : Text
  query : Text

def endsAuthority (c : Char) : Bool := c = '/' || c = '?' || c = '#'

def endsPath (c : Char) : Bool := c = '?' || c = '#'

/-- The parts of `scheme://authority/path?query`, each up to the first character that ends it. -/
def parse (t : Text) : Url :=
  let scheme := t.takeWhile (· ≠ ':')
  let behind := t.drop (scheme.length + 3)
  let authority := behind.takeWhile (!endsAuthority ·)
  let behind := behind.drop authority.length
  let path := behind.takeWhile (!endsPath ·)
  { scheme, authority, path, query := ((behind.drop path.length).drop 1).takeWhile (· ≠ '#') }

theorem takeWhile_append_cons {p : Char → Bool} {t : Text} (ht : ∀ c ∈ t, p c = true) {c : Char}
    (hc : p c = false) (rest : Text) : (t ++ c :: rest).takeWhile p = t := by
  rw [List.takeWhile_append_of_pos ht, List.takeWhile_cons_of_neg (by simp [hc]), List.append_nil]

variable {scheme host uri query : Text}

theorem parse_behind (hs : ':' ∉ scheme) (behind : Text) :
    (parse (scheme ++ ':' :: '/' :: '/' :: behind)).authority = behind.takeWhile (!endsAuthority ·) ∧
    (parse (scheme ++ ':' :: '/' :: '/' :: behind)).path =
      (behind.drop (behind.takeWhile (!endsAuthority ·)).length).takeWhile (!endsPath ·) ∧
    (parse (scheme ++ ':' :: '/' :: '/' :: behind)).query =
      (((behind.drop (behind.takeWhile (!endsAuthority ·)).length).drop
        ((behind.drop (behind.takeWhile (!endsAuthority ·)).length).takeWhile (!endsPath ·)).length).drop
          1).takeWhile (· ≠ '#') := by
  have hscheme : (scheme ++ ':' :: '/' :: '/' :: behind).takeWhile (· ≠ ':') = scheme := by
    refine takeWhile_append_cons (fun c hc ↦ decide_eq_true ?_) (by simp) _
    rintro rfl
    exact hs hc
  have hdrop : (scheme ++ ':' :: '/' :: '/' :: behind).drop (scheme.length + 3) = behind := by
    rw [List.drop_append, List.drop_of_length_le (by omega), Nat.add_sub_cancel_left]
    rfl
  simp only [parse, hscheme, hdrop, and_self]

/-- The authority is the whole host exactly when no character of the host ends it. -/
theorem authority_eq_iff (hs : ':' ∉ scheme) (rest : Text) :
    (parse (scheme ++ ':' :: '/' :: '/' :: (host ++ '/' :: rest))).authority = host ↔
      ∀ c ∈ host, endsAuthority c = false := by
  rw [(parse_behind hs _).1]
  constructor
  · intro h c hc
    rw [← h] at hc
    simpa using List.mem_takeWhile_imp hc
  · intro h
    exact takeWhile_append_cons (fun c hc ↦ by simp [h c hc]) rfl rest

theorem path_of_authority (hs : ':' ∉ scheme) (hhost : ∀ c ∈ host, endsAuthority c = false) (rest : Text) :
    (parse (scheme ++ ':' :: '/' :: '/' :: (host ++ '/' :: rest))).path =
      ('/' :: rest).takeWhile (!endsPath ·) := by
  have hauth := (authority_eq_iff hs rest).mpr hhost
  rw [(parse_behind hs _).1] at hauth
  rw [(parse_behind hs _).2.1, hauth, List.drop_left]

/-- Where neither part has a character that ends it early, path and query are read as they were written. -/
theorem parse_of_clean (hs : ':' ∉ scheme) (hhost : ∀ c ∈ host, endsAuthority c = false)
    (huri : ∀ c ∈ uri, endsPath c = false) (hquery : '#' ∉ query) :
    (parse (scheme ++ ':' :: '/' :: '/' :: (host ++ '/' :: (uri ++ '?' :: query)))).authority = host ∧
    (parse (scheme ++ ':' :: '/' :: '/' :: (host ++ '/' :: (uri ++ '?' :: query)))).path = '/' :: uri ∧
    (parse (scheme ++ ':' :: '/' :: '/' :: (host ++ '/' :: (uri ++ '?' :: query)))).query = query := by
  have hauth := (authority_eq_iff hs (uri ++ '?' :: query)).mpr hhost
  have hpath : ('/' :: (uri ++ '?' :: query)).takeWhile (!endsPath ·) = '/' :: uri := by
    rw [List.takeWhile_cons_of_pos rfl, takeWhile_append_cons (fun c hc ↦ by simp [huri c hc]) rfl]
  refine ⟨hauth, (path_of_authority hs hhost _).trans hpath, ?_⟩
  rw [(parse_behind hs _).1] at hauth
  rw [(parse_behind hs _).2.2, hauth, List.drop_left, hpath, List.length_cons, List.drop_succ_cons,
    List.drop_left, List.drop_one, List.tail_cons, List.takeWhile_eq_self_iff.mpr]
  intro c hc
  refine decide_eq_true ?_
  rintro rfl
  exact hquery hc

end Uri
