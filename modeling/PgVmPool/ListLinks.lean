import PgVmPool.FormQuery
import PgVmPool.Presign
import PgVmPool.ProbeReply

namespace PgVmPool.Pages

open FormQuery (Reader)
open S3 (encodeUriComponent)

abbrev Text := List Char

def defaultPer : ℕ := 25
def maxPer : ℕ := 200
def defaultState : Text := "running".toList
def stateAll : Text := "all".toList

/-- What `databases` takes of a query. -/
structure ListParams where
  q : Text
  state : Option Text
  page : Option ℕ
  per : Option ℕ
  deriving DecidableEq

/-- A value that a key has in a query; none with two values is read. -/
def single (key : Text) (pairs : List (Text × Text)) : Option (Option Text) :=
  match pairs.filter (·.1 = key) with
  | [] => some none
  | [p] => some (some p.2)
  | _ => none

/-- `usize` from a query. -/
def number : Option Text → Option (Option ℕ)
  | none => some none
  | some t => (parseU64 t).map fun n ↦ some n.toNat

def ListParams.ofPairs (pairs : List (Text × Text)) : Option ListParams := do
  let q ← single "q".toList pairs
  let state ← single "state".toList pairs
  let page ← single "page".toList pairs
  let page ← number page
  let per ← single "per".toList pairs
  let per ← number per
  return ⟨q.getD [], state, page, per⟩

/-- The extractor `Query<ListParams>`; where it fails the answer is a 400. -/
def listParams (r : Reader) (query : Text) : Option ListParams := ListParams.ofPairs (r.pairs query)

def urlenc (s : Text) : Text := encodeUriComponent s

def digits (n : ℕ) : Text := Nat.toDigits 10 n

/-- The parameters that a link has, each where it is not the default. -/
def linkFields (q state : Text) (page per : ℕ) : List (Text × Text) :=
  (if page ≠ 1 then [("page".toList, digits page)] else []) ++
    ((if state ≠ defaultState then [("state".toList, urlenc state)] else []) ++
      ((if q ≠ [] then [("q".toList, urlenc q)] else []) ++
        (if per ≠ defaultPer then [("per".toList, digits per)] else [])))

def listHref (q state : Text) (page per : ℕ) : Text :=
  ("/?".toList ++ (linkFields q state page per).flatMap fun f ↦ f.1 ++ '=' :: (f.2 ++ ['&'])).dropLast

def pathOf (href : Text) : Text := href.takeWhile (· ≠ '?')
def queryOf (href : Text) : Text := (href.dropWhile (· ≠ '?')).drop 1

/-- The list parameters as a link states them. -/
def stated (q state : Text) (page per : ℕ) : ListParams :=
  { q
    state := if state = defaultState then none else some state
    page := if page = 1 then none else some page
    per := if per = defaultPer then none else some per }

/-- A message as far as a link carries it: `+` is a space for the one who reads it. -/
def qenc (s : Text) : Text :=
  let shown (c : Char) : Bool := c.isAlphanum || "+.,:_-()".toList.contains c
  ((s.map fun c ↦ if c = ' ' then '+' else c).filter shown).take 200

/-- Where a form may send its reader: to an absolute path. -/
def NextForm.dest (next : Option Text) : Option Text :=
  next.filter fun n ↦ "/".toList.isPrefixOf n && !"//".toList.isPrefixOf n

/-- `redirect` from the action on the VM `id`. -/
def redirect (id : Text) (result : Except Text Unit) (okMsg : Text) (next : Option Text) : Text :=
  let (key, val) := match result with
    | .ok () => ("msg".toList, okMsg)
    | .error e => ("err".toList, e)
  match next with
  | some n =>
    let sep := if n.contains '?' then '&' else '?'
    n ++ sep :: (key ++ '=' :: qenc val)
  | none => "/vm/".toList ++ (id ++ '?' :: (key ++ '=' :: qenc val))

section Links

variable {r : Reader} {q state : Text} {page per : ℕ}

theorem parseU64_digits {n : ℕ} (h : n < 2 ^ 64) : parseU64 (digits n) = some (UInt64.ofNat n) := by
  have hn : (UInt64.ofNat n).toNat = n := UInt64.toNat_ofNat_of_lt h
  have hparse := parseU64_decimal (UInt64.ofNat n)
  rw [decimal, hn] at hparse
  exact hparse

theorem number_digits {n : ℕ} (h : n < 2 ^ 64) : number (some (digits n)) = some (some n) := by
  have hn : (UInt64.ofNat n).toNat = n := UInt64.toNat_ofNat_of_lt h
  rw [number, parseU64_digits h, Option.map_some, hn]

theorem unreserved_digits (n : ℕ) : ∀ c ∈ digits n, Uri.unreserved c = true := by
  intro c hc
  have hdigit : c.isDigit = true := Nat.isDigit_of_mem_toDigits (by decide) (by decide) hc
  simp [Uri.unreserved, Char.isAlphanum, hdigit]

theorem text_urlenc (r : Reader) (s : Text) : r.text (urlenc s) = s := r.text_of_decode (S3.decode_encode s false)

theorem notMem_urlenc {c : Char} (hc : Uri.plain false c = false) (hp : c ≠ '%') (s : Text) : c ∉ urlenc s :=
  S3.not_mem_encode hc hp

theorem forall_mem_ite {α : Type} {p : α → Prop} {c : Prop} [Decidable c] {x : α} (h : p x) :
    ∀ y ∈ if c then [x] else [], p y := by
  intro y hy
  split_ifs at hy
  · rw [List.mem_singleton] at hy
    exact hy ▸ h
  · cases hy

theorem forall_mem_linkFields {p : Text × Text → Prop} (hpage : p ("page".toList, digits page))
    (hstate : p ("state".toList, urlenc state)) (hq : p ("q".toList, urlenc q))
    (hper : p ("per".toList, digits per)) : ∀ f ∈ linkFields q state page per, p f := by
  simp only [linkFields, List.forall_mem_append]
  exact ⟨forall_mem_ite hpage, forall_mem_ite hstate, forall_mem_ite hq, forall_mem_ite hper⟩

theorem linkFields_clean : ∀ f ∈ linkFields q state page per,
    '=' ∉ f.1 ∧ '&' ∉ f.1 ∧ '&' ∉ f.2 := by
  have hdigits : ∀ n, '&' ∉ digits n := fun n hmem ↦ absurd (unreserved_digits n '&' hmem) (by decide)
  have hurl : ∀ s, '&' ∉ urlenc s := notMem_urlenc (by decide) (by decide)
  have hnames : ∀ name ∈ ["page", "state", "q", "per"], '=' ∉ name.toList ∧ '&' ∉ name.toList := by decide
  simp only [List.forall_mem_cons] at hnames
  obtain ⟨hpage, hstate, hq, hper, -⟩ := hnames
  apply forall_mem_linkFields
  · exact ⟨hpage.1, hpage.2, hdigits page⟩
  · exact ⟨hstate.1, hstate.2, hurl state⟩
  · exact ⟨hq.1, hq.2, hurl q⟩
  · exact ⟨hper.1, hper.2, hdigits per⟩

theorem intercalate_concat {α : Type} (sep x : List α) {xs : List (List α)} (h : xs ≠ []) :
    sep.intercalate (xs ++ [x]) = sep.intercalate xs ++ (sep ++ x) := by
  induction xs with
  | nil => exact absurd rfl h
  | cons y xs ih =>
    rw [List.cons_append, List.intercalate_cons_of_ne_nil (by simp)]
    obtain rfl | hne := eq_or_ne xs []
    · rw [List.nil_append, List.intercalate_singleton, List.intercalate_singleton, List.append_assoc]
    · rw [ih hne, List.intercalate_cons_of_ne_nil hne]
      simp only [List.append_assoc]

/-- Fields that each end in a separator, less the last one. -/
theorem dropLast_flatMap_fields (fields : List (Text × Text)) :
    (fields.flatMap fun f ↦ f.1 ++ '=' :: (f.2 ++ ['&'])).dropLast =
      ['&'].intercalate (fields.map fun f ↦ f.1 ++ '=' :: f.2) := by
  induction fields with
  | nil => rfl
  | cons f fields ih =>
    cases fields with
    | nil =>
      have hone : (f.1 ++ '=' :: (f.2 ++ ['&'])) = (f.1 ++ '=' :: f.2) ++ ['&'] := by simp
      rw [List.flatMap_cons, List.flatMap_nil, List.append_nil, hone, List.dropLast_concat]
      simp
    | cons g fields =>
      have hne : ((g :: fields).flatMap fun f ↦ f.1 ++ '=' :: (f.2 ++ ['&'])) ≠ [] := by simp
      have hmap : (g :: fields).map (fun f ↦ f.1 ++ '=' :: f.2) ≠ [] := by simp
      rw [List.flatMap_cons, List.dropLast_append_of_ne_nil hne, ih]
      refine Eq.trans ?_ (List.intercalate_cons_of_ne_nil hmap).symm
      simp only [List.append_assoc, List.cons_append, List.nil_append]

theorem listHref_eq : listHref q state page per = '/' :: match linkFields q state page per with
    | [] => []
    | f :: fs => '?' :: ['&'].intercalate ((f :: fs).map fun f ↦ f.1 ++ '=' :: f.2) := by
  unfold listHref
  cases linkFields q state page per with
  | nil => rfl
  | cons f fs =>
    have hne : ((f :: fs).flatMap fun f ↦ f.1 ++ '=' :: (f.2 ++ ['&'])) ≠ [] := by simp
    rw [List.dropLast_append_of_ne_nil hne, dropLast_flatMap_fields]
    rfl

theorem queryOf_listHref : queryOf (listHref q state page per) =
    ['&'].intercalate ((linkFields q state page per).map fun f ↦ f.1 ++ '=' :: f.2) := by
  rw [listHref_eq]
  cases linkFields q state page per with
  | nil => rfl
  | cons f fs => rfl

theorem pathOf_listHref : pathOf (listHref q state page per) = ['/'] := by
  rw [listHref_eq]
  cases linkFields q state page per with
  | nil => rfl
  | cons f fs => rfl

theorem pairs_listHref : r.pairs (queryOf (listHref q state page per)) =
    (if page ≠ 1 then [("page".toList, digits page)] else []) ++
      ((if state ≠ defaultState then [("state".toList, state)] else []) ++
        ((if q ≠ [] then [("q".toList, q)] else []) ++
          (if per ≠ defaultPer then [("per".toList, digits per)] else []))) := by
  have hname : ∀ name ∈ ["page", "state", "q", "per"], r.text name.toList = name.toList := by
    have hun : ∀ name ∈ ["page", "state", "q", "per"], ∀ c ∈ name.toList, Uri.unreserved c = true := by
      simp [Uri.unreserved]
    exact fun name hname ↦ r.text_unreserved (hun name hname)
  have hdigits : ∀ n, r.text (digits n) = digits n := fun n ↦
    r.text_unreserved (unreserved_digits n)
  simp only [List.forall_mem_cons] at hname
  obtain ⟨hpage, hstate, hq, hper, -⟩ := hname
  have hfield : ∀ (c : Prop) [Decidable c] (f : Text × Text), (if c then [f] else []).map
      (fun f ↦ (r.text f.1, r.text f.2)) =
        if c then [(r.text f.1, r.text f.2)] else [] := by
    intro c _ f
    split <;> rfl
  rw [queryOf_listHref, r.pairs_fields linkFields_clean]
  simp only [linkFields, List.map_append, hfield, hpage, hstate, hq, hper, hdigits, text_urlenc r]

theorem filter_ite {c : Prop} [Decidable c] (key : Text) (f : Text × Text) :
    (if c then [f] else []).filter (·.1 = key) = if f.1 = key ∧ c then [f] else [] := by
  by_cases hc : c
  · by_cases hf : f.1 = key
    · simp [hc, hf]
    · simp [hc, hf]
  · simp [hc]

theorem single_of_filter {key : Text} {pairs : List (Text × Text)} {o : Option Text} {c : Prop} [Decidable c]
    {f : Text × Text} (h : pairs.filter (·.1 = key) = if c then [f] else [])
    (ho : o = if c then some f.2 else none) : single key pairs = some o := by
  rw [single, h, ho]
  split_ifs <;> rfl

/-- The parameters of a link are read from it, whatever else stands behind them. -/
theorem ofPairs_listHref (hpage : page < 2 ^ 64) (hper : per < 2 ^ 64) {rest : List (Text × Text)}
    (hrest : ∀ name ∈ ["page", "state", "q", "per"], ∀ p ∈ rest, p.1 ≠ name.toList) :
    ListParams.ofPairs (r.pairs (queryOf (listHref q state page per)) ++ rest) =
      some (stated q state page per) := by
  have hnil : ∀ name ∈ ["page", "state", "q", "per"], rest.filter (·.1 = name.toList) = [] := by
    intro name hname
    rw [List.filter_eq_nil_iff]
    intro p hp
    simpa using hrest name hname p hp
  simp only [List.forall_mem_cons] at hnil
  obtain ⟨hnilpage, hnilstate, hnilq, hnilper, -⟩ := hnil
  have hq : single "q".toList (r.pairs (queryOf (listHref q state page per)) ++ rest) =
      some (if q ≠ [] then some q else none) := by
    refine @single_of_filter _ _ _ (q ≠ []) _ ("q".toList, q) ?_ rfl
    simp only [pairs_listHref, List.filter_append, filter_ite, hnilq]
    simp
  have hstate : single "state".toList (r.pairs (queryOf (listHref q state page per)) ++ rest) =
      some (if state ≠ defaultState then some state else none) := by
    refine @single_of_filter _ _ _ (state ≠ defaultState) _ ("state".toList, state) ?_ rfl
    simp only [pairs_listHref, List.filter_append, filter_ite, hnilstate]
    simp
  have hpages : single "page".toList (r.pairs (queryOf (listHref q state page per)) ++ rest) =
      some (if page ≠ 1 then some (digits page) else none) := by
    refine @single_of_filter _ _ _ (page ≠ 1) _ ("page".toList, digits page) ?_ rfl
    simp only [pairs_listHref, List.filter_append, filter_ite, hnilpage]
    simp
  have hpers : single "per".toList (r.pairs (queryOf (listHref q state page per)) ++ rest) =
      some (if per ≠ defaultPer then some (digits per) else none) := by
    refine @single_of_filter _ _ _ (per ≠ defaultPer) _ ("per".toList, digits per) ?_ rfl
    simp only [pairs_listHref, List.filter_append, filter_ite, hnilper]
    simp
  have hnumber : ∀ (n d : ℕ), n < 2 ^ 64 → number (if n ≠ d then some (digits n) else none) =
      some (if n = d then none else some n) := by
    intro n d hn
    by_cases hd : n = d
    · rw [if_neg (not_not.mpr hd), if_pos hd, number]
    · rw [if_pos hd, if_neg hd, number_digits hn]
  have hgetD : (if q ≠ [] then some q else none).getD [] = q := by
    by_cases h : q = []
    · simp [h]
    · simp [h]
  have hstated : (if state ≠ defaultState then some state else none) =
      if state = defaultState then none else some state := ite_not ..
  simp only [ListParams.ofPairs, hq, hstate, hpages, hpers, hnumber _ _ hpage, hnumber _ _ hper, bind,
    Option.bind, pure, hgetD, hstated, stated]

theorem listParams_listHref (hpage : page < 2 ^ 64) (hper : per < 2 ^ 64) :
    listParams r (queryOf (listHref q state page per)) = some (stated q state page per) := by
  have h := @ofPairs_listHref r q state page per hpage hper [] (fun _ _ p hp ↦ absurd hp List.not_mem_nil)
  rw [List.append_nil] at h
  exact h

theorem notMem_qenc (s : Text) : '&' ∉ qenc s := by
  intro hmem
  have h := (List.mem_filter.mp (List.mem_of_mem_take hmem)).2
  exact absurd h (by decide)

/-- The answer to a form has the outcome behind the parameters of the link. -/
theorem pairs_redirect (r : Reader) (q state : Text) (page per : ℕ) (id : Text) (result : Except Text Unit)
    (okMsg : Text) : ∃ key val, key ∈ ["msg", "err"] ∧
      pathOf (redirect id result okMsg (some (listHref q state page per))) = ['/'] ∧
      r.pairs (queryOf (redirect id result okMsg (some (listHref q state page per)))) =
        r.pairs (queryOf (listHref q state page per)) ++ [(key.toList, r.text (qenc val))] := by
  obtain ⟨key, val, hkey, hredirect⟩ : ∃ key val, key ∈ ["msg", "err"] ∧
      ∀ n, redirect id result okMsg (some n) =
        n ++ (if n.contains '?' then '&' else '?') :: (key.toList ++ '=' :: qenc val) := by
    cases result with
    | ok u => exact ⟨"msg", okMsg, by simp, fun n ↦ rfl⟩
    | error e => exact ⟨"err", e, by simp, fun n ↦ rfl⟩
  have hclean : ∀ name ∈ ["msg", "err"], '=' ∉ name.toList ∧ '&' ∉ name.toList := by decide
  have hun : ∀ name ∈ ["msg", "err"], ∀ c ∈ name.toList, Uri.unreserved c = true := by
    simp [Uri.unreserved]
  refine ⟨key, val, hkey, ?_⟩
  have hpairs : r.pairs (['&'].intercalate ((linkFields q state page per ++ [(key.toList, qenc val)]).map
      fun f ↦ f.1 ++ '=' :: f.2)) =
      (linkFields q state page per).map (fun f ↦ (r.text f.1, r.text f.2)) ++ [(key.toList, r.text (qenc val))] := by
    rw [r.pairs_fields, List.map_append, List.map_singleton, r.text_unreserved (hun key hkey)]
    intro f hf
    obtain hf | hf := List.mem_append.mp hf
    · exact linkFields_clean f hf
    · rw [List.mem_singleton.mp hf]
      exact ⟨(hclean key hkey).1, (hclean key hkey).2, notMem_qenc val⟩
  rw [hredirect, queryOf_listHref, r.pairs_fields linkFields_clean, ← hpairs, listHref_eq]
  cases linkFields q state page per with
  | nil =>
    refine ⟨rfl, ?_⟩
    rw [List.nil_append, List.map_singleton, List.intercalate_singleton]
    rfl
  | cons f fs =>
    have hquery : ('/' :: '?' :: ['&'].intercalate ((f :: fs).map fun f ↦ f.1 ++ '=' :: f.2)).contains '?' =
        true := by
      simp
    have hne : (f :: fs).map (fun f ↦ f.1 ++ '=' :: f.2) ≠ [] := by simp
    refine ⟨rfl, ?_⟩
    dsimp only
    rw [if_pos hquery, List.map_append, List.map_singleton, intercalate_concat _ _ hne]
    rfl

/-- A form that was posted with the link of a list is answered with that list. -/
theorem listParams_redirect (hpage : page < 2 ^ 64) (hper : per < 2 ^ 64) (id : Text)
    (result : Except Text Unit) (okMsg : Text) :
    NextForm.dest (some (listHref q state page per)) = some (listHref q state page per) ∧
      pathOf (redirect id result okMsg (some (listHref q state page per))) = ['/'] ∧
      listParams r (queryOf (redirect id result okMsg (some (listHref q state page per)))) =
        some (stated q state page per) := by
  obtain ⟨key, val, hkey, hpath, hpairs⟩ := @pairs_redirect r q state page per id result okMsg
  refine ⟨?_, hpath, ?_⟩
  · have hdest : ∀ t : Text, t.head? ≠ some '/' → NextForm.dest (some ('/' :: t)) = some ('/' :: t) := by
      intro t ht
      cases t with
      | nil => rfl
      | cons c t =>
        have hc : c ≠ '/' := fun heq ↦ ht (congrArg some heq)
        simp [NextForm.dest, Option.filter, hc.symm]
    rw [listHref_eq]
    apply hdest
    cases linkFields q state page per with
    | nil => simp
    | cons f fs => simp
  · have hnames : ∀ key ∈ ["msg", "err"], ∀ name ∈ ["page", "state", "q", "per"],
      key.toList ≠ name.toList := by
      decide
    rw [listParams, hpairs]
    apply ofPairs_listHref hpage hper
    intro name hname p hp
    rw [List.mem_singleton.mp hp]
    exact hnames key hkey name hname

end Links

end PgVmPool.Pages
