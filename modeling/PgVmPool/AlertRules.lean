import PgVmPool.Credentials
import PgVmPool.SchemaPaths

namespace PgVmPool.Alerts

open Function HostFiles HostPath Transition
open Dedicated (trim tmpOf)

abbrev Text := List Char

inductive Metric
  | hostCpu | hostMemory | disk | heyvmdHealth
  deriving DecidableEq

namespace Metric

def slug : Metric → String
  | .hostCpu => "host-cpu"
  | .hostMemory => "host-memory"
  | .disk => "disk"
  | .heyvmdHealth => "heyvmd-health"

def all : List Metric := [.hostCpu, .hostMemory, .disk, .heyvmdHealth]

def parse (s : Text) : Option Metric := all.find? fun m ↦ m.slug.toList = s

end Metric

structure Rule where
  id : Text
  metric : Metric
  threshold : ℚ
  webhookUrl : Text
  firing : Bool
  paused : Bool
  deriving DecidableEq

def maxRules : ℕ := 64

/-- To the nearest whole number, a half to the even one. -/
def roundHalfEven (q : ℚ) : ℕ :=
  let below := ⌊q⌋.toNat
  let gap := q - below
  if gap < 1 / 2 then below
  else if 1 / 2 < gap then below + 1
  else if below % 2 = 0 then below
  else below + 1

/-- `{:.1}`. A threshold is the exact decimal that an operator wrote; the `f64` that stands for it is not modelled. -/
def num (v : ℚ) : Text :=
  let tenths := roundHalfEven (10 * |v|)
  (if v < 0 then ['-'] else []) ++ Nat.toDigits 10 (tenths / 10) ++ '.' :: Nat.toDigits 10 (tenths % 10)

/-- What a number has behind its digits. -/
def parseExponent : Text → Option ℤ
  | [] => some 0
  | c :: cs =>
    let digits := if cs.head? = some '-' ∨ cs.head? = some '+' then cs.tail else cs
    let n : ℤ := Nat.ofDigitChars 10 digits 0
    if (c = 'e' ∨ c = 'E') ∧ digits ≠ [] ∧ digits.all (·.isDigit) then
      some (if cs.head? = some '-' then -n else n)
    else none

/-- `str::parse::<f64>` of a decimal as the exact number that it writes, without the rounding to an `f64`. -/
def parseDecimal (s : Text) : Option ℚ :=
  let cs := if s.head? = some '-' ∨ s.head? = some '+' then s.tail else s
  let whole := cs.takeWhile (·.isDigit)
  let behind := cs.dropWhile (·.isDigit)
  let point := behind.head? = some '.'
  let fraction := if point then behind.tail.takeWhile (·.isDigit) else []
  let behind := if point then behind.tail.dropWhile (·.isDigit) else behind
  if whole = [] ∧ fraction = [] then none
  else (parseExponent behind).map fun (e : ℤ) ↦
    let v := (Nat.ofDigitChars 10 (whole ++ fraction) 0 : ℚ) * 10 ^ (e - fraction.length)
    if s.head? = some '-' then -v else v

def base36 : Text := "0123456789abcdefghijklmnopqrstuvwxyz".toList

def toBase36 (n : ℕ) : Text :=
  if n = 0 then ['0'] else ((Nat.digits 36 n).map fun d ↦ base36.getD d '0').reverse

def validate (metric : Text) (threshold : ℚ) (webhookUrl : Text) : Except String (Metric × Text) :=
  match Metric.parse metric with
  | none => .error "unknown metric"
  | some metric =>
    let url := trim webhookUrl
    if ¬(0 ≤ threshold ∧ threshold ≤ 100) then .error "threshold must be between 0 and 100"
    else if !("http://".toList.isPrefixOf url || "https://".toList.isPrefixOf url) then
      .error "webhook URL must start with http:// or https://"
    else if url.any isControl then .error "webhook URL must not contain control characters"
    else .ok (metric, url)

def parseLine (line : Text) : Option Rule :=
  match line.splitOn '\t' with
  | id :: metric :: threshold :: url :: rest =>
    match Metric.parse metric, parseDecimal threshold with
    | some metric, some threshold =>
      if id = [] ∨ url = [] then none
      else some ⟨id, metric, threshold, url, false, rest.head? = some "paused".toList⟩
    | _, _ => none
  | _ => none

def parse (s : Text) : List Rule := (lines s).filterMap parseLine

def status (r : Rule) : Text := if r.paused then "paused".toList else "active".toList

def row (r : Rule) : Text :=
  r.id ++ '\t' :: (r.metric.slug.toList ++ '\t' :: (num r.threshold ++ '\t' :: (r.webhookUrl ++ '\t' ::
    status r)))

def serialize (rules : List Rule) : Text := rules.flatMap fun r ↦ row r ++ ['\n']

/-- The first rule of this id, changed. -/
def modifyFirst (id : Text) (f : Rule → Rule) : List Rule → Option (List Rule)
  | [] => none
  | r :: rules => if r.id = id then some (f r :: rules) else (modifyFirst id f rules).map (r :: ·)

inductive Call
  | add (metric : Text) (threshold : ℚ) (webhookUrl : Text)
  | update (id metric : Text) (threshold : ℚ) (webhookUrl : Text)
  | setPaused (id : Text) (paused : Bool)
  | remove (id : Text)
  deriving DecidableEq

inductive Outcome
  | ok
  | found (was : Bool)
  | err (text : String)
  deriving DecidableEq

namespace Call

/-- What a call does under the lock: it ends there, or it has changed the rules. -/
def apply (nanos : ℕ) (rules : List Rule) : Call → Except Outcome (List Rule)
  | .add metric threshold webhookUrl =>
    match validate metric threshold webhookUrl with
    | .error e => .error (.err e)
    | .ok (metric, url) =>
      if maxRules ≤ rules.length then .error (.err "too many alert rules (max 64)")
      else .ok (rules ++ [⟨toBase36 nanos, metric, threshold, url, false, false⟩])
  | .update id metric threshold webhookUrl =>
    match validate metric threshold webhookUrl with
    | .error e => .error (.err e)
    | .ok (metric, url) =>
      match modifyFirst id
        (fun r ↦ { r with metric, threshold, webhookUrl := url, firing := false }) rules with
      | none => .error (.err "no such alert rule")
      | some rules => .ok rules
  | .setPaused id paused =>
    match modifyFirst id (fun r ↦ { r with paused, firing := !paused && r.firing }) rules with
    | none => .error (.found false)
    | some rules => .ok rules
  | .remove id =>
    let left := rules.filter (·.id ≠ id)
    if left.length = rules.length then .error (.found false) else .ok left

/-- Whether the caller is told of a failed write. -/
def reports : Call → Bool
  | .add .. | .update .. => true
  | .setPaused .. | .remove .. => false

def threshold : Call → Option ℚ
  | .add _ t _ | .update _ _ t _ => some t
  | .setPaused .. | .remove .. => none

def succeeded (c : Call) : Outcome := if c.reports then .ok else .found true

def failed (path : Text) (c : Call) : Outcome :=
  if c.reports then .err s!"persisting alerts to {String.ofList path}" else .found true

end Call

/-- What a call carries out of the lock. `turn` is history: how many snapshots were taken before. -/
structure Ticket where
  snapshot : Text
  turn : ℕ
  deriving DecidableEq

inductive Pc
  | start
  | opening (t : Ticket)
  | writing (t : Ticket) (file : ℕ) (rest : Text)
  | syncing (t : Ticket) (file : ℕ)
  | moving (t : Ticket) (file : ℕ)
  | done (o : Outcome)
  deriving DecidableEq

/-- `taken`, `ended` and `lastOk` are history: the snapshots that were taken, the writes that have come
to an end, and how the last of these went. -/
structure AlertState where
  rules : List Rule
  files : Files Text Char
  calls : List (Call × Pc)
  taken : ℕ
  ended : ℕ
  lastOk : Bool

inductive Event
  | ok (nanos : ℕ) | wrote (n : ℕ) | fail

inductive Action
  | call (c : Call)
  | act (i : ℕ) (e : Event)
  | evaluate (value : Metric → Option ℚ)

/-- What `AlertStore::load` makes of the file. -/
def loaded (path : Text) (files : Files Text Char) : List Rule := ((files.read path).map parse).getD []

def AlertState.load (path : Text) (files : Files Text Char) : AlertState :=
  ⟨loaded path files, files, [], 0, 0, true⟩

def Rule.evaluate (value : Metric → Option ℚ) (r : Rule) : Rule :=
  if r.paused then r
  else match value r.metric with
    | none => r
    | some v => { r with firing := r.threshold ≤ v }

namespace AlertState

variable (path : Text)

def start (st : AlertState) (nanos : ℕ) (c : Call) : AlertState × Pc :=
  match c.apply nanos st.rules with
  | .error o => (st, .done o)
  | .ok rules => ({ st with rules, taken := st.taken + 1 }, .opening ⟨serialize rules, st.taken⟩)

def writeEnds (st : AlertState) (ok : Bool) : AlertState := { st with ended := st.ended + 1, lastOk := ok }

/-- A call's locked section, then `write_atomic`. -/
def callStep (st : AlertState) (c : Call) : Pc → Event → Option (AlertState × Pc)
  | .start, .ok nanos => some (st.start nanos c)
  | .opening t, .ok _ =>
    let made := st.files.create (tmpOf path)
    some ({ st with files := made.2 }, .writing t made.1 t.snapshot)
  | .writing t file rest, .wrote n =>
    if 0 < n ∧ n ≤ rest.length then
      some ({ st with files := st.files.write file (t.snapshot.length - rest.length) (rest.take n) },
        .writing t file (rest.drop n))
    else none
  | .writing t file rest, .ok _ => if rest = [] then some (st, .syncing t file) else none
  | .syncing t file, .ok _ => some (st, .moving t file)
  | .moving _ _, .ok _ =>
    match st.files.rename (tmpOf path) path with
    | some files => some ({ st with files }.writeEnds true, .done c.succeeded)
    | none => some (st.writeEnds false, .done (c.failed path))
  | .opening _, .fail | .writing _ _ _, .fail | .syncing _ _, .fail | .moving _ _, .fail =>
    some (st.writeEnds false, .done (c.failed path))
  | _, _ => none

end AlertState

def alertStep (path : Text) : Action → AlertState → Option AlertState
  | .call c, st => some { st with calls := st.calls ++ [(c, .start)] }
  | .act i e, st =>
    (st.calls[i]?).bind fun x ↦ (st.callStep path x.1 x.2 e).map fun r ↦
      { r.1 with calls := st.calls.set i (x.1, r.2) }
  | .evaluate value, st => some { st with rules := st.rules.map (·.evaluate value) }

namespace Pc

def ticket : Pc → Option Ticket
  | .opening t | .writing t _ _ | .syncing t _ | .moving t _ => some t
  | .start | .done _ => none

def file : Pc → Option (ℕ × Text)
  | .writing _ f rest => some (f, rest)
  | .syncing _ f | .moving _ f => some (f, [])
  | .start | .opening _ | .done _ => none

def ended : Pc → Bool
  | .done _ => true
  | _ => false

end Pc

/-- A threshold that the file has a place for. -/
def OneDecimal (v : ℚ) : Prop := (10 * v).den = 1

instance (v : ℚ) : Decidable (OneDecimal v) := inferInstanceAs (Decidable (_ = _))

def Rule.clear (r : Rule) : Rule := { r with firing := false }

namespace AlertState

/-- What a restart would load is what the pooler works with, but for the firing state. -/
def Agrees (path : Text) (st : AlertState) : Prop :=
  (∀ x ∈ st.calls, x.2.ended = true) → st.lastOk = true → loaded path st.files = st.rules.map Rule.clear

/-- A change of the rules has a threshold of one decimal at most; a call turns to the file when the
writes of all changes before its own have ended; only a write that is not reported fails. -/
def StepOk (st : AlertState) (c : Call) : Pc → Event → Prop
  | .start, .ok nanos => (c.apply nanos st.rules).isOk = true → ∀ v ∈ c.threshold, OneDecimal v
  | .opening t, .ok _ => t.turn = st.ended
  | .opening t, .fail => t.turn = st.ended ∧ c.reports = false
  | .writing _ _ _, .fail | .syncing _ _, .fail | .moving _ _, .fail => c.reports = false
  | _, _ => True

end AlertState

instance (st : AlertState) (c : Call) : ∀ (pc : Pc) (e : Event), Decidable (st.StepOk c pc e)
  | .start, .ok nanos =>
    inferInstanceAs (Decidable ((c.apply nanos st.rules).isOk = true → ∀ v ∈ c.threshold, OneDecimal v))
  | .opening t, .ok _ => inferInstanceAs (Decidable (t.turn = st.ended))
  | .opening t, .fail => inferInstanceAs (Decidable (t.turn = st.ended ∧ c.reports = false))
  | .writing _ _ _, .fail | .syncing _ _, .fail | .moving _ _, .fail =>
    inferInstanceAs (Decidable (c.reports = false))
  | .start, .wrote _ | .start, .fail | .opening _, .wrote _ | .writing _ _ _, .ok _
  | .writing _ _ _, .wrote _ | .syncing _ _, .ok _ | .syncing _ _, .wrote _ | .moving _ _, .ok _
  | .moving _ _, .wrote _ | .done _, _ => isTrue trivial

def Orderly (st : AlertState) : Action → Prop
  | .call _ | .evaluate _ => True
  | .act i e => ∀ x ∈ st.calls[i]?, st.StepOk x.1 x.2 e

instance (st : AlertState) : ∀ l : Action, Decidable (Orderly st l)
  | .call _ | .evaluate _ => isTrue trivial
  | .act i e => inferInstanceAs (Decidable (∀ x ∈ st.calls[i]?, st.StepOk x.1 x.2 e))

/-- A call that returns `Err` leaves the rules as they were: it ends in its first step. -/
def Untouched (st st' : AlertState) : Prop :=
  ∀ (i : ℕ) (c : Call) (pc : Pc) (e : String), st.calls[i]? = some (c, pc) → pc.ended = false →
    st'.calls[i]? = some (c, Pc.done (.err e)) → pc = .start ∧ st'.rules = st.rules

theorem roundHalfEven_natCast (n : ℕ) : roundHalfEven n = n := by
  simp [roundHalfEven]

theorem toDigits_digits (n : ℕ) : ∀ c ∈ Nat.toDigits 10 n, c.isDigit = true := fun _ hc ↦
  Nat.isDigit_of_mem_toDigits (by decide) (by decide) hc

theorem parseDecimal_of_tenths (negative : Bool) (n : ℕ) :
    parseDecimal ((if negative then ['-'] else []) ++ Nat.toDigits 10 (n / 10) ++
      '.' :: Nat.toDigits 10 (n % 10)) = some (if negative then -(n / 10 : ℚ) else n / 10) := by
  have hlast : Nat.toDigits 10 (n % 10) = [(n % 10).digitChar] :=
    Nat.toDigits_of_lt_base (Nat.mod_lt _ (by decide))
  have hmem : (n % 10).digitChar ∈ Nat.toDigits 10 (n % 10) := by
    rw [hlast]
    exact List.mem_singleton_self _
  have hdigit : (n % 10).digitChar.isDigit = true := toDigits_digits (n % 10) _ hmem
  set whole := Nat.toDigits 10 (n / 10) with hwhole
  have hne : whole ≠ [] := Nat.toDigits_ne_nil
  have hfirst : ∀ c, whole.head? = some c → c.isDigit = true := fun c hc ↦
    toDigits_digits _ c (List.mem_of_mem_head? hc)
  have htake : (whole ++ ['.', (n % 10).digitChar]).takeWhile (·.isDigit) = whole := by
    rw [List.takeWhile_append_of_pos (toDigits_digits _), List.takeWhile_cons_of_neg (by decide),
      List.append_nil]
  have hdrop : (whole ++ ['.', (n % 10).digitChar]).dropWhile (·.isDigit) = ['.', (n % 10).digitChar] := by
    rw [List.dropWhile_append_of_pos (toDigits_digits _), List.dropWhile_cons_of_neg (by decide)]
  have hval : (Nat.ofDigitChars 10 (whole ++ [(n % 10).digitChar]) 0 : ℚ) = n := by
    rw [Nat.ofDigitChars_append, Nat.ofDigitChars_ten_toDigits,
      Nat.ofDigitChars_cons_digitChar_of_lt_ten (Nat.mod_lt _ (by decide)), Nat.ofDigitChars_nil,
      Nat.div_add_mod]
  have hread : ∀ s : Text, (if s.head? = some '-' ∨ s.head? = some '+' then s.tail else s) =
      whole ++ ['.', (n % 10).digitChar] →
      parseDecimal s = some (if s.head? = some '-' then -(n / 10 : ℚ) else n / 10) := by
    intro s hs
    simp only [parseDecimal, hs, htake, hdrop, List.head?_cons, List.tail_cons, if_true,
      List.takeWhile_cons_of_pos hdigit, List.dropWhile_cons_of_pos hdigit, List.takeWhile_nil,
      List.dropWhile_nil, hne, false_and, if_false, parseExponent, Option.map_some, hval]
    rw [show (0 : ℤ) - ([(n % 10).digitChar].length : ℕ) = -1 from rfl, zpow_neg_one]
    rfl
  rw [hlast]
  cases negative with
  | true => exact hread ('-' :: (whole ++ ['.', (n % 10).digitChar])) rfl
  | false =>
    have hhead : ∀ c, c.isDigit = false → (whole ++ ['.', (n % 10).digitChar]).head? ≠ some c := by
      intro c hc h
      rw [List.head?_append_of_ne_nil _ hne] at h
      rw [hfirst c h] at hc
      cases hc
    have hsign := hhead '-' rfl
    have hplus := hhead '+' rfl
    have h := hread (whole ++ ['.', (n % 10).digitChar]) (if_neg (not_or.mpr ⟨hsign, hplus⟩))
    rwa [if_neg hsign] at h

/-- A threshold of one decimal is read as it was written. -/
theorem parseDecimal_num {v : ℚ} (h : OneDecimal v) : parseDecimal (num v) = some v := by
  have habs : 10 * |v| = ((10 * v).num.natAbs : ℚ) := by
    rw [Nat.cast_natAbs, Int.cast_abs, Rat.den_eq_one_iff _ |>.mp h, abs_mul]
    norm_num
  have hnat : roundHalfEven (10 * |v|) = (10 * v).num.natAbs := by
    rw [habs, roundHalfEven_natCast]
  have hv : v = if v < 0 then -((10 * v).num.natAbs / 10 : ℚ) else (10 * v).num.natAbs / 10 := by
    rw [← habs]
    split_ifs with hneg
    · rw [abs_of_neg hneg]
      ring
    · rw [abs_of_nonneg (not_lt.mp hneg)]
      ring
  have hparse := parseDecimal_of_tenths (v < 0) (10 * v).num.natAbs
  simp only [decide_eq_true_eq, ← hv] at hparse
  rw [num, hnat]
  exact hparse

/-- A rule whose row is read back as it stands. -/
structure Rule.Clean (r : Rule) : Prop where
  id : r.id ≠ [] ∧ '\t' ∉ r.id ∧ '\n' ∉ r.id
  url : r.webhookUrl ≠ [] ∧ '\t' ∉ r.webhookUrl ∧ '\n' ∉ r.webhookUrl
  threshold : OneDecimal r.threshold

theorem num_chars (v : ℚ) : ∀ c ∈ num v, c.isDigit = true ∨ c = '-' ∨ c = '.' := by
  intro c hc
  simp only [num, List.mem_append, List.mem_cons] at hc
  obtain (hc | hc) | rfl | hc := hc
  · split_ifs at hc
    · exact .inr (.inl (List.mem_singleton.mp hc))
    · cases hc
  · exact .inl (toDigits_digits _ c hc)
  · exact .inr (.inr rfl)
  · exact .inl (toDigits_digits _ c hc)

theorem notMem_num {c : Char} (h : c.isDigit = false) (hsign : c ≠ '-') (hpoint : c ≠ '.') (v : ℚ) :
    c ∉ num v := by
  intro hc
  obtain hd | hd | hd := num_chars v c hc
  · rw [h] at hd
    cases hd
  · exact hsign hd
  · exact hpoint hd

theorem slug_chars (m : Metric) : '\t' ∉ m.slug.toList ∧ '\n' ∉ m.slug.toList := by
  cases m <;> simp [Metric.slug]

theorem Metric.parse_slug (m : Metric) : Metric.parse m.slug.toList = some m := by
  cases m <;> simp [Metric.parse, Metric.all, Metric.slug]

variable {r : Rule}

theorem status_chars (r : Rule) :
    '\t' ∉ status r ∧ '\n' ∉ status r ∧ status r ≠ [] ∧ '\r' ∉ status r := by
  unfold status
  split_ifs <;> simp

theorem Rule.Clean.newline_notMem (h : r.Clean) : '\n' ∉ row r := by
  have hnum := notMem_num (c := '\n') rfl (by decide) (by decide) r.threshold
  simp only [row, List.mem_append, List.mem_cons, not_or]
  exact ⟨h.id.2.2, by decide, (slug_chars r.metric).2, by decide, hnum, by decide, h.url.2.2, by decide,
    (status_chars r).2.1⟩

theorem row_getLast?_ne (r : Rule) : (row r).getLast? ≠ some '\r' := by
  obtain ⟨-, -, hne, hcr⟩ := status_chars r
  have hrow : row r = (r.id ++ '\t' :: (r.metric.slug.toList ++ '\t' :: (num r.threshold ++ '\t' ::
      (r.webhookUrl ++ ['\t'])))) ++ status r := by
    simp only [row, List.append_assoc, List.cons_append, List.nil_append]
  rw [hrow, List.getLast?_append_of_ne_nil _ hne]
  exact fun h ↦ hcr (List.mem_of_getLast? h)

theorem Rule.Clean.parseLine_row (h : r.Clean) : parseLine (row r) = some r.clear := by
  have hnum := notMem_num (c := '\t') rfl (by decide) (by decide) r.threshold
  have hs : (row r).splitOn '\t' =
      [r.id, r.metric.slug.toList, num r.threshold, r.webhookUrl, status r] := by
    simp only [row, List.splitOn_append_cons_self, List.splitOn_eq_singleton h.id.2.1,
      List.splitOn_eq_singleton (slug_chars r.metric).1, List.splitOn_eq_singleton hnum,
      List.splitOn_eq_singleton h.url.2.1, List.splitOn_eq_singleton (status_chars r).1, List.cons_append,
      List.nil_append]
  have hpaused : decide (status r = "paused".toList) = r.paused := by
    unfold status
    cases r.paused <;> simp
  simp only [parseLine, hs, Metric.parse_slug, parseDecimal_num h.threshold, List.head?_cons, Option.some_inj,
    hpaused, h.id.1, h.url.1, or_self, if_false]
  rfl

/-- What a restart loads is what was written, and the firing state starts clear. -/
theorem parse_serialize {rules : List Rule} (h : ∀ r ∈ rules, r.Clean) :
    parse (serialize rules) = rules.map Rule.clear := by
  rw [parse, serialize, lines_flatMap (fun r hr ↦ (h r hr).newline_notMem) fun r _ ↦ row_getLast?_ne r,
    List.filterMap_map]
  have hsome : ∀ r ∈ rules, (parseLine ∘ row) r = (some ∘ Rule.clear) r := fun r hr ↦ (h r hr).parseLine_row
  rw [List.filterMap_congr hsome, List.filterMap_eq_map]

/-- What `validate` lets through has a place in a row of the file. -/
theorem validate_ok {metric url : Text} {threshold : ℚ} {m : Metric} {u : Text}
    (h : validate metric threshold url = .ok (m, u)) : u ≠ [] ∧ '\t' ∉ u ∧ '\n' ∉ u := by
  unfold validate at h
  split at h
  · cases h
  dsimp only at h
  split_ifs at h with hrange hstart hcontrol
  cases h
  have hclean : ∀ c ∈ trim url, isControl c = false := by simpa using hcontrol
  refine ⟨fun hnil ↦ ?_, fun hmem ↦ ?_, fun hmem ↦ ?_⟩
  · rw [hnil] at hstart
    exact hstart rfl
  · have := hclean _ hmem
    cases this
  · have := hclean _ hmem
    cases this

theorem toBase36_clean (n : ℕ) : toBase36 n ≠ [] ∧ '\t' ∉ toBase36 n ∧ '\n' ∉ toBase36 n := by
  have hclean : '\t' ∉ '0' :: base36 ∧ '\n' ∉ '0' :: base36 := by decide +kernel
  have hdigit : ∀ d, base36.getD d '0' ≠ '\t' ∧ base36.getD d '0' ≠ '\n' := by
    intro d
    have hmem : base36.getD d '0' ∈ '0' :: base36 := by
      rw [List.getD_eq_getElem?_getD]
      cases hd : base36[d]? with
      | none => exact List.mem_cons_self
      | some c => exact List.mem_cons_of_mem _ (List.mem_of_getElem? hd)
    exact ⟨fun h ↦ hclean.1 (h ▸ hmem), fun h ↦ hclean.2 (h ▸ hmem)⟩
  unfold toBase36
  split_ifs with hn
  · simp
  · refine ⟨by simpa using Nat.digits_ne_nil_iff_ne_zero.mpr hn, fun hmem ↦ ?_, fun hmem ↦ ?_⟩
    · obtain ⟨d, -, hd⟩ := List.mem_map.mp (List.mem_reverse.mp hmem)
      exact (hdigit d).1 hd
    · obtain ⟨d, -, hd⟩ := List.mem_map.mp (List.mem_reverse.mp hmem)
      exact (hdigit d).2 hd

theorem modifyFirst_clean {id : Text} {f : Rule → Rule} (hf : ∀ r : Rule, r.Clean → (f r).Clean)
    {rules rules' : List Rule} (h : modifyFirst id f rules = some rules') (hclean : ∀ r ∈ rules, r.Clean) :
    ∀ r ∈ rules', r.Clean := by
  induction rules generalizing rules' with
  | nil => cases h
  | cons r rules ih =>
    obtain ⟨hr, hrules⟩ := List.forall_mem_cons.mp hclean
    rw [modifyFirst] at h
    split_ifs at h
    · cases h
      exact List.forall_mem_cons.mpr ⟨hf r hr, hrules⟩
    · obtain ⟨rest, hrest, rfl⟩ := Option.map_eq_some_iff.mp h
      exact List.forall_mem_cons.mpr ⟨hr, ih hrest hrules⟩

theorem Call.apply_clean {c : Call} {nanos : ℕ} {rules rules' : List Rule}
    (h : c.apply nanos rules = .ok rules') (hv : ∀ v ∈ c.threshold, OneDecimal v)
    (hclean : ∀ r ∈ rules, r.Clean) : ∀ r ∈ rules', r.Clean := by
  cases c with
  | add metric threshold webhookUrl =>
    simp only [Call.apply] at h
    cases hval : validate metric threshold webhookUrl with
    | error e =>
      rw [hval] at h
      cases h
    | ok x =>
      obtain ⟨m, u⟩ := x
      simp only [hval] at h
      split_ifs at h
      cases h
      exact List.forall_mem_append.mpr ⟨hclean, List.forall_mem_singleton.mpr
        ⟨toBase36_clean nanos, validate_ok hval, hv threshold rfl⟩⟩
  | update id metric threshold webhookUrl =>
    simp only [Call.apply] at h
    cases hval : validate metric threshold webhookUrl with
    | error e =>
      rw [hval] at h
      cases h
    | ok x =>
      obtain ⟨m, u⟩ := x
      simp only [hval] at h
      split at h
      · cases h
      · rename_i hmod
        cases h
        refine modifyFirst_clean ?_ hmod hclean
        exact fun r hr ↦ ⟨hr.id, validate_ok hval, hv threshold rfl⟩
  | setPaused id paused =>
    simp only [Call.apply] at h
    split at h
    · cases h
    · rename_i hmod
      cases h
      refine modifyFirst_clean ?_ hmod hclean
      exact fun r hr ↦ ⟨hr.id, hr.url, hr.threshold⟩
  | remove id =>
    simp only [Call.apply] at h
    split_ifs at h
    cases h
    exact fun r hr ↦ hclean r (List.mem_of_mem_filter hr)

theorem parse_clean {text : Text} (h : ∀ r ∈ parse text, OneDecimal r.threshold) :
    ∀ r ∈ parse text, r.Clean := by
  intro r hr
  obtain ⟨line, hline, hrow⟩ := List.mem_filterMap.mp hr
  have hnl := newline_notMem_of_mem_lines hline
  have hcolumn : ∀ column ∈ line.splitOn '\t', '\t' ∉ column ∧ '\n' ∉ column := fun column hcol ↦
    ⟨fun hmem ↦ (mem_of_mem_splitOn hcol _ hmem).2 rfl, fun hmem ↦ hnl (mem_of_mem_splitOn hcol _ hmem).1⟩
  unfold parseLine at hrow
  split at hrow
  · rename_i id metric threshold url rest hsplit
    rw [hsplit] at hcolumn
    split at hrow
    · split_ifs at hrow with hempty
      cases hrow
      rw [not_or] at hempty
      exact ⟨⟨hempty.1, hcolumn id (by simp)⟩, ⟨hempty.2, hcolumn url (by simp)⟩, h _ hr⟩
    · cases hrow
  · cases hrow

end PgVmPool.Alerts
