import PgVmPool.Credentials

namespace PgVmPool.Guest

open Dedicated (isWhitespace trim)

inductive JobState
  | running | succeeded
  | failed (code : ℤ)
  deriving DecidableEq

def probeTag : List Char := "HEYOJOB:".toList

/-- The second half of `str::rsplit_once`: what follows the last occurrence of `tag`. -/
def afterLast (tag : List Char) : List Char → Option (List Char)
  | [] => tag.isPrefixOf? []
  | c :: cs => (afterLast tag cs).or (tag.isPrefixOf? (c :: cs))

/-- `str::parse::<i32>`: an optional sign, at least one digit, no overflow. -/
def parseI32 (cs : List Char) : Option ℤ :=
  let digits := if cs.head? = some '+' ∨ cs.head? = some '-' then cs.tail else cs
  let n : ℤ := Nat.ofDigitChars 10 digits 0
  let value := if cs.head? = some '-' then -n else n
  if digits ≠ [] ∧ digits.all (·.isDigit) = true ∧ -2 ^ 31 ≤ value ∧ value < 2 ^ 31 then some value
  else none

def framed (reply : List Char) : Bool := reply.head? = some 'D' || reply.head? = some 'P'

/-- The last framed reply wins; what cannot be read says that the job is running. -/
def parseProbe (stdout : List Char) : JobState :=
  match (((lines stdout).filterMap fun l ↦ afterLast probeTag (trim l)).filter framed).getLast? with
  | none => .running
  | some reply =>
    if reply.head? = some 'D' then
      match parseI32 (trim reply.tail) with
      | some code => if code = 0 then .succeeded else .failed code
      | none => .failed (-1)
    else .running

/-- What a probe command prints when the guest runs it. -/
inductive Reply
  | pending
  | done (code : UInt8)
  deriving DecidableEq

namespace Reply

def text : Reply → List Char
  | .pending => ['P']
  | .done code => 'D' :: Nat.toDigits 10 code.toNat

def state : Reply → JobState
  | .pending => .running
  | .done code => if code = 0 then .succeeded else .failed code.toNat

end Reply

/-- A line of the shared console: a probe's reply, after what else was on the line, or something else. -/
structure Line where
  noise : List Char
  reply : Option Reply
  cr : Bool
  whole : '\n' ∉ noise
  untagged : ¬ probeTag <:+: noise

def Line.text (l : Line) : List Char :=
  l.noise ++ l.reply.elim [] fun r ↦ probeTag ++ r.text ++ if l.cr then ['\r'] else []

def render (ls : List Line) : List Char := ls.flatMap fun l ↦ l.text ++ ['\n']

section AfterLast

variable {tag l r : List Char}

theorem isPrefixOf?_suffix (h : tag.isPrefixOf? l = some r) : tag ++ r = l := by
  induction tag generalizing l with
  | nil => exact (Option.some_inj.mp h).symm
  | cons c cs ih =>
    cases l with
    | nil => cases h
    | cons d ds =>
      simp only [List.isPrefixOf?, beq_iff_eq, Option.ite_none_right_eq_some] at h
      obtain ⟨rfl, h⟩ := h
      exact congrArg (c :: ·) (ih h)

theorem isPrefixOf?_append : tag.isPrefixOf? (tag ++ r) = some r := by
  induction tag with
  | nil => rfl
  | cons c cs ih => simp [List.isPrefixOf?, ih]

theorem afterLast_suffix (h : afterLast tag l = some r) : tag ++ r <:+ l := by
  induction l with
  | nil => exact (isPrefixOf?_suffix h).symm ▸ List.suffix_rfl
  | cons c cs ih =>
    rcases Option.or_eq_some_iff.mp h with h | ⟨-, h⟩
    · exact (ih h).trans (List.suffix_cons c cs)
    · exact (isPrefixOf?_suffix h).symm ▸ List.suffix_rfl

theorem afterLast_eq_none (h : ¬ tag <:+: l) : afterLast tag l = none := by
  cases hr : afterLast tag l with
  | none => rfl
  | some r => exact absurd ((List.prefix_append tag r).isInfix.trans (afterLast_suffix hr).isInfix) h

theorem afterLast_append (m : List Char) (h : afterLast tag l = some r) :
    afterLast tag (m ++ l) = some r := by
  induction m with
  | nil => exact h
  | cons c cs ih => simp [afterLast, ih]

theorem afterLast_cons_append {c : Char} {cs : List Char} (h : c ∉ cs ++ r) :
    afterLast (c :: cs) (c :: cs ++ r) = some r := by
  have hnone : afterLast (c :: cs) (cs ++ r) = none :=
    afterLast_eq_none fun hin ↦ h (hin.subset List.mem_cons_self)
  have hpre : (c :: cs).isPrefixOf? (c :: (cs ++ r)) = some r := isPrefixOf?_append
  rw [List.cons_append, afterLast, hnone, Option.none_or, hpre]

end AfterLast

section Trim

variable {l m : List Char}

theorem trim_within (l : List Char) : trim l <:+: l := by
  have h := List.dropWhile_suffix (l := (l.dropWhile isWhitespace).reverse) isWhitespace
  have hpre : trim l <+: l.dropWhile isWhitespace := by
    simpa [trim] using List.reverse_prefix.mpr h
  exact hpre.isInfix.trans (List.dropWhile_suffix isWhitespace).isInfix

theorem trim_append (hhead : ∀ c, m.head? = some c → isWhitespace c = false)
    (hlast : ∀ c, m.getLast? = some c → isWhitespace c = false) (hne : m ≠ []) :
    ∃ k, trim (l ++ m) = k ++ m := by
  have hdrop : m.dropWhile isWhitespace = m := by
    cases m with
    | nil => rfl
    | cons c cs => simp [List.dropWhile, hhead c rfl]
  have hrev : ∀ k : List Char, (k ++ m).reverse.dropWhile isWhitespace = (k ++ m).reverse := by
    intro k
    cases hm : m.reverse with
    | nil => exact absurd (List.reverse_eq_nil_iff.mp hm) hne
    | cons c cs =>
      have hc : m.getLast? = some c := by rw [List.getLast?_eq_head?_reverse, hm, List.head?_cons]
      simp [hm, hlast c hc]
  rw [trim, List.dropWhile_append]
  split
  · exact ⟨[], by rw [hdrop]; simpa using congrArg List.reverse (hrev [])⟩
  · exact ⟨_, by rw [hrev, List.reverse_reverse]⟩

theorem trim_clean (h : ∀ c ∈ l, isWhitespace c = false) : trim l = l := by
  have hdrop : ∀ k : List Char, (∀ c ∈ k, isWhitespace c = false) → k.dropWhile isWhitespace = k := by
    intro k hk
    cases k with
    | nil => rfl
    | cons c cs => simp [hk c List.mem_cons_self]
  rw [trim, hdrop l h, hdrop l.reverse fun c hc ↦ h c (List.mem_reverse.mp hc), List.reverse_reverse]

theorem isWhitespace_of_isDigit {c : Char} (h : c.isDigit = true) : isWhitespace c = false := by
  simp only [Char.isDigit, Bool.and_eq_true, decide_eq_true_eq, ge_iff_le, UInt32.le_iff_toNat_le] at h
  have hlo : 48 ≤ c.toNat := h.1
  have hhi : c.toNat ≤ 57 := h.2
  simp only [isWhitespace, Bool.or_eq_false_iff, Bool.and_eq_false_iff, decide_eq_false_iff_not]
  omega

end Trim

namespace Reply

variable (r : Reply)

theorem mem_text {c : Char} (h : c ∈ r.text) : c = 'P' ∨ c = 'D' ∨ c.isDigit = true := by
  cases r with
  | pending => exact .inl (List.mem_singleton.mp h)
  | done code =>
    rcases List.mem_cons.mp h with rfl | h
    · exact .inr (.inl rfl)
    · exact .inr (.inr (Nat.isDigit_of_mem_toDigits (by decide) (by decide) h))

theorem whitespace_of_mem_text {c : Char} (h : c ∈ r.text) : isWhitespace c = false := by
  rcases mem_text r h with rfl | rfl | h
  · decide
  · decide
  · exact isWhitespace_of_isDigit h

theorem text_ne_nil : r.text ≠ [] := by
  cases r <;> simp [text]

theorem notMem_text {c : Char} (hP : c ≠ 'P') (hD : c ≠ 'D') (hc : c.isDigit = false) : c ∉ r.text := by
  intro h
  rcases mem_text r h with rfl | rfl | h
  · exact hP rfl
  · exact hD rfl
  · exact absurd (hc.symm.trans h) (by decide)

theorem framed_text : framed r.text = true := by
  cases r <;> rfl

theorem parseI32_digits (n : UInt8) : parseI32 (trim (Nat.toDigits 10 n.toNat)) = some (n.toNat : ℤ) := by
  have hdig : ∀ c ∈ Nat.toDigits 10 n.toNat, c.isDigit = true := fun c hc ↦
    Nat.isDigit_of_mem_toDigits (by decide) (by decide) hc
  have hne : Nat.toDigits 10 n.toNat ≠ [] := Nat.toDigits_ne_nil
  have htrim : trim (Nat.toDigits 10 n.toNat) = Nat.toDigits 10 n.toNat :=
    trim_clean fun c hc ↦ isWhitespace_of_isDigit (hdig c hc)
  have hsign : ∀ c, c.isDigit = false → (Nat.toDigits 10 n.toNat).head? ≠ some c := by
    intro c hc h
    exact absurd (hc.symm.trans (hdig c (List.mem_of_mem_head? h))) (by decide)
  have hval : Nat.ofDigitChars 10 (Nat.toDigits 10 n.toNat) 0 = n.toNat := Nat.ofDigitChars_ten_toDigits
  have hlt : (n.toNat : ℤ) < 2 ^ 31 := by
    have := n.toNat_lt
    omega
  simp only [parseI32, htrim, hsign '+' (by decide), hsign '-' (by decide), or_self, if_false, hval]
  rw [if_pos ⟨hne, List.all_eq_true.mpr hdig, by omega, hlt⟩]

theorem parseProbe_reply : (if r.text.head? = some 'D' then
      match parseI32 (trim r.text.tail) with
      | some code => if code = 0 then .succeeded else .failed code
      | none => .failed (-1)
    else .running) = r.state := by
  cases r with
  | pending => rfl
  | done code =>
    have hzero : ((code.toNat : ℤ) = 0) = (code = 0) := by
      rw [Nat.cast_eq_zero, ← UInt8.toNat_inj, UInt8.toNat_zero]
    simp only [text, List.head?_cons, List.tail_cons, parseI32_digits, if_true, state, hzero]

end Reply

section Lines

variable (l : Line) (ls : List Line)

/-- The line as `str::lines` gives it. -/
def Line.read : List Char := if l.text.getLast? = some '\r' then l.text.dropLast else l.text

theorem newline_notMem_text : '\n' ∉ l.text := by
  intro h
  rcases List.mem_append.mp h with h | h
  · exact l.whole h
  · cases hr : l.reply with
    | none => simp [hr] at h
    | some r =>
      simp only [hr, Option.elim_some, List.mem_append] at h
      rcases h with (h | h) | h
      · exact absurd h (by decide)
      · exact r.notMem_text (by decide) (by decide) (by decide) h
      · cases hc : l.cr <;> simp [hc] at h

theorem read_reply {r : Reply} (hr : l.reply = some r) : l.read = l.noise ++ (probeTag ++ r.text) := by
  have hlast : (l.noise ++ (probeTag ++ r.text)).getLast? ≠ some '\r' := by
    rw [← List.append_assoc, List.getLast?_append_of_ne_nil _ r.text_ne_nil]
    intro h
    exact r.notMem_text (by decide) (by decide) (by decide) (List.mem_of_getLast? h)
  cases hc : l.cr with
  | false =>
    have htext : l.text = l.noise ++ (probeTag ++ r.text) := by simp [Line.text, hr, hc]
    rw [Line.read, htext, if_neg hlast]
  | true =>
    have htext : l.text = l.noise ++ (probeTag ++ r.text) ++ ['\r'] := by simp [Line.text, hr, hc]
    rw [Line.read, htext, List.getLast?_concat, if_pos rfl, List.dropLast_concat]

theorem afterLast_read : afterLast probeTag (trim l.read) = l.reply.map Reply.text := by
  cases hr : l.reply with
  | none =>
    have htext : l.text = l.noise := by simp [Line.text, hr]
    have hpre : l.read <+: l.noise := by
      rw [Line.read, htext]
      split
      · exact List.dropLast_prefix l.noise
      · exact List.prefix_refl l.noise
    exact afterLast_eq_none fun h ↦ l.untagged (h.trans ((trim_within l.read).trans hpre.isInfix))
  | some r =>
    have hH : 'H' ∉ "EYOJOB:".toList ++ r.text := by
      intro h
      rcases List.mem_append.mp h with h | h
      · exact absurd h (by decide)
      · exact r.notMem_text (by decide) (by decide) (by decide) h
    have hlast : ∀ c, (probeTag ++ r.text).getLast? = some c → isWhitespace c = false := by
      intro c hc
      rw [List.getLast?_append_of_ne_nil _ r.text_ne_nil] at hc
      exact r.whitespace_of_mem_text (List.mem_of_getLast? hc)
    have hhead : ∀ c, (probeTag ++ r.text).head? = some c → isWhitespace c = false := by
      intro c hc
      obtain rfl : 'H' = c := Option.some_inj.mp hc
      decide
    obtain ⟨k, hk⟩ := trim_append (l := l.noise) hhead hlast
      (List.append_ne_nil_of_right_ne_nil _ r.text_ne_nil)
    rw [read_reply l hr, hk]
    exact afterLast_append k (afterLast_cons_append hH)

theorem lines_render : lines (render ls) = ls.map Line.read := by
  rw [lines, render, splitOn_flatMap_lines fun l _ ↦ newline_notMem_text l]
  simp [Line.read, List.map_map, Function.comp_def]

/-- The last reply in the console's output decides, whoever asked for it. -/
theorem parseProbe_render :
    parseProbe (render ls) = ((ls.filterMap Line.reply).getLast?).elim .running Reply.state := by
  have hreplies : (((ls.map Line.read).filterMap fun l ↦ afterLast probeTag (trim l)).filter framed) =
      (ls.filterMap Line.reply).map Reply.text := by
    simp only [List.filterMap_map, Function.comp_def, afterLast_read, List.map_filterMap]
    refine List.filter_eq_self.mpr fun t ht ↦ ?_
    obtain ⟨l, -, hl⟩ := List.mem_filterMap.mp ht
    obtain ⟨r, -, rfl⟩ := Option.map_eq_some_iff.mp hl
    exact r.framed_text
  rw [parseProbe, lines_render, hreplies, List.getLast?_map]
  cases (ls.filterMap Line.reply).getLast? with
  | none => rfl
  | some r => exact r.parseProbe_reply

end Lines

end PgVmPool.Guest
