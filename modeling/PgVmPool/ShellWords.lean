import PgVmPool.Transducer

namespace PgVmPool.Sh

open Transducer

abbrev Text := List Char

/-- A word of a command. With an expansion in it, the text is not its value. -/
structure Word where
  text : Text
  literal : Bool
  quoted : Bool
  deriving DecidableEq

namespace Word

def empty : Word := ⟨[], true, false⟩

def put (w : Word) (c : Char) : Word := { w with text := w.text ++ [c] }

def quote (w : Word) : Word := { w with quoted := true }

def expand (w : Word) : Word := { w with literal := false }

/-- The words that open and close the compound commands, and are no commands of their own. -/
def reserved (w : Word) : Bool :=
  w.literal && !w.quoted && decide (String.ofList w.text ∈ ["if", "then", "else", "elif", "fi", "while", "until",
    "do", "done", "esac", "\x7b", "\x7d", "!"])

/-- The number in front of a redirection, as in `2>`. -/
def descriptor (w : Word) : Bool := w.literal && !w.quoted && w.text.all (·.isDigit)

end Word

abbrev Command := List Word

inductive Mode
  | plain | escape | dollar | comment
  | single
  | double | doubleEscape | doubleDollar
  deriving DecidableEq

/-- How far a text is read: the word that was begun, whether it is the file of a redirection, and the
words of its command that stand before it. -/
structure Reading where
  mode : Mode
  word : Option Word
  redirect : Bool
  args : Command
  deriving DecidableEq

namespace Reading

def start : Reading := ⟨.plain, none, false, []⟩

def current (r : Reading) : Word := r.word.getD .empty

def put (r : Reading) (c : Char) : Reading := { r with word := some (r.current.put c) }

def quote (r : Reading) (m : Mode) : Reading := { r with mode := m, word := some r.current.quote }

def endWord (r : Reading) : Reading :=
  match r.word with
  | none => r
  | some w =>
    if r.redirect then { r with word := none, redirect := false }
    else if r.args = [] ∧ w.reserved then { r with word := none }
    else { r with word := none, args := r.args ++ [w] }

def command (r : Reading) : List Command := if r.endWord.args = [] then [] else [r.endWord.args]

end Reading

/-- A text with the texts around it whose command substitutions are being read, the innermost first. -/
structure State where
  inner : Reading
  outer : List Reading
  deriving DecidableEq

def State.start : State := ⟨.start, []⟩

/-- Outside of quotes. What is left out of the language (backquotes, parameters in braces, subshells,
here-documents within a job) is not read. -/
def plainStep (s : State) (c : Char) : Option (List Command × State) :=
  let r := s.inner
  let read (r : Reading) : Option (List Command × State) := some ([], { s with inner := r })
  if c = '\x00' ∨ c = '`' ∨ c = '(' then none
  else if c = '\'' then read (r.quote .single)
  else if c = '"' then read (r.quote .double)
  else if c = '\\' then read { r with mode := .escape }
  else if c = '$' then read { r with mode := .dollar }
  else if c = ' ' ∨ c = '\t' then read r.endWord
  else if c = '<' ∨ c = '>' then
    if r.redirect ∧ r.word = none then if c = '<' then none else read r
    else if r.word.any Word.descriptor then read { r with word := none, redirect := true }
    else read { r.endWord with redirect := true }
  else if c = '&' ∧ r.redirect ∧ r.word = none then read r
  else if c = '\n' ∨ c = ';' ∨ c = '|' ∨ c = '&' then some (r.command, { s with inner := .start })
  else if c = ')' then
    match s.outer with
    | [] => some (r.command, { s with inner := .start })
    | r' :: outer => some (r.command, ⟨r', outer⟩)
  else if c = '#' ∧ r.word = none then read { r with mode := .comment }
  else read (r.put c)

def doubleStep (s : State) (c : Char) : Option (List Command × State) :=
  let r := s.inner
  let read (r : Reading) : Option (List Command × State) := some ([], { s with inner := r })
  if c = '\x00' ∨ c = '`' then none
  else if c = '"' then read { r with mode := .plain }
  else if c = '\\' then read { r with mode := .doubleEscape }
  else if c = '$' then read { r with mode := .doubleDollar }
  else read (r.put c)

/-- Behind a dollar sign: a command substitution, or an expansion whose name counts as text. -/
def dollarStep (s : State) (m : Mode) (c : Char) (other : State → Char → Option (List Command × State)) :
    Option (List Command × State) :=
  let r : Reading := { s.inner with mode := m, word := some s.inner.current.expand }
  if c = '(' then some ([], ⟨.start, r :: s.outer⟩)
  else if c = '{' ∨ c = '\'' then none
  else other { s with inner := r } c

def step (s : State) (c : Char) : Option (List Command × State) :=
  let r := s.inner
  let read (r : Reading) : Option (List Command × State) := some ([], { s with inner := r })
  match r.mode with
  | .plain => plainStep s c
  | .escape =>
    if c = '\x00' then none
    else if c = '\n' then read { r with mode := .plain }
    else read { (r.quote .plain) with word := some (r.current.quote.put c) }
  | .dollar => dollarStep s .plain c plainStep
  | .comment => if c = '\n' then some (r.command, { s with inner := .start }) else read r
  | .single =>
    if c = '\x00' then none
    else if c = '\'' then read { r with mode := .plain }
    else read (r.put c)
  | .double => doubleStep s c
  | .doubleEscape =>
    if c = '\x00' then none
    else if c = '\n' then read { r with mode := .double }
    else if c = '$' ∨ c = '`' ∨ c = '"' ∨ c = '\\' then read { r.put c with mode := .double }
    else read { (r.put '\\').put c with mode := .double }
  | .doubleDollar => dollarStep s .double c doubleStep

/-- The simple commands of a script, in the order in which they end. A pattern of a `case` counts as a
command. -/
def commands (text : Text) : Option (List Command) :=
  (run step .start text).bind fun r ↦
    if r.2.inner.mode = .plain ∧ r.2.outer = [] then some (r.1 ++ r.2.inner.command) else none

def Command.argv (c : Command) : Option (List Text) := c.mapM fun w ↦ if w.literal then some w.text else none

end PgVmPool.Sh

namespace PgVmPool

open Sh Transducer

def shellSquote (s : Text) : Text :=
  '\'' :: (s.flatMap (fun c ↦ if c = '\'' then "'\\''".toList else [c]) ++ ['\''])

namespace Sh

/-- Between words of a command, with the words `args` before. -/
def State.between (args : Command) (outer : List Reading) : State := ⟨⟨.plain, none, false, args⟩, outer⟩

/-- Within single quotes, `s` of the word being read. -/
def State.inSingle (args : Command) (outer : List Reading) (s : Text) : State :=
  ⟨⟨.single, some ⟨s, true, true⟩, false, args⟩, outer⟩

/-- Behind a quoted word `s` that may go on. -/
def State.afterQuote (args : Command) (outer : List Reading) (s : Text) : State :=
  ⟨⟨.plain, some ⟨s, true, true⟩, false, args⟩, outer⟩

variable {args : Command} {outer : List Reading} {s rest : Text}

/-- An embedded quote leaves the quotes, is read behind a backslash, and enters them again. -/
theorem run_squote_char {c : Char} (hc : c ≠ '\x00') (args : Command) (outer : List Reading) (xs : Text) :
    run step (.inSingle args outer xs) (if c = '\'' then "'\\''".toList else [c]) =
      some ([], .inSingle args outer (xs ++ [c])) := by
  by_cases hq : c = '\''
  · subst hq
    rfl
  · have hstep : step (.inSingle args outer xs) c = some ([], .inSingle args outer (xs ++ [c])) := by
      simp only [State.inSingle, step, if_neg hc, if_neg hq]
      rfl
    rw [if_neg hq, run_cons_silent hstep, run_nil]

theorem run_shellSquote (hs : '\x00' ∉ s) (args : Command) (outer : List Reading) :
    run step (.between args outer) (shellSquote s) = some ([], .afterQuote args outer s) := by
  have hbody : run step (.inSingle args outer [])
      (s.flatMap fun c ↦ if c = '\'' then "'\\''".toList else [c]) = some ([], .inSingle args outer s) := by
    refine run_flatMap (State.inSingle args outer) (fun c hc xs ↦ ?_) []
    exact run_squote_char (fun h ↦ hs (h ▸ hc)) args outer xs
  have hopen : step (.between args outer) '\'' = some ([], .inSingle args outer []) := rfl
  have hclose : step (.inSingle args outer s) '\'' = some ([], .afterQuote args outer s) := rfl
  rw [shellSquote, run_cons_silent hopen, run_append_silent hbody, run_cons_silent hclose, run_nil]

theorem step_afterQuote (args : Command) (outer : List Reading) (s : Text) :
    step (.afterQuote args outer s) ' ' = some ([], .between (args ++ [⟨s, true, true⟩]) outer) := by
  have hword : ¬(args = [] ∧ (⟨s, true, true⟩ : Word).reserved = true) := by simp [Word.reserved]
  simp [State.afterQuote, step, plainStep, Reading.endWord, State.between, hword]

/-- A quoted text is one word, all of it and nothing more, at the end of a script and before a blank, and
behind any words. -/
theorem shellSquote_one_word (hs : '\x00' ∉ s) :
    (commands (shellSquote s)).map (·.map Command.argv) = some [some [s]] ∧
      ∀ args outer rest, run step (.between args outer) (shellSquote s ++ ' ' :: rest) =
        run step (.between (args ++ [⟨s, true, true⟩]) outer) rest := by
  constructor
  · have hword : (⟨s, true, true⟩ : Word).reserved = false := by simp [Word.reserved]
    have hrun := run_shellSquote hs [] []
    rw [commands, show State.start = .between [] [] from rfl, hrun]
    simp [State.afterQuote, Reading.command, Reading.endWord, hword, Command.argv]
  · intro args outer rest
    rw [run_append_silent (run_shellSquote hs args outer), run_cons_silent (step_afterQuote args outer s)]

theorem shellSquote_one_word_injected :
    (commands (shellSquote "x'; rm -rf / #".toList)).map (·.map Command.argv) =
        some [some ["x'; rm -rf / #".toList]] ∧
      run step (.between [] []) (shellSquote "x'; rm -rf / #".toList ++ " ' \"".toList) =
        run step (.between [⟨"x'; rm -rf / #".toList, true, true⟩] []) "' \"".toList := by
  obtain ⟨hall, hrest⟩ := shellSquote_one_word (s := "x'; rm -rf / #".toList) (by decide)
  exact ⟨hall, hrest [] [] "' \"".toList⟩

end Sh

end PgVmPool
