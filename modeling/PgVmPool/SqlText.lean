import PgVmPool.Transducer

namespace PgVmPool.Sql

open Transducer

abbrev Text := List Char

/-- What PostgreSQL's lexer makes of a statement. Keywords and plain names are folded to lower case. A
name is given here as it is written; the server cuts it to 63 bytes afterwards. -/
inductive Token
  | word (text : Text)
  | ident (name : Text)
  | literal (value : Text)
  deriving DecidableEq

inductive Quote
  | ident | literal
  deriving DecidableEq

def Quote.char : Quote → Char
  | .ident => '"'
  | .literal => '\''

/-- A quoted name has at least one letter. -/
def Quote.token : Quote → Text → Option Token
  | .ident, t => if t = [] then none else some (.ident t)
  | .literal, t => some (.literal t)

/-- `closing` is behind a quote that ends the token unless another one follows. -/
inductive State
  | between
  | word (text : Text)
  | quoted (q : Quote) (text : Text)
  | closing (q : Quote) (text : Text)
  deriving DecidableEq

def isSpace (c : Char) : Bool := c = ' ' || c = '\t' || c = '\n' || c = '\r' || c = '\x0b' || c = '\x0c'

def isIdentStart (c : Char) : Bool := c.isAlpha || c = '_' || 0x80 ≤ c.toNat

def isIdentCont (c : Char) : Bool := isIdentStart c || c.isDigit || c = '$'

/-- Between tokens. Numbers, operators, comments and parameters are left out: what begins with another
character is not read. -/
def begin (c : Char) : Option State :=
  if isSpace c then some .between
  else if c = '"' then some (.quoted .ident [])
  else if c = '\'' then some (.quoted .literal [])
  else if isIdentStart c then some (.word [c])
  else none

/-- With `standard_conforming_strings` a backslash in a literal is a letter like any other. A quote right
behind a word would give the literal another meaning, and is not read. -/
def step : State → Char → Option (List Token × State)
  | .between, c => (begin c).map fun s ↦ ([], s)
  | .word t, c =>
    if isIdentCont c then some ([], .word (t ++ [c]))
    else if c = '"' ∨ c = '\'' then none
    else (begin c).map fun s ↦ ([.word (t.map Char.toLower)], s)
  | .quoted q t, c =>
    if c = '\x00' then none
    else if c = q.char then some ([], .closing q t)
    else some ([], .quoted q (t ++ [c]))
  | .closing q t, c =>
    if c = q.char then some ([], .quoted q (t ++ [c]))
    else (q.token t).bind fun token ↦ (begin c).map fun s ↦ ([token], s)

def State.finish : State → Option (List Token)
  | .between => some []
  | .word t => some [.word (t.map Char.toLower)]
  | .quoted _ _ => none
  | .closing q t => (q.token t).map fun token ↦ [token]

def lex (text : Text) : Option (List Token) :=
  (run step .between text).bind fun r ↦ r.2.finish.map fun tokens ↦ r.1 ++ tokens

/-- `s.replace(q, "qq")`. -/
def double (q : Char) (s : Text) : Text := s.flatMap fun c ↦ if c = q then [q, q] else [c]

def quoteIdent (s : Text) : Text := '"' :: (double '"' s ++ ['"'])

/-- What of a `Credential` goes into the statements. -/
structure Credential where
  role : Text
  password : Text
  deriving DecidableEq

def roleDdl (cred : Credential) (found : Bool) : Text :=
  let verb := if found then "ALTER".toList else "CREATE".toList
  let literal := double '\'' cred.password
  verb ++ " ROLE ".toList ++ quoteIdent cred.role ++
    " WITH LOGIN NOSUPERUSER NOCREATEDB NOCREATEROLE PASSWORD '".toList ++ literal ++ "'".toList

/-- What `ensure_database` has the server run, besides its queries with parameters. -/
inductive Statement
  | provision (cred : Credential) (found : Bool)
  | create (schema : Text) (owner : Option Text)
  | giveTo (schema role : Text)
  deriving DecidableEq

def owned (owner : Option Text) : Text := owner.elim [] fun role ↦ " OWNER ".toList ++ quoteIdent role

def Statement.text : Statement → Text
  | .provision cred found => roleDdl cred found
  | .create schema owner => "CREATE DATABASE ".toList ++ quoteIdent schema ++ owned owner
  | .giveTo schema role =>
    "ALTER DATABASE ".toList ++ quoteIdent schema ++ " OWNER TO ".toList ++ quoteIdent role

/-- The server's answers to the queries of a bring-up. -/
structure Catalog where
  role : Text → Bool
  database : Text → Bool
  owns : Text → Text → Bool

def ensureRole (has : Catalog) (cred : Credential) : Statement := .provision cred (has.role cred.role)

def ensureDatabase (has : Catalog) (schema : Text) (owner : Option Credential) : List Statement :=
  (owner.map (ensureRole has)).toList ++
    if !has.database schema then [.create schema (owner.map Credential.role)]
    else match owner with
      | some cred => if !has.owns schema cred.role then [.giveTo schema cred.role] else []
      | none => []

def words (text : String) : List Token := (text.toList.splitOn ' ').map Token.word

def ownedTokens : Option Text → List Token
  | some role => words "owner" ++ [.ident role]
  | none => []

/-- A statement as it is meant: the keywords, each name as one identifier and the password as one
literal. -/
def Statement.tokens : Statement → List Token
  | .provision cred found =>
    (if found then words "alter role" else words "create role") ++ .ident cred.role ::
      (words "with login nosuperuser nocreatedb nocreaterole password" ++ [.literal cred.password])
  | .create schema owner => words "create database" ++ .ident schema :: ownedTokens owner
  | .giveTo schema role => words "alter database" ++ .ident schema :: (words "owner to" ++ [.ident role])

/-- A name that the server can be sent. -/
def Named (s : Text) : Prop := s ≠ [] ∧ '\x00' ∉ s

instance (s : Text) : Decidable (Named s) := inferInstanceAs (Decidable (_ ∧ _))

def Credential.Sendable (cred : Credential) : Prop := Named cred.role ∧ '\x00' ∉ cred.password

def Statement.Sendable : Statement → Prop
  | .provision cred _ => cred.Sendable
  | .create schema owner => Named schema ∧ ∀ role ∈ owner, Named role
  | .giveTo schema role => Named schema ∧ Named role

variable {s rest : Text} {q : Quote} {out : List Token} {st : State}

theorem run_double_char {c : Char} (hc : c ≠ '\x00') (q : Quote) (xs : Text) :
    run step (.quoted q xs) (if c = q.char then [q.char, q.char] else [c]) =
      some ([], .quoted q (xs ++ [c])) := by
  have hq : q.char ≠ '\x00' := by cases q <;> decide
  by_cases h : c = q.char
  · have hclose : step (.quoted q xs) q.char = some ([], .closing q xs) := by
      simp only [step, if_neg hq, if_true]
    have hagain : step (.closing q xs) q.char = some ([], .quoted q (xs ++ [q.char])) := by
      simp only [step, if_true]
    rw [if_pos h, h, run_cons_silent hclose, run_cons_silent hagain, run_nil]
  · have hread : step (.quoted q xs) c = some ([], .quoted q (xs ++ [c])) := by
      simp only [step, if_neg hc, if_neg h]
    rw [if_neg h, run_cons_silent hread, run_nil]

/-- Whatever quotes it has in it, a doubled text is read up to the quote that closes it. -/
theorem run_double (hs : '\x00' ∉ s) (q : Quote) :
    run step (.quoted q []) (double q.char s ++ [q.char]) = some ([], .closing q s) := by
  have hq : q.char ≠ '\x00' := by cases q <;> decide
  have hbody : run step (.quoted q []) (double q.char s) = some ([], .quoted q s) :=
    run_flatMap (State.quoted q) (fun c hc xs ↦ run_double_char (fun h ↦ hs (h ▸ hc)) q xs) []
  have hclose : step (.quoted q s) q.char = some ([], .closing q s) := by
    simp only [step, if_neg hq, if_true]
  rw [run_append_silent hbody, run_cons_silent hclose, run_nil]

theorem run_quoteIdent (hs : Named s) : run step .between (quoteIdent s) = some ([], .closing .ident s) := by
  have hopen : step .between '"' = some ([], .quoted .ident []) := rfl
  rw [quoteIdent, run_cons_silent hopen]
  exact run_double hs.2 .ident

theorem run_ident_blank (hs : Named s) (h : run step .between rest = some (out, st)) :
    run step .between (quoteIdent s ++ ' ' :: rest) = some (.ident s :: out, st) := by
  have hblank : step (.closing .ident s) ' ' = some ([.ident s], .between) := by
    simp [step, Quote.char, Quote.token, hs.1, begin, isSpace]
  rw [run_append_silent (run_quoteIdent hs)]
  exact run_cons hblank h

theorem lex_of_run (h : run step .between s = some (out, st)) {tokens : List Token}
    (hfinish : st.finish = some tokens) : lex s = some (out ++ tokens) := by
  rw [lex, h, Option.bind_some, hfinish, Option.map_some]

theorem finish_ident (hs : Named s) : (State.closing .ident s).finish = some [.ident s] := by
  simp [State.finish, Quote.token, hs.1]

theorem lex_provision {cred : Credential} (h : cred.Sendable) (found : Bool) :
    lex (roleDdl cred found) = some (Statement.provision cred found).tokens := by
  have hattributes : run step .between "WITH LOGIN NOSUPERUSER NOCREATEDB NOCREATEROLE PASSWORD '".toList =
      some (words "with login nosuperuser nocreatedb nocreaterole password", .quoted .literal []) := by
    decide +kernel
  have hverb : run step .between ((if found then "ALTER".toList else "CREATE".toList) ++ " ROLE ".toList) =
      some (if found then words "alter role" else words "create role", .between) := by
    cases found <;> decide +kernel
  have hname := run_ident_blank h.1 (run_append hattributes (run_double h.2 .literal))
  have hfinish : (State.closing .literal cred.password).finish = some [.literal cred.password] := rfl
  have hall := lex_of_run (run_append hverb hname) hfinish
  have htext : roleDdl cred found =
      ((if found then "ALTER".toList else "CREATE".toList) ++ " ROLE ".toList) ++ (quoteIdent cred.role ++ ' ' ::
        ("WITH LOGIN NOSUPERUSER NOCREATEDB NOCREATEROLE PASSWORD '".toList ++
          (double Quote.literal.char cred.password ++ [Quote.literal.char]))) := by
    simp only [roleDdl, List.append_assoc]
    rfl
  rw [htext, hall, List.append_nil, Statement.tokens, List.append_assoc, List.cons_append]

theorem Statement.text_create (schema : Text) (owner : Option Text) :
    (Statement.create schema owner).text = "CREATE DATABASE ".toList ++ quoteIdent schema ++ owned owner := rfl

theorem Statement.text_giveTo (schema role : Text) : (Statement.giveTo schema role).text =
    "ALTER DATABASE ".toList ++ quoteIdent schema ++ " OWNER TO ".toList ++ quoteIdent role := rfl

theorem lex_create {schema : Text} (h : Named schema) :
    lex (Statement.create schema none).text = some (Statement.create schema none).tokens := by
  have hverb : run step .between "CREATE DATABASE ".toList = some (words "create database", .between) := by
    decide +kernel
  have hall := lex_of_run (run_append hverb (run_quoteIdent h)) (finish_ident h)
  rw [List.append_nil] at hall
  rw [Statement.text_create, Statement.tokens, owned, ownedTokens, Option.elim_none, List.append_nil, hall]

/-- A statement that names a database first and its owner last. -/
theorem lex_owned {schema role : Text} (hschema : Named schema) (hrole : Named role) {front middle : Text}
    {verb link : List Token} (hfront : run step .between front = some (verb, .between))
    (hmiddle : run step .between middle = some (link, .between)) :
    lex (front ++ (quoteIdent schema ++ ' ' :: (middle ++ quoteIdent role))) =
      some (verb ++ .ident schema :: (link ++ [.ident role])) := by
  have hname := run_ident_blank hschema (run_append hmiddle (run_quoteIdent hrole))
  have hall := lex_of_run (run_append hfront hname) (finish_ident hrole)
  rw [hall, List.append_nil, List.append_assoc, List.cons_append]

theorem lex_create_owned {schema role : Text} (hschema : Named schema) (hrole : Named role) :
    lex (Statement.create schema (some role)).text = some (Statement.create schema (some role)).tokens := by
  have hfront : run step .between "CREATE DATABASE ".toList = some (words "create database", .between) := by
    decide +kernel
  have hmiddle : run step .between "OWNER ".toList = some (words "owner", .between) := by decide +kernel
  have hblank : " OWNER ".toList ++ quoteIdent role = ' ' :: ("OWNER ".toList ++ quoteIdent role) := rfl
  have hall := lex_owned hschema hrole hfront hmiddle
  rw [Statement.text_create, Statement.tokens, owned, ownedTokens, Option.elim_some, List.append_assoc, hblank,
    hall]

/-- Every statement of a bring-up is read as it is meant, whatever the names and the password are. -/
theorem statements_not_broken_out {statement : Statement} (h : statement.Sendable) :
    lex statement.text = some statement.tokens := by
  cases statement with
  | provision cred found => exact lex_provision h found
  | create schema owner =>
    cases owner with
    | none => exact lex_create h.1
    | some role => exact lex_create_owned h.1 (h.2 role rfl)
  | giveTo schema role =>
    have hfront : run step .between "ALTER DATABASE ".toList = some (words "alter database", .between) := by
      decide +kernel
    have hmiddle : run step .between "OWNER TO ".toList = some (words "owner to", .between) := by
      decide +kernel
    have hblank : " OWNER TO ".toList ++ quoteIdent role = ' ' :: ("OWNER TO ".toList ++ quoteIdent role) := rfl
    have hall := lex_owned h.1 h.2 hfront hmiddle
    rw [Statement.text_giveTo, Statement.tokens, List.append_assoc, List.append_assoc, hblank, hall]

def oddCredential : Credential := ⟨"we\"ird; --".toList, "it's\\' OR ''".toList⟩

theorem statements_not_broken_out_odd : lex (roleDdl oddCredential false) =
    some (words "create role" ++ .ident "we\"ird; --".toList ::
      (words "with login nosuperuser nocreatedb nocreaterole password" ++ [.literal "it's\\' OR ''".toList])) := by
  have hname : Named oddCredential.role := by decide
  have hsendable : (Statement.provision oddCredential false).Sendable := ⟨hname, by decide⟩
  have hread := statements_not_broken_out hsendable
  exact hread

end PgVmPool.Sql
