import PgVmPool.ShellWords
import PgVmPool.Uri

namespace PgVmPool

open Sh Transducer

def unlines (ls : List Text) : Text := ls.flatMap fun l ↦ l ++ ['\n']

structure DetachedJob where
  script : Text
  done : Text
  log : Text

def dumpPath : Text := "/workspace/_archive.dump".toList

def restorePath : Text := "/workspace/_restore.dump".toList

def jobHeredocEof : Text := "HEYO_JOB_EOF".toList

def streamFailMark : Text := "/tmp/_dump_stream.failed".toList

def archiveJob : DetachedJob :=
  ⟨"/workspace/_archive.job.sh".toList, "/workspace/_archive.done".toList, "/workspace/_archive.log".toList⟩

def restoreJob : DetachedJob :=
  ⟨"/workspace/_restore.job.sh".toList, "/workspace/_restore.done".toList, "/workspace/_restore.log".toList⟩

def require2xx (what : Text) : List Text :=
  ["\tcase \"$code\" in".toList,
    "\t2??) ;;".toList,
    "\t*) echo \"".toList ++ what ++
      " rejected by S3: HTTP $code\" >&2; if [ \"$ec\" = 0 ]; then ec=22; fi ;;".toList,
    "\tesac".toList]

def sentinel (done : Text) : Text :=
  "printf %s \"$ec\" > ".toList ++ done ++ ".tmp && mv ".toList ++ done ++ ".tmp ".toList ++ done

def gwPrelude (done : Text) : List Text :=
  ["GW=$(awk '$2==\"00000000\" \x7bprint $3; exit\x7d' /proc/net/route)".toList,
    "if [ -n \"$GW\" ]; then".toList,
    ("\tGW=$(printf '%d.%d.%d.%d' \"0x$(echo \"$GW\" | cut -c7-8)\" \"0x$(echo \"$GW\" | cut -c5-6)\" " ++
      "\"0x$(echo \"$GW\" | cut -c3-4)\" \"0x$(echo \"$GW\" | cut -c1-2)\")").toList,
    "fi".toList,
    "if [ -z \"$GW\" ]; then".toList,
    "\techo 'cannot determine host gateway from /proc/net/route' >&2".toList,
    "\tprintf %s 1 > ".toList ++ done ++ ".tmp && mv ".toList ++ done ++ ".tmp ".toList ++ done,
    "\texit 0".toList,
    "fi".toList]

/-- The lines of the job: `user` and `db` arrive quoted. -/
def streamingDumpJobBody (user db url : Text) : List Text :=
  ["ec=0".toList,
    "rm -f ".toList ++ streamFailMark,
    "code=$(\x7b pg_dump -h 127.0.0.1 -U ".toList ++ user ++ " -Fc -d ".toList ++ db ++ " || echo 1 > ".toList ++
      streamFailMark ++ "; \x7d | curl -sS -T - -o /dev/null -w '%\x7bhttp_code\x7d' \"".toList ++ url ++
      "\") || ec=$?".toList,
    "if [ -f ".toList ++ streamFailMark ++ " ]; then".toList,
    "\techo 'pg_dump failed before the stream ended' >&2".toList,
    "\tec=1".toList,
    "fi".toList] ++ require2xx "upload".toList ++
  ["if [ \"$ec\" = 0 ]; then".toList,
    "\tcode=$(curl -sS -X POST -o /dev/null -w '%\x7bhttp_code\x7d' \"".toList ++ url ++
      "/commit\") || ec=$?".toList] ++ require2xx "commit".toList ++
  ["else".toList,
    "\tcurl -sS -X POST -o /dev/null \"".toList ++ url ++ "/abort\" >/dev/null 2>&1 || true".toList,
    "fi".toList,
    sentinel archiveJob.done]

def archiveJobBody (user db resolve url : Text) : List Text :=
  ["ec=0".toList,
    "if pg_dump -h 127.0.0.1 -U ".toList ++ user ++ " -Fc -d ".toList ++ db ++ " -f ".toList ++ dumpPath ++
      "; then".toList,
    "\tsync ".toList ++ dumpPath ++ " 2>/dev/null || true".toList,
    "\tif [ -s ".toList ++ dumpPath ++ " ]; then".toList,
    "\t\tcode=$(curl -sS ".toList ++ resolve ++ " -T ".toList ++ dumpPath ++
      " -o /dev/null -w '%\x7bhttp_code\x7d' \"".toList ++ url ++ "\") || ec=$?".toList] ++
  require2xx "upload".toList ++
  ["\telse".toList,
    "\t\techo \"dump file empty/missing after pg_dump reported success (disk trouble?)\" >&2".toList,
    "\t\tec=1".toList,
    "\tfi".toList,
    "else".toList,
    "\tec=$?".toList,
    "fi".toList,
    "rm -f ".toList ++ dumpPath,
    sentinel archiveJob.done]

def restoreJobBody (user db resolve url : Text) (keepOwnership : Bool) : List Text :=
  let ownership := if keepOwnership then [] else "--no-owner --no-privileges ".toList
  ["ec=0".toList,
    "code=$(curl -sS ".toList ++ resolve ++ " -o ".toList ++ restorePath ++
      " -w '%\x7bhttp_code\x7d' \"".toList ++ url ++ "\") || ec=$?".toList] ++
  require2xx "download".toList ++
  ["if [ \"$ec\" = 0 ]; then".toList,
    "\tpg_restore -h 127.0.0.1 -U ".toList ++ user ++ " --clean --if-exists ".toList ++ ownership ++
      "-j \"$(nproc)\" -d ".toList ++ db ++ ' ' :: restorePath ++ " || ec=$?".toList,
    "fi".toList,
    "rm -f ".toList ++ restorePath,
    sentinel restoreJob.done]

def DetachedJob.opening (j : DetachedJob) : Text :=
  "cat > ".toList ++ j.script ++ " <<'".toList ++ jobHeredocEof ++ "'".toList

/-- `job` ends with a newline. -/
def DetachedJob.launchScript (j : DetachedJob) (job scratch : Text) : Text :=
  unlines ["rm -f ".toList ++ j.done ++ ' ' :: scratch ++ ' ' :: j.log, j.opening] ++ (job ++
    unlines [jobHeredocEof, "setsid sh ".toList ++ j.script ++ " </dev/null >".toList ++ j.log ++ " 2>&1 &".toList,
      "echo launched".toList])

def buildResolveFlag (host : Text) (ips : List Text) : Text :=
  if ips = [] then []
  else "--resolve '".toList ++ host ++ ":443:".toList ++ List.intercalate [','] ips ++ "'".toList

namespace Sh

/-- A character that is nothing but itself in a word. -/
def plainChar (c : Char) : Bool := !"\x00`('\"\\$ \t<>&\n;|)#".toList.contains c

/-- A character that leaves double quotes as they are, or begins or belongs to an expansion in them. -/
def urlChar (c : Char) : Bool := !"\x00`\"\\(\x7b'\n".toList.contains c

def bare (s : String) : Word := ⟨s.toList, true, false⟩

def verbatim (s : Text) : Word := ⟨s, true, true⟩

end Sh

structure Resolve where
  host : Text
  ips : List Text
  safe : ∀ t ∈ host :: ips, t.all Sh.urlChar = true

namespace Resolve

variable (r : Resolve)

def flag : Text := buildResolveFlag r.host r.ips

def value : Text := r.host ++ (":443:".toList ++ List.intercalate [','] r.ips)

def words : Command := if r.ips = [] then [] else [Sh.bare "--resolve", Sh.verbatim r.value]

theorem value_safe : ∀ c ∈ r.value, Sh.urlChar c = true := by
  obtain ⟨hhost, hips⟩ := List.forall_mem_cons.mp r.safe
  intro c hc
  simp only [value, List.mem_append] at hc
  obtain hc | hc | hc := hc
  · exact List.all_eq_true.mp hhost c hc
  · have hport : ":443:".toList.all Sh.urlChar = true := by decide
    exact List.all_eq_true.mp hport c hc
  · obtain rfl | ⟨ip, hip, hc⟩ := Uri.mem_intercalate hc
    · decide
    · exact List.all_eq_true.mp (hips ip hip) c hc

end Resolve

/-- What a script writes through a quoted here-document that begins with the line `opening`: the lines
up to the delimiter, as they stand. -/
def hereDocument (opening eof : Text) : List Text → Option (List Text)
  | [] => none
  | l :: ls =>
    if l = opening then if eof ∈ ls then some (ls.takeWhile (· ≠ eof)) else none
    else hereDocument opening eof ls

/-- The job that a launch script leaves behind. -/
def DetachedJob.planted (j : DetachedJob) (script : Text) : Option Text :=
  (hereDocument j.opening jobHeredocEof (script.splitOn '\n')).map unlines

/-- A URL that may stand in double quotes. -/
structure JobUrl where
  text : Text
  safe : text.all Sh.urlChar = true

/-- The jobs by which a database leaves a VM or comes to one. -/
inductive Transfer
  | archive (resolve : Resolve) (url : JobUrl)
  | stream (url : JobUrl)
  | restore (resolve : Resolve) (url : JobUrl) (keepOwnership : Bool)
  | restoreLocal (url : JobUrl) (keepOwnership : Bool)

namespace Transfer

variable (t : Transfer)

def job : DetachedJob :=
  match t with
  | archive .. | stream _ => archiveJob
  | restore .. | restoreLocal .. => restoreJob

def scratch : Text :=
  match t with
  | archive .. => PgVmPool.dumpPath
  | stream _ => streamFailMark
  | restore .. | restoreLocal .. => restorePath

def body (pgUser schema : Text) : List Text :=
  let user := shellSquote pgUser
  let db := shellSquote schema
  match t with
  | archive resolve url => archiveJobBody user db resolve.flag url.text
  | stream url => gwPrelude archiveJob.done ++ streamingDumpJobBody user db url.text
  | restore resolve url keepOwnership => restoreJobBody user db resolve.flag url.text keepOwnership
  | restoreLocal url keepOwnership =>
    gwPrelude restoreJob.done ++ restoreJobBody user db [] url.text keepOwnership

def launched (pgUser schema : Text) : Text :=
  t.job.launchScript (unlines (t.body pgUser schema)) t.scratch

end Transfer

namespace Sh

/-- A text that may stand in single quotes on one line. -/
def Quotable (s : Text) : Prop := '\x00' ∉ s ∧ '\n' ∉ s

instance (s : Text) : Decidable (Quotable s) := inferInstanceAs (Decidable (_ ∧ _))

/-- A word as it is written in a job. -/
inductive Piece
  | plain (p : Text)
  | quoted (s : Text)

namespace Piece

def text : Piece → Text
  | .plain p => p
  | .quoted s => shellSquote s

def word : Piece → Word
  | .plain p => ⟨p, true, false⟩
  | .quoted s => ⟨s, true, true⟩

def Ok : Piece → Prop
  | .plain p => p ≠ [] ∧ p.all plainChar = true
  | .quoted s => Quotable s

instance : DecidablePred Ok
  | .plain p => inferInstanceAs (Decidable (p ≠ [] ∧ p.all plainChar = true))
  | .quoted s => inferInstanceAs (Decidable (Quotable s))

end Piece

def State.behind (args : Command) (outer : List Reading) (w : Word) : State :=
  ⟨⟨.plain, some w, false, args⟩, outer⟩

section Words

variable {args : Command} {outer : List Reading} {w : Word}

theorem step_plainChar {c : Char} (hc : plainChar c = true) (word : Option Word) (args : Command)
    (outer : List Reading) :
    step ⟨⟨.plain, word, false, args⟩, outer⟩ c =
      some ([], .behind args outer ((word.getD .empty).put c)) := by
  simp [plainChar] at hc
  simp [step, plainStep, hc, State.behind, Reading.put, Reading.current]

theorem run_plainChars {p : Text} (hp : p.all plainChar = true) (args : Command) (outer : List Reading)
    (w : Word) :
    run step (.behind args outer w) p = some ([], .behind args outer ⟨w.text ++ p, w.literal, w.quoted⟩) := by
  induction p generalizing w with
  | nil => simp [run_nil]
  | cons c p ih =>
    rw [List.all_cons, Bool.and_eq_true] at hp
    have hstep := step_plainChar hp.1 (some w) args outer
    rw [State.behind, run_cons_silent hstep, ih hp.2]
    simp [Word.put, State.behind]

theorem run_piece {piece : Piece} (h : piece.Ok) (args : Command) (outer : List Reading) :
    run step (.between args outer) piece.text = some ([], .behind args outer piece.word) := by
  cases piece with
  | plain p =>
    obtain ⟨hne, hp⟩ := h
    cases p with
    | nil => exact absurd rfl hne
    | cons c p =>
      rw [List.all_cons, Bool.and_eq_true] at hp
      have hstep := step_plainChar hp.1 none args outer
      rw [Piece.text, State.between, run_cons_silent hstep, run_plainChars hp.2]
      rfl
  | quoted s => exact run_shellSquote h.1 args outer

theorem step_blank (hargs : args ≠ []) (outer : List Reading) (w : Word) :
    step (.behind args outer w) ' ' = some ([], .between (args ++ [w]) outer) := by
  simp [State.behind, step, plainStep, Reading.endWord, State.between, hargs]

theorem step_close (hargs : args ≠ []) (r : Reading) (outer : List Reading) (w : Word) :
    step (.behind args (r :: outer) w) ')' = some ([args ++ [w]], ⟨r, outer⟩) := by
  simp [State.behind, step, plainStep, Reading.endWord, Reading.command, hargs]

theorem step_semicolon (hargs : args ≠ []) (outer : List Reading) (w : Word) :
    step (.behind args outer w) ';' = some ([args ++ [w]], ⟨.start, outer⟩) := by
  simp [State.behind, step, plainStep, Reading.endWord, Reading.command, hargs]

theorem step_bar (hargs : args ≠ []) (outer : List Reading) :
    step (.between args outer) '|' = some ([args], ⟨.start, outer⟩) := by
  simp [State.between, step, plainStep, Reading.endWord, Reading.command, hargs]

theorem run_pieces {pieces : List Piece} (h : ∀ piece ∈ pieces, piece.Ok) (hargs : args ≠ [])
    (outer : List Reading) :
    run step (.between args outer) (pieces.flatMap fun piece ↦ piece.text ++ [' ']) =
      some ([], .between (args ++ pieces.map Piece.word) outer) := by
  induction pieces generalizing args with
  | nil => simp [run_nil]
  | cons piece pieces ih =>
    obtain ⟨hpiece, h⟩ := List.forall_mem_cons.mp h
    rw [List.flatMap_cons, List.append_assoc, run_append_silent (run_piece hpiece args outer),
      List.singleton_append, run_cons_silent (step_blank hargs outer piece.word), ih h (by simp)]
    simp

theorem run_nproc (hargs : args ≠ []) (outer : List Reading) :
    run step (.between args outer) "\"$(nproc)\" ".toList =
      some ([[⟨"nproc".toList, true, false⟩]], .between (args ++ [⟨[], false, true⟩]) outer) := by
  have hnproc : run step (.between args outer) "\"$(nproc)\"".toList =
      some ([[⟨"nproc".toList, true, false⟩]], .behind args outer ⟨[], false, true⟩) := rfl
  exact run_append hnproc (run_cons (step_blank hargs outer _) (run_nil _ _))

theorem run_silenced (args : Command) (outer : List Reading) :
    run step (.between args outer) ">/dev/null 2>&1 ".toList = some ([], .between args outer) := rfl

end Words

section Urls

/-- Within double quotes, where the last letter may have been a dollar sign. -/
def State.InDouble (args : Command) (outer : List Reading) (s : State) : Prop :=
  ∃ m w, (m = .double ∨ m = .doubleDollar) ∧ s = ⟨⟨m, some w, false, args⟩, outer⟩

variable {args : Command} {outer : List Reading} {s : State} {url : Text}

theorem step_urlChar {c : Char} (hc : urlChar c = true) (hs : s.InDouble args outer) :
    ∃ t, step s c = some ([], t) ∧ t.InDouble args outer := by
  obtain ⟨m, w, hm, rfl⟩ := hs
  simp [urlChar] at hc
  by_cases hdollar : c = '$'
  · subst hdollar
    obtain rfl | rfl := hm
    · exact ⟨_, rfl, _, _, .inr rfl, rfl⟩
    · exact ⟨_, rfl, _, _, .inr rfl, rfl⟩
  · obtain rfl | rfl := hm
    · refine ⟨⟨⟨.double, some (w.put c), false, args⟩, outer⟩, ?_, _, _, .inl rfl, rfl⟩
      simp [step, doubleStep, hc, hdollar, Reading.put, Reading.current]
    · refine ⟨⟨⟨.double, some (w.expand.put c), false, args⟩, outer⟩, ?_, _, _, .inl rfl, rfl⟩
      simp [step, dollarStep, doubleStep, hc, hdollar, Reading.put, Reading.current]

theorem run_urlChars (h : url.all urlChar = true) (hs : s.InDouble args outer) :
    ∃ t, run step s url = some ([], t) ∧ t.InDouble args outer := by
  induction url generalizing s with
  | nil => exact ⟨s, run_nil step s, hs⟩
  | cons c url ih =>
    rw [List.all_cons, Bool.and_eq_true] at h
    obtain ⟨t, hstep, ht⟩ := step_urlChar h.1 hs
    rw [run_cons_silent hstep]
    exact ih h.2 ht

theorem run_url (h : url.all urlChar = true) (args : Command) (outer : List Reading) :
    ∃ w, run step (.between args outer) ('"' :: (url ++ ['"'])) = some ([], .behind args outer w) := by
  have hopen : step (.between args outer) '"' =
      some ([], ⟨⟨.double, some Word.empty.quote, false, args⟩, outer⟩) := rfl
  obtain ⟨t, hrun, m, w, hm, rfl⟩ := run_urlChars h
    (⟨.double, Word.empty.quote, .inl rfl, rfl⟩ : State.InDouble args outer _)
  rw [run_cons_silent hopen, run_append_silent hrun]
  obtain rfl | rfl := hm
  · exact ⟨w, rfl⟩
  · exact ⟨w.expand, rfl⟩

end Urls

end Sh

end PgVmPool
