import PgVmPool.GuestScripts

namespace PgVmPool

open Sh Transducer

namespace Sh

/-- A command that is one of PostgreSQL's two. -/
def isClient (c : Command) : Bool :=
  c.head?.any fun w ↦ w.text = "pg_dump".toList || w.text = "pg_restore".toList

/-- A line that stays one in a here-document, and does not end it. -/
def Plantable (l : Text) : Prop := '\n' ∉ l ∧ l ≠ jobHeredocEof

instance (l : Text) : Decidable (Plantable l) := inferInstanceAs (Decidable (_ ∧ _))

/-- One line of several words. -/
def Wide (l : Text) : Prop := ' ' ∈ l ∧ '\n' ∉ l

instance (l : Text) : Decidable (Wide l) := inferInstanceAs (Decidable (_ ∧ _))

/-- Lines of a job that begin and end between commands, and what they run of PostgreSQL's. -/
structure Reads (ls : List Text) (found : List Command) : Prop where
  plantable : ∀ l ∈ ls, Plantable l
  commands : ∃ cs, run step .start (unlines ls) = some (cs, .start) ∧ cs.filter isClient = found

/-- Lines that run nothing of PostgreSQL's. -/
def quiet (ls : List Text) : Bool :=
  decide (∀ l ∈ ls, Plantable l) &&
    match run step .start (unlines ls) with
    | some (cs, s) => decide (s = .start) && cs.all fun c ↦ !isClient c
    | none => false

/-- The variable that a substitution is for, as in `code=$(…)`. -/
def assigned : Reading := ⟨.plain, some ⟨"code=".toList, false, false⟩, false, []⟩

section Lines

variable {args : Command} {s : State} {xs ys ls : List Text} {fx fy found out : List Command}
  {front user db url : Text}

theorem isClient_append (hargs : args ≠ []) (c : Command) : isClient (args ++ c) = isClient args := by
  rw [isClient, isClient, List.head?_append_of_ne_nil _ hargs]

theorem unlines_append (xs ys : List Text) : unlines (xs ++ ys) = unlines xs ++ unlines ys :=
  List.flatMap_append

theorem unlines_cons (l : Text) (ls : List Text) : unlines (l :: ls) = l ++ '\n' :: unlines ls := by
  rw [unlines, List.flatMap_cons, List.append_assoc, List.singleton_append, unlines]

theorem unlines_singleton (l : Text) : unlines [l] = l ++ ['\n'] := List.flatMap_singleton _ _

theorem Reads.append (hx : Reads xs fx) (hy : Reads ys fy) : Reads (xs ++ ys) (fx ++ fy) := by
  obtain ⟨hplantx, cx, hx, rfl⟩ := hx
  obtain ⟨hplanty, cy, hy, rfl⟩ := hy
  refine ⟨List.forall_mem_append.mpr ⟨hplantx, hplanty⟩, cx ++ cy, ?_, List.filter_append cx cy⟩
  rw [unlines_append, run_append hx hy]

theorem reads_of_quiet (h : quiet ls = true) : Reads ls [] := by
  rw [quiet, Bool.and_eq_true, decide_eq_true_eq] at h
  obtain ⟨hplant, h⟩ := h
  split at h
  · rename_i cs s hrun
    rw [Bool.and_eq_true, decide_eq_true_eq] at h
    obtain ⟨rfl, hcs⟩ := h
    refine ⟨hplant, cs, hrun, List.filter_eq_nil_iff.mpr fun c hc ↦ ?_⟩
    simpa using List.all_eq_true.mp hcs c hc
  · cases h

theorem commands_of_reads (h : Reads ls found) :
    (commands (unlines ls)).map (·.filter isClient) = some found := by
  obtain ⟨-, cs, hrun, rfl⟩ := h
  have hnone : (State.start).inner.command = [] := rfl
  rw [commands, hrun, Option.bind_some, if_pos ⟨rfl, rfl⟩, hnone, List.append_nil, Option.map_some]

theorem newline_notMem_shellSquote {s : Text} (h : '\n' ∉ s) : '\n' ∉ shellSquote s := by
  simp only [shellSquote, List.mem_cons, List.mem_append, List.mem_flatMap, not_or, not_exists, not_and]
  refine ⟨by decide, fun c hc ↦ ?_, by decide, by simp⟩
  split_ifs
  · decide
  · exact fun h' ↦ h (List.mem_singleton.mp h' ▸ hc)

theorem Wide.append (h : Wide front) {rest : Text} (hrest : '\n' ∉ rest) : Wide (front ++ rest) :=
  ⟨List.mem_append_left rest h.1, List.not_mem_append h.2 hrest⟩

theorem Wide.plantable {l : Text} (h : Wide l) : Plantable l := by
  refine ⟨h.2, ?_⟩
  rintro rfl
  exact absurd h.1 (by decide)

theorem newline_notMem_url (h : url.all urlChar = true) : '\n' ∉ url :=
  fun hc ↦ absurd (List.all_eq_true.mp h _ hc) (by decide)

theorem newline_notMem_pieces {pieces : List Piece} (h : ∀ piece ∈ pieces, piece.Ok) :
    '\n' ∉ pieces.flatMap fun piece ↦ piece.text ++ [' '] := by
  intro hmem
  obtain ⟨piece, hpiece, hmem⟩ := List.mem_flatMap.mp hmem
  have hok := h piece hpiece
  obtain hmem | hmem := List.mem_append.mp hmem
  · cases piece with
    | plain p => exact absurd (List.all_eq_true.mp hok.2 _ hmem) (by decide)
    | quoted s => exact newline_notMem_shellSquote hok.2 hmem
  · exact absurd hmem (by decide)

theorem run_assigned : run step ⟨assigned, []⟩ " || ec=$?\n".toList =
    some ([[⟨"code=".toList, false, false⟩], [⟨"ec=?".toList, false, false⟩]], .start) := by decide

/-- A request whose status is kept: `front` begins it, up to the URL. -/
theorem reads_request (hfront : run step .start front = some (out, .between args [assigned]))
    (hargs : args ≠ []) (hquiet : isClient args = false) (hurl : url.all urlChar = true) (hwide : Wide front) :
    Reads [front ++ '"' :: (url ++ "\") || ec=$?".toList)] (out.filter isClient) := by
  obtain ⟨w, hword⟩ := run_url hurl args [assigned]
  have hback := run_append hword (run_cons (step_close hargs assigned [] w) run_assigned)
  have htext : unlines [front ++ '"' :: (url ++ "\") || ec=$?".toList)] =
      front ++ ('"' :: (url ++ ['"']) ++ ')' :: " || ec=$?\n".toList) := by
    rw [unlines_singleton, List.append_assoc, List.cons_append, List.append_assoc, List.cons_append,
      List.append_assoc]
    rfl
  have hkept : isClient [⟨"code=".toList, false, false⟩] = false ∧
      isClient [⟨"ec=?".toList, false, false⟩] = false := by
    decide
  have hrest : '\n' ∉ '"' :: (url ++ "\") || ec=$?".toList) := by
    have htail : '\n' ∉ "\") || ec=$?".toList := by decide
    simp only [List.mem_cons, List.mem_append, newline_notMem_url hurl, htail]
    decide
  refine ⟨List.forall_mem_singleton.mpr (hwide.append hrest).plantable, _,
    htext ▸ run_append hfront hback, ?_⟩
  rw [List.filter_append, List.nil_append, List.singleton_append]
  simp only [List.filter_cons, isClient_append hargs, hquiet, hkept, List.filter_nil, List.append_nil,
    Bool.false_eq_true, if_false]

end Lines

def dumpCommand (user db : Text) : Command :=
  [bare "pg_dump", bare "-h", bare "127.0.0.1", bare "-U", verbatim user, bare "-Fc", bare "-d", verbatim db]

def restoreCommand (user db : Text) (keepOwnership : Bool) : Command :=
  [bare "pg_restore", bare "-h", bare "127.0.0.1", bare "-U", verbatim user, bare "--clean",
    bare "--if-exists"] ++ (if keepOwnership then [] else [bare "--no-owner", bare "--no-privileges"]) ++
  [bare "-j", ⟨[], false, true⟩, bare "-d", verbatim db, ⟨restorePath, true, false⟩]

section Jobs

variable {user db url : Text}

def dumpPieces (user db : Text) : List Piece :=
  [.quoted user, .plain "-Fc".toList, .plain "-d".toList, .quoted db]

theorem dumpPieces_ok (huser : Quotable user) (hdb : Quotable db) : ∀ piece ∈ dumpPieces user db, piece.Ok := by
  simp only [dumpPieces, List.forall_mem_cons]
  exact ⟨huser, by decide, by decide, hdb, by simp⟩

/-- The words that stand before the role in every client's command. -/
def toServer (client : String) : Command := [bare client, bare "-h", bare "127.0.0.1", bare "-U"]

theorem toServer_ne_nil (client : String) : toServer client ≠ [] := List.cons_ne_nil _ _

theorem reads_piped (huser : Quotable user) (hdb : Quotable db) (hurl : url.all urlChar = true) :
    Reads ["code=$(\x7b pg_dump -h 127.0.0.1 -U ".toList ++ shellSquote user ++ " -Fc -d ".toList ++
      shellSquote db ++ " || echo 1 > ".toList ++ streamFailMark ++
      "; \x7d | curl -sS -T - -o /dev/null -w '%\x7bhttp_code\x7d' \"".toList ++ url ++ "\") || ec=$?".toList]
      [dumpCommand user db] := by
  have hopen : run step .start "code=$(\x7b pg_dump -h 127.0.0.1 -U ".toList =
      some ([], .between (toServer "pg_dump") [assigned]) := by decide
  have hpieces := run_pieces (dumpPieces_ok huser hdb) (toServer_ne_nil "pg_dump") [assigned]
  have hpipe : run step ⟨.start, [assigned]⟩ ("| echo 1 > ".toList ++ streamFailMark ++
      "; \x7d | curl -sS -T - -o /dev/null -w '%\x7bhttp_code\x7d' ".toList) =
      some ([[bare "echo", bare "1"]], .between [bare "curl", bare "-sS", bare "-T", bare "-", bare "-o",
        bare "/dev/null", bare "-w", verbatim "%\x7bhttp_code\x7d".toList] [assigned]) := by decide
  have hwords : toServer "pg_dump" ++ (dumpPieces user db).map Piece.word ≠ [] := by simp [toServer]
  have hbar := step_bar hwords [assigned]
  have htail : '\n' ∉ '|' :: ("| echo 1 > ".toList ++ streamFailMark ++
      "; \x7d | curl -sS -T - -o /dev/null -w '%\x7bhttp_code\x7d' ".toList) := by decide
  have hwide : Wide "code=$(\x7b pg_dump -h 127.0.0.1 -U ".toList := by decide
  have hfront := run_append hopen (run_append hpieces (run_cons hbar hpipe))
  have hline := reads_request hfront (by simp) (by decide) hurl
    (hwide.append (List.not_mem_append (newline_notMem_pieces (dumpPieces_ok huser hdb)) htail))
  have htext : "code=$(\x7b pg_dump -h 127.0.0.1 -U ".toList ++ shellSquote user ++ " -Fc -d ".toList ++
      shellSquote db ++ " || echo 1 > ".toList ++ streamFailMark ++
      "; \x7d | curl -sS -T - -o /dev/null -w '%\x7bhttp_code\x7d' \"".toList ++ url ++ "\") || ec=$?".toList =
      "code=$(\x7b pg_dump -h 127.0.0.1 -U ".toList ++
        ((dumpPieces user db).flatMap (fun piece ↦ piece.text ++ [' ']) ++ '|' :: ("| echo 1 > ".toList ++
          streamFailMark ++ "; \x7d | curl -sS -T - -o /dev/null -w '%\x7bhttp_code\x7d' ".toList)) ++
        '"' :: (url ++ "\") || ec=$?".toList) := by
    simp only [dumpPieces, List.flatMap_cons, List.flatMap_nil, List.append_assoc, Piece.text]
    rfl
  rw [htext]
  exact hline

theorem reads_commit (hurl : url.all urlChar = true) :
    Reads ["\tcode=$(curl -sS -X POST -o /dev/null -w '%\x7bhttp_code\x7d' \"".toList ++ url ++
      "/commit\") || ec=$?".toList] [] := by
  have hfront : run step .start "\tcode=$(curl -sS -X POST -o /dev/null -w '%\x7bhttp_code\x7d' ".toList =
      some ([], .between [bare "curl", bare "-sS", bare "-X", bare "POST", bare "-o", bare "/dev/null", bare "-w",
        verbatim "%\x7bhttp_code\x7d".toList] [assigned]) := by decide
  have hpath : (url ++ "/commit".toList).all urlChar = true := by
    rw [List.all_append, hurl]
    decide
  have hwide : Wide "\tcode=$(curl -sS -X POST -o /dev/null -w '%\x7bhttp_code\x7d' ".toList := by
    decide
  have hline := reads_request hfront (List.cons_ne_nil _ _) (by decide) hpath hwide
  have htext : "\tcode=$(curl -sS -X POST -o /dev/null -w '%\x7bhttp_code\x7d' \"".toList ++ url ++
      "/commit\") || ec=$?".toList =
      "\tcode=$(curl -sS -X POST -o /dev/null -w '%\x7bhttp_code\x7d' ".toList ++
        '"' :: (url ++ "/commit".toList ++ "\") || ec=$?".toList) := by
    have hopen : "\tcode=$(curl -sS -X POST -o /dev/null -w '%\x7bhttp_code\x7d' \"".toList =
        "\tcode=$(curl -sS -X POST -o /dev/null -w '%\x7bhttp_code\x7d' ".toList ++ ['"'] := by decide
    have hclose : "/commit\") || ec=$?".toList = "/commit".toList ++ "\") || ec=$?".toList := by decide
    rw [hopen, hclose]
    simp only [List.append_assoc, List.cons_append, List.nil_append]
  rw [htext]
  exact hline

/-- The words of the request that withdraws an upload, before its URL. -/
def withdrawal : Command := [bare "curl", bare "-sS", bare "-X", bare "POST", bare "-o", bare "/dev/null"]

theorem withdrawal_ne_nil : withdrawal ≠ [] := List.cons_ne_nil _ _

theorem reads_abort (hurl : url.all urlChar = true) :
    Reads ["\tcurl -sS -X POST -o /dev/null \"".toList ++ url ++ "/abort\" >/dev/null 2>&1 || true".toList] [] := by
  have hfront : run step .start "\tcurl -sS -X POST -o /dev/null ".toList =
      some ([], .between withdrawal []) := by decide
  have hpath : (url ++ "/abort".toList).all urlChar = true := by
    rw [List.all_append, hurl]
    decide
  obtain ⟨w, hword⟩ := run_url hpath withdrawal []
  have hblank := step_blank withdrawal_ne_nil [] w
  have htrue : run step .start "| true\n".toList = some ([[bare "true"]], .start) := by decide
  have hbar := step_bar (List.append_ne_nil_of_left_ne_nil withdrawal_ne_nil [w]) []
  have hback := run_append (run_silenced _ _) (run_cons hbar htrue)
  have htext : unlines ["\tcurl -sS -X POST -o /dev/null \"".toList ++ url ++
      "/abort\" >/dev/null 2>&1 || true".toList] =
      "\tcurl -sS -X POST -o /dev/null ".toList ++ ('"' :: (url ++ "/abort".toList ++ ['"']) ++
        ' ' :: (">/dev/null 2>&1 ".toList ++ '|' :: "| true\n".toList)) := by
    have hopen : "\tcurl -sS -X POST -o /dev/null \"".toList =
        "\tcurl -sS -X POST -o /dev/null ".toList ++ ['"'] := by
      decide
    have hclose : "/abort\" >/dev/null 2>&1 || true".toList ++ ['\n'] =
        "/abort".toList ++ ('"' :: ' ' :: (">/dev/null 2>&1 ".toList ++ '|' :: "| true\n".toList)) := by
      decide
    rw [unlines_singleton, List.append_assoc, hclose, hopen]
    simp only [List.append_assoc, List.cons_append, List.nil_append]
  have hwide : Wide "\tcurl -sS -X POST -o /dev/null \"".toList := by decide
  have htail : '\n' ∉ "/abort\" >/dev/null 2>&1 || true".toList := by decide
  refine ⟨List.forall_mem_singleton.mpr ((hwide.append (newline_notMem_url hurl)).append htail).plantable, _,
    htext ▸ run_append hfront (run_append hword (run_cons hblank hback)), ?_⟩
  simp [isClient, withdrawal, bare]

set_option maxRecDepth 4000 in
theorem reads_streamingDumpJobBody (huser : Quotable user) (hdb : Quotable db) (hurl : url.all urlChar = true) :
    Reads (streamingDumpJobBody (shellSquote user) (shellSquote db) url) [dumpCommand user db] := by
  have hbegin : Reads ["ec=0".toList, "rm -f ".toList ++ streamFailMark] [] :=
    reads_of_quiet (by decide)
  have hchecks : Reads (["if [ -f ".toList ++ streamFailMark ++ " ]; then".toList,
      "\techo 'pg_dump failed before the stream ended' >&2".toList, "\tec=1".toList, "fi".toList] ++
      require2xx "upload".toList ++ ["if [ \"$ec\" = 0 ]; then".toList]) [] :=
    reads_of_quiet (by decide)
  have helse : Reads (require2xx "commit".toList ++ ["else".toList]) [] := reads_of_quiet (by decide)
  have hend : Reads ["fi".toList, sentinel archiveJob.done] [] := reads_of_quiet (by decide)
  have hdump := hbegin.append (reads_piped huser hdb hurl)
  have hcommit := hchecks.append (reads_commit hurl)
  have habort := (helse.append (reads_abort hurl)).append hend
  exact (hdump.append hcommit).append habort

theorem shellSquote_of_quotefree {s : Text} (h : '\'' ∉ s) : shellSquote s = '\'' :: (s ++ ['\'']) := by
  have hbody : (s.flatMap fun c ↦ if c = '\'' then "'\\''".toList else [c]) = s := by
    induction s with
    | nil => rfl
    | cons c s ih =>
      rw [List.mem_cons, not_or] at h
      rw [List.flatMap_cons, if_neg (Ne.symm h.1), ih h.2, List.singleton_append]
  rw [shellSquote, hbody]

theorem run_resolve {args : Command} (r : Resolve) (hargs : args ≠ []) (outer : List Reading) :
    run step (.between args outer) (r.flag ++ [' ']) = some ([], .between (args ++ r.words) outer) := by
  unfold Resolve.flag buildResolveFlag Resolve.words
  split_ifs with hips
  · rw [List.append_nil]
    rfl
  · have hquote : shellSquote r.value = '\'' :: (r.value ++ ['\'']) :=
      shellSquote_of_quotefree fun h ↦ absurd (r.value_safe _ h) (by decide)
    have hvalue : Quotable r.value :=
      ⟨fun h ↦ absurd (r.value_safe _ h) (by decide), fun h ↦ absurd (r.value_safe _ h) (by decide)⟩
    have hok : ∀ piece ∈ [.plain "--resolve".toList, .quoted r.value], Piece.Ok piece :=
      List.forall_mem_cons.mpr ⟨by decide, List.forall_mem_singleton.mpr hvalue⟩
    have hpieces := run_pieces hok hargs outer
    have htext : "--resolve '".toList ++ r.host ++ ":443:".toList ++ List.intercalate [','] r.ips ++
        "'".toList ++ [' '] =
        [.plain "--resolve".toList, .quoted r.value].flatMap (fun piece : Piece ↦ piece.text ++ [' ']) := by
      have hopen : "--resolve '".toList = "--resolve".toList ++ [' ', '\''] := by decide
      have hclose : "'".toList = ['\''] := by decide
      simp only [List.flatMap_cons, List.flatMap_nil, Piece.text, hquote]
      simp only [Resolve.value, hopen, hclose, List.append_assoc, List.cons_append, List.nil_append]
    rw [htext]
    exact hpieces

theorem newline_notMem_flag (r : Resolve) : '\n' ∉ r.flag := by
  have hvalue : '\n' ∉ r.value := fun hc ↦ absurd (r.value_safe _ hc) (by decide)
  simp only [Resolve.value, List.mem_append, not_or] at hvalue
  unfold Resolve.flag buildResolveFlag
  split_ifs
  · simp
  · simp [hvalue]

/-- A transfer to or from S3, whose addresses are pinned. -/
theorem reads_transfer {front : Text} {pieces : List Piece} (r : Resolve)
    (hfront : run step .start front = some ([], .between [bare "curl", bare "-sS"] [assigned]))
    (hwide : Wide front) (hpieces : ∀ piece ∈ pieces, piece.Ok) (hurl : url.all urlChar = true) :
    Reads [front ++ (r.flag ++ [' ']) ++ pieces.flatMap (fun piece ↦ piece.text ++ [' ']) ++
      '"' :: (url ++ "\") || ec=$?".toList)] [] := by
  have hcurl : [bare "curl", bare "-sS"] ++ r.words ≠ [] := by simp
  have hresolve := run_resolve r (List.cons_ne_nil (bare "curl") [bare "-sS"]) [assigned]
  have hall := run_append (run_append hfront hresolve) (run_pieces hpieces hcurl [assigned])
  have hquiet : isClient ([bare "curl", bare "-sS"] ++ r.words ++ pieces.map Piece.word) = false := by
    rw [List.append_assoc, isClient_append (by simp)]
    decide
  have hflag : '\n' ∉ r.flag ++ [' '] := List.not_mem_append (newline_notMem_flag r) (by decide)
  exact reads_request hall (by simp) hquiet hurl ((hwide.append hflag).append (newline_notMem_pieces hpieces))

theorem reads_upload (r : Resolve) (hurl : url.all urlChar = true) :
    Reads ["\t\tcode=$(curl -sS ".toList ++ r.flag ++ " -T ".toList ++ dumpPath ++
      " -o /dev/null -w '%\x7bhttp_code\x7d' \"".toList ++ url ++ "\") || ec=$?".toList] [] := by
  have hfront : run step .start "\t\tcode=$(curl -sS ".toList =
      some ([], .between [bare "curl", bare "-sS"] [assigned]) := by decide
  have hpieces : ∀ piece ∈ [.plain "-T".toList, .plain dumpPath, .plain "-o".toList, .plain "/dev/null".toList,
      .plain "-w".toList, .quoted "%\x7bhttp_code\x7d".toList], Piece.Ok piece := by decide
  have hline := reads_transfer r hfront (by decide) hpieces hurl
  have hoption : " -T ".toList = ' ' :: ("-T".toList ++ [' ']) := by decide
  have hrest : " -o /dev/null -w '%\x7bhttp_code\x7d' \"".toList =
      ' ' :: ("-o".toList ++ ' ' :: ("/dev/null".toList ++ ' ' :: ("-w".toList ++
        ' ' :: (shellSquote "%\x7bhttp_code\x7d".toList ++ [' ', '"'])))) := by decide
  simp only [List.flatMap_cons, List.flatMap_nil, Piece.text, List.append_assoc, List.cons_append,
    List.nil_append] at hline
  rw [hoption, hrest]
  simp only [List.append_assoc, List.cons_append, List.nil_append]
  exact hline

theorem reads_download (r : Resolve) (hurl : url.all urlChar = true) :
    Reads ["code=$(curl -sS ".toList ++ r.flag ++ " -o ".toList ++ restorePath ++
      " -w '%\x7bhttp_code\x7d' \"".toList ++ url ++ "\") || ec=$?".toList] [] := by
  have hfront : run step .start "code=$(curl -sS ".toList =
      some ([], .between [bare "curl", bare "-sS"] [assigned]) := by decide
  have hpieces : ∀ piece ∈ [.plain "-o".toList, .plain restorePath, .plain "-w".toList,
      .quoted "%\x7bhttp_code\x7d".toList], Piece.Ok piece := by decide
  have hline := reads_transfer r hfront (by decide) hpieces hurl
  have hoption : " -o ".toList = ' ' :: ("-o".toList ++ [' ']) := by decide
  have hrest : " -w '%\x7bhttp_code\x7d' \"".toList =
      ' ' :: ("-w".toList ++ ' ' :: (shellSquote "%\x7bhttp_code\x7d".toList ++ [' ', '"'])) := by
    decide
  simp only [List.flatMap_cons, List.flatMap_nil, Piece.text, List.append_assoc, List.cons_append,
    List.nil_append] at hline
  rw [hoption, hrest]
  simp only [List.append_assoc, List.cons_append, List.nil_append]
  exact hline

/-- Up to the name of the file that the dump is written to. -/
def filePieces (user db : Text) : List Piece := dumpPieces user db ++ [.plain "-f".toList]

theorem reads_pg_dump (huser : Quotable user) (hdb : Quotable db) :
    Reads ["if pg_dump -h 127.0.0.1 -U ".toList ++ shellSquote user ++ " -Fc -d ".toList ++ shellSquote db ++
      " -f ".toList ++ dumpPath ++ "; then".toList]
      [dumpCommand user db ++ [bare "-f", ⟨dumpPath, true, false⟩]] := by
  have hopen : run step .start "if pg_dump -h 127.0.0.1 -U ".toList =
      some ([], .between (toServer "pg_dump") []) := by decide
  have hok : ∀ piece ∈ filePieces user db, piece.Ok :=
    List.forall_mem_append.mpr ⟨dumpPieces_ok huser hdb, by decide⟩
  have hpieces := run_pieces hok (toServer_ne_nil "pg_dump") []
  have hwords : toServer "pg_dump" ++ (filePieces user db).map Piece.word ≠ [] := by simp [toServer]
  have hfile : (Piece.plain dumpPath).Ok := by decide
  have hlast := run_piece hfile (toServer "pg_dump" ++ (filePieces user db).map Piece.word) []
  have hend := step_semicolon hwords [] (Piece.plain dumpPath).word
  have hthen : run step .start " then\n".toList = some ([], .start) := by decide
  have hrun := run_append (run_append hopen hpieces) (run_append hlast (run_cons hend hthen))
  have htext : unlines ["if pg_dump -h 127.0.0.1 -U ".toList ++ shellSquote user ++ " -Fc -d ".toList ++
      shellSquote db ++ " -f ".toList ++ dumpPath ++ "; then".toList] = "if pg_dump -h 127.0.0.1 -U ".toList ++
        (filePieces user db).flatMap (fun piece ↦ piece.text ++ [' ']) ++
        ((Piece.plain dumpPath).text ++ ';' :: " then\n".toList) := by
    simp only [filePieces, dumpPieces, List.flatMap_cons, List.flatMap_nil, List.flatMap_append,
      List.append_assoc, Piece.text, unlines_singleton]
    rfl
  have hwide : Wide "if pg_dump -h 127.0.0.1 -U ".toList := by decide
  have hd : '\n' ∉ " -Fc -d ".toList := by decide
  have hf : '\n' ∉ " -f ".toList := by decide
  have hpath : '\n' ∉ dumpPath := by decide
  have hrest : '\n' ∉ "; then".toList := by decide
  have hoptions := (hwide.append (newline_notMem_shellSquote huser.2)).append hd
  have hline := (((hoptions.append (newline_notMem_shellSquote hdb.2)).append hf).append hpath).append hrest
  exact ⟨List.forall_mem_singleton.mpr hline.plantable, _, htext ▸ hrun, rfl⟩

set_option maxRecDepth 4000 in
theorem reads_archiveJobBody (huser : Quotable user) (hdb : Quotable db) (r : Resolve)
    (hurl : url.all urlChar = true) : Reads (archiveJobBody (shellSquote user) (shellSquote db) r.flag url)
      [dumpCommand user db ++ [bare "-f", ⟨dumpPath, true, false⟩]] := by
  have hbegin : Reads ["ec=0".toList] [] := reads_of_quiet (by decide)
  have hchecks : Reads ["\tsync ".toList ++ dumpPath ++ " 2>/dev/null || true".toList,
      "\tif [ -s ".toList ++ dumpPath ++ " ]; then".toList] [] := reads_of_quiet (by decide)
  have hend : Reads (require2xx "upload".toList ++ ["\telse".toList,
      "\t\techo \"dump file empty/missing after pg_dump reported success (disk trouble?)\" >&2".toList,
      "\t\tec=1".toList, "\tfi".toList, "else".toList, "\tec=$?".toList, "fi".toList,
      "rm -f ".toList ++ dumpPath, sentinel archiveJob.done]) [] := reads_of_quiet (by decide)
  have hdump := hbegin.append (reads_pg_dump huser hdb)
  exact ((hdump.append hchecks).append (reads_upload r hurl)).append hend

def restorePieces (user : Text) (keepOwnership : Bool) : List Piece :=
  [.quoted user, .plain "--clean".toList, .plain "--if-exists".toList] ++
    (if keepOwnership then [] else [.plain "--no-owner".toList, .plain "--no-privileges".toList]) ++
    [.plain "-j".toList]

def sourcePieces (db : Text) : List Piece := [.plain "-d".toList, .quoted db, .plain restorePath]

theorem restorePieces_ok (huser : Quotable user) (keepOwnership : Bool) :
    ∀ piece ∈ restorePieces user keepOwnership, piece.Ok := by
  have hownership : ∀ piece ∈ (if keepOwnership then [] else [.plain "--no-owner".toList,
      .plain "--no-privileges".toList]) ++ [.plain "-j".toList], Piece.Ok piece := by
    cases keepOwnership <;> decide
  rw [restorePieces, List.append_assoc, List.forall_mem_append]
  simp only [List.forall_mem_cons]
  exact ⟨⟨huser, by decide, by decide, by simp⟩, hownership⟩

theorem sourcePieces_ok (hdb : Quotable db) : ∀ piece ∈ sourcePieces db, piece.Ok := by
  simp only [sourcePieces, List.forall_mem_cons]
  exact ⟨by decide, hdb, by decide, by simp⟩

theorem reads_pg_restore (huser : Quotable user) (hdb : Quotable db) (keepOwnership : Bool) :
    Reads ["\tpg_restore -h 127.0.0.1 -U ".toList ++ shellSquote user ++ " --clean --if-exists ".toList ++
      (if keepOwnership then [] else "--no-owner --no-privileges ".toList) ++ "-j \"$(nproc)\" -d ".toList ++
      shellSquote db ++ ' ' :: restorePath ++ " || ec=$?".toList] [restoreCommand user db keepOwnership] := by
  have hopen : run step .start "\tpg_restore -h 127.0.0.1 -U ".toList =
      some ([], .between (toServer "pg_restore") []) := by decide
  have hpieces := run_pieces (restorePieces_ok huser keepOwnership) (toServer_ne_nil "pg_restore") []
  have hwords : toServer "pg_restore" ++ (restorePieces user keepOwnership).map Piece.word ≠ [] := by
    simp [toServer]
  have hjobs := run_nproc hwords []
  have hcores := List.append_ne_nil_of_left_ne_nil hwords [⟨[], false, true⟩]
  have hsource := run_pieces (sourcePieces_ok hdb) hcores []
  have hbar := step_bar (List.append_ne_nil_of_left_ne_nil hcores ((sourcePieces db).map Piece.word)) []
  have hec : run step .start "| ec=$?\n".toList = some ([[⟨"ec=?".toList, false, false⟩]], .start) := by
    decide
  have hrun := run_append (run_append hopen hpieces) (run_append hjobs (run_append hsource (run_cons hbar hec)))
  have htext : unlines ["\tpg_restore -h 127.0.0.1 -U ".toList ++ shellSquote user ++
      " --clean --if-exists ".toList ++ (if keepOwnership then [] else "--no-owner --no-privileges ".toList) ++
      "-j \"$(nproc)\" -d ".toList ++ shellSquote db ++ ' ' :: restorePath ++ " || ec=$?".toList] =
      "\tpg_restore -h 127.0.0.1 -U ".toList ++
        (restorePieces user keepOwnership).flatMap (fun piece ↦ piece.text ++ [' ']) ++
        ("\"$(nproc)\" ".toList ++ ((sourcePieces db).flatMap (fun piece ↦ piece.text ++ [' ']) ++
          '|' :: "| ec=$?\n".toList)) := by
    cases keepOwnership <;>
    · simp only [restorePieces, sourcePieces, List.flatMap_cons, List.flatMap_nil, List.flatMap_append,
        List.append_assoc, Piece.text, unlines_singleton]
      rfl
  have hwide : Wide "\tpg_restore -h 127.0.0.1 -U ".toList := by decide
  have hclean : '\n' ∉ " --clean --if-exists ".toList := by decide
  have hownership : '\n' ∉ if keepOwnership then [] else "--no-owner --no-privileges ".toList := by
    cases keepOwnership <;> decide
  have hd : '\n' ∉ "-j \"$(nproc)\" -d ".toList := by decide
  have hpath : '\n' ∉ ' ' :: restorePath := by decide
  have hrest : '\n' ∉ " || ec=$?".toList := by decide
  have hoptions := (hwide.append (newline_notMem_shellSquote huser.2)).append hclean
  have hdatabase := (hoptions.append hownership).append hd
  have hline := ((hdatabase.append (newline_notMem_shellSquote hdb.2)).append hpath).append hrest
  refine ⟨List.forall_mem_singleton.mpr hline.plantable, _, htext ▸ hrun, ?_⟩
  cases keepOwnership <;> rfl

set_option maxRecDepth 4000 in
theorem reads_restoreJobBody (huser : Quotable user) (hdb : Quotable db) (r : Resolve)
    (hurl : url.all urlChar = true) (keepOwnership : Bool) :
    Reads (restoreJobBody (shellSquote user) (shellSquote db) r.flag url keepOwnership)
      [restoreCommand user db keepOwnership] := by
  have hbegin : Reads ["ec=0".toList] [] := reads_of_quiet (by decide)
  have hchecks : Reads (require2xx "download".toList ++ ["if [ \"$ec\" = 0 ]; then".toList]) [] :=
    reads_of_quiet (by decide)
  have hend : Reads ["fi".toList, "rm -f ".toList ++ restorePath, sentinel restoreJob.done] [] :=
    reads_of_quiet (by decide)
  have hdownload := (hbegin.append (reads_download r hurl)).append hchecks
  exact (hdownload.append (reads_pg_restore huser hdb keepOwnership)).append hend

end Jobs

section HereDocuments

variable {ls : List Text}

theorem splitOn_unlines (h : ∀ l ∈ ls, '\n' ∉ l) (rest : Text) :
    (unlines ls ++ rest).splitOn '\n' = ls ++ rest.splitOn '\n' := by
  induction ls with
  | nil => rfl
  | cons l ls ih =>
    obtain ⟨hl, h⟩ := List.forall_mem_cons.mp h
    rw [unlines_cons, List.append_assoc, List.cons_append, List.splitOn_append_cons_self_of_not_mem hl, ih h,
      List.cons_append]

theorem takeWhile_ne_eof {eof : Text} (h : ∀ l ∈ ls, l ≠ eof) (rest : List Text) :
    (ls ++ eof :: rest).takeWhile (· ≠ eof) = ls := by
  have hkeep : ∀ l ∈ ls, decide (l ≠ eof) = true := fun l hl ↦ decide_eq_true (h l hl)
  rw [List.takeWhile_append_of_pos hkeep, List.takeWhile_cons_of_neg (by simp), List.append_nil]

/-- The line of a launch script that clears what an earlier run has left. -/
def clearing (j : DetachedJob) (scratch : Text) : Text :=
  "rm -f ".toList ++ j.done ++ ' ' :: scratch ++ ' ' :: j.log

theorem planted_launchScript {j : DetachedJob} {scratch : Text} (hjob : ∀ l ∈ ls, Plantable l)
    (hlines : ∀ l ∈ [clearing j scratch, j.opening], '\n' ∉ l) (hne : clearing j scratch ≠ j.opening) :
    j.planted (j.launchScript (unlines ls) scratch) = some (unlines ls) := by
  have heof : '\n' ∉ jobHeredocEof := by decide
  obtain ⟨tail, hscript⟩ : ∃ tail, j.launchScript (unlines ls) scratch =
      unlines [clearing j scratch, j.opening] ++ (unlines ls ++ unlines (jobHeredocEof :: tail)) := ⟨_, rfl⟩
  have hread := takeWhile_ne_eof (fun l hl ↦ (hjob l hl).2) ((unlines tail).splitOn '\n')
  have hmem : jobHeredocEof ∈ ls ++ jobHeredocEof :: (unlines tail).splitOn '\n' :=
    List.mem_append_right ls List.mem_cons_self
  rw [DetachedJob.planted, hscript, splitOn_unlines hlines, splitOn_unlines fun l hl ↦ (hjob l hl).1,
    unlines_cons, List.splitOn_append_cons_self_of_not_mem heof]
  simp only [List.cons_append, List.nil_append, hereDocument, if_neg hne, if_true, if_pos hmem, hread,
    Option.map_some]

theorem launch_lines : ∀ j ∈ [archiveJob, restoreJob], ∀ scratch ∈ [dumpPath, streamFailMark, restorePath],
    (∀ l ∈ [clearing j scratch, j.opening], '\n' ∉ l) ∧ clearing j scratch ≠ j.opening := by
  decide

end HereDocuments

end Sh

namespace Transfer

open Sh

variable (t : Transfer) {pgUser schema : Text}

/-- The command by which the database goes out or comes in. -/
def client (pgUser schema : Text) : Command :=
  match t with
  | archive .. => dumpCommand pgUser schema ++ [bare "-f", ⟨PgVmPool.dumpPath, true, false⟩]
  | stream _ => dumpCommand pgUser schema
  | restore _ _ keepOwnership | restoreLocal _ keepOwnership => restoreCommand pgUser schema keepOwnership

set_option maxRecDepth 4000 in
theorem reads_body (huser : Quotable pgUser) (hschema : Quotable schema) :
    Reads (t.body pgUser schema) [t.client pgUser schema] := by
  cases t with
  | archive resolve url => exact reads_archiveJobBody huser hschema resolve url.safe
  | stream url =>
    have hgateway : Reads (gwPrelude archiveJob.done) [] := reads_of_quiet (by decide)
    exact hgateway.append (reads_streamingDumpJobBody huser hschema url.safe)
  | restore resolve url keepOwnership => exact reads_restoreJobBody huser hschema resolve url.safe keepOwnership
  | restoreLocal url keepOwnership =>
    have hgateway : Reads (gwPrelude restoreJob.done) [] := reads_of_quiet (by decide)
    exact hgateway.append (reads_restoreJobBody huser hschema ⟨[], [], by simp⟩ url.safe keepOwnership)

/-- The script that is planted runs one client, with the words that are meant. -/
theorem runs (huser : Quotable pgUser) (hschema : Quotable schema) :
    ((t.job.planted (t.launched pgUser schema)).bind commands).map (·.filter isClient) =
      some [t.client pgUser schema] := by
  have hreads := t.reads_body huser hschema
  have hplanted : t.job.planted (t.launched pgUser schema) = some (unlines (t.body pgUser schema)) := by
    have hlines := launch_lines t.job (by cases t <;> simp [job]) t.scratch (by cases t <;> simp [scratch])
    exact planted_launchScript hreads.plantable hlines.1 hlines.2
  rw [hplanted, Option.bind_some, commands_of_reads hreads]

end Transfer

end PgVmPool
