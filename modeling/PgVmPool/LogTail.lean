import PgVmPool.LossyUtf8
import PgVmPool.StoreFile

namespace PgVmPool.Logs

abbrev Bytes := List UInt8

def tailCap : ℕ := 128 * 1024

/-- What the open of a log file comes to: the length that it has then, and what is read of it after that. -/
inductive Opened
  | notFound
  | failed
  | file (len : ℕ) (bytes : Bytes)

/-- Past the newline that the window has first, or all of the window where it has none. -/
def dropPartial (text : List Char) : List Char :=
  match text.findIdx? (· = '\n') with
  | some i => text.drop (i + 1)
  | none => text

def lastLines (maxLines : ℕ) (lines : List (List Char)) : List (List Char) :=
  if maxLines < lines.length then lines.drop (lines.length - maxLines) else lines

def tailText (maxLines len : ℕ) (bytes : Bytes) : List Char :=
  let start := len - tailCap
  let text := LossyUtf8.decode (bytes.drop start)
  let text := if 0 < start then dropPartial text else text
  ['\n'].intercalate (lastLines maxLines (lines text))

def tailFile (path : String) (maxLines : ℕ) : Opened → Option String
  | .notFound => some s!"(log file not found at {path})"
  | .failed => none
  | .file len bytes => some (String.ofList (tailText maxLines len bytes))

/-- How many lines of the file begin at or before `start`, where none is dropped for 0. -/
def linesBefore (start : ℕ) (bytes : Bytes) : ℕ :=
  if 0 < start then (bytes.take start).count 10 + 1 else 0

section Lines

variable {text front rest : List Char} {window : Bytes}

theorem lines_append_newline (front rest : List Char) :
    lines (front ++ '\n' :: rest) = lines (front ++ ['\n']) ++ lines rest := by
  have hne := List.splitOn_ne_nil '\n' rest
  have hlast : List.splitOn '\n' ([] : List Char) = [[]] := rfl
  simp only [lines, List.splitOn_append_cons_self, hlast, List.dropLast_append_of_ne_nil hne,
    List.getLast?_append_of_ne_nil _ hne, List.map_append, List.append_assoc]
  simp

theorem length_splitOn (a : Char) (text : List Char) : (text.splitOn a).length = text.count a + 1 := by
  induction text with
  | nil => rfl
  | cons c text ih =>
    rw [List.splitOn_cons_eq_if_modifyHead]
    split
    · rename_i hc
      rw [List.length_cons, ih, beq_iff_eq.mp hc, List.count_cons_self]
    · rename_i hc
      rw [List.length_modifyHead, ih, List.count_cons_of_ne (by simpa using hc)]

theorem length_lines_newline (front : List Char) : (lines (front ++ ['\n'])).length = front.count '\n' + 1 := by
  have hlast : List.splitOn '\n' ([] : List Char) = [[]] := rfl
  simp only [lines, List.splitOn_append_cons_self, hlast, List.dropLast_concat, List.getLast?_concat,
    List.length_append, List.length_map, length_splitOn]
  rfl

theorem dropPartial_append (h : '\n' ∉ front) (rest : List Char) :
    dropPartial (front ++ '\n' :: rest) = rest := by
  have hsome : (front ++ '\n' :: rest).findIdx? (· = '\n') = some front.length := by
    have hnone : front.findIdx? (· = '\n') = none := by
      rw [List.findIdx?_eq_none_iff]
      exact fun c hc ↦ decide_eq_false fun heq ↦ h (heq ▸ hc)
    rw [List.findIdx?_append, hnone]
    simp [List.findIdx?_cons]
  rw [dropPartial, hsome]
  simp

/-- Behind the first newline of the window stand the lines of the whole file but for those that begin before
it. -/
theorem lines_dropPartial (bytes : Bytes) {start : ℕ} (h : 10 ∈ bytes.drop start) :
    lines (dropPartial (LossyUtf8.decode (bytes.drop start))) =
      (lines (LossyUtf8.decode bytes)).drop ((bytes.take start).count 10 + 1) := by
  have hten : (10 : UInt8) < 0x80 := by decide
  obtain ⟨cut, rest, hwindow, hnot⟩ := List.eq_append_cons_of_mem h
  have hbytes : bytes = bytes.take start ++ cut ++ 10 :: rest := by
    rw [List.append_assoc, ← hwindow, List.take_append_drop]
  have hcut : '\n' ∉ LossyUtf8.decode cut := mt (LossyUtf8.mem_decode_iff hten).mp hnot
  have hdropped : dropPartial (LossyUtf8.decode (bytes.drop start)) = LossyUtf8.decode rest := by
    rw [hwindow, LossyUtf8.decode_append_ascii hten]
    exact dropPartial_append hcut _
  have hcount : (LossyUtf8.decode (bytes.take start ++ cut)).count '\n' = (bytes.take start).count 10 := by
    have h := LossyUtf8.count_decode hten (bytes.take start ++ cut)
    rw [List.count_append, List.count_eq_zero_of_not_mem hnot] at h
    exact h
  have hlines : lines (LossyUtf8.decode bytes) =
      lines (LossyUtf8.decode (bytes.take start ++ cut) ++ ['\n']) ++ lines (LossyUtf8.decode rest) := by
    conv_lhs => rw [hbytes, LossyUtf8.decode_append_ascii hten]
    exact lines_append_newline _ _
  rw [hdropped, hlines, List.drop_left']
  rw [length_lines_newline, hcount]

theorem lastLines_drop (maxLines k : ℕ) (ls : List (List Char)) :
    lastLines maxLines (ls.drop k) = lastLines (min maxLines (ls.length - k)) ls := by
  unfold lastLines
  rw [List.length_drop]
  split_ifs with hmax hmin hmin
  · rw [List.drop_drop, min_eq_left hmax.le]
    congr 1
    omega
  · omega
  · rw [min_eq_right (not_lt.mp hmax)]
    obtain hk | hk := le_total k ls.length
    · rw [Nat.sub_sub_self hk]
    · rw [List.drop_eq_nil_of_le hk, List.drop_eq_nil_of_le (by omega)]
  · rw [min_eq_right (not_lt.mp hmax)] at hmin
    have hk : k = 0 ∨ ls = [] := by
      rw [← List.length_eq_zero_iff]
      omega
    obtain rfl | rfl := hk
    · exact List.drop_zero
    · exact List.drop_nil

end Lines

/-- The tail of a log is the end of what the whole log reads as: of its last lines, those that begin behind
the start of the window. -/
theorem tailFile_lines (path : String) (maxLines len : ℕ) (bytes : Bytes)
    (h : len ≤ tailCap ∨ 10 ∈ bytes.drop (len - tailCap)) :
    let whole := lines (LossyUtf8.decode bytes)
    let inWindow := whole.length - linesBefore (len - tailCap) bytes
    tailFile path maxLines (.file len bytes) =
      some (String.ofList (['\n'].intercalate (lastLines (min maxLines inWindow) whole))) := by
  dsimp only
  rw [← lastLines_drop, tailFile]
  unfold tailText linesBefore
  by_cases hstart : 0 < len - tailCap
  · have hmem : 10 ∈ bytes.drop (len - tailCap) := by
      apply h.resolve_left
      omega
    simp only [if_pos hstart, lines_dropPartial bytes hmem]
  · have hzero : len - tailCap = 0 := by omega
    simp only [hzero, lt_irrefl, if_false, List.drop_zero]

/-- A log of two lines, the first as long as `n`. -/
def twoLines (n : ℕ) : Bytes := List.replicate n 97 ++ [10, 98, 10]

theorem length_twoLines (n : ℕ) : (twoLines n).length = n + 3 := by
  rw [twoLines, List.length_append, List.length_replicate]
  rfl

theorem newline_mem_twoLines {n start : ℕ} (h : start ≤ n) : 10 ∈ (twoLines n).drop start := by
  rw [twoLines, List.drop_append_of_le_length (by rwa [List.length_replicate])]
  exact List.mem_append_right _ List.mem_cons_self

theorem count_take_twoLines {n start : ℕ} (h : start ≤ n) : ((twoLines n).take start).count 10 = 0 := by
  rw [twoLines, List.take_append_of_le_length (by rwa [List.length_replicate]), List.take_replicate,
    List.count_replicate]
  rfl

theorem lines_twoLines (n : ℕ) : ∃ first, lines (LossyUtf8.decode (twoLines n)) = [first, ['b']] := by
  have hline : ∀ b ∈ List.replicate n (97 : UInt8), b < 0x80 := fun b hb ↦ by
    rw [List.eq_of_mem_replicate hb]
    decide
  have hrest : ∀ b ∈ ([98, 10] : Bytes), b < 0x80 := by simp
  have hfirst := length_lines_newline (LossyUtf8.decode (List.replicate n 97))
  rw [LossyUtf8.decode_ascii hline, List.map_replicate, List.count_replicate] at hfirst
  obtain ⟨first, hfirst⟩ := List.length_eq_one_iff.mp hfirst
  have hten : Char.ofNat (UInt8.toNat 10) = '\n' := rfl
  refine ⟨first, ?_⟩
  rw [twoLines, LossyUtf8.decode_append_ascii (by decide), hten, lines_append_newline,
    LossyUtf8.decode_ascii hline, List.map_replicate, hfirst, LossyUtf8.decode_ascii hrest]
  rfl

/-- A log that is longer than the window by three bytes: of five lines asked for there is the second, and
nothing of the first. -/
theorem tailFile_lines_twoLines :
    tailFile "pooler.log" 5 (.file (tailCap + 3) (twoLines tailCap)) = some "b" := by
  have hcap : 3 ≤ tailCap := by simp [tailCap]
  have hstart : tailCap + 3 - tailCap = 3 := Nat.add_sub_cancel_left _ _
  have hmem : 10 ∈ (twoLines tailCap).drop (tailCap + 3 - tailCap) := by
    rw [hstart]
    exact newline_mem_twoLines hcap
  have htail := tailFile_lines "pooler.log" 5 (tailCap + 3) (twoLines tailCap) (.inr hmem)
  obtain ⟨first, hlines⟩ := lines_twoLines tailCap
  rw [hlines, hstart, linesBefore, count_take_twoLines hcap] at htail
  exact htail

end PgVmPool.Logs
