import PgVmPool.Partitions
import PgVmPool.ProbeReply
import PgVmPool.WindowLog

namespace PgVmPool.Events

open HostPath Uri
open Dedicated (trim)
open scoped List

inductive Event
  | restoreS3 | restoreLocal | vmCreated | offloadDone | vmDeleted | spareClaimed
  deriving DecidableEq

namespace Event

def asStr : Event → String
  | .restoreS3 => "restore_s3"
  | .restoreLocal => "restore_local"
  | .vmCreated => "vm_created"
  | .offloadDone => "offload_done"
  | .vmDeleted => "vm_deleted"
  | .spareClaimed => "spare_claimed"

def all : List Event := [.restoreS3, .restoreLocal, .vmCreated, .offloadDone, .vmDeleted, .spareClaimed]

def parse (s : Text) : Option Event := all.find? fun e ↦ e.asStr.toList = s

end Event

abbrev Recorded := UInt64 × Event

def retainHours : UInt64 := 25

def capacity : ℕ := 10000

def windowStart (t : UInt64) : UInt64 := saturatingSub t (retainHours * 3600)

def pushMem (log : List Recorded) (entry : Recorded) : List Recorded :=
  let log := log.dropWhile fun x ↦ x.1 < windowStart entry.1
  log.drop (log.length + 1 - capacity) ++ [entry]

/-- The first hour that `hourly_counts_at` counts. -/
def bucketStart (buckets : ℕ) (now : UInt64) : UInt64 :=
  saturatingSub (now / 3600 * 3600) (UInt64.ofNat (buckets - 1) * 3600)

def hourlyCountsAt (log : List Recorded) (event : Event) (buckets : ℕ) (now : UInt64) : List (UInt64 × ℕ) :=
  let start := bucketStart buckets now
  let out := (List.range buckets).map fun i ↦ (start + UInt64.ofNat i * 3600, 0)
  log.foldl (fun out x ↦
    if x.2 ≠ event ∨ x.1 < start then out
    else out.modify ((x.1 - start) / 3600).toNat fun slot ↦ (slot.1, slot.2 + 1)) out

abbrev Dir := Text → Option Text

structure Process where
  log : List Recorded
  lastDay : ℕ
  dir : Dir

def entryLine (x : Recorded) : Text := decimal x.1 ++ '\t' :: (x.2.asStr.toList ++ ['\n'])

def pruneDir (dir : Dir) (now : UInt64) : Dir := fun name ↦ if prunes now name then none else dir name

def appendPartition (dir : Dir) (x : Recorded) : Dir :=
  Function.update dir (partitionName x.1) (some ((dir (partitionName x.1)).getD [] ++ entryLine x))

/-- The first record of a day prunes, before it is written. -/
def rotate (p : Process) (x : Recorded) : Dir := if p.lastDay ≠ day x.1 then pruneDir p.dir x.1 else p.dir

def recordAt (p : Process) (x : Recorded) : Process where
  log := pushMem p.log x
  lastDay := day x.1
  dir := appendPartition (rotate p x) x

/-- `str::split_once` at a tab, both halves trimmed and read. -/
def parseEntry (line : Text) : Option Recorded :=
  if '\t' ∈ line then
    (parseU64 (trim (line.takeWhile (· ≠ '\t')))).bind fun t ↦
      (Event.parse (trim (line.dropWhile (· ≠ '\t')).tail)).map (t, ·)
  else none

def fileEntries (dir : Dir) (t : UInt64) : List Recorded :=
  ((dir (partitionName t)).map fun contents ↦ (lines contents).filterMap parseEntry).getD []

def loadWindow (dir : Dir) (now : UInt64) : List Recorded :=
  ([saturatingSub now 86400, now].flatMap fun t ↦
    (fileEntries dir t).filter fun x ↦ windowStart now ≤ x.1 ∧ x.1 ≤ now + 3600).insertionSort
      fun x y ↦ x.1 ≤ y.1

/-- The log of a fresh process after `init`. -/
def initLog (dir : Dir) (now : UInt64) : List Recorded := (loadWindow dir now).foldl pushMem []

def running (records : List Recorded) : Process := records.foldl recordAt ⟨[], 0, fun _ ↦ none⟩

def window (now : UInt64) (records : List Recorded) : List Recorded := records.filter (windowStart now ≤ ·.1)

theorem Event.parse_asStr (e : Event) : Event.parse e.asStr.toList = some e := by
  cases e <;> decide

theorem asStr_chars (e : Event) : ∀ c ∈ e.asStr.toList, Dedicated.isWhitespace c = false := by
  cases e <;> simp [Event.asStr, Dedicated.isWhitespace]

def entryBody (x : Recorded) : Text := decimal x.1 ++ '\t' :: x.2.asStr.toList

theorem entryLine_eq (x : Recorded) : entryLine x = entryBody x ++ ['\n'] := by
  simp [entryLine, entryBody]

theorem parseEntry_entryBody (x : Recorded) : parseEntry (entryBody x) = some x := by
  have htab : ∀ c ∈ decimal x.1, (decide (c ≠ '\t')) = true :=
    fun c hc ↦ by simpa using (decimal_clean x.1 c hc).1
  have hdecimal : trim (decimal x.1) = decimal x.1 := Guest.trim_clean fun c hc ↦
    Guest.isWhitespace_of_isDigit (Nat.isDigit_of_mem_toDigits (by decide) (by decide) hc)
  have hkind : trim x.2.asStr.toList = x.2.asStr.toList := Guest.trim_clean (asStr_chars x.2)
  have htake : (entryBody x).takeWhile (· ≠ '\t') = decimal x.1 := by
    rw [entryBody, List.takeWhile_append_of_pos htab, List.takeWhile_cons_of_neg (by decide), List.append_nil]
  have hdrop : (entryBody x).dropWhile (· ≠ '\t') = '\t' :: x.2.asStr.toList := by
    rw [entryBody, List.dropWhile_append_of_pos htab, List.dropWhile_cons_of_neg (by decide)]
  rw [parseEntry, if_pos (by simp [entryBody]), htake, hdrop, List.tail_cons, hdecimal, hkind, parseU64_decimal,
    Event.parse_asStr]
  rfl

theorem filterMap_parseEntry (records : List Recorded) :
    (lines (records.flatMap entryLine)).filterMap parseEntry = records := by
  have hclean : ∀ x : Recorded, ∀ c ∈ entryBody x, c ≠ '\n' ∧ c ≠ '\r' := by
    intro x c hc
    rw [entryBody, List.mem_append, List.mem_cons] at hc
    rcases hc with hc | rfl | hc
    · have hdigit := Nat.isDigit_of_mem_toDigits (by decide) (by decide) hc
      constructor <;> (rintro rfl; exact absurd hdigit (by decide))
    · decide
    · have hspace := asStr_chars x.2 c hc
      constructor <;> (rintro rfl; exact absurd hspace (by decide))
  have hnl : ∀ x ∈ records, '\n' ∉ entryBody x := fun x _ hc ↦ (hclean x _ hc).1 rfl
  have hcr : ∀ x ∈ records, (entryBody x).getLast? ≠ some '\r' :=
    fun x _ hc ↦ (hclean x _ (List.mem_of_getLast? hc)).2 rfl
  have hlines := lines_flatMap hnl hcr
  rw [← funext entryLine_eq] at hlines
  rw [hlines, List.filterMap_map]
  exact (List.filterMap_congr fun x _ ↦ parseEntry_entryBody x).trans List.filterMap_some

theorem day_mono {t u : UInt64} (h : t ≤ u) : day t ≤ day u :=
  Nat.div_le_div_right (UInt64.le_iff_toNat_le.mp h)

theorem partitionName_inj {t u : UInt64} : partitionName t = partitionName u ↔ day t = day u :=
  ⟨fun h ↦ dateStr_inj.mp (eventsFile_inj h), fun h ↦ congrArg eventsFile (dateStr_inj.mpr h)⟩

theorem prunes_congr {t u : UInt64} (h : day t = day u) (name : Text) : prunes t name = prunes u name := by
  have hcutoff : pruneCutoff t = pruneCutoff u := by
    refine dateStr_congr ?_
    rw [day_pruneCutoff, day_pruneCutoff, h]
  rw [prunes, prunes, hcutoff]

theorem appendPartition_of_eq {x : Recorded} {t : UInt64} (dir : Dir) (h : day x.1 = day t) :
    appendPartition dir x (partitionName t) = some ((dir (partitionName t)).getD [] ++ entryLine x) := by
  rw [← partitionName_inj.mpr h]
  exact Function.update_self ..

theorem appendPartition_of_ne {x : Recorded} {t : UInt64} (dir : Dir) (h : day x.1 ≠ day t) :
    appendPartition dir x (partitionName t) = dir (partitionName t) :=
  Function.update_of_ne (fun heq ↦ h (partitionName_inj.mp heq).symm) ..

theorem rotate_apply (p : Process) (x : Recorded) (name : Text) :
    rotate p x name = if p.lastDay ≠ day x.1 ∧ prunes x.1 name = true then none else p.dir name := by
  unfold rotate
  by_cases h : p.lastDay ≠ day x.1
  · rw [if_pos h]
    exact if_congr (by simp [h]) rfl rfl
  · rw [if_neg h, if_neg fun hboth ↦ h hboth.1]

section Directory

variable {records : List Recorded} {r : Recorded} {t : UInt64}

def sameDay (t : UInt64) (records : List Recorded) : List Recorded := records.filter fun x ↦ day x.1 = day t

/-- A record of a later day has pruned the partition. -/
def Dropped (t : UInt64) (records : List Recorded) : Prop :=
  ∃ x ∈ records, day t < day x.1 ∧ prunes x.1 (partitionName t) = true

theorem running_snoc (records : List Recorded) (r : Recorded) :
    running (records ++ [r]) = recordAt (running records) r := List.foldl_append

theorem exists_last (hsorted : records.Pairwise (·.1 ≤ ·.1)) (hne : records ≠ []) :
    ∃ x ∈ records, (∀ y ∈ records, day y.1 ≤ day x.1) ∧ (running records).lastDay = day x.1 := by
  obtain ⟨init, x, rfl⟩ := (List.eq_nil_or_concat' records).resolve_left hne
  refine ⟨x, by simp, fun y hy ↦ ?_, congrArg Process.lastDay (running_snoc init x)⟩
  rcases List.mem_append.mp hy with hy | hy
  · exact day_mono ((List.pairwise_append.mp hsorted).2.2 y hy x List.mem_cons_self)
  · rw [List.mem_singleton.mp hy]

theorem dropped_snoc : Dropped t (records ++ [r]) ↔
    Dropped t records ∨ day t < day r.1 ∧ prunes r.1 (partitionName t) = true := by
  simp only [Dropped, List.mem_append, List.mem_singleton, or_and_right, exists_or, exists_eq_left]

open Classical in
/-- A partition has the records of its day, until a record of a later day drops it. -/
theorem dir_running (hsorted : records.Pairwise (·.1 ≤ ·.1)) (t : UInt64) :
    (running records).dir (partitionName t) =
      if sameDay t records = [] ∨ Dropped t records then none
      else some ((sameDay t records).flatMap entryLine) := by
  induction records using List.reverseRecOn with
  | nil => rfl
  | append_singleton records r ih =>
    obtain ⟨hsorted, -, hlast⟩ := List.pairwise_append.mp hsorted
    have hle : ∀ x ∈ records, day x.1 ≤ day r.1 := fun x hx ↦ day_mono (hlast x hx r List.mem_cons_self)
    specialize ih hsorted
    have hlastDay := exists_last hsorted
    have hdir : (running (records ++ [r])).dir = appendPartition (rotate (running records) r) r :=
      congrArg Process.dir (running_snoc records r)
    generalize running records = p at ih hlastDay hdir
    rw [hdir]
    by_cases hday : day r.1 = day t
    · have hdropped : ¬ Dropped t (records ++ [r]) := by
        rintro ⟨x, hx, hlt, -⟩
        rcases List.mem_append.mp hx with hx | hx
        · exact absurd (hle x hx) (by omega)
        · rw [List.mem_singleton.mp hx] at hlt
          omega
      have hsame : sameDay t (records ++ [r]) = sameDay t records ++ [r] := by
        simp [sameDay, hday]
      -- a partition that exists is that of the last day, so that nothing is pruned
      have hbefore : (rotate p r (partitionName t)).getD [] = (sameDay t records).flatMap entryLine := by
        rw [rotate_apply, ih]
        by_cases hnil : sameDay t records = []
        · simp [hnil]
        · obtain ⟨x, hx⟩ := List.exists_mem_of_ne_nil _ hnil
          rw [sameDay, List.mem_filter, decide_eq_true_eq] at hx
          obtain ⟨y, hy, hmax, hkept⟩ := hlastDay (List.ne_nil_of_mem hx.1)
          have hsameDay : p.lastDay = day r.1 := by
            have hfrom := hmax x hx.1
            have hto := hle y hy
            omega
          have hnot : ¬ Dropped t records := fun h ↦ hdropped (dropped_snoc.mpr (.inl h))
          rw [if_neg fun h ↦ h.1 hsameDay, if_neg (by simp [hnil, hnot]), Option.getD_some]
      rw [appendPartition_of_eq _ hday, hbefore, hsame, if_neg (by simp [hdropped]), List.flatMap_append,
        List.flatMap_singleton]
    · have hsame : sameDay t (records ++ [r]) = sameDay t records := by
        simp [sameDay, hday]
      rw [appendPartition_of_ne _ hday, hsame, dropped_snoc, rotate_apply, ih]
      by_cases hnil : sameDay t records = []
      · simp [hnil]
      · obtain ⟨x, hx⟩ := List.exists_mem_of_ne_nil _ hnil
        rw [sameDay, List.mem_filter, decide_eq_true_eq] at hx
        have hlt : day t < day r.1 := lt_of_le_of_ne (hx.2 ▸ hle x hx.1) (Ne.symm hday)
        obtain ⟨y, hy, -, hkept⟩ := hlastDay (List.ne_nil_of_mem hx.1)
        by_cases hrotate : p.lastDay = day r.1
        · have hagain : day t < day r.1 ∧ prunes r.1 (partitionName t) = true → Dropped t records := by
            rintro ⟨-, hprunes⟩
            have hyr : day y.1 = day r.1 := hkept.symm.trans hrotate
            exact ⟨y, hy, hyr ▸ hlt, (prunes_congr hyr _).trans hprunes⟩
          rw [if_neg fun h ↦ h.1 hrotate, or_iff_left_of_imp hagain]
        · by_cases hprunes : prunes r.1 (partitionName t) = true
          · rw [if_pos ⟨hrotate, hprunes⟩, if_pos (.inr (.inr ⟨hlt, hprunes⟩))]
          · have hkeeps : ¬ (day t < day r.1 ∧ prunes r.1 (partitionName t) = true) := fun h ↦ hprunes h.2
            rw [if_neg fun h ↦ hprunes h.2, or_iff_left hkeeps]

open Classical in
theorem fileEntries_running (hsorted : records.Pairwise (·.1 ≤ ·.1)) (t : UInt64) :
    fileEntries (running records).dir t = if Dropped t records then [] else sameDay t records := by
  rw [fileEntries, dir_running hsorted]
  by_cases hdropped : Dropped t records
  · rw [if_pos (.inr hdropped), if_pos hdropped]
    rfl
  · rw [if_neg hdropped]
    by_cases hnil : sameDay t records = []
    · rw [if_pos (.inl hnil), hnil]
      rfl
    · rw [if_neg (by simp [hnil, hdropped]), Option.map_some, Option.getD_some, filterMap_parseEntry]

theorem Dropped.congr {u : UInt64} (h : day t = day u) (hdropped : Dropped t records) : Dropped u records := by
  obtain ⟨x, hx, hlt, hprunes⟩ := hdropped
  rw [partitionName_inj.mpr h] at hprunes
  exact ⟨x, hx, h ▸ hlt, hprunes⟩

end Directory

section Log

variable {records : List Recorded} {now : UInt64}

def tooOld (x y : Recorded) : Bool := y.1 < windowStart x.1

theorem pushMem_eq : pushMem = WindowLog.push tooOld capacity := rfl

theorem log_recordAt (p : Process) (x : Recorded) : (recordAt p x).log = pushMem p.log x := rfl

theorem log_running (records : List Recorded) : (running records).log = records.foldl pushMem [] := by
  induction records using List.reverseRecOn with
  | nil => rfl
  | append_singleton records r ih =>
    rw [running_snoc, log_recordAt, List.foldl_append, ih, List.foldl_cons, List.foldl_nil]

theorem toNat_windowStart (t : UInt64) : (windowStart t).toNat = t.toNat - 25 * 3600 := by
  have hspan : (retainHours * 3600).toNat = 25 * 3600 := rfl
  rw [windowStart, toNat_saturatingSub, hspan]

theorem windowStart_mono {t u : UInt64} (h : t ≤ u) : windowStart t ≤ windowStart u := by
  rw [UInt64.le_iff_toNat_le, toNat_windowStart, toNat_windowStart]
  exact Nat.sub_le_sub_right (UInt64.le_iff_toNat_le.mp h) _

/-- A queue that is pushed to in the order of time keeps the window of a later time. -/
theorem window_foldl_pushMem (hsorted : records.Pairwise (·.1 ≤ ·.1)) (hnow : ∀ x ∈ records, x.1 ≤ now)
    (hcap : (window now records).length < capacity) :
    window now (records.foldl pushMem []) = window now records := by
  rw [pushMem_eq]
  refine WindowLog.filter_foldl_push (hsorted.imp fun hle hx ↦ ?_) (fun x hx y _ hold ↦ ?_) hcap
  · exact decide_eq_true (UInt64.le_trans (of_decide_eq_true hx) hle)
  · have hlt := UInt64.lt_of_lt_of_le (of_decide_eq_true hold) (windowStart_mono (hnow x hx))
    exact decide_eq_false (UInt64.not_le.mpr hlt)

theorem hourlyCountsAt_window {event : Event} {buckets : ℕ} (log : List Recorded)
    (h : windowStart now ≤ bucketStart buckets now) :
    hourlyCountsAt (window now log) event buckets now = hourlyCountsAt log event buckets now := by
  simp only [hourlyCountsAt, window, List.foldl_filter]
  congr 1
  funext out x
  by_cases hx : windowStart now ≤ x.1
  · simp [hx]
  · have hlt : x.1 < bucketStart buckets now := UInt64.lt_of_lt_of_le (UInt64.not_le.mp hx) h
    simp [hx, hlt]

end Log

section Restart

variable {records : List Recorded} {now : UInt64} {x : Recorded}

/-- What a restart keeps of the window: an event of today or yesterday, whose partition is there still. -/
structure Kept (records : List Recorded) (now : UInt64) (x : Recorded) : Prop where
  afterFirstDay : 86400 ≤ now
  noOverflow : now.toNat + 3600 < 2 ^ 64
  recent : day now ≤ day x.1 + 1
  notDropped : ¬ Dropped x.1 records

theorem mem_window : x ∈ window now records ↔ x ∈ records ∧ windowStart now ≤ x.1 := by
  simp [window]

theorem mem_loadWindow (hsorted : records.Pairwise (·.1 ≤ ·.1))
    (hx : x ∈ loadWindow (running records).dir now) :
    x ∈ window now records ∧ x.1 ≤ now + 3600 ∧
    (day x.1 = day (saturatingSub now 86400) ∨ day x.1 = day now) ∧
      ¬ Dropped x.1 records := by
  classical
  rw [loadWindow, List.mem_insertionSort, List.mem_flatMap] at hx
  obtain ⟨t, ht, hx⟩ := hx
  rw [List.mem_filter, decide_eq_true_eq, fileEntries_running hsorted] at hx
  obtain ⟨hfile, hstart, hend⟩ := hx
  split_ifs at hfile with hdropped
  · cases hfile
  · rw [sameDay, List.mem_filter, decide_eq_true_eq] at hfile
    refine ⟨mem_window.mpr ⟨hfile.1, hstart⟩, hend, ?_, fun h ↦ hdropped (h.congr hfile.2)⟩
    rw [hfile.2]
    rcases List.mem_cons.mp ht with rfl | ht
    · exact .inl rfl
    · exact .inr (congrArg day (List.mem_singleton.mp ht))

theorem toNat_add_hour (h : now.toNat + 3600 < 2 ^ 64) : (now + 3600).toNat = now.toNat + 3600 := by
  rw [UInt64.toNat_add]
  exact Nat.mod_eq_of_lt h

/-- What is read of a partition is the window's part of the day. -/
theorem filter_sameDay (hnow : ∀ x ∈ records, x.1 ≤ now) (hhour : now.toNat + 3600 < 2 ^ 64) (t : UInt64) :
    (sameDay t records).filter (fun x ↦ windowStart now ≤ x.1 ∧ x.1 ≤ now + 3600) =
      sameDay t (window now records) := by
  rw [sameDay, sameDay, window, List.filter_filter, List.filter_filter]
  refine List.filter_congr fun x hx ↦ ?_
  have hle : x.1 ≤ now + 3600 := by
    have hxnow := hnow x hx
    rw [UInt64.le_iff_toNat_le] at hxnow ⊢
    rw [toNat_add_hour hhour]
    omega
  simp [hle, Bool.and_comm]

theorem day_saturatingSub (h : 86400 ≤ now) : day (saturatingSub now 86400) + 1 = day now := by
  rw [UInt64.le_iff_toNat_le] at h
  have hspan : (86400 : UInt64).toNat = 86400 := rfl
  rw [day, day, toNat_saturatingSub, hspan]
  omega

theorem loadWindow_eq (hsorted : records.Pairwise (·.1 ≤ ·.1)) (hnow : ∀ x ∈ records, x.1 ≤ now)
    (hkept : ∀ x ∈ window now records, Kept records now x) :
    loadWindow (running records).dir now = window now records := by
  classical
  rcases (window now records).eq_nil_or_concat' with hnil | ⟨init, y, hconcat⟩
  · rw [hnil, List.eq_nil_iff_forall_not_mem]
    intro x hx
    have hwindow := (mem_loadWindow hsorted hx).1
    rw [hnil] at hwindow
    cases hwindow
  · have hy := hkept y (by simp [hconcat])
    have hday := day_saturatingSub hy.afterFirstDay
    have hread : ∀ t, (fileEntries (running records).dir t).filter
        (fun x ↦ windowStart now ≤ x.1 ∧ x.1 ≤ now + 3600) = sameDay t (window now records) := by
      intro t
      rw [fileEntries_running hsorted]
      split_ifs with hdropped
      · refine (List.filter_eq_nil_iff.mpr fun x hx ↦ ?_).symm
        rw [decide_eq_true_eq]
        exact fun hxt ↦ (hkept x hx).notDropped (hdropped.congr hxt.symm)
      · exact filter_sameDay hnow hy.noOverflow t
    have hwindow : (window now records).Pairwise (·.1 ≤ ·.1) := hsorted.sublist List.filter_sublist
    have hdays := WindowLog.filter_append_filter (f := fun x : Recorded ↦ day x.1) (hwindow.imp day_mono)
      (Nat.lt_of_succ_le hday.le) fun x hx ↦ by
        have hrecent := (hkept x hx).recent
        have hle := day_mono (hnow x (mem_window.mp hx).1)
        omega
    rw [loadWindow, List.flatMap_cons, List.flatMap_cons, List.flatMap_nil, List.append_nil, hread, hread,
      sameDay, sameDay, hdays, hwindow.insertionSort_eq]

theorem window_window (records : List Recorded) : window now (window now records) = window now records :=
  List.filter_eq_self.mpr fun _ hx ↦ decide_eq_true (mem_window.mp hx).2

theorem initLog_eq (hsorted : records.Pairwise (·.1 ≤ ·.1)) (hnow : ∀ x ∈ records, x.1 ≤ now)
    (hcap : (window now records).length < capacity) (hkept : ∀ x ∈ window now records, Kept records now x) :
    initLog (running records).dir now = window now records := by
  have hwindow : (window now records).Pairwise (·.1 ≤ ·.1) := hsorted.sublist List.filter_sublist
  have hlog : window now ((window now records).foldl pushMem []) = window now (window now records) :=
    window_foldl_pushMem hwindow (fun x hx ↦ hnow x (mem_window.mp hx).1) (by rwa [window_window])
  have hsub := WindowLog.foldl_push_sublist tooOld capacity (window now records) []
  have hall : window now ((window now records).foldl pushMem []) = (window now records).foldl pushMem [] :=
    List.filter_eq_self.mpr fun x hx ↦ decide_eq_true (mem_window.mp (hsub.subset hx)).2
  rw [initLog, loadWindow_eq hsorted hnow hkept, ← hall, hlog, window_window]

/-- On the first day of all the two partitions are one, and every event is read twice. -/
theorem length_initLog_firstDay (hsorted : records.Pairwise (·.1 ≤ ·.1)) (hnow : ∀ x ∈ records, x.1 ≤ now)
    (hfirst : now.toNat < 86400) :
    (initLog (running records).dir now).length = min (2 * (window now records).length) capacity := by
  classical
  have hday : ∀ t : UInt64, t.toNat ≤ now.toNat → day t = 0 := fun t ht ↦
    Nat.div_eq_of_lt (lt_of_le_of_lt ht hfirst)
  have hzero : ∀ x ∈ records, day x.1 = 0 := fun x hx ↦ hday x.1 (UInt64.le_iff_toNat_le.mp (hnow x hx))
  have hread : ∀ t : UInt64, t.toNat ≤ now.toNat → (fileEntries (running records).dir t).filter
      (fun x ↦ windowStart now ≤ x.1 ∧ x.1 ≤ now + 3600) = window now records := by
    intro t ht
    have hdropped : ¬ Dropped t records := by
      rintro ⟨x, hx, hlt, -⟩
      rw [hzero x hx] at hlt
      exact absurd hlt (Nat.not_lt_zero _)
    rw [fileEntries_running hsorted, if_neg hdropped, filter_sameDay hnow (by omega)]
    refine List.filter_eq_self.mpr fun x hx ↦ decide_eq_true ?_
    rw [hzero x (mem_window.mp hx).1, hday t ht]
  have hyesterday : (saturatingSub now 86400).toNat ≤ now.toNat := by
    rw [toNat_saturatingSub]
    exact Nat.sub_le _ _
  have hload : loadWindow (running records).dir now =
      (window now records ++ window now records).insertionSort fun x y ↦ x.1 ≤ y.1 := by
    rw [loadWindow, List.flatMap_cons, List.flatMap_cons, List.flatMap_nil, List.append_nil, hread _ hyesterday,
      hread _ (le_refl _)]
  rw [initLog, pushMem_eq, WindowLog.length_foldl_push, hload, List.length_insertionSort, List.length_append,
    Nat.two_mul]
  · intro x hx y _
    have hxnow := (mem_loadWindow hsorted hx).1
    have hle := hnow x (mem_window.mp hxnow).1
    rw [UInt64.le_iff_toNat_le] at hle
    refine decide_eq_false ?_
    rw [UInt64.lt_iff_toNat_lt, toNat_windowStart]
    omega
  · decide

theorem kept_of_initLog (hsorted : records.Pairwise (·.1 ≤ ·.1)) (hnow : ∀ x ∈ records, x.1 ≤ now)
    (hcap : (window now records).length < capacity)
    (hinit : initLog (running records).dir now = window now records) :
    ∀ x ∈ window now records, Kept records now x := by
  classical
  intro x hx
  have hload : x ∈ loadWindow (running records).dir now := by
    rw [← hinit] at hx
    exact (WindowLog.foldl_push_sublist tooOld capacity _ []).subset hx
  obtain ⟨-, hend, hday, hdropped⟩ := mem_loadWindow hsorted hload
  have hstart := (mem_window.mp hx).2
  have hxnow := hnow x (mem_window.mp hx).1
  rw [UInt64.le_iff_toNat_le] at hend hstart hxnow
  rw [toNat_windowStart] at hstart
  have hhour : now.toNat + 3600 < 2 ^ 64 := by
    by_contra! hover
    have hsum : (now + 3600).toNat = now.toNat + 3600 - 2 ^ 64 := by
      have hlt := now.toNat_lt
      rw [UInt64.toNat_add]
      have hspan : (3600 : UInt64).toNat = 3600 := rfl
      omega
    omega
  refine ⟨?_, hhour, ?_, hdropped⟩
  · by_contra hfirst
    have hlt : now.toNat < 86400 := by
      rw [UInt64.le_iff_toNat_le] at hfirst
      exact not_le.mp hfirst
    have hlen := congrArg List.length hinit
    rw [length_initLog_firstDay hsorted hnow hlt] at hlen
    have hpos := List.length_pos_of_mem hx
    omega
  · have hle := day_mono (hnow x (mem_window.mp hx).1)
    rcases hday with hday | hday
    · have hspan : (86400 : UInt64).toNat = 86400 := rfl
      rw [hday, day, day, toNat_saturatingSub, hspan]
      omega
    · omega

/-- A restart leaves the window as it was, in the log and in what is counted from it. -/
structure Survives (records : List Recorded) (now : UInt64) : Prop where
  loaded : initLog (running records).dir now = window now records
  held : window now (running records).log = window now records
  counts : ∀ event buckets, windowStart now ≤ bucketStart buckets now →
    hourlyCountsAt (initLog (running records).dir now) event buckets now =
      hourlyCountsAt (running records).log event buckets now

/-- The log of a fresh process is the window of everything that was recorded exactly where the events of
the window are in the partitions of today and yesterday. -/
theorem event_window_survives (hsorted : records.Pairwise (·.1 ≤ ·.1)) (hnow : ∀ x ∈ records, x.1 ≤ now)
    (hcap : (window now records).length < capacity) :
    Survives records now ↔ ∀ x ∈ window now records, Kept records now x := by
  refine ⟨fun h ↦ kept_of_initLog hsorted hnow hcap h.loaded, fun hkept ↦ ?_⟩
  have hloaded := initLog_eq hsorted hnow hcap hkept
  have hheld : window now (running records).log = window now records := by
    rw [log_running]
    exact window_foldl_pushMem hsorted hnow hcap
  refine ⟨hloaded, hheld, fun event buckets hstart ↦ ?_⟩
  rw [hloaded, ← hheld, hourlyCountsAt_window _ hstart]

/-- Before the year 10000 no record drops a partition of the window. -/
theorem not_dropped (hnow : ∀ x ∈ records, x.1 ≤ now) (hyear : now.toNat < endOf9999)
    (hx : x ∈ window now records) : ¬ Dropped x.1 records := by
  rintro ⟨y, hy, -, hprunes⟩
  obtain ⟨date, hdate, hlt⟩ := prunes_iff.mp hprunes
  have hxnow := hnow x (mem_window.mp hx).1
  have hynow := hnow y hy
  have hstart := (mem_window.mp hx).2
  rw [UInt64.le_iff_toNat_le] at hxnow hynow hstart
  rw [toNat_windowStart] at hstart
  have hname : IsPartition (partitionName x.1) x.1 := ⟨lt_of_le_of_lt hxnow hyear, .inl rfl⟩
  rw [hname.nameDate] at hdate
  rw [← Option.some_inj.mp hdate, dateStr_lt_pruneCutoff_iff (lt_of_le_of_lt hynow hyear) hname.1] at hlt
  have hdays : retainDays.toNat = 14 := rfl
  rw [hdays, day, day] at hlt
  omega

/-- Three events of a noon's window, one of them of the evening before. -/
theorem event_window_survives_noon : Survives
    [(1784674800, .vmCreated), (1784700000, .restoreS3), (1784721600, .vmCreated)] 1784721600 := by
  have hnow : ∀ x ∈ ([(1784674800, .vmCreated), (1784700000, .restoreS3), (1784721600, .vmCreated)] :
      List Recorded), x.1 ≤ 1784721600 := by
    decide
  have hrecent : ∀ x ∈ ([(1784674800, .vmCreated), (1784700000, .restoreS3), (1784721600, .vmCreated)] :
      List Recorded), day 1784721600 ≤ day x.1 + 1 := by
    decide
  refine (event_window_survives (by decide) hnow (by decide)).mpr fun x hx ↦ ?_
  exact ⟨by decide, by decide, hrecent x (mem_window.mp hx).1, not_dropped hnow (by decide) hx⟩

/-- At half past midnight the window reaches into the day before yesterday, whose partition is not read. -/
theorem event_window_lost :
    window 1784680200 [(1784591400, .vmCreated)] = [(1784591400, .vmCreated)] ∧
      ¬ Survives [(1784591400, .vmCreated)] 1784680200 := by
  have hwindow : window 1784680200 [(1784591400, .vmCreated)] = [(1784591400, .vmCreated)] := by decide
  refine ⟨hwindow, fun h ↦ ?_⟩
  have hkept := kept_of_initLog (by decide) (by decide) (by decide) h.loaded (1784591400, .vmCreated)
    (by rw [hwindow]; exact List.mem_cons_self)
  exact absurd hkept.recent (by decide)

end Restart

end PgVmPool.Events
