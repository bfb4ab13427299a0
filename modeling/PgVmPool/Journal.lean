import PgVmPool.EventWindow

namespace PgVmPool.Events

open HostPath Uri
open Dedicated (trim)

inductive Level
  | info | error
  deriving DecidableEq

namespace Level

def asStr : Level → String
  | .info => "info"
  | .error => "error"

def parse (s : Text) : Option Level :=
  if s = "info".toList then some .info else if s = "error".toList then some .error else none

end Level

structure JournalEntry where
  t : UInt64
  level : Level
  kind : Text
  msg : Text
  deriving DecidableEq

def journalCapacity : ℕ := 1000

/-- What would break a line of the journal is a space in it. -/
def sanitize (msg : Text) : Text := msg.map fun c ↦ if c = '\t' ∨ c = '\n' ∨ c = '\r' then ' ' else c

def pushJournalMem (journal : List JournalEntry) (entry : JournalEntry) : List JournalEntry :=
  journal.drop (journal.length + 1 - journalCapacity) ++ [entry]

def journalLine (e : JournalEntry) : Text :=
  decimal e.t ++ '\t' :: (e.level.asStr.toList ++ '\t' :: (e.kind ++ '\t' :: (e.msg ++ ['\n'])))

/-- How an append comes out: where it fails, `kept` characters of the line are in the file. -/
inductive Append
  | done
  | failed (kept : ℕ)

def Append.text (a : Append) (line : Text) : Text :=
  match a with
  | .done => line
  | .failed kept => line.take kept

def appendJournal (dir : Dir) (e : JournalEntry) (a : Append) : Dir :=
  Function.update dir (journalName e.t) (some ((dir (journalName e.t)).getD [] ++ a.text (journalLine e)))

/-- What `init` wires up: the charts' events and the journal, over one directory. -/
structure Metrics where
  events : Process
  journal : List JournalEntry

/-- Something happens at a time: an event to count, or an entry for the journal. -/
inductive Happening
  | record (t : UInt64) (event : Event)
  | journal (t : UInt64) (level : Level) (kind msg : Text) (a : Append)

def Happening.time : Happening → UInt64
  | .record t _ | .journal t _ _ _ _ => t

/-- The entry is in memory whether or not its append goes through: a failure is only logged. -/
def journalAt (m : Metrics) (level : Level) (kind msg : Text) (t : UInt64) (a : Append) : Metrics :=
  let entry : JournalEntry := ⟨t, level, kind, sanitize msg⟩
  { events := { m.events with dir := appendJournal m.events.dir entry a }
    journal := pushJournalMem m.journal entry }

def Metrics.happen (m : Metrics) : Happening → Metrics
  | .record t event => { m with events := recordAt m.events (t, event) }
  | .journal t level kind msg a => journalAt m level kind msg t a

/-- `splitn(4, '\t')` of a line, its fields read; a line that is no entry is skipped. -/
def parseJournal (line : Text) : Option JournalEntry :=
  match line.splitOn '\t' with
  | ts :: level :: kind :: msg :: rest => do
    let t ← parseU64 (trim ts)
    let level ← Level.parse level
    return ⟨t, level, kind, ['\t'].intercalate (msg :: rest)⟩
  | _ => none

def journalEntries (dir : Dir) (t : UInt64) : List JournalEntry :=
  ((dir (journalName t)).map fun contents ↦ (lines contents).filterMap parseJournal).getD []

def loadJournalWindow (dir : Dir) (now : UInt64) : List JournalEntry :=
  let out := ([saturatingSub now 86400, now].flatMap (journalEntries dir)).insertionSort fun x y ↦ x.t ≤ y.t
  out.drop (out.length - journalCapacity)

/-- The journal of a fresh process after `init`. -/
def initJournal (dir : Dir) (now : UInt64) : List JournalEntry :=
  (loadJournalWindow dir now).foldl pushJournalMem []

def journalRecent (journal : List JournalEntry) (limit : ℕ) : List JournalEntry := journal.reverse.take limit

def metrics (happenings : List Happening) : Metrics :=
  happenings.foldl Metrics.happen ⟨⟨[], 0, fun _ ↦ none⟩, []⟩

theorem Level.parse_asStr (l : Level) : Level.parse l.asStr.toList = some l := by
  cases l <;> decide

theorem Level.asStr_clean (l : Level) : ∀ c ∈ l.asStr.toList, c ≠ '\t' ∧ c ≠ '\n' := by
  cases l <;> simp [Level.asStr]

section Lines

/-- No field but the message may have a tab, and none a newline in it. -/
structure JournalEntry.Clean (e : JournalEntry) : Prop where
  kind : ∀ c ∈ e.kind, c ≠ '\t' ∧ c ≠ '\n'
  msg : ∀ c ∈ e.msg, c ≠ '\t' ∧ c ≠ '\n' ∧ c ≠ '\r'

variable {e : JournalEntry}

theorem sanitize_clean (msg : Text) : ∀ c ∈ sanitize msg, c ≠ '\t' ∧ c ≠ '\n' ∧ c ≠ '\r' := by
  intro c hc
  obtain ⟨d, -, rfl⟩ := List.mem_map.mp hc
  split_ifs with h
  · decide
  · push Not at h
    exact h

def journalBody (e : JournalEntry) : Text :=
  decimal e.t ++ '\t' :: (e.level.asStr.toList ++ '\t' :: (e.kind ++ '\t' :: e.msg))

theorem journalLine_eq (e : JournalEntry) : journalLine e = journalBody e ++ ['\n'] := by
  simp [journalLine, journalBody]

theorem JournalEntry.Clean.newline_notMem (h : e.Clean) : '\n' ∉ journalBody e := by
  intro hmem
  simp only [journalBody, List.mem_append, List.mem_cons] at hmem
  obtain hc | hc | hc | hc | hc | hc | hc := hmem
  · exact (decimal_clean _ _ hc).2 rfl
  · cases hc
  · exact (Level.asStr_clean _ _ hc).2 rfl
  · cases hc
  · exact (h.kind _ hc).2 rfl
  · cases hc
  · exact (h.msg _ hc).2.1 rfl

theorem JournalEntry.Clean.getLast?_ne (h : e.Clean) : (journalBody e).getLast? ≠ some '\r' := by
  have hbody : journalBody e = (decimal e.t ++ '\t' :: (e.level.asStr.toList ++ '\t' :: e.kind)) ++ '\t' :: e.msg := by
    simp [journalBody]
  rw [hbody, List.getLast?_append_of_ne_nil _ (List.cons_ne_nil _ _)]
  intro hlast
  obtain hc | hc := List.mem_cons.mp (List.mem_of_getLast? hlast)
  · cases hc
  · exact (h.msg _ hc).2.2 rfl

theorem JournalEntry.Clean.parseJournal (h : e.Clean) : Events.parseJournal (journalBody e) = some e := by
  have hts : '\t' ∉ decimal e.t := fun hc ↦ (decimal_clean _ _ hc).1 rfl
  have hlevel : '\t' ∉ e.level.asStr.toList := fun hc ↦ (Level.asStr_clean _ _ hc).1 rfl
  have hkind : '\t' ∉ e.kind := fun hc ↦ (h.kind _ hc).1 rfl
  have hmsg : '\t' ∉ e.msg := fun hc ↦ (h.msg _ hc).1 rfl
  have hsplit : (journalBody e).splitOn '\t' = [decimal e.t, e.level.asStr.toList, e.kind, e.msg] := by
    simp only [journalBody, List.splitOn_append_cons_self, List.splitOn_eq_singleton hts,
      List.splitOn_eq_singleton hlevel, List.splitOn_eq_singleton hkind, List.splitOn_eq_singleton hmsg,
      List.singleton_append]
  have htrim : trim (decimal e.t) = decimal e.t := Guest.trim_clean fun c hc ↦
    Guest.isWhitespace_of_isDigit (Nat.isDigit_of_mem_toDigits (by decide) (by decide) hc)
  rw [Events.parseJournal, hsplit]
  dsimp only
  rw [htrim, parseU64_decimal, Level.parse_asStr, List.intercalate_singleton]
  rfl

theorem filterMap_parseJournal {es : List JournalEntry} (h : ∀ e ∈ es, e.Clean) :
    (lines (es.flatMap journalLine)).filterMap parseJournal = es := by
  have hlines := lines_flatMap (fun e he ↦ (h e he).newline_notMem) fun e he ↦ (h e he).getLast?_ne
  rw [← funext journalLine_eq] at hlines
  rw [hlines, List.filterMap_map]
  exact (List.filterMap_congr fun e he ↦ (h e he).parseJournal).trans List.filterMap_some

end Lines

section Newest

variable {α : Type} {p : α → Bool} {l : List α} {cap n : ℕ}

/-- Where what follows an element of the window is in the window too, the newest of the window are those of the
newest that are in it. -/
theorem filter_newest (hl : l.Pairwise fun x y ↦ p x = true → p y = true) :
    (l.drop (l.length - cap)).filter p = (l.filter p).drop ((l.filter p).length - cap) := by
  induction l with
  | nil => rw [List.drop_nil, List.filter_nil, List.drop_nil]
  | cons x l ih =>
    obtain ⟨hx, hl⟩ := List.pairwise_cons.mp hl
    by_cases hp : p x = true
    · have hall : ∀ y ∈ x :: l, p y = true := List.forall_mem_cons.mpr ⟨hp, fun y hy ↦ hx y hy hp⟩
      rw [List.filter_eq_self.mpr hall, List.filter_eq_self.mpr fun y hy ↦ hall y (List.mem_of_mem_drop hy)]
    · rw [List.filter_cons_of_neg hp, ← ih hl, List.length_cons]
      obtain hle | hlt := Nat.lt_or_ge l.length cap
      · have hzero : l.length + 1 - cap = 0 ∧ l.length - cap = 0 := by omega
        rw [hzero.1, hzero.2, List.drop_zero, List.drop_zero, List.filter_cons_of_neg hp]
      · have hsucc : l.length + 1 - cap = (l.length - cap) + 1 := by omega
        rw [hsucc, List.drop_succ_cons]

theorem take_filter (h : ∀ x ∈ l.take n, p x = true) : (l.filter p).take n = l.take n := by
  induction l generalizing n with
  | nil => rfl
  | cons x l ih =>
    cases n with
    | zero => rw [List.take_zero, List.take_zero]
    | succ n =>
      rw [List.take_succ_cons, List.forall_mem_cons] at h
      rw [List.filter_cons_of_pos h.1, List.take_succ_cons, List.take_succ_cons, ih h.2]

theorem foldl_pushJournalMem (es : List JournalEntry) :
    es.foldl pushJournalMem [] = es.drop (es.length - journalCapacity) := by
  induction es using List.reverseRecOn with
  | nil => rfl
  | append_singleton es e ih =>
    have hcap : 0 < journalCapacity := by decide
    have hdrop : es.length - journalCapacity + (es.length - (es.length - journalCapacity) + 1 - journalCapacity) =
        es.length + 1 - journalCapacity := by omega
    rw [List.foldl_concat, ih, pushJournalMem, List.drop_drop, List.length_drop, List.length_append,
      List.length_singleton, hdrop, List.drop_append_of_le_length (by omega)]

end Newest

section Restart

variable {happenings : List Happening} {now : UInt64}

def Happening.entry : Happening → Option JournalEntry
  | .record _ _ => none
  | .journal t level kind msg _ => some ⟨t, level, kind, sanitize msg⟩

/-- The entry, where its append went through. -/
def Happening.landed : Happening → Option JournalEntry
  | .journal t level kind msg .done => some ⟨t, level, kind, sanitize msg⟩
  | .journal _ _ _ _ (.failed _) | .record _ _ => none

/-- All that the journal was told. -/
def told (happenings : List Happening) : List JournalEntry := happenings.filterMap Happening.entry

/-- All that was ever written to the journal's files. -/
def written (happenings : List Happening) : List JournalEntry := happenings.filterMap Happening.landed

/-- The kinds that the code has are words. -/
def Happening.KindClean : Happening → Prop
  | .record _ _ => True
  | .journal _ _ kind _ _ => ∀ c ∈ kind, c ≠ '\t' ∧ c ≠ '\n'

/-- An append that fails leaves no part of its line. -/
def Happening.Untorn : Happening → Prop
  | .journal _ _ _ _ (.failed kept) => kept = 0
  | .journal _ _ _ _ .done | .record _ _ => True

def Happening.Appended : Happening → Prop
  | .journal _ _ _ _ (.failed _) => False
  | .journal _ _ _ _ .done | .record _ _ => True

theorem journalName_inj {t u : UInt64} : journalName t = journalName u ↔ day t = day u :=
  ⟨fun h ↦ dateStr_inj.mp (journalFile_inj h), fun h ↦ congrArg journalFile (dateStr_inj.mpr h)⟩

theorem happen_record (m : Metrics) (t : UInt64) (event : Event) :
    m.happen (.record t event) = ⟨recordAt m.events (t, event), m.journal⟩ := rfl

theorem happen_journal (m : Metrics) (t : UInt64) (level : Level) (kind msg : Text) (a : Append) :
    m.happen (.journal t level kind msg a) =
      ⟨⟨m.events.log, m.events.lastDay, appendJournal m.events.dir ⟨t, level, kind, sanitize msg⟩ a⟩,
        pushJournalMem m.journal ⟨t, level, kind, sanitize msg⟩⟩ := rfl

theorem dir_recordAt (p : Process) (x : Recorded) : (recordAt p x).dir = appendPartition (rotate p x) x := rfl

theorem appendPartition_journal (dir : Dir) (x : Recorded) (t : UInt64) :
    appendPartition dir x (journalName t) = dir (journalName t) := by
  rw [appendPartition, Function.update_of_ne]
  exact (eventsFile_ne_journalFile _ _).symm

theorem appendJournal_of_eq {e : JournalEntry} {t : UInt64} (dir : Dir) (a : Append) (h : day e.t = day t) :
    appendJournal dir e a (journalName t) = some ((dir (journalName t)).getD [] ++ a.text (journalLine e)) := by
  rw [← journalName_inj.mpr h, appendJournal, Function.update_self]

theorem appendJournal_of_ne {e : JournalEntry} {t : UInt64} (dir : Dir) (a : Append) (h : day e.t ≠ day t) :
    appendJournal dir e a (journalName t) = dir (journalName t) := by
  rw [appendJournal, Function.update_of_ne]
  exact fun heq ↦ h (journalName_inj.mp heq).symm

theorem metrics_snoc (happenings : List Happening) (h : Happening) :
    metrics (happenings ++ [h]) = (metrics happenings).happen h := List.foldl_append

theorem filterMap_snoc {α β : Type} (f : α → Option β) (xs : List α) (x : α) :
    (xs ++ [x]).filterMap f = xs.filterMap f ++ (f x).toList := by
  rw [List.filterMap_append]
  cases hx : f x with
  | none => rw [List.filterMap_cons_none hx, List.filterMap_nil, Option.toList_none]
  | some y => rw [List.filterMap_cons_some hx, List.filterMap_nil, Option.toList_some]

theorem mem_written {e : JournalEntry} : e ∈ written happenings ↔ ∃ h ∈ happenings, h.landed = some e :=
  List.mem_filterMap

theorem entry_of_landed {h : Happening} {e : JournalEntry} (he : h.landed = some e) : h.entry = some e := by
  cases h with
  | record t event => cases he
  | journal t level kind msg a =>
    cases a with
    | done => exact he
    | failed kept => cases he

theorem landed_eq_entry {h : Happening} (ha : h.Appended) : h.landed = h.entry := by
  cases h with
  | record t event => rfl
  | journal t level kind msg a =>
    cases a with
    | done => rfl
    | failed kept => exact absurd ha id

theorem time_of_entry {h : Happening} {e : JournalEntry} (he : h.entry = some e) : h.time = e.t := by
  cases h with
  | record t event => cases he
  | journal t level kind msg a =>
    cases he
    rfl

theorem clean_of_entry {h : Happening} {e : JournalEntry} (hkind : h.KindClean) (he : h.entry = some e) :
    e.Clean := by
  cases h with
  | record t event => cases he
  | journal t level kind msg a =>
    cases he
    exact ⟨hkind, sanitize_clean msg⟩

theorem journal_metrics (happenings : List Happening) :
    (metrics happenings).journal = (told happenings).foldl pushJournalMem [] := by
  induction happenings using List.reverseRecOn with
  | nil => rfl
  | append_singleton happenings h ih =>
    rw [metrics_snoc, told, filterMap_snoc, List.foldl_append, ← told, ← ih]
    cases h with
    | record t event => rw [happen_record, Happening.entry, Option.toList_none, List.foldl_nil]
    | journal t level kind msg a =>
      rw [happen_journal, Happening.entry, Option.toList_some, List.foldl_cons, List.foldl_nil]

/-- What an untorn append adds to the file is the line of the entry that landed. -/
theorem text_of_untorn {t : UInt64} {level : Level} {kind msg : Text} {a : Append}
    (h : (Happening.journal t level kind msg a).Untorn) : a.text (journalLine ⟨t, level, kind, sanitize msg⟩) =
      (Happening.journal t level kind msg a).landed.toList.flatMap journalLine := by
  cases a with
  | done => exact (List.flatMap_singleton ..).symm
  | failed kept =>
    obtain rfl : kept = 0 := h
    rfl

/-- A partition of the journal has the entries of its day that were appended, as long as no event drops it. -/
theorem dir_metrics (t : UInt64) (hkept : ∀ h ∈ happenings, prunes h.time (journalName t) = false)
    (huntorn : ∀ h ∈ happenings, h.Untorn) :
    ((metrics happenings).events.dir (journalName t)).getD [] =
      ((written happenings).filter (day ·.t = day t)).flatMap journalLine := by
  induction happenings using List.reverseRecOn with
  | nil => rfl
  | append_singleton happenings h ih =>
    rw [List.forall_mem_append] at hkept huntorn
    have hnot := hkept.2 h List.mem_cons_self
    have hwhole := huntorn.2 h List.mem_cons_self
    specialize ih hkept.1 huntorn.1
    rw [metrics_snoc, written, filterMap_snoc, List.filter_append, List.flatMap_append, ← written, ← ih]
    cases h with
    | record u event =>
      have hrotate : rotate (metrics happenings).events (u, event) (journalName t) =
          (metrics happenings).events.dir (journalName t) := by
        rw [rotate_apply, if_neg]
        rintro ⟨-, hprunes⟩
        rw [Happening.time] at hnot
        rw [hnot] at hprunes
        cases hprunes
      rw [happen_record, dir_recordAt, appendPartition_journal, hrotate, Happening.landed, Option.toList_none,
        List.filter_nil, List.flatMap_nil, List.append_nil]
    | journal u level kind msg a =>
      have hday : ∀ e ∈ (Happening.journal u level kind msg a).landed.toList, e.t = u := fun e he ↦
        (time_of_entry (entry_of_landed (Option.mem_toList.mp he))).symm
      rw [happen_journal]
      dsimp only
      by_cases heq : day u = day t
      · rw [appendJournal_of_eq _ a heq, Option.getD_some, text_of_untorn hwhole,
          List.filter_eq_self.mpr fun e he ↦ by simp [hday e he, heq]]
      · rw [appendJournal_of_ne _ a heq, List.filter_eq_nil_iff.mpr fun e he ↦ by simp [hday e he, heq],
          List.flatMap_nil, List.append_nil]

theorem journalEntries_eq (dir : Dir) (t : UInt64) :
    journalEntries dir t = (lines ((dir (journalName t)).getD [])).filterMap parseJournal := by
  rw [journalEntries]
  cases dir (journalName t) with
  | none => rfl
  | some contents => rfl

/-- Nothing that happens up to the day behind it drops a partition. -/
theorem not_prunes {t u : UInt64} (ht : t.toNat < endOf9999) (hu : u.toNat < endOf9999)
    (hday : day u ≤ day t + 1) : prunes u (journalName t) = false := by
  rw [Bool.eq_false_iff]
  intro hprunes
  obtain ⟨date, hdate, hlt⟩ := prunes_iff.mp hprunes
  have hname : IsPartition (journalName t) t := ⟨ht, .inr rfl⟩
  rw [hname.nameDate] at hdate
  rw [← Option.some_inj.mp hdate, dateStr_lt_pruneCutoff_iff hu ht] at hlt
  have hdays : retainDays.toNat = 14 := rfl
  omega

/-- An entry that a restart reads: one of today or of yesterday. -/
def recent (now : UInt64) (e : JournalEntry) : Bool := day now ≤ day e.t + 1

theorem loadJournalWindow_eq (hsorted : (happenings.map Happening.time).Pairwise (· ≤ ·))
    (hnow : ∀ h ∈ happenings, h.time ≤ now) (hkinds : ∀ h ∈ happenings, h.KindClean)
    (huntorn : ∀ h ∈ happenings, h.Untorn) (hfirst : 86400 ≤ now) (hyear : now.toNat < endOf9999) :
    loadJournalWindow (metrics happenings).events.dir now = ((written happenings).filter (recent now)).drop
      (((written happenings).filter (recent now)).length - journalCapacity) := by
  have hday := day_saturatingSub hfirst
  have hread : ∀ t : UInt64, t ≤ now → day now ≤ day t + 1 →
      journalEntries (metrics happenings).events.dir t = (written happenings).filter (day ·.t = day t) := by
    intro t ht hclose
    rw [UInt64.le_iff_toNat_le] at ht
    rw [journalEntries_eq, dir_metrics t (fun h hh ↦ ?_) huntorn, filterMap_parseJournal fun e he ↦ ?_]
    · obtain ⟨h, hh, hlanded⟩ := mem_written.mp (List.mem_filter.mp he).1
      exact clean_of_entry (hkinds h hh) (entry_of_landed hlanded)
    · have hle := hnow h hh
      have hdays := day_mono hle
      rw [UInt64.le_iff_toNat_le] at hle
      exact not_prunes (ht.trans_lt hyear) (hle.trans_lt hyear) (by omega)
  have hwritten : (written happenings).Pairwise fun x y ↦ x.t ≤ y.t := by
    refine List.Pairwise.filterMap _ ?_ (List.pairwise_map.mp hsorted)
    intro h h' hle e he e' he'
    rw [← time_of_entry (entry_of_landed he), ← time_of_entry (entry_of_landed he')]
    exact hle
  have hrecent : ((written happenings).filter (recent now)).Pairwise fun x y ↦ x.t ≤ y.t :=
    hwritten.sublist List.filter_sublist
  have hpart : ∀ t : UInt64, day now ≤ day t + 1 → (written happenings).filter (day ·.t = day t) =
      ((written happenings).filter (recent now)).filter (day ·.t = day t) := by
    intro t hclose
    rw [List.filter_filter]
    refine List.filter_congr fun e _ ↦ ?_
    by_cases heq : day e.t = day t
    · simp [heq, recent, hclose]
    · simp [heq]
  have htwo : ∀ e ∈ (written happenings).filter (recent now),
      day e.t = day (saturatingSub now 86400) ∨ day e.t = day now := by
    intro e he
    obtain ⟨hmem, hclose⟩ := List.mem_filter.mp he
    obtain ⟨h, hh, hlanded⟩ := mem_written.mp hmem
    have hle := day_mono (hnow h hh)
    rw [time_of_entry (entry_of_landed hlanded)] at hle
    have hclose := of_decide_eq_true hclose
    omega
  have hdays := WindowLog.filter_append_filter (hrecent.imp day_mono) (Nat.lt_of_succ_le hday.le) htwo
  have hback : saturatingSub now 86400 ≤ now := by
    rw [UInt64.le_iff_toNat_le, toNat_saturatingSub]
    omega
  rw [loadJournalWindow, List.flatMap_cons, List.flatMap_cons, List.flatMap_nil, List.append_nil,
    hread _ hback hday.ge, hread now (UInt64.le_refl now) (Nat.le_succ _), hpart _ hday.ge,
    hpart now (Nat.le_succ _), hdays, hrecent.insertionSort_eq]

/-- A restart has the newest entries of today and yesterday whose append went through. Where all did, that is
the journal as it was less what is older than yesterday, and the events page where it shows nothing older. -/
structure JournalSurvives (happenings : List Happening) (now : UInt64) : Prop where
  appended : initJournal (metrics happenings).events.dir now = ((written happenings).filter (recent now)).drop
    (((written happenings).filter (recent now)).length - journalCapacity)
  loaded : (∀ h ∈ happenings, h.Appended) →
    initJournal (metrics happenings).events.dir now = (metrics happenings).journal.filter (recent now)
  shown : (∀ h ∈ happenings, h.Appended) → ∀ limit,
    (∀ e ∈ journalRecent (metrics happenings).journal limit, recent now e = true) →
      journalRecent (initJournal (metrics happenings).events.dir now) limit =
        journalRecent (metrics happenings).journal limit

theorem journal_survives (hsorted : (happenings.map Happening.time).Pairwise (· ≤ ·))
    (hnow : ∀ h ∈ happenings, h.time ≤ now) (hkinds : ∀ h ∈ happenings, h.KindClean)
    (huntorn : ∀ h ∈ happenings, h.Untorn) (hfirst : 86400 ≤ now) (hyear : now.toNat < endOf9999) :
    JournalSurvives happenings now := by
  have hwritten : (written happenings).Pairwise fun x y ↦ recent now x = true → recent now y = true := by
    refine List.Pairwise.filterMap _ ?_ (List.pairwise_map.mp hsorted)
    intro h h' hle e he e' he' hrecent
    rw [time_of_entry (entry_of_landed he), time_of_entry (entry_of_landed he')] at hle
    have hdays := day_mono hle
    have hclose := of_decide_eq_true hrecent
    apply decide_eq_true
    omega
  have hdrop : ∀ n cap : ℕ, n - cap + (n - (n - cap) - cap) = n - cap := by omega
  have happended : initJournal (metrics happenings).events.dir now = ((written happenings).filter (recent now)).drop
      (((written happenings).filter (recent now)).length - journalCapacity) := by
    rw [initJournal, loadJournalWindow_eq hsorted hnow hkinds huntorn hfirst hyear, foldl_pushJournalMem,
      List.drop_drop, List.length_drop, hdrop]
  have hloaded (hall : ∀ h ∈ happenings, h.Appended) : initJournal (metrics happenings).events.dir now =
      (metrics happenings).journal.filter (recent now) := by
    have htold : told happenings = written happenings :=
      List.filterMap_congr fun h hh ↦ (landed_eq_entry (hall h hh)).symm
    rw [happended, journal_metrics, htold, foldl_pushJournalMem, filter_newest hwritten]
  refine ⟨happended, hloaded, fun hall limit hshown ↦ ?_⟩
  rw [hloaded hall, journalRecent, ← List.filter_reverse, take_filter hshown, journalRecent]

/-- A failure of the evening before, its message on two lines, an event of the day, and an entry that finds the
disk full. -/
theorem journal_survives_noon : JournalSurvives
    [.journal 1784674800 .error "freeze".toList "no space\nleft".toList .done, .record 1784721600 .vmCreated,
      .journal 1784721600 .info "sweep".toList "2 frozen".toList (.failed 0)]
    1784721600 := by
  apply journal_survives
  · decide
  · decide
  · simp [Happening.KindClean]
  · simp [Happening.Untorn]
  · decide
  · decide

end Restart

end PgVmPool.Events
