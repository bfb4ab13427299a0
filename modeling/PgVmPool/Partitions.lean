import PgVmPool.Calendar
import PgVmPool.FixedWidth
import PgVmPool.Presign

namespace PgVmPool.Events

open HostPath Uri
open S3 (padded formatAmzTime)
open Calendar FixedWidth

/-- `div_euclid` and `rem_euclid` round down, `/` rounds to zero. -/
def civilFromUnix (t : UInt64) : ℤ × ℕ × ℕ :=
  let z : ℤ := (t.toNat / 86400 : ℕ) + 719468
  let era := z / 146097
  let doe := z % 146097
  let yoe := (doe - doe.tdiv 1460 + doe.tdiv 36524 - doe.tdiv 146096).tdiv 365
  let y := yoe + era * 400
  let doy := doe - (365 * yoe + yoe.tdiv 4 - yoe.tdiv 100)
  let mp := (5 * doy + 2).tdiv 153
  let d := (doy - (153 * mp + 2).tdiv 5 + 1).toNat
  let m := (if mp < 10 then mp + 3 else mp - 9).toNat
  (if m ≤ 2 then y + 1 else y, m, d)

def dateStr (t : UInt64) : Text :=
  let date := civilFromUnix t
  padded 4 date.1 ++ '-' :: (padded 2 date.2.1 ++ '-' :: padded 2 date.2.2)

/-- `events-{date}.tsv`. -/
def eventsFile (date : Text) : Text := "events-".toList ++ date ++ ".tsv".toList

/-- `journal-{date}.tsv`. -/
def journalFile (date : Text) : Text := "journal-".toList ++ date ++ ".tsv".toList

def partitionName (t : UInt64) : Text := eventsFile (dateStr t)

def journalName (t : UInt64) : Text := journalFile (dateStr t)

def retainDays : UInt64 := 14

/-- What `prune_partitions` compares in a file name. -/
def nameDate (name : Text) : Option Text :=
  (".tsv".toList.isSuffixOf? name).bind fun n ↦
    ("events-".toList.isPrefixOf? n).or ("journal-".toList.isPrefixOf? n)

def saturatingSub (a b : UInt64) : UInt64 := if b ≤ a then a - b else 0

def pruneCutoff (now : UInt64) : Text := dateStr (saturatingSub now (retainDays * 86400))

def prunes (now : UInt64) (name : Text) : Bool := (nameDate name).any (· < pruneCutoff now)

/-- The name of a directory entry, if it is UTF-8. -/
abbrev Entry := Option Text

/-- The files of a directory that `prune_partitions` leaves. -/
def prunePartitions (dir : List Entry) (now : UInt64) : List Entry := dir.filter fun e ↦ !e.any (prunes now)

section Integers

theorem yoe_eq (doe : ℕ) :
    ((doe : ℤ) - (doe : ℤ).tdiv 1460 + (doe : ℤ).tdiv 36524 - (doe : ℤ).tdiv 146096).tdiv 365 =
      yearOfEra doe := by
  have hcast : (doe : ℤ) - (doe : ℤ).tdiv 1460 + (doe : ℤ).tdiv 36524 - (doe : ℤ).tdiv 146096 =
      (doe - doe / 1460 + doe / 36524 - doe / 146096 : ℕ) := by
    simp only [Int.tdiv_eq_ediv_of_nonneg (Int.natCast_nonneg doe)]
    omega
  rw [hcast]
  rfl

theorem doy_eq {doe yoe : ℕ} (h : eraDays yoe ≤ doe) :
    (doe : ℤ) - (365 * yoe + (yoe : ℤ).tdiv 4 - (yoe : ℤ).tdiv 100) = (doe - eraDays yoe : ℕ) := by
  rw [Int.tdiv_eq_ediv_of_nonneg (Int.natCast_nonneg yoe), Int.tdiv_eq_ediv_of_nonneg (Int.natCast_nonneg yoe)]
  rw [eraDays] at h ⊢
  omega

theorem mp_eq (doy : ℕ) : (5 * (doy : ℤ) + 2).tdiv 153 = ((5 * doy + 2) / 153 : ℕ) := by
  rw [Int.tdiv_eq_ediv_of_nonneg (by omega)]
  omega

theorem day_eq (doy : ℕ) :
    (doy : ℤ) - (153 * ((5 * doy + 2) / 153 : ℕ) + 2 : ℤ).tdiv 5 + 1 =
      (doy - (153 * ((5 * doy + 2) / 153) + 2) / 5 + 1 : ℕ) := by
  rw [Int.tdiv_eq_ediv_of_nonneg (by omega)]
  omega

theorem month_eq (mp : ℕ) :
    (if (mp : ℤ) < 10 then (mp : ℤ) + 3 else mp - 9) = (if mp < 10 then mp + 3 else mp - 9 : ℕ) := by
  split_ifs <;> omega

end Integers

theorem civilFromUnix_eq (t : UInt64) :
    civilFromUnix t =
      (((civil (t.toNat / 86400 + 719468)).1 : ℤ), (civil (t.toNat / 86400 + 719468)).2) := by
  have hz : ((t.toNat / 86400 : ℕ) : ℤ) + 719468 = (t.toNat / 86400 + 719468 : ℕ) := by push_cast; ring
  simp only [civilFromUnix, hz]
  generalize t.toNat / 86400 + 719468 = z
  have hdoe : (z : ℤ) % 146097 = (z % 146097 : ℕ) := by omega
  have hera : (z : ℤ) / 146097 = (z / 146097 : ℕ) := by omega
  have hfrom := (yearOfEra_spec (Nat.mod_lt z (by decide : 146097 > 0))).2.1
  rw [hdoe, hera, yoe_eq, doy_eq hfrom, mp_eq, day_eq, month_eq, Int.toNat_natCast, Int.toNat_natCast]
  rw [civil]
  dsimp only
  split_ifs <;> simp

theorem formatAmzTime_eq (t : UInt64) :
    formatAmzTime t =
      (padded 4 (civilFromUnix t).1 ++ padded 2 (civilFromUnix t).2.1 ++ padded 2 (civilFromUnix t).2.2,
        padded 4 (civilFromUnix t).1 ++ padded 2 (civilFromUnix t).2.1 ++ padded 2 (civilFromUnix t).2.2 ++
          'T' :: (padded 2 (t.toNat % 86400 / 3600 : ℕ) ++ padded 2 (t.toNat % 86400 % 3600 / 60 : ℕ) ++
            padded 2 (t.toNat % 86400 % 60 : ℕ) ++ ['Z'])) := by
  rw [civilFromUnix_eq]
  unfold formatAmzTime
  extract_lets days rem hour min sec z era doe yoe year doy mp day month year' date
  have hz : z = (t.toNat / 86400 + 719468 : ℕ) := by
    simp only [z, days]
    push_cast
    ring
  clear_value z
  generalize t.toNat / 86400 + 719468 = n at hz ⊢
  subst hz
  have hera : era = (n / 146097 : ℕ) := by
    simp only [era]
    rw [if_pos (Int.natCast_nonneg n), Int.tdiv_eq_ediv_of_nonneg (Int.natCast_nonneg n)]
    omega
  have hdoe : doe = (n % 146097 : ℕ) := by
    simp only [doe, hera]
    omega
  have hyoe : yoe = yearOfEra (n % 146097) := by
    simp only [yoe]
    rw [hdoe, yoe_eq]
  have hfrom := (yearOfEra_spec (Nat.mod_lt n (by decide : 146097 > 0))).2.1
  have hdoy : doy = (n % 146097 - eraDays (yearOfEra (n % 146097)) : ℕ) := by
    simp only [doy]
    rw [hdoe, hyoe, doy_eq hfrom]
  have hmp : mp = ((5 * (n % 146097 - eraDays (yearOfEra (n % 146097))) + 2) / 153 : ℕ) := by
    simp only [mp]
    rw [hdoy, mp_eq]
  have hday : day = ((civil n).2.2 : ℕ) := by
    simp only [day]
    rw [hdoy, hmp, day_eq]
    rfl
  have hmonth : month = ((civil n).2.1 : ℕ) := by
    simp only [month]
    rw [hmp, month_eq]
    rfl
  have hyear : year' = ((civil n).1 : ℕ) := by
    have hcivil : (civil n).1 =
        yearOfEra (n % 146097) + n / 146097 * 400 + if (civil n).2.1 ≤ 2 then 1 else 0 := rfl
    simp only [year', year]
    rw [hyoe, hera, hmonth, hcivil]
    generalize (civil n).2.1 = m
    split_ifs <;> omega
  simp only [date]
  rw [hyear, hmonth, hday]

def day (t : UInt64) : ℕ := t.toNat / 86400

theorem civilFromUnix_spec (t : UInt64) :
    ∃ d : Date, d.dayNumber = day t ∧ 0 ≤ d.year ∧ civilFromUnix t = (d.year, d.month, d.day) := by
  obtain ⟨d, hnumber, hyear, hrest⟩ := civil_spec (day t + 719468)
  refine ⟨d, ?_, ?_, ?_⟩
  · rw [hnumber]
    push_cast
    ring
  · rw [← hyear]
    exact Int.natCast_nonneg _
  · rw [civilFromUnix_eq, ← hyear, ← hrest]
    rfl

theorem dateStr_congr {t u : UInt64} (h : day t = day u) : dateStr t = dateStr u := by
  have hcivil : civilFromUnix t = civilFromUnix u := by
    rw [civilFromUnix_eq, civilFromUnix_eq]
    exact congrArg (fun n ↦ (((civil (n + 719468)).1 : ℤ), (civil (n + 719468)).2)) h
  rw [dateStr, dateStr, hcivil]

/-- The second after the end of the year 9999. -/
def endOf9999 : ℕ := 253402300800

theorem padded_eq {w n : ℕ} (hw : 0 < w) (h : n < 10 ^ w) : padded w n = numeral w n := by
  rw [padded, Int.toNat_natCast, S3.decimal, Nat.toString_eq_ofList_toDigits, String.toList_ofList,
    leftpad_toDigits hw h]

def dateText (d : Date) : Text :=
  numeral 4 d.year.toNat ++ '-' :: (numeral 2 d.month ++ '-' :: numeral 2 d.day)

theorem length_dateText (d : Date) : (dateText d).length = 10 := by
  simp only [dateText, List.length_append, List.length_cons, length_numeral]

theorem dateStr_eq {t : UInt64} (ht : t.toNat < endOf9999) :
    ∃ d : Date, d.dayNumber = day t ∧ 0 ≤ d.year ∧ d.year < 10000 ∧ dateStr t = dateText d := by
  obtain ⟨d, hnumber, hyear, hcivil⟩ := civilFromUnix_spec t
  have hlate : d.year < 10000 := by
    by_contra! hlate
    have hstart := (daysBeforeYear_mono hlate).trans d.daysBeforeYear_le
    rw [hnumber, daysBeforeYear_eq, day] at hstart
    rw [endOf9999] at ht
    omega
  have hmonth : d.month < 10 ^ 2 := lt_of_le_of_lt d.month_mem.2 (by decide)
  have hday : d.day < 10 ^ 2 := lt_of_le_of_lt d.day_mem.2 (daysInMonth_lt d.year d.month)
  refine ⟨d, hnumber, hyear, hlate, ?_⟩
  rw [dateStr, hcivil, dateText, ← padded_eq (by decide) hmonth, ← padded_eq (by decide) hday,
    ← padded_eq (by decide) (by omega : d.year.toNat < 10 ^ 4), Int.toNat_of_nonneg hyear]

theorem dateText_lt {d e : Date} (h : d < e) (hd : 0 ≤ d.year) (he : e.year < 10000) :
    dateText d < dateText e := by
  have hmonth : e.month < 10 ^ 2 := lt_of_le_of_lt e.month_mem.2 (by decide)
  have hday : e.day < 10 ^ 2 := lt_of_le_of_lt e.day_mem.2 (daysInMonth_lt e.year e.month)
  unfold dateText
  rcases h with hyear | ⟨hyear, hmonth' | ⟨hmonth', hday'⟩⟩
  · refine append_lt_append_of_lt (by rw [length_numeral, length_numeral]) (numeral_lt_numeral ?_ ?_) _ _ <;> omega
  · rw [hyear]
    refine List.append_left_lt (.cons ?_)
    exact append_lt_append_of_lt (by rw [length_numeral, length_numeral]) (numeral_lt_numeral hmonth' hmonth) _ _
  · rw [hyear, hmonth']
    refine List.append_left_lt (.cons (List.append_left_lt (.cons ?_)))
    exact numeral_lt_numeral hday' hday

theorem dateStr_lt_iff {t u : UInt64} (ht : t.toNat < endOf9999) (hu : u.toNat < endOf9999) :
    dateStr t < dateStr u ↔ day t < day u := by
  have hlt : ∀ {t u : UInt64}, t.toNat < endOf9999 → u.toNat < endOf9999 → day t < day u →
      dateStr t < dateStr u := by
    intro t u ht hu h
    obtain ⟨d, hd, hfrom, -, ht⟩ := dateStr_eq ht
    obtain ⟨e, he, -, hto, hu⟩ := dateStr_eq hu
    rw [ht, hu]
    refine dateText_lt (Date.lt_iff_dayNumber_lt.mpr ?_) hfrom hto
    rw [hd, he]
    exact_mod_cast h
  refine ⟨fun h ↦ ?_, hlt ht hu⟩
  rcases lt_trichotomy (day t) (day u) with hlt' | heq | hgt
  · exact hlt'
  · rw [dateStr_congr heq] at h
    exact absurd h (lt_irrefl _)
  · exact absurd h (hlt hu ht hgt).not_gt

theorem ofDigitChars_padded (w n : ℕ) : Nat.ofDigitChars 10 (padded w n) 0 = n := by
  rw [padded, Int.toNat_natCast, S3.decimal, Nat.toString_eq_ofList_toDigits, String.toList_ofList, List.leftpad,
    Nat.ofDigitChars_append, Nat.ofDigitChars_replicate_zero, Nat.mul_zero, Nat.ofDigitChars_ten_toDigits]

theorem dash_notMem_padded (w n : ℕ) : '-' ∉ padded w n := by
  rw [padded, Int.toNat_natCast, S3.decimal, Nat.toString_eq_ofList_toDigits, String.toList_ofList, List.leftpad,
    List.mem_append, List.mem_replicate]
  rintro (⟨-, h⟩ | h)
  · cases h
  · exact absurd (Nat.isDigit_of_mem_toDigits (by decide) (by decide) h) (by decide)

theorem padded_inj {w m n : ℕ} (h : padded w m = padded w n) : m = n := by
  rw [← ofDigitChars_padded w m, h, ofDigitChars_padded]

theorem takeWhile_padded (w n : ℕ) (x : Text) : (padded w n ++ '-' :: x).takeWhile (· ≠ '-') = padded w n := by
  have hall : ∀ c ∈ padded w n, decide (c ≠ '-') = true := by
    intro c hc
    refine decide_eq_true ?_
    rintro rfl
    exact dash_notMem_padded w n hc
  rw [List.takeWhile_append_of_pos hall, List.takeWhile_cons_of_neg (by decide), List.append_nil]

theorem padded_append_inj {w m n : ℕ} {x y : Text} (h : padded w m ++ '-' :: x = padded w n ++ '-' :: y) :
    m = n ∧ x = y := by
  have hpadded := congrArg (List.takeWhile (· ≠ '-')) h
  rw [takeWhile_padded, takeWhile_padded] at hpadded
  rw [hpadded] at h
  exact ⟨padded_inj hpadded, List.cons_inj_right _ |>.mp (List.append_cancel_left h)⟩

/-- The dates of different days are different, of whatever length their years are. -/
theorem dateStr_inj {t u : UInt64} : dateStr t = dateStr u ↔ day t = day u := by
  refine ⟨fun h ↦ ?_, dateStr_congr⟩
  obtain ⟨d, hd, hdyear, hdcivil⟩ := civilFromUnix_spec t
  obtain ⟨e, he, heyear, hecivil⟩ := civilFromUnix_spec u
  obtain ⟨y, hy⟩ := Int.eq_ofNat_of_zero_le hdyear
  obtain ⟨z, hz⟩ := Int.eq_ofNat_of_zero_le heyear
  rw [dateStr, dateStr, hdcivil, hecivil] at h
  simp only [hy, hz] at h
  have hyear := padded_append_inj h
  have hmonth := padded_append_inj hyear.2
  have hdate : d = e := by
    refine Date.ext ?_ hmonth.1 (padded_inj hmonth.2)
    rw [hy, hz, hyear.1]
  rw [hdate, he] at hd
  exact_mod_cast hd.symm

/-- The proleptic Gregorian date of a time, in the events' files and in the signatures. -/
structure CalendarExact : Prop where
  civil : ∀ t : UInt64, (∃! d : Date, d.dayNumber = day t) ∧
    ∀ d : Date, d.dayNumber = day t → civilFromUnix t = (d.year, d.month, d.day)
  amz : ∀ (t : UInt64) (d : Date), d.dayNumber = day t → ∃ hour < 24, ∃ min < 60, ∃ sec < 60,
    t.toNat = 86400 * day t + 3600 * hour + 60 * min + sec ∧
    formatAmzTime t = (padded 4 d.year ++ padded 2 d.month ++ padded 2 d.day,
      padded 4 d.year ++ padded 2 d.month ++ padded 2 d.day ++
        'T' :: (padded 2 (hour : ℕ) ++ padded 2 (min : ℕ) ++ padded 2 (sec : ℕ) ++ ['Z']))
  increasing : ∀ t u : UInt64, u.toNat < endOf9999 → day t < day u → dateStr t < dateStr u

theorem calendarExact : CalendarExact := by
  have hcivil : ∀ (t : UInt64) (d : Date),
      d.dayNumber = day t → civilFromUnix t = (d.year, d.month, d.day) := by
    intro t d hd
    obtain ⟨e, he, -, hcivil⟩ := civilFromUnix_spec t
    obtain rfl : d = e := Date.dayNumber_injective (hd.trans he.symm)
    exact hcivil
  constructor
  · intro t
    obtain ⟨e, he, -, -⟩ := civilFromUnix_spec t
    exact ⟨⟨e, he, fun d hd ↦ Date.dayNumber_injective (hd.trans he.symm)⟩, hcivil t⟩
  · intro t d hd
    refine ⟨t.toNat % 86400 / 3600, by omega, t.toNat % 86400 % 3600 / 60, by omega, t.toNat % 86400 % 60,
      by omega, by rw [day]; omega, ?_⟩
    rw [formatAmzTime_eq, hcivil t d hd]
  · intro t u hu h
    refine (dateStr_lt_iff ?_ hu).mpr h
    rw [day, day] at h
    omega

theorem nameDate_eq_some_iff {name date : Text} :
    nameDate name = some date ↔ name = eventsFile date ∨ name = journalFile date := by
  simp only [nameDate, Option.bind_eq_some_iff, List.isSuffixOf?_eq_some_iff_append_eq, Option.or_eq_some_iff,
    List.isPrefixOf?_eq_some_iff_append_eq]
  constructor
  · rintro ⟨n, rfl, rfl | ⟨-, rfl⟩⟩
    · exact .inl rfl
    · exact .inr rfl
  · rintro (rfl | rfl)
    · exact ⟨_, rfl, .inl rfl⟩
    · exact ⟨_, rfl, .inr ⟨rfl, rfl⟩⟩

theorem eventsFile_inj {x y : Text} (h : eventsFile x = eventsFile y) : x = y :=
  List.append_cancel_left (List.append_cancel_right h)

theorem journalFile_inj {x y : Text} (h : journalFile x = journalFile y) : x = y :=
  List.append_cancel_left (List.append_cancel_right h)

theorem eventsFile_ne_journalFile (x y : Text) : eventsFile x ≠ journalFile y := nofun

section Prune

variable {dir : List Entry} {now : UInt64} {name date : Text}

theorem prunes_iff : prunes now name = true ↔ ∃ date, nameDate name = some date ∧ date < pruneCutoff now := by
  simp [prunes, Option.any_eq_true]

theorem mem_prunePartitions :
    some name ∈ prunePartitions dir now ↔ some name ∈ dir ∧ ¬ prunes now name = true := by
  rw [prunePartitions, List.mem_filter, Option.any_some, Bool.not_eq_true', Bool.not_eq_true]

theorem none_mem_prunePartitions : none ∈ prunePartitions dir now ↔ none ∈ dir := by
  rw [prunePartitions, List.mem_filter]
  exact and_iff_left rfl

theorem toNat_saturatingSub (a b : UInt64) : (saturatingSub a b).toNat = a.toNat - b.toNat := by
  unfold saturatingSub
  split_ifs with h
  · exact UInt64.toNat_sub_of_le _ _ h
  · rw [UInt64.le_iff_toNat_le] at h
    exact (Nat.sub_eq_zero_of_le (by omega)).symm

theorem day_pruneCutoff (now : UInt64) : day (saturatingSub now (retainDays * 86400)) = day now - 14 := by
  have hspan : (retainDays * 86400).toNat = 14 * 86400 := rfl
  rw [day, day, toNat_saturatingSub, hspan]
  omega

/-- A partition file of the day of a time up to the year 9999. -/
def IsPartition (name : Text) (t : UInt64) : Prop :=
  t.toNat < endOf9999 ∧ (name = partitionName t ∨ name = journalName t)

structure PrunesExactly (dir : List Entry) (now : UInt64) : Prop where
  removed : ∀ name, some name ∈ dir →
    (some name ∉ prunePartitions dir now ↔ ∃ t, IsPartition name t ∧ day t + retainDays.toNat < day now)
  recorded : ∀ t : UInt64, t.toNat < endOf9999 → day now ≤ day t + retainDays.toNat →
    some (partitionName t) ∈ dir → some (partitionName t) ∈ prunePartitions dir now
  others : ∀ e ∈ dir, (∀ name ∈ e, ∀ t, ¬ IsPartition name t) → e ∈ prunePartitions dir now

/-- What sorts before the cutoff in a file name is the date of a day. -/
def DatesOnly (dir : List Entry) (now : UInt64) : Prop :=
  ∀ date, some (eventsFile date) ∈ dir ∨ some (journalFile date) ∈ dir → date < pruneCutoff now →
    ∃ t : UInt64, t.toNat < endOf9999 ∧ date = dateStr t

theorem dateStr_lt_pruneCutoff_iff (hnow : now.toNat < endOf9999) {t : UInt64} (ht : t.toNat < endOf9999) :
    dateStr t < pruneCutoff now ↔ day t + retainDays.toNat < day now := by
  have hlt : (saturatingSub now (retainDays * 86400)).toNat < endOf9999 := by
    rw [toNat_saturatingSub]
    omega
  have hdays : retainDays.toNat = 14 := rfl
  rw [pruneCutoff, dateStr_lt_iff ht hlt, day_pruneCutoff, hdays]
  omega

theorem IsPartition.nameDate {t : UInt64} (h : IsPartition name t) : nameDate name = some (dateStr t) :=
  nameDate_eq_some_iff.mpr h.2

theorem prunesExactly_iff (hnow : now.toNat < endOf9999) : PrunesExactly dir now ↔ DatesOnly dir now := by
  constructor
  · intro h date hdir hlt
    have hfile : ∃ name, some name ∈ dir ∧ Events.nameDate name = some date := by
      rcases hdir with hdir | hdir
      · exact ⟨_, hdir, nameDate_eq_some_iff.mpr (.inl rfl)⟩
      · exact ⟨_, hdir, nameDate_eq_some_iff.mpr (.inr rfl)⟩
    obtain ⟨name, hname, hdate⟩ := hfile
    have hpruned : some name ∉ prunePartitions dir now :=
      fun hmem ↦ (mem_prunePartitions.mp hmem).2 (prunes_iff.mpr ⟨date, hdate, hlt⟩)
    obtain ⟨t, ht, -⟩ := (h.removed name hname).mp hpruned
    rw [ht.nameDate] at hdate
    exact ⟨t, ht.1, (Option.some_inj.mp hdate).symm⟩
  · intro h
    have hremoved : ∀ name, some name ∈ dir →
        (some name ∉ prunePartitions dir now ↔
          ∃ t, IsPartition name t ∧ day t + retainDays.toNat < day now) := by
      intro name hname
      constructor
      · intro hpruned
        have hprunes : prunes now name = true := by
          by_contra hkept
          exact hpruned (mem_prunePartitions.mpr ⟨hname, hkept⟩)
        obtain ⟨date, hdate, hlt⟩ := prunes_iff.mp hprunes
        have hfile := nameDate_eq_some_iff.mp hdate
        have hdir : some (eventsFile date) ∈ dir ∨ some (journalFile date) ∈ dir := by
          rcases hfile with rfl | rfl
          · exact .inl hname
          · exact .inr hname
        obtain ⟨t, ht, rfl⟩ := h date hdir hlt
        exact ⟨t, ⟨ht, hfile⟩, (dateStr_lt_pruneCutoff_iff hnow ht).mp hlt⟩
      · rintro ⟨t, ht, hday⟩ hmem
        have hlt := (dateStr_lt_pruneCutoff_iff hnow ht.1).mpr hday
        exact (mem_prunePartitions.mp hmem).2 (prunes_iff.mpr ⟨_, ht.nameDate, hlt⟩)
    constructor
    · exact hremoved
    · intro t ht hday hdir
      refine mem_prunePartitions.mpr ⟨hdir, fun hprunes ↦ ?_⟩
      obtain ⟨date, hdate, hlt⟩ := prunes_iff.mp hprunes
      have hname : IsPartition (partitionName t) t := ⟨ht, .inl rfl⟩
      rw [hname.nameDate] at hdate
      obtain rfl := Option.some_inj.mp hdate
      exact absurd ((dateStr_lt_pruneCutoff_iff hnow ht).mp hlt) hday.not_gt
    · intro e he hother
      cases e with
      | none => exact none_mem_prunePartitions.mpr he
      | some name =>
        by_contra hpruned
        obtain ⟨t, ht, -⟩ := (hremoved name he).mp hpruned
        exact hother name rfl t ht

/-- The two copies of the calendar arithmetic are exact, and so is the pruning where what it compares with
its cutoff are dates. -/
theorem calendar_and_pruning_exact (dir : List Entry) {now : UInt64} (hnow : now.toNat < endOf9999) :
    CalendarExact ∧ PrunesExactly dir now ↔ DatesOnly dir now :=
  (and_iff_right calendarExact).trans (prunesExactly_iff hnow)

/-- A directory with an old partition, a journal of the same day and another file. -/
theorem calendar_and_pruning_exact_dir :
    CalendarExact ∧ PrunesExactly
      [some (partitionName 1700000000), some (journalName 1700000000), some "notes.txt".toList, none]
      1784678400 := by
  refine (calendar_and_pruning_exact _ (by decide)).mpr fun date hdir _ ↦ ⟨1700000000, by decide, ?_⟩
  simp only [List.mem_cons, List.not_mem_nil, or_false, Option.some_inj, reduceCtorEq] at hdir
  rcases hdir with (h | h | h) | (h | h | h)
  · exact eventsFile_inj h
  · exact absurd h (eventsFile_ne_journalFile _ _)
  · cases h
  · exact absurd h.symm (eventsFile_ne_journalFile _ _)
  · exact journalFile_inj h
  · cases h

/-- The date of the name is the empty text, which sorts before every date. -/
theorem prunePartitions_removes_other :
    ¬ PrunesExactly [some "events-.tsv".toList] 1784678400 := by
  intro h
  have hpruned : some "events-.tsv".toList ∉ prunePartitions [some "events-.tsv".toList] 1784678400 := by
    decide +kernel
  obtain ⟨t, ht, -⟩ := (h.removed _ List.mem_cons_self).mp hpruned
  obtain ⟨d, -, -, -, htext⟩ := dateStr_eq ht.1
  have hlen := length_dateText d
  have hdate : some [] = some (dateStr t) := ht.nameDate
  rw [← htext, ← Option.some_inj.mp hdate] at hlen
  cases hlen

end Prune

end PgVmPool.Events
