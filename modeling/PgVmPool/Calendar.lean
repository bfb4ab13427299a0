import Mathlib

namespace Calendar

def IsLeap (y : ℤ) : Prop := 4 ∣ y ∧ (¬ 100 ∣ y ∨ 400 ∣ y)

instance : DecidablePred IsLeap := fun y ↦ inferInstanceAs (Decidable (4 ∣ y ∧ (¬ 100 ∣ y ∨ 400 ∣ y)))

def daysInMonth (y : ℤ) : ℕ → ℕ
  | 2 => if IsLeap y then 29 else 28
  | 4 | 6 | 9 | 11 => 30
  | _ => 31

/-- A date of the proleptic Gregorian calendar. -/
@[ext]
structure Date where
  year : ℤ
  month : ℕ
  day : ℕ
  month_mem : 1 ≤ month ∧ month ≤ 12
  day_mem : 1 ≤ day ∧ day ≤ daysInMonth year month
  deriving DecidableEq

def daysBeforeMonth (y : ℤ) (m : ℕ) : ℕ := ∑ k ∈ Finset.Ico 1 m, daysInMonth y k

def daysInYear (y : ℤ) : ℕ := daysBeforeMonth y 13

/-- The days from the first of January 1970 to that of a year, counted year by year. -/
def daysBeforeYear (y : ℤ) : ℤ :=
  ∑ i ∈ Finset.range (y - 1970).toNat, (daysInYear (1970 + i) : ℤ) -
    ∑ i ∈ Finset.range (1970 - y).toNat, (daysInYear (1969 - i) : ℤ)

/-- The days since the first of January 1970. -/
def Date.dayNumber (d : Date) : ℤ := daysBeforeYear d.year + daysBeforeMonth d.year d.month + (d.day - 1)

instance : LT Date where
  lt d e := d.year < e.year ∨ d.year = e.year ∧ (d.month < e.month ∨ d.month = e.month ∧ d.day < e.day)

theorem daysInMonth_lt (y : ℤ) (m : ℕ) : daysInMonth y m < 100 := by
  unfold daysInMonth
  split <;> (try split_ifs) <;> decide

theorem daysInYear_eq (y : ℤ) : daysInYear y = if IsLeap y then 366 else 365 := by
  simp only [daysInYear, daysBeforeMonth, Finset.sum_Ico_eq_sum_range, Finset.sum_range_succ, Finset.sum_range_zero,
    daysInMonth]
  split_ifs <;> rfl

theorem daysBeforeMonth_succ (y : ℤ) {m : ℕ} (hm : 1 ≤ m) :
    daysBeforeMonth y (m + 1) = daysBeforeMonth y m + daysInMonth y m := Finset.sum_Ico_succ_top hm _

theorem daysBeforeMonth_mono (y : ℤ) {m n : ℕ} (h : m ≤ n) : daysBeforeMonth y m ≤ daysBeforeMonth y n :=
  Finset.sum_le_sum_of_subset (Finset.Ico_subset_Ico_right h)

theorem daysBeforeYear_succ (y : ℤ) : daysBeforeYear (y + 1) = daysBeforeYear y + daysInYear y := by
  unfold daysBeforeYear
  rcases lt_or_ge y 1970 with hy | hy
  · obtain ⟨n, rfl⟩ : ∃ n : ℕ, y = 1969 - n := ⟨(1969 - y).toNat, by omega⟩
    have hlast : (1970 - (1969 - (n : ℤ))).toNat = n + 1 := by omega
    have hnext : (1970 - (1969 - (n : ℤ) + 1)).toNat = n := by omega
    have hnone : (1969 - (n : ℤ) + 1 - 1970).toNat = 0 := by omega
    have hnone' : (1969 - (n : ℤ) - 1970).toNat = 0 := by omega
    rw [hlast, hnext, hnone, hnone', Finset.sum_range_succ]
    ring
  · obtain ⟨n, rfl⟩ : ∃ n : ℕ, y = 1970 + n := ⟨(y - 1970).toNat, by omega⟩
    have hlast : (1970 + (n : ℤ) + 1 - 1970).toNat = n + 1 := by omega
    have hnext : (1970 + (n : ℤ) - 1970).toNat = n := by omega
    have hnone : (1970 - (1970 + (n : ℤ) + 1)).toNat = 0 := by omega
    have hnone' : (1970 - (1970 + (n : ℤ))).toNat = 0 := by omega
    rw [hlast, hnext, hnone, hnone', Finset.sum_range_succ]
    ring

/-- One leap day in every four years, but not in every hundred, but in every four hundred. -/
theorem daysBeforeYear_eq (y : ℤ) :
    daysBeforeYear y = 365 * (y - 1970) + (y - 1) / 4 - (y - 1) / 100 + (y - 1) / 400 - 477 := by
  have hstep : ∀ k : ℤ, (daysInYear k : ℤ) =
      365 + (k / 4 - (k - 1) / 4) - (k / 100 - (k - 1) / 100) + (k / 400 - (k - 1) / 400) := by
    intro k
    rw [daysInYear_eq]
    split_ifs with hleap <;> (simp only [IsLeap] at hleap; push_cast; omega)
  induction y using Int.inductionOn' (b := 1970) with
  | zero => decide
  | succ k _ ih =>
    rw [daysBeforeYear_succ, ih, hstep k]
    have hk : k + 1 - 1 = k := by omega
    rw [hk]
    ring
  | pred k _ ih =>
    have hsucc := daysBeforeYear_succ (k - 1)
    have hk : k - 1 + 1 = k := by omega
    rw [hk, ih, hstep (k - 1)] at hsucc
    linarith

theorem daysBeforeYear_mono {y z : ℤ} (h : y ≤ z) : daysBeforeYear y ≤ daysBeforeYear z := by
  induction z, h using Int.leInduction with
  | base => exact le_refl _
  | succ z _ ih =>
    rw [daysBeforeYear_succ]
    omega

namespace Date

variable {d e : Date}

theorem dayNumber_lt_of_lt (h : d < e) : d.dayNumber < e.dayNumber := by
  have hd := d.day_mem
  have he := e.day_mem
  have hmonth := daysBeforeMonth_succ d.year d.month_mem.1
  have hend : daysBeforeMonth d.year (d.month + 1) ≤ daysInYear d.year :=
    daysBeforeMonth_mono d.year (Nat.succ_le_succ d.month_mem.2)
  unfold dayNumber
  rcases h with hyear | ⟨hyear, hmonth' | ⟨hmonth', hday⟩⟩
  · have hnext := daysBeforeYear_mono (Int.add_one_le_of_lt hyear)
    have hsucc := daysBeforeYear_succ d.year
    omega
  · have hnext : daysBeforeMonth d.year (d.month + 1) ≤ daysBeforeMonth d.year e.month :=
      daysBeforeMonth_mono d.year hmonth'
    rw [← hyear]
    omega
  · rw [← hyear, ← hmonth']
    omega

theorem daysBeforeYear_le (d : Date) : daysBeforeYear d.year ≤ d.dayNumber := by
  have hd := d.day_mem
  unfold dayNumber
  omega

theorem lt_or_eq_or_lt (d e : Date) : d < e ∨ d = e ∨ e < d := by
  rcases lt_trichotomy d.year e.year with hyear | hyear | hyear
  · exact .inl (.inl hyear)
  · rcases lt_trichotomy d.month e.month with hmonth | hmonth | hmonth
    · exact .inl (.inr ⟨hyear, .inl hmonth⟩)
    · rcases lt_trichotomy d.day e.day with hday | hday | hday
      · exact .inl (.inr ⟨hyear, .inr ⟨hmonth, hday⟩⟩)
      · exact .inr (.inl (Date.ext hyear hmonth hday))
      · exact .inr (.inr (.inr ⟨hyear.symm, .inr ⟨hmonth.symm, hday⟩⟩))
    · exact .inr (.inr (.inr ⟨hyear.symm, .inl hmonth⟩))
  · exact .inr (.inr (.inl hyear))

theorem dayNumber_injective : Function.Injective dayNumber := by
  intro d e h
  rcases lt_or_eq_or_lt d e with hlt | heq | hlt
  · exact absurd h (dayNumber_lt_of_lt hlt).ne
  · exact heq
  · exact absurd h (dayNumber_lt_of_lt hlt).ne'

theorem lt_iff_dayNumber_lt : d < e ↔ d.dayNumber < e.dayNumber := by
  refine ⟨dayNumber_lt_of_lt, fun h ↦ ?_⟩
  rcases lt_or_eq_or_lt d e with hlt | rfl | hlt
  · exact hlt
  · exact absurd h (lt_irrefl _)
  · exact absurd h (dayNumber_lt_of_lt hlt).not_gt

end Date

/-- The first of March, from where on a day count does not depend on whether the year is a leap year. -/
def march (y : ℤ) : ℤ := daysBeforeYear y + daysBeforeMonth y 3

theorem march_eq (y : ℤ) : march y = 365 * y + y / 4 - y / 100 + y / 400 - 719468 := by
  have hmonth : (daysBeforeMonth y 3 : ℤ) = 59 + (y / 4 - (y - 1) / 4) - (y / 100 - (y - 1) / 100) +
      (y / 400 - (y - 1) / 400) := by
    have hsum : daysBeforeMonth y 3 = 31 + daysInMonth y 2 := by
      simp [daysBeforeMonth, Finset.sum_Ico_succ_top, daysInMonth]
    rw [hsum, daysInMonth]
    split_ifs with hleap <;> (simp only [IsLeap] at hleap; push_cast; omega)
  rw [march, daysBeforeYear_eq, hmonth]
  ring

section Civil

/-- The year of a day of a cycle of 400 years, which begins in March. -/
def yearOfEra (doe : ℕ) : ℕ := (doe - doe / 1460 + doe / 36524 - doe / 146096) / 365

/-- The first day of a year of the cycle. -/
def eraDays (y : ℕ) : ℕ := 365 * y + y / 4 - y / 100

theorem yearOfEra_mono : Monotone yearOfEra := by
  refine monotone_nat_of_le_succ fun n ↦ ?_
  unfold yearOfEra
  omega

theorem yearOfEra_eraDays : ∀ y < 400, yearOfEra (eraDays y) = y ∧
    yearOfEra (eraDays (y + 1) - 1) = y := by
  decide +kernel

theorem isLeap_add_eras (y k : ℤ) : IsLeap (y + 400 * k) ↔ IsLeap y := by
  simp only [IsLeap]
  omega

/-- A year that begins in March ends with the February of the next; the cycle ends with a leap day. -/
theorem eraDays_succ : ∀ y < 400, eraDays (y + 1) + (if y = 399 then 1 else 0) =
    eraDays y + 365 + if IsLeap (y + 1) then 1 else 0 := by
  decide +kernel

theorem yearOfEra_spec {doe : ℕ} (h : doe < 146097) : yearOfEra doe < 400 ∧ eraDays (yearOfEra doe) ≤ doe ∧
    doe < eraDays (yearOfEra doe + 1) + if yearOfEra doe = 399 then 1 else 0 := by
  have hlt : yearOfEra doe < 400 := by
    have hlast : yearOfEra 146096 = 399 := by decide
    have hmono := yearOfEra_mono (Nat.le_of_lt_succ h)
    omega
  refine ⟨hlt, ?_, ?_⟩
  · by_contra! hbefore
    obtain ⟨y, hy⟩ : ∃ y, yearOfEra doe = y + 1 := by
      refine Nat.exists_eq_succ_of_ne_zero fun hzero ↦ ?_
      rw [hzero] at hbefore
      exact absurd hbefore (Nat.not_lt_zero _)
    rw [hy] at hbefore
    have hmono := yearOfEra_mono (Nat.le_sub_one_of_lt hbefore)
    have hlast := (yearOfEra_eraDays y (by omega)).2
    omega
  · split_ifs with hy
    · rw [hy]
      exact h
    · by_contra! hafter
      rw [Nat.add_zero] at hafter
      have hmono := yearOfEra_mono hafter
      have hfirst := (yearOfEra_eraDays (yearOfEra doe + 1) (by omega)).1
      omega

/-- Days since the first of March of the year 0, to a year, a month and a day. -/
def civil (z : ℕ) : ℕ × ℕ × ℕ :=
  let doe := z % 146097
  let yoe := yearOfEra doe
  let doy := doe - eraDays yoe
  let mp := (5 * doy + 2) / 153
  let month := if mp < 10 then mp + 3 else mp - 9
  (yoe + z / 146097 * 400 + (if month ≤ 2 then 1 else 0), month, doy - (153 * mp + 2) / 5 + 1)

/-- From March on the months have 31, 30, 31, 30 and 31 days in turn. -/
theorem daysInMonth_add_three (y : ℤ) {mp : ℕ} (h : mp ≤ 9) :
    daysInMonth y (mp + 3) + (153 * mp + 2) / 5 = (153 * (mp + 1) + 2) / 5 := by
  interval_cases mp <;> rfl

theorem daysBeforeMonth_add_three (y : ℤ) {mp : ℕ} (h : mp ≤ 9) :
    daysBeforeMonth y (mp + 3) = daysBeforeMonth y 3 + (153 * mp + 2) / 5 := by
  induction mp with
  | zero => rfl
  | succ mp ih =>
    have hlen := daysInMonth_add_three y (Nat.le_of_succ_le h)
    have hsucc := daysBeforeMonth_succ y (by omega : 1 ≤ mp + 3)
    have hmp : mp + 1 + 3 = mp + 3 + 1 := by omega
    rw [hmp, hsucc, ih (Nat.le_of_succ_le h)]
    omega

/-- A day of a year that begins in March. -/
theorem exists_date (y : ℤ) {doy mp month : ℕ} (hdoy : doy < 365 + if IsLeap (y + 1) then 1 else 0)
    (hmp : mp = (5 * doy + 2) / 153) (hmonth : month = if mp < 10 then mp + 3 else mp - 9) :
    ∃ d : Date, d.year = y + (if month ≤ 2 then 1 else 0) ∧ d.month = month ∧
      d.day = doy - (153 * mp + 2) / 5 + 1 ∧ d.dayNumber = march y + doy := by
  have hfrom : (153 * mp + 2) / 5 ≤ doy := by omega
  have hto : doy < (153 * (mp + 1) + 2) / 5 := by omega
  by_cases hlt : mp < 10
  · rw [if_pos hlt] at hmonth
    subst hmonth
    have hlen := daysInMonth_add_three y (Nat.le_of_lt_succ hlt)
    have hstart := daysBeforeMonth_add_three y (Nat.le_of_lt_succ hlt)
    refine ⟨⟨y, mp + 3, doy - (153 * mp + 2) / 5 + 1, by omega, by omega⟩, ?_, rfl, rfl, ?_⟩
    · simp
    · simp only [Date.dayNumber, march]
      omega
  · rw [if_neg hlt] at hmonth
    have hnext := daysBeforeYear_succ y
    have hsum : (daysInYear y : ℤ) = daysBeforeMonth y 3 + 306 := by
      have hlast : daysBeforeMonth y 12 = daysBeforeMonth y 3 + 275 := daysBeforeMonth_add_three y (le_refl 9)
      have hsucc : daysBeforeMonth y 13 = daysBeforeMonth y 12 + daysInMonth y 12 :=
        daysBeforeMonth_succ y (by decide)
      have hdec : daysInMonth y 12 = 31 := rfl
      rw [daysInYear]
      omega
    have hcases : mp = 10 ∨ mp = 11 := by
      split_ifs at hdoy <;> omega
    rcases hcases with rfl | rfl
    · subst hmonth
      refine ⟨⟨y + 1, 1, doy - (153 * 10 + 2) / 5 + 1, by omega, ⟨by omega, ?_⟩⟩, by simp, rfl, rfl, ?_⟩
      · have hjan : daysInMonth (y + 1) 1 = 31 := rfl
        omega
      · have hjan : daysBeforeMonth (y + 1) 1 = 0 := rfl
        simp only [Date.dayNumber, march]
        omega
    · subst hmonth
      refine ⟨⟨y + 1, 2, doy - (153 * 11 + 2) / 5 + 1, by omega, ⟨by omega, ?_⟩⟩, by simp, rfl, rfl, ?_⟩
      · have hfeb : daysInMonth (y + 1) 2 = if IsLeap (y + 1) then 29 else 28 := rfl
        rw [hfeb]
        split_ifs at hdoy ⊢ <;> omega
      · have hfeb : daysBeforeMonth (y + 1) 2 = 31 := rfl
        simp only [Date.dayNumber, march]
        omega

theorem civil_spec (z : ℕ) : ∃ d : Date, d.dayNumber = z - 719468 ∧
    ((civil z).1 : ℤ) = d.year ∧ (civil z).2 = (d.month, d.day) := by
  obtain ⟨hyoe, hfrom, hto⟩ := yearOfEra_spec (Nat.mod_lt z (by decide : 146097 > 0))
  set yoe := yearOfEra (z % 146097) with hset
  have hdoy : z % 146097 - eraDays yoe < 365 + if IsLeap (yoe + 400 * (z / 146097 : ℕ) + 1) then 1 else 0 := by
    have hlen := eraDays_succ yoe hyoe
    simp only [add_right_comm (yoe : ℤ) (400 * _) 1, isLeap_add_eras]
    omega
  obtain ⟨d, hyear, hmonth, hday, hnumber⟩ := exists_date _ hdoy rfl rfl
  refine ⟨d, ?_, ?_, ?_⟩
  · have hfour : (yoe + 400 * (z / 146097 : ℕ) : ℤ) / 4 = (yoe / 4 : ℕ) + 100 * (z / 146097 : ℕ) := by omega
    have hcentury : (yoe + 400 * (z / 146097 : ℕ) : ℤ) / 100 = (yoe / 100 : ℕ) + 4 * (z / 146097 : ℕ) := by
      omega
    have hera : (yoe + 400 * (z / 146097 : ℕ) : ℤ) / 400 = (z / 146097 : ℕ) := by omega
    rw [hnumber, march_eq, hfour, hcentury, hera, Nat.cast_sub hfrom]
    simp only [eraDays] at hfrom ⊢
    omega
  · rw [hyear]
    simp only [civil, ← hset]
    push_cast
    ring
  · rw [hmonth, hday]
    rfl

end Civil

end Calendar
