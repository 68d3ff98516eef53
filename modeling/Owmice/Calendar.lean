import Mathlib.Tactic

/-! # The Gregorian calendar

Dates and moments carry their validity, so that there is no 30th of February.  A date is numbered
by the days that have passed since the first day of the year 0, a moment by the seconds.

* `Date.ordinal_next`: the number of the next day;
* `daysBeforeYear_eq`: the days of all years before a year;
* `Moment.seconds_hoursLater`: some hours later;
* `Moment.seconds_lt`: earlier moments have smaller numbers. -/

namespace Owmice.Calendar

/-- Leap years. -/
def IsLeap (year : ℕ) : Prop := year % 4 = 0 ∧ (year % 100 ≠ 0 ∨ year % 400 = 0)

instance (year : ℕ) : Decidable (IsLeap year) := by unfold IsLeap; infer_instance

/-- Days of a year. -/
def yearLength (year : ℕ) : ℕ := if IsLeap year then 366 else 365

/-- Days of a month. -/
def monthLength (year : ℕ) : ℕ → ℕ
  | 1 => 31
  | 2 => if IsLeap year then 29 else 28
  | 3 => 31
  | 4 => 30
  | 5 => 31
  | 6 => 30
  | 7 => 31
  | 8 => 31
  | 9 => 30
  | 10 => 31
  | 11 => 30
  | 12 => 31
  | _ => 0

/-- Days of the years before a year. -/
def daysBeforeYear (year : ℕ) : ℕ := ∑ k ∈ Finset.range year, yearLength k

/-- Days of the months before a month of a year. -/
def daysBeforeMonth (year month : ℕ) : ℕ := ∑ k ∈ Finset.Ico 1 month, monthLength year k

theorem daysBeforeYear_succ (year : ℕ) :
    daysBeforeYear (year + 1) = daysBeforeYear year + yearLength year :=
  Finset.sum_range_succ _ _

theorem daysBeforeMonth_succ {year month : ℕ} (h : 1 ≤ month) :
    daysBeforeMonth year (month + 1) = daysBeforeMonth year month + monthLength year month :=
  Finset.sum_Ico_succ_top h _

@[simp] theorem daysBeforeMonth_one (year : ℕ) : daysBeforeMonth year 1 = 0 := by
  rw [daysBeforeMonth, Finset.Ico_self, Finset.sum_empty]

/-- The months of a year make a year. -/
theorem daysBeforeMonth_end (year : ℕ) : daysBeforeMonth year 13 = yearLength year := by
  have hsplit : ∀ k, 1 ≤ k → daysBeforeMonth year (k + 1) =
      daysBeforeMonth year k + monthLength year k := fun _ => daysBeforeMonth_succ
  rw [hsplit 12 (by norm_num), hsplit 11 (by norm_num), hsplit 10 (by norm_num),
    hsplit 9 (by norm_num), hsplit 8 (by norm_num), hsplit 7 (by norm_num), hsplit 6 (by norm_num),
    hsplit 5 (by norm_num), hsplit 4 (by norm_num), hsplit 3 (by norm_num), hsplit 2 (by norm_num),
    hsplit 1 le_rfl, daysBeforeMonth_one]
  simp only [monthLength, yearLength]
  split <;> rfl

/-- The years before a year, among them one leap year in four, but not in a hundred, but in four
hundred. -/
theorem daysBeforeYear_eq (year : ℕ) : daysBeforeYear year =
    365 * year + (year + 3) / 4 + (year + 399) / 400 - (year + 99) / 100 := by
  induction year with
  | zero => rfl
  | succ year ih =>
      rw [daysBeforeYear_succ, ih, yearLength]
      split
      case isTrue h =>
        simp only [IsLeap] at h
        omega
      case isFalse h =>
        simp only [IsLeap] at h
        omega

/-- The calendar repeats itself. -/
theorem daysBeforeYear_add (year n : ℕ) :
    daysBeforeYear (year + 400 * n) = daysBeforeYear year + 146097 * n := by
  rw [daysBeforeYear_eq, daysBeforeYear_eq]
  omega

theorem isLeap_add (year n : ℕ) : IsLeap (year + 400 * n) ↔ IsLeap year := by
  simp only [IsLeap]
  omega

theorem monthLength_add (year n month : ℕ) :
    monthLength (year + 400 * n) month = monthLength year month := by
  unfold monthLength
  split <;> simp only [isLeap_add]

theorem daysBeforeMonth_add (year n month : ℕ) :
    daysBeforeMonth (year + 400 * n) month = daysBeforeMonth year month :=
  Finset.sum_congr rfl fun k _ => monthLength_add year n k

/-- No month is empty. -/
theorem one_le_monthLength (year : ℕ) {month : ℕ} (hpos : 1 ≤ month) (hle : month ≤ 12) :
    1 ≤ monthLength year month := by
  interval_cases month
  case «2» =>
    rw [monthLength]
    split <;> norm_num
  all_goals norm_num [monthLength]

theorem daysBeforeYear_mono {y z : ℕ} (h : y ≤ z) : daysBeforeYear y ≤ daysBeforeYear z :=
  Finset.sum_le_sum_of_subset (Finset.range_mono h)

theorem daysBeforeMonth_mono {year m n : ℕ} (h : m ≤ n) :
    daysBeforeMonth year m ≤ daysBeforeMonth year n :=
  Finset.sum_le_sum_of_subset (Finset.Ico_subset_Ico_right h)

/-! ### Dates -/

/-- A date. -/
@[ext] structure Date where
  year : ℕ
  month : ℕ
  day : ℕ
  month_pos : 1 ≤ month
  month_le : month ≤ 12
  day_pos : 1 ≤ day
  day_le : day ≤ monthLength year month

namespace Date

/-- The days since the first day of the year 0. -/
def ordinal (d : Date) : ℕ := daysBeforeYear d.year + daysBeforeMonth d.year d.month + (d.day - 1)

/-- The first day of a month. -/
def first (year month : ℕ) (hpos : 1 ≤ month) (hle : month ≤ 12) : Date where
  year := year
  month := month
  day := 1
  month_pos := hpos
  month_le := hle
  day_pos := le_rfl
  day_le := one_le_monthLength year hpos hle

/-- The next day. -/
def next (d : Date) : Date :=
  if h : d.day < monthLength d.year d.month then
    { d with day := d.day + 1, day_pos := Nat.succ_pos _, day_le := h }
  else if h : d.month < 12 then first d.year (d.month + 1) (Nat.succ_pos _) h
  else first (d.year + 1) 1 le_rfl (by norm_num)

/-- The fields of the next day. -/
theorem next_fields (d : Date) : (d.next.year, d.next.month, d.next.day) =
    if d.day < monthLength d.year d.month then (d.year, d.month, d.day + 1)
    else if d.month < 12 then (d.year, d.month + 1, 1) else (d.year + 1, 1, 1) := by
  rw [next]
  split
  · rfl
  split <;> rfl

theorem ordinal_next (d : Date) : d.next.ordinal = d.ordinal + 1 := by
  have hpos := d.day_pos
  have hle := d.day_le
  rw [next]
  split
  case isTrue h =>
    simp only [ordinal]
    omega
  case isFalse h =>
    have hmonth : daysBeforeMonth d.year (d.month + 1) = _ := daysBeforeMonth_succ d.month_pos
    split
    case isTrue hm =>
      simp only [ordinal, first]
      omega
    case isFalse hm =>
      have hlast : d.month = 12 := by
        have := d.month_le
        omega
      have hyear := daysBeforeYear_succ d.year
      have hend := daysBeforeMonth_end d.year
      rw [hlast] at hmonth h hle
      simp only [Nat.reduceAdd] at hmonth
      simp only [ordinal, first, hlast, daysBeforeMonth_one]
      omega

/-- Dates in their order. -/
def Before (d e : Date) : Prop :=
  d.year < e.year ∨ d.year = e.year ∧ (d.month < e.month ∨ d.month = e.month ∧ d.day < e.day)

/-- A date lies within its month, and the month within its year. -/
theorem ordinal_lt_month (d : Date) :
    d.ordinal < daysBeforeYear d.year + daysBeforeMonth d.year (d.month + 1) := by
  have hpos := d.day_pos
  have hle := d.day_le
  rw [daysBeforeMonth_succ d.month_pos, ordinal]
  omega

theorem ordinal_lt_year (d : Date) : d.ordinal < daysBeforeYear (d.year + 1) := by
  have hmonth : daysBeforeMonth d.year (d.month + 1) ≤ daysBeforeMonth d.year 13 :=
    daysBeforeMonth_mono (Nat.succ_le_succ d.month_le)
  have hend := daysBeforeMonth_end d.year
  have hlt := d.ordinal_lt_month
  rw [daysBeforeYear_succ]
  omega

theorem daysBeforeYear_le_ordinal (d : Date) : daysBeforeYear d.year ≤ d.ordinal := by
  rw [ordinal, Nat.add_assoc]
  exact Nat.le_add_right _ _

theorem ordinal_lt {d e : Date} (h : d.Before e) : d.ordinal < e.ordinal := by
  rcases h with hyear | ⟨hyear, hmonth | ⟨hmonth, hday⟩⟩
  · exact (d.ordinal_lt_year.trans_le (daysBeforeYear_mono hyear)).trans_le
      e.daysBeforeYear_le_ordinal
  · have hlt := d.ordinal_lt_month
    have hmono : daysBeforeMonth d.year (d.month + 1) ≤ daysBeforeMonth d.year e.month :=
      daysBeforeMonth_mono hmonth
    rw [ordinal.eq_1 e, ← hyear]
    omega
  · have hpos := d.day_pos
    rw [ordinal, ordinal, ← hyear, ← hmonth]
    omega

end Date

/-! ### Moments -/

/-- A date and a time of day. -/
@[ext] structure Moment extends Date where
  hour : ℕ
  minute : ℕ
  second : ℕ
  hour_lt : hour < 24
  minute_lt : minute < 60
  second_lt : second < 60

namespace Moment

/-- The seconds since the first moment of the year 0. -/
def seconds (m : Moment) : ℕ := m.ordinal * 86400 + m.hour * 3600 + m.minute * 60 + m.second

/-- Up to a day later. -/
def hoursLater (m : Moment) (n : ℕ) (hn : n ≤ 24) : Moment :=
  if h : m.hour + n < 24 then { m with hour := m.hour + n, hour_lt := h }
  else
    { m with
      toDate := m.next
      hour := m.hour + n - 24
      hour_lt := by
        have := m.hour_lt
        omega }

theorem seconds_hoursLater (m : Moment) {n : ℕ} (hn : n ≤ 24) :
    (m.hoursLater n hn).seconds = m.seconds + n * 3600 := by
  rw [hoursLater]
  split
  case isTrue h =>
    simp only [seconds]
    omega
  case isFalse h =>
    simp only [seconds, Date.ordinal_next]
    omega

/-- Moments in their order. -/
def Before (m n : Moment) : Prop :=
  m.toDate.Before n.toDate ∨ m.toDate = n.toDate ∧ (m.hour < n.hour ∨
    m.hour = n.hour ∧ (m.minute < n.minute ∨ m.minute = n.minute ∧ m.second < n.second))

theorem Before.year_le {m n : Moment} (h : m.Before n) : m.year ≤ n.year := by
  rcases h with (hyear | ⟨hyear, -⟩) | ⟨hdate, -⟩
  · exact hyear.le
  · exact hyear.le
  · exact (congrArg Date.year hdate).le

theorem seconds_lt {m n : Moment} (h : m.Before n) : m.seconds < n.seconds := by
  have hh := m.hour_lt
  have hm := m.minute_lt
  have hs := m.second_lt
  rw [seconds, seconds]
  rcases h with hdate | ⟨hdate, htime⟩
  · have := Date.ordinal_lt hdate
    omega
  · rw [hdate]
    omega

/-- The first moment of 1970. -/
def epoch : Moment where
  toDate := Date.first 1970 1 le_rfl (by norm_num)
  hour := 0
  minute := 0
  second := 0
  hour_lt := by norm_num
  minute_lt := by norm_num
  second_lt := by norm_num

/-- The seconds since the first moment of 1970. -/
def unixTime (m : Moment) : ℕ := m.seconds - epoch.seconds

end Moment

end Owmice.Calendar
