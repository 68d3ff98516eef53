import Owmice.Calendar
import Owmice.Memory

/-! # The clock (`io/cmos.h`)

The clock of the CMOS holds the date and the time of day in BCD.  Its registers are read byte by
byte through `read_port`, which returns a `char`, so that a byte from `0x80` on arrives
sign-extended.

* `secsOfYears_eq`, `secsOfMonth_eq`: the two sums of the calendar;
* `gettimeofday_eq`: the seconds since 1970, up to the year 2079, and what is wrong behind it;
* `gettimeofday_iff`: the readings, and the pairs of readings, for which they are right;
* `getToday_iff`: when the local date is right. -/

namespace Owmice

open Calendar

/-- A byte of `read_port` as a `uint16_t`: `char` is signed. -/
def signExtend (b : UInt8) : ℕ := if b.toNat < 0x80 then b.toNat else 0xFF00 + b.toNat

/-- `cmos_dump`, where `cmos` are the registers. -/
def cmosDump (cmos : ℕ → UInt8) : List ℕ :=
  (List.range 128).map fun index => signExtend (cmos index)

/-- `from_bcd`. -/
def fromBcd (val : ℕ) : ℕ := val / 16 * 10 + (val &&& 0xf)

/-- The loop of `secs_of_years`. -/
def yearsLoop : ℕ → ℕ → ℕ
  | 0, days => days
  | y + 1, days =>
      let years := y + 1
      if 1969 < years then
        let days := w32 (days + 365)
        let days :=
          if years % 4 = 0 then
            if years % 100 = 0 then
              if years % 400 = 0 then w32 (days + 1) else days
            else w32 (days + 1)
          else days
        yearsLoop y days
      else days

/-- `secs_of_years`; a negative year does not enter the loop. -/
def secsOfYears (years : ℤ) : ℕ := w32 (yearsLoop (years + 2000).toNat 0 * 86400)

/-- `is_leap_year`. -/
def isLeapYear (year : ℕ) : Bool :=
  if year % 4 = 0 then
    if year % 100 = 0 then
      if year % 400 = 0 then true else false
    else true
  else false

/-- The `switch` of `secs_of_month`, which falls through from each case to the next. -/
def daysOfMonths (year : ℕ) (months : ℤ) : ℕ :=
  let case1 := 31
  let case2 := 28 + (if year % 4 = 0 ∧ (year % 100 ≠ 0 ∨ year % 400 = 0) then 1 else 0) + case1
  let case3 := 31 + case2
  let case4 := 30 + case3
  let case5 := 31 + case4
  let case6 := 30 + case5
  let case7 := 31 + case6
  let case8 := 31 + case7
  let case9 := 30 + case8
  let case10 := 31 + case9
  let case11 := 30 + case10
  match months with
  | 11 => case11
  | 10 => case10
  | 9 => case9
  | 8 => case8
  | 7 => case7
  | 6 => case6
  | 5 => case5
  | 4 => case4
  | 3 => case3
  | 2 => case2
  | 1 => case1
  | _ => 0

/-- `secs_of_month`. -/
def secsOfMonth (months : ℤ) (year : ℕ) : ℕ := w32 (daysOfMonths (year + 2000) months * 86400)

/-- `struct timeval`. -/
structure Timeval where
  tvSec : ℕ
  tvUsec : ℕ

/-- `gettimeofday`; the sum is one of `uint32_t`, to which its `int` terms are converted. -/
def gettimeofday (cmos : ℕ → UInt8) : Timeval :=
  let values := cmosDump cmos
  let time : ℤ := secsOfYears (fromBcd (values.getD 9 0) - 1) +
    secsOfMonth (fromBcd (values.getD 8 0) - 1) (fromBcd (values.getD 9 0)) +
    (fromBcd (values.getD 7 0) - 1) * 86400 +
    fromBcd (values.getD 4 0) * 3600 +
    fromBcd (values.getD 2 0) * 60 +
    fromBcd (values.getD 0 0)
  { tvSec := (time % 4294967296).toNat, tvUsec := 0 }

/-- `now`. -/
def now (cmos : ℕ → UInt8) : ℕ := (gettimeofday cmos).tvSec

/-- `timezone`. -/
def timezone : ℕ := 2

/-- `century`. -/
def century : ℕ := 2

/-- `get_date`: month, day and year. -/
def getDate (cmos : ℕ → UInt8) : ℕ × ℕ × ℕ :=
  let values := cmosDump cmos
  (fromBcd (values.getD 8 0) % 65536, fromBcd (values.getD 7 0) % 65536,
    (century * 1000 + fromBcd (values.getD 9 0)) % 65536)

/-- `get_time`: whether the hour has passed midnight, and hours, minutes and seconds. -/
def getTime (cmos : ℕ → UInt8) : Bool × ℕ × ℕ × ℕ :=
  let values := cmosDump cmos
  let hours := (fromBcd (values.getD 4 0) % 65536 + timezone) % 65536
  let minutes := fromBcd (values.getD 2 0) % 65536
  let seconds := fromBcd (values.getD 0 0) % 65536
  if 24 ≤ hours then (true, hours - 24, minutes, seconds) else (false, hours, minutes, seconds)

/-- `date_t`. -/
@[ext] structure DateT where
  h : ℕ
  m : ℕ
  s : ℕ
  d : ℕ
  mo : ℕ
  y : ℕ
deriving DecidableEq

/-- The first day of the next month, as in the carries of `get_today`. -/
def DateT.nextMonth (dt : DateT) : DateT := { dt with d := 1, mo := dt.mo + 1 }

/-- The carry of the months with 31 days. -/
def DateT.carryLong (dt : DateT) : DateT :=
  if 31 < dt.d ∧ dt.mo % 2 ≠ 0 ∧ dt.mo ≠ 9 then dt.nextMonth else dt

/-- The carry of the months with 30 days. -/
def DateT.carryShort (dt : DateT) : DateT :=
  if 30 < dt.d ∧ dt.mo % 2 = 0 ∧ dt.mo ≠ 2 then dt.nextMonth else dt

/-- The carry of February. -/
def DateT.carryFebruary (dt : DateT) : DateT :=
  if dt.mo = 2 then
    let leap := isLeapYear dt.y
    let dt := if leap ∧ 29 < dt.d then dt.nextMonth else dt
    if ¬ leap ∧ 28 < dt.d then dt.nextMonth else dt
  else dt

/-- The carry of the year. -/
def DateT.carryYear (dt : DateT) : DateT := if 12 < dt.mo then { dt with y := dt.y + 1 } else dt

/-- The carries of `get_today`. -/
def DateT.carry (dt : DateT) : DateT := dt.carryLong.carryShort.carryFebruary.carryYear

/-- `get_today`. -/
def getToday (cmos : ℕ → UInt8) : DateT :=
  let date := getDate cmos
  let time := getTime cmos
  let dt : DateT := { h := time.2.1, m := time.2.2.1, s := time.2.2.2, d := date.2.1, mo := date.1
                      y := date.2.2 }
  let dt := if time.1 then { dt with d := dt.d + 1 } else dt
  dt.carry

/-! ### BCD -/

/-- Two decimal digits in BCD. -/
def toBcd (n : ℕ) : ℕ := n / 10 * 16 + n % 10

theorem fromBcd_eq (val : ℕ) : fromBcd val = val / 16 * 10 + val % 16 := by
  rw [fromBcd, show (0xf : ℕ) = 2 ^ 4 - 1 from rfl, Nat.and_two_pow_sub_one_eq_mod]

/-- Digits below 80 arrive as they are. -/
theorem fromBcd_signExtend {b : UInt8} {n : ℕ} (hb : b.toNat = toBcd n) (hn : n < 80) :
    fromBcd (signExtend b) = n := by
  rw [toBcd] at hb
  rw [signExtend, if_pos (by omega), fromBcd_eq]
  omega

/-- Digits from 80 on arrive sign-extended. -/
theorem fromBcd_signExtend_neg {b : UInt8} {n : ℕ} (hb : b.toNat = toBcd n) (hn : 80 ≤ n) :
    fromBcd (signExtend b) = 40800 + n := by
  rw [toBcd] at hb
  rw [signExtend, if_neg (by omega), fromBcd_eq]
  omega

theorem getD_cmosDump (cmos : ℕ → UInt8) {i : ℕ} (hi : i < 128) :
    (cmosDump cmos).getD i 0 = signExtend (cmos i) := by
  simp [cmosDump, hi]

/-! ### The sums of the calendar -/

/-- The nested tests of the code, in one. -/
theorem ite_isLeap {α : Type} (year : ℕ) (a b : α) :
    (if year % 4 = 0 then if year % 100 = 0 then if year % 400 = 0 then a else b else a else b) =
      if IsLeap year then a else b := by
  unfold IsLeap
  by_cases h4 : year % 4 = 0
  · by_cases h100 : year % 100 = 0
    · simp only [h4, h100, if_true, ne_eq, not_true_eq_false, false_or, true_and]
    · simp only [h4, h100, if_true, if_false, ne_eq, not_false_eq_true, true_or, and_self]
  · simp only [h4, if_false, false_and]

theorem isLeapYear_eq (year : ℕ) : isLeapYear year = decide (IsLeap year) := by
  rw [isLeapYear, ite_isLeap]
  split
  case isTrue h => exact (decide_eq_true h).symm
  case isFalse h => exact (decide_eq_false h).symm

/-- One round of the loop counts the days of a year. -/
theorem yearsLoop_succ {y days : ℕ} (hy : 1969 ≤ y) (hdays : days + 366 < 4294967296) :
    yearsLoop (y + 1) days = yearsLoop y (days + yearLength (y + 1)) := by
  have hday : w32 (days + 365) = days + 365 := w32_of_lt (by omega)
  have hleap : w32 (days + 365 + 1) = days + 365 + 1 := w32_of_lt (by omega)
  rw [yearsLoop, if_pos (Nat.lt_succ_of_le hy)]
  simp only [hday, hleap, ite_isLeap, yearLength]
  split <;> rfl

theorem yearsLoop_eq (y days : ℕ) (hy : 1969 ≤ y)
    (hdays : days + daysBeforeYear (y + 1) < 4294967296) :
    yearsLoop y days + daysBeforeYear 1970 = days + daysBeforeYear (y + 1) := by
  induction y generalizing days with
  | zero => exact absurd hy (by norm_num)
  | succ y ih =>
      by_cases hlast : y = 1968
      · rw [hlast, yearsLoop, if_neg (by norm_num)]
      · have hsucc := daysBeforeYear_succ (y + 1)
        have hclosed := daysBeforeYear_eq (y + 1)
        have hlen : 365 ≤ yearLength (y + 1) := by
          rw [yearLength]
          split <;> norm_num
        rw [yearsLoop_succ (by omega) (by omega), ih _ (by omega) (by omega)]
        omega

/-- The seconds of the years since 1970. -/
theorem secsOfYears_eq {v : ℕ} (hv : v < 65536) : secsOfYears (v - 1) =
    w32 ((daysBeforeYear (2000 + v) - daysBeforeYear 1970) * 86400) := by
  have hclosed := daysBeforeYear_eq (2000 + v)
  have hloop := yearsLoop_eq (1999 + v) 0 (by omega)
    (by rw [show 1999 + v + 1 = 2000 + v by omega]; omega)
  rw [show 1999 + v + 1 = 2000 + v by omega, Nat.zero_add] at hloop
  rw [secsOfYears, show ((v : ℤ) - 1 + 2000).toNat = 1999 + v by omega, ← hloop,
    Nat.add_sub_cancel]

theorem daysOfMonths_eq (year : ℕ) {month : ℕ} (hpos : 1 ≤ month) (hle : month ≤ 12) :
    daysOfMonths year (month - 1) = daysBeforeMonth year month := by
  have hsum : daysBeforeMonth year month =
      ∑ k ∈ Finset.range (month - 1), monthLength year (k + 1) := by
    rw [daysBeforeMonth, Finset.sum_Ico_eq_sum_range]
    simp only [Nat.add_comm 1]
  rw [hsum]
  unfold daysOfMonths
  by_cases hleap : IsLeap year
  · simp only [if_pos (show year % 4 = 0 ∧ (year % 100 ≠ 0 ∨ year % 400 = 0) from hleap)]
    interval_cases month <;> simp [Finset.sum_range_succ, monthLength, hleap]
  · simp only [if_neg (show ¬ (year % 4 = 0 ∧ (year % 100 ≠ 0 ∨ year % 400 = 0)) from hleap)]
    interval_cases month <;> simp [Finset.sum_range_succ, monthLength, hleap]

/-- The seconds of the months before a month. -/
theorem secsOfMonth_eq (v : ℕ) {month : ℕ} (hpos : 1 ≤ month) (hle : month ≤ 12) :
    secsOfMonth (month - 1) v = daysBeforeMonth (v + 2000) month * 86400 := by
  have hyear : daysBeforeMonth (v + 2000) month ≤ daysBeforeMonth (v + 2000) 13 :=
    daysBeforeMonth_mono (hle.trans (by norm_num))
  have hlen : yearLength (v + 2000) ≤ 366 := by
    rw [yearLength]
    split <;> norm_num
  rw [daysBeforeMonth_end] at hyear
  rw [secsOfMonth, daysOfMonths_eq _ hpos hle, w32_of_lt (by omega)]

/-! ### `gettimeofday` -/

/-- A reading of a moment from 2000 to 2099: two digits of everything, in BCD. -/
structure Reads (cmos : ℕ → UInt8) (m : Moment) : Prop where
  from_2000 : 2000 ≤ m.year
  to_2099 : m.year ≤ 2099
  year : (cmos 9).toNat = toBcd (m.year - 2000)
  month : (cmos 8).toNat = toBcd m.month
  day : (cmos 7).toNat = toBcd m.day
  hour : (cmos 4).toNat = toBcd m.hour
  minute : (cmos 2).toNat = toBcd m.minute
  second : (cmos 0).toNat = toBcd m.second

section Readings

variable {cmos : ℕ → UInt8} {m : Moment}

theorem monthLength_le (year month : ℕ) : monthLength year month ≤ 31 := by
  unfold monthLength
  split
  case h_2 => split <;> norm_num
  all_goals norm_num

/-- What the code makes of the reading, but for the year. -/
theorem Reads.fields (h : Reads cmos m) :
    fromBcd ((cmosDump cmos).getD 8 0) = m.month ∧ fromBcd ((cmosDump cmos).getD 7 0) = m.day ∧
      fromBcd ((cmosDump cmos).getD 4 0) = m.hour ∧ fromBcd ((cmosDump cmos).getD 2 0) = m.minute ∧
        fromBcd ((cmosDump cmos).getD 0 0) = m.second := by
  have hmonth := m.month_le
  have hday := m.day_le.trans (monthLength_le _ _)
  have hhour := m.hour_lt
  have hminute := m.minute_lt
  have hsecond := m.second_lt
  simp only [getD_cmosDump cmos (show 8 < 128 by norm_num),
    getD_cmosDump cmos (show 7 < 128 by norm_num), getD_cmosDump cmos (show 4 < 128 by norm_num), getD_cmosDump cmos (show 2 < 128 by norm_num),
    getD_cmosDump cmos (show 0 < 128 by norm_num)]
  exact ⟨fromBcd_signExtend h.month (by omega), fromBcd_signExtend h.day (by omega),
    fromBcd_signExtend h.hour (by omega), fromBcd_signExtend h.minute (by omega),
    fromBcd_signExtend h.second (by omega)⟩

/-- The year, which is sign-extended from 2080 on. -/
theorem Reads.fromBcd_year (h : Reads cmos m) : fromBcd ((cmosDump cmos).getD 9 0) =
    if m.year ≤ 2079 then m.year - 2000 else 40800 + (m.year - 2000) := by
  have hfrom := h.from_2000
  rw [getD_cmosDump cmos (by norm_num)]
  split
  case isTrue hle => exact fromBcd_signExtend h.year (by omega)
  case isFalse hle => exact fromBcd_signExtend_neg h.year (by omega)

theorem seconds_epoch : Moment.epoch.seconds = daysBeforeYear 1970 * 86400 := by
  have hone : daysBeforeMonth 1970 1 = 0 := daysBeforeMonth_one 1970
  simp only [Moment.seconds, Date.ordinal, Moment.epoch, Date.first, hone]
  norm_num

/-- The seconds since 1970 fit into 32 bits. -/
theorem Reads.seconds_bounds (h : Reads cmos m) : Moment.epoch.seconds + m.unixTime = m.seconds ∧
    m.unixTime < 4294967296 ∧ (2080 ≤ m.year → 3471292800 ≤ m.unixTime) := by
  have hfrom := h.from_2000
  have hto := h.to_2099
  have hhour := m.hour_lt
  have hminute := m.minute_lt
  have hsecond := m.second_lt
  have hle := m.daysBeforeYear_le_ordinal
  have hlt := m.ordinal_lt_year
  have hepoch : daysBeforeYear 1970 = 719528 := daysBeforeYear_eq 1970
  have hfirst : 730485 ≤ daysBeforeYear m.year :=
    (daysBeforeYear_eq 2000).ge.trans (daysBeforeYear_mono hfrom)
  have hlast : daysBeforeYear (m.year + 1) ≤ 767010 :=
    (daysBeforeYear_mono (Nat.succ_le_succ hto)).trans (daysBeforeYear_eq 2100).le
  have hlate : 2080 ≤ m.year → 759705 ≤ daysBeforeYear m.year := fun hyear =>
    (daysBeforeYear_eq 2080).ge.trans (daysBeforeYear_mono hyear)
  rw [Moment.unixTime, seconds_epoch, hepoch, Moment.seconds]
  omega

/-- The seconds since 1970, as the code computes them. -/
theorem gettimeofday_eq (h : Reads cmos m) : (gettimeofday cmos).tvSec =
    if m.year ≤ 2079 then m.unixTime else m.unixTime - 966547200 := by
  obtain ⟨hmonth, hday, hhour, hminute, hsecond⟩ := h.fields
  obtain ⟨hsum, hlt, hbig⟩ := h.seconds_bounds
  have hfrom := h.from_2000
  have hto := h.to_2099
  have hpos := m.day_pos
  have hepoch : daysBeforeYear 1970 = 719528 := daysBeforeYear_eq 1970
  have hyear := daysBeforeYear_eq m.year
  rw [seconds_epoch, Moment.seconds, Date.ordinal, hepoch] at hsum
  simp only [gettimeofday, hmonth, hday, hhour, hminute, hsecond, h.fromBcd_year,
    secsOfMonth_eq _ m.month_pos m.month_le]
  split
  case isTrue hle =>
    rw [secsOfYears_eq (by omega), show 2000 + (m.year - 2000) = m.year by omega,
      show m.year - 2000 + 2000 = m.year by omega, hepoch, w32_of_lt (by omega)]
    omega
  case isFalse hle =>
    -- the year is 40800 too large, which is 102 times the cycle of the calendar
    have hcycle := daysBeforeYear_add m.year 102
    have hlow : 2000 + (40800 + (m.year - 2000)) = m.year + 400 * 102 := by omega
    have hlow' : 40800 + (m.year - 2000) + 2000 = m.year + 400 * 102 := by omega
    rw [secsOfYears_eq (by omega), hlow, hlow', daysBeforeMonth_add, hcycle, hepoch]
    simp only [w32]
    have := hbig (by omega)
    omega

/-- The registers that read as a moment. -/
def registers (m : Moment) : ℕ → UInt8
  | 9 => UInt8.ofNat (toBcd (m.year - 2000))
  | 8 => UInt8.ofNat (toBcd m.month)
  | 7 => UInt8.ofNat (toBcd m.day)
  | 4 => UInt8.ofNat (toBcd m.hour)
  | 2 => UInt8.ofNat (toBcd m.minute)
  | 0 => UInt8.ofNat (toBcd m.second)
  | _ => 0

theorem toNat_toBcd {n : ℕ} (hn : n < 100) : (UInt8.ofNat (toBcd n)).toNat = toBcd n := by
  rw [UInt8.toNat_ofNat', toBcd]
  omega

theorem reads_registers (hfrom : 2000 ≤ m.year) (hto : m.year ≤ 2099) : Reads (registers m) m where
  from_2000 := hfrom
  to_2099 := hto
  year := toNat_toBcd (by omega)
  month := toNat_toBcd (m.month_le.trans_lt (by norm_num))
  day := toNat_toBcd ((m.day_le.trans (monthLength_le _ _)).trans_lt (by norm_num))
  hour := toNat_toBcd (m.hour_lt.trans (by norm_num))
  minute := toNat_toBcd (m.minute_lt.trans (by norm_num))
  second := toNat_toBcd (m.second_lt.trans (by norm_num))

theorem Reads.unixTime_lt {cmos' : ℕ → UInt8} {m' : Moment} (h : Reads cmos m) (h' : Reads cmos' m')
    (hlt : m.Before m') : m.unixTime < m'.unixTime := by
  have hseconds := Moment.seconds_lt hlt
  rw [← h.seconds_bounds.1, ← h'.seconds_bounds.1] at hseconds
  exact Nat.lt_of_add_lt_add_left hseconds

/-- The seconds since 1970 are right up to the end of 2079, and wrong afterwards.  From one reading
to a later one they increase unless the first is from before 2080, the second is not, and there are
at most 966547200 seconds between them. -/
theorem gettimeofday_iff (h : Reads cmos m) :
    ((gettimeofday cmos).tvSec = m.unixTime ↔ m.year ≤ 2079) ∧
      ∀ cmos' m', Reads cmos' m' → m.Before m' → (now cmos < now cmos' ↔
        m'.year ≤ 2079 ∨ 2080 ≤ m.year ∨ m.unixTime + 966547200 < m'.unixTime) := by
  have hbig := h.seconds_bounds.2.2
  refine ⟨?_, fun cmos' m' h' hlt => ?_⟩
  · rw [gettimeofday_eq h]
    split
    case isTrue hle => exact iff_of_true rfl hle
    case isFalse hle =>
      have := hbig (by omega)
      exact iff_of_false (by omega) hle
  · have hbig' := h'.seconds_bounds.2.2
    have hyear := hlt.year_le
    have hunix := h.unixTime_lt h' hlt
    rw [now, now, gettimeofday_eq h, gettimeofday_eq h']
    split_ifs <;> omega

/-- The last second of 2079. -/
def last2079 : Moment where
  year := 2079
  month := 12
  day := 31
  month_pos := by decide
  month_le := by decide
  day_pos := by decide
  day_le := by decide
  hour := 23
  minute := 59
  second := 59
  hour_lt := by decide
  minute_lt := by decide
  second_lt := by decide

/-- The theorem for it. -/
theorem gettimeofday_iff_last2079 :
    ((gettimeofday (registers last2079)).tvSec = last2079.unixTime ↔ last2079.year ≤ 2079) ∧
      ∀ cmos' m', Reads cmos' m' → last2079.Before m' → (now (registers last2079) < now cmos' ↔
        m'.year ≤ 2079 ∨ 2080 ≤ last2079.year ∨ last2079.unixTime + 966547200 < m'.unixTime) :=
  gettimeofday_iff (reads_registers (by decide) (by decide))

/-- The second after it. -/
def first2080 : Moment where
  year := 2080
  month := 1
  day := 1
  month_pos := by decide
  month_le := by decide
  day_pos := by decide
  day_le := by decide
  hour := 0
  minute := 0
  second := 0
  hour_lt := by decide
  minute_lt := by decide
  second_lt := by decide

/-- It is read as a moment of 2049. -/
theorem gettimeofday_first2080 : Reads (registers last2079) last2079 ∧
    Reads (registers first2080) first2080 ∧ last2079.Before first2080 ∧
      (gettimeofday (registers first2080)).tvSec ≠ first2080.unixTime ∧
        ¬ now (registers last2079) < now (registers first2080) := by
  have hlast : Reads (registers last2079) last2079 := reads_registers (by decide) (by decide)
  have hfirst : Reads (registers first2080) first2080 := reads_registers (by decide) (by decide)
  have hbefore : last2079.Before first2080 := .inl (.inl (by decide))
  have hnumber : last2079.unixTime = 3471292799 ∧ first2080.unixTime = 3471292800 := by
    simp only [Moment.unixTime, Moment.seconds, Date.ordinal, daysBeforeYear_eq]
    decide +kernel
  refine ⟨hlast, hfirst, hbefore, ?_, ?_⟩
  · rw [gettimeofday_eq hfirst, if_neg (by decide)]
    omega
  · rw [now, now, gettimeofday_eq hfirst, gettimeofday_eq hlast, if_pos (by decide),
      if_neg (by decide)]
    omega

end Readings

/-! ### `get_today` -/

section Today

/-- The fields of a moment. -/
def DateT.ofMoment (m : Moment) : DateT where
  h := m.hour
  m := m.minute
  s := m.second
  d := m.day
  mo := m.month
  y := m.year

/-- One of the carries applies. -/
def DateT.Overflows (dt : DateT) : Prop :=
  (31 < dt.d ∧ dt.mo % 2 ≠ 0 ∧ dt.mo ≠ 9) ∨ (30 < dt.d ∧ dt.mo % 2 = 0 ∧ dt.mo ≠ 2) ∨
    (dt.mo = 2 ∧ if IsLeap dt.y then 29 < dt.d else 28 < dt.d)

instance (dt : DateT) : Decidable dt.Overflows := by unfold DateT.Overflows; infer_instance

theorem carryShort_nextMonth (dt : DateT) : dt.nextMonth.carryShort = dt.nextMonth :=
  if_neg fun h => absurd h.1 (show ¬ 30 < 1 by norm_num)

theorem carryFebruary_eq (dt : DateT) : dt.carryFebruary =
    if dt.mo = 2 ∧ (if IsLeap dt.y then 29 < dt.d else 28 < dt.d) then dt.nextMonth else dt := by
  unfold DateT.carryFebruary
  by_cases hmo : dt.mo = 2
  · rw [if_pos hmo]
    simp only [isLeapYear_eq, decide_eq_true_eq]
    by_cases hleap : IsLeap dt.y
    · simp only [hleap, hmo, true_and, if_true, not_true_eq_false, false_and, if_false]
    · simp only [hleap, hmo, true_and, if_false, not_false_eq_true, false_and]
  · rw [if_neg hmo, if_neg fun h => hmo h.1]

theorem carryFebruary_nextMonth (dt : DateT) : dt.nextMonth.carryFebruary = dt.nextMonth := by
  rw [carryFebruary_eq, if_neg]
  rintro ⟨-, h⟩
  revert h
  split <;> exact fun h => absurd h (by simp [DateT.nextMonth])

/-- At most one of the carries of the month applies. -/
theorem carry_eq (dt : DateT) :
    dt.carry = (if dt.Overflows then dt.nextMonth else dt).carryYear := by
  rw [DateT.carry]
  congr 1
  by_cases hlong : 31 < dt.d ∧ dt.mo % 2 ≠ 0 ∧ dt.mo ≠ 9
  · rw [if_pos (.inl hlong), DateT.carryLong, if_pos hlong, carryShort_nextMonth,
      carryFebruary_nextMonth]
  rw [DateT.carryLong, if_neg hlong]
  by_cases hshort : 30 < dt.d ∧ dt.mo % 2 = 0 ∧ dt.mo ≠ 2
  · rw [if_pos (.inr (.inl hshort)), DateT.carryShort, if_pos hshort, carryFebruary_nextMonth]
  rw [DateT.carryShort, if_neg hshort, carryFebruary_eq]
  apply if_congr _ rfl rfl
  rw [DateT.Overflows, or_iff_right hlong, or_iff_right hshort]

def DateT.setDate (dt : DateT) (day month year : ℕ) : DateT :=
  { dt with d := day, mo := month, y := year }

theorem setDate_inj {dt : DateT} {d mo y d' mo' y' : ℕ} :
    dt.setDate d mo y = dt.setDate d' mo' y' ↔ d = d' ∧ mo = mo' ∧ y = y' := by
  simp only [DateT.setDate, DateT.mk.injEq, true_and]

/-- The days of a month, and the day after them, on which a carry applies. -/
theorem overflows_iff (dt : DateT) {day month year : ℕ} (hpos : 1 ≤ month) (hle : month ≤ 12)
    (hday : day ≤ monthLength year month + 1) : (dt.setDate day month year).Overflows ↔
      ((month = 8 ∨ month = 10 ∨ month = 12) ∧ 30 < day) ∨
        (month ≤ 7 ∧ monthLength year month < day) := by
  simp only [DateT.Overflows, DateT.setDate]
  by_cases hleap : IsLeap year
  · simp only [hleap, if_true]
    interval_cases month <;>
      simp only [monthLength, hleap, if_true, true_and, true_or, or_true] at hday ⊢ <;> omega
  · simp only [hleap, if_false]
    interval_cases month <;>
      simp only [monthLength, hleap, if_false, true_and, true_or, or_true] at hday ⊢ <;> omega

/-- What `get_today` makes of a day of a month, or of the day after them. -/
theorem carry_setDate (dt : DateT) {day month year : ℕ} (hpos : 1 ≤ month) (hle : month ≤ 12)
    (hday : day ≤ monthLength year month + 1) : (dt.setDate day month year).carry =
      if ((month = 8 ∨ month = 10 ∨ month = 12) ∧ 30 < day) ∨
          (month ≤ 7 ∧ monthLength year month < day) then
        dt.setDate 1 (month + 1) (if month = 12 then year + 1 else year)
      else dt.setDate day month year := by
  rw [carry_eq]
  by_cases ho : (dt.setDate day month year).Overflows
  · rw [if_pos ho, if_pos ((overflows_iff dt hpos hle hday).mp ho), DateT.carryYear]
    split
    case isTrue hlast =>
      rw [if_pos (show month = 12 by
        change 12 < month + 1 at hlast
        omega)]
      rfl
    case isFalse hlast =>
      rw [if_neg (show month ≠ 12 by
        change ¬ 12 < month + 1 at hlast
        omega)]
      rfl
  · rw [if_neg ho, if_neg (mt (overflows_iff dt hpos hle hday).mpr ho), DateT.carryYear,
      if_neg (show ¬ 12 < (dt.setDate day month year).mo from not_lt.mpr hle)]

/-- Only these months differ from what the carries take them for. -/
theorem monthLength_late (year month : ℕ) :
    ((month = 8 ∨ month = 10 ∨ month = 12) → monthLength year month = 31) ∧
      ((month = 9 ∨ month = 11) → monthLength year month = 30) := by
  constructor
  · rintro (h | h | h) <;> rw [h] <;> rfl
  · rintro (h | h) <;> rw [h] <;> rfl

/-- A date that is not to be changed. -/
theorem carry_same (dt : DateT) (d : Date) :
    (dt.setDate d.day d.month d.year).carry = dt.setDate d.day d.month d.year ↔
      ¬ (d.day = 31 ∧ (d.month = 8 ∨ d.month = 10 ∨ d.month = 12)) := by
  have hle := d.day_le
  have hlen := monthLength_le d.year d.month
  rw [carry_setDate dt d.month_pos d.month_le (Nat.le_succ_of_le hle)]
  split
  case isTrue ho =>
    rw [setDate_inj]
    omega
  case isFalse ho => exact iff_of_true rfl (by omega)

/-- A date that is to become the next one. -/
theorem carry_next (dt : DateT) (d : Date) :
    (dt.setDate (d.day + 1) d.month d.year).carry = dt.setDate d.next.day d.next.month d.next.year ↔
      ¬ (d.day = 30 ∧ 8 ≤ d.month ∨ d.day = 31 ∧ d.month = 12) := by
  have hpos := d.day_pos
  have hle := d.day_le
  have hmonth := d.month_le
  have hlen := monthLength_le d.year d.month
  obtain ⟨hlong, hshort⟩ := monthLength_late d.year d.month
  have hnext := d.next_fields
  rw [carry_setDate dt d.month_pos d.month_le (Nat.succ_le_succ hle)]
  split_ifs at hnext with hday hlast
  all_goals
    simp only [Prod.mk.injEq] at hnext
    obtain ⟨hy, hm, hd⟩ := hnext
    rw [hy, hm, hd]
    split
    case isTrue ho =>
      rw [setDate_inj]
      split_ifs <;> omega
    case isFalse ho =>
      rw [setDate_inj]
      omega

variable {cmos : ℕ → UInt8} {m : Moment}

theorem getDate_eq (h : Reads cmos m) (hyear : m.year ≤ 2079) :
    getDate cmos = (m.month, m.day, m.year) := by
  have hmonth := m.month_le
  have hday := m.day_le.trans (monthLength_le _ _)
  have hfrom := h.from_2000
  obtain ⟨hmo, hd, -⟩ := h.fields
  have hy := h.fromBcd_year
  rw [if_pos hyear] at hy
  simp only [getDate, hmo, hd, hy, century]
  rw [Nat.mod_eq_of_lt (by omega), Nat.mod_eq_of_lt (by omega), Nat.mod_eq_of_lt (by omega),
    show 2 * 1000 + (m.year - 2000) = m.year by omega]

theorem getTime_eq (h : Reads cmos m) : getTime cmos =
    if m.hour < 22 then (false, m.hour + 2, m.minute, m.second)
    else (true, m.hour - 22, m.minute, m.second) := by
  have hhour := m.hour_lt
  have hminute := m.minute_lt
  have hsecond := m.second_lt
  obtain ⟨-, -, hh, hm, hs⟩ := h.fields
  simp only [getTime, hh, hm, hs, timezone]
  rw [Nat.mod_eq_of_lt (show m.hour < 65536 by omega),
    Nat.mod_eq_of_lt (show m.hour + 2 < 65536 by omega),
    Nat.mod_eq_of_lt (show m.minute < 65536 by omega),
    Nat.mod_eq_of_lt (show m.second < 65536 by omega)]
  by_cases hlate : m.hour < 22
  · rw [if_pos hlate, if_neg (by omega)]
  · rw [if_neg hlate, if_pos (by omega), show m.hour + 2 - 24 = m.hour - 22 by omega]

/-- `get_today` is right except on the 31st of August, October and December before 22 o'clock, and
from 22 o'clock on at the 30th of every month from August on and on the last day of the year. -/
theorem getToday_iff (h : Reads cmos m) (hyear : m.year ≤ 2079) :
    getToday cmos = DateT.ofMoment (m.hoursLater timezone (by decide)) ↔
      ¬ (m.hour < 22 ∧ m.day = 31 ∧ (m.month = 8 ∨ m.month = 10 ∨ m.month = 12)) ∧
      ¬ (22 ≤ m.hour ∧ (m.day = 30 ∧ 8 ≤ m.month ∨ m.day = 31 ∧ m.month = 12)) := by
  obtain ⟨dt, hdt⟩ : ∃ dt : DateT, dt = { h := (getTime cmos).2.1, m := m.minute, s := m.second
                                          d := 0, mo := 0, y := 0 } := ⟨_, rfl⟩
  have htime := getTime_eq h
  by_cases hhour : m.hour < 22
  · rw [if_pos hhour] at htime
    have hlater : m.hoursLater timezone (by decide) =
        { m with hour := m.hour + 2, hour_lt := by omega } :=
      dif_pos (show m.hour + 2 < 24 by omega)
    have htoday : getToday cmos = (dt.setDate m.day m.month m.year).carry := by
      rw [hdt, getToday, getDate_eq h hyear, htime]
      rfl
    have hexpected : DateT.ofMoment (m.hoursLater timezone (by decide)) =
        dt.setDate m.day m.month m.year := by
      rw [hlater, hdt, htime]
      rfl
    rw [htoday, hexpected, carry_same dt m.toDate]
    omega
  · rw [if_neg hhour] at htime
    have hlater : m.hoursLater timezone (by decide) =
        { m with
          toDate := m.next
          hour := m.hour + 2 - 24
          hour_lt := by
            have := m.hour_lt
            omega } :=
      dif_neg (show ¬ m.hour + 2 < 24 by omega)
    have htoday : getToday cmos = (dt.setDate (m.day + 1) m.month m.year).carry := by
      rw [hdt, getToday, getDate_eq h hyear, htime]
      rfl
    have hexpected : DateT.ofMoment (m.hoursLater timezone (by decide)) =
        dt.setDate m.next.day m.next.month m.next.year := by
      rw [hlater, hdt, htime]
      simp only [DateT.ofMoment, DateT.setDate, DateT.mk.injEq, and_true]
      omega
    rw [htoday, hexpected, carry_next dt m.toDate]
    omega

/-- The theorem for the last second of 2079. -/
theorem getToday_iff_last2079 :
    getToday (registers last2079) = DateT.ofMoment (last2079.hoursLater timezone (by decide)) ↔
      ¬ (last2079.hour < 22 ∧ last2079.day = 31 ∧
        (last2079.month = 8 ∨ last2079.month = 10 ∨ last2079.month = 12)) ∧
      ¬ (22 ≤ last2079.hour ∧ (last2079.day = 30 ∧ 8 ≤ last2079.month ∨
        last2079.day = 31 ∧ last2079.month = 12)) :=
  getToday_iff (reads_registers (by decide) (by decide)) (by decide)

/-- It is followed by a day of the month 13. -/
theorem getToday_last2079 : Reads (registers last2079) last2079 ∧
    getToday (registers last2079) ≠ DateT.ofMoment (last2079.hoursLater timezone (by decide)) ∧
      (getToday (registers last2079)).mo = 13 := by
  refine ⟨reads_registers (by decide) (by decide), ?_, by decide +kernel⟩
  intro h
  have hmo := congrArg DateT.mo h
  revert hmo
  decide +kernel

end Today

end Owmice
