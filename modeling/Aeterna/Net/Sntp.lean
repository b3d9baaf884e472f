import Aeterna.Lib.Buffer
import Mathlib.Algebra.BigOperators.Group.List.Basic
import Mathlib.Data.Int.Basic

/-!
# Dates as text

`format_datetime_with_tz` of `net/sntp.rs` against the Gregorian calendar. The year and the month
are found by taking off their lengths one after the other; the calendar counts the leap years before
a year at once (`formatDatetimeWithTz_spec`).
-/

namespace Aeterna.Net.Sntp

open Lib.Buffer

abbrev Bytes := List UInt8

/-! ## The code -/

def isLeap (y : ℕ) : Bool := (y % 4 == 0 && y % 100 != 0) || y % 400 == 0

def yearDays (yr : ℕ) : ℕ := if isLeap yr then 366 else 365

theorem yearDays_pos (yr : ℕ) : 0 < yearDays yr := by
  unfold yearDays
  split_ifs <;> decide

/-- The loop over the years: the year of day `d` after the start of `yr`, and the day in it. -/
def yearLoop (yr d : ℕ) : ℕ × ℕ :=
  if d < yearDays yr then (yr, d) else yearLoop (yr + 1) (d - yearDays yr)
termination_by d
decreasing_by
  have hpos := yearDays_pos yr
  omega

def mdays (yr : ℕ) : List ℕ :=
  [31, if isLeap yr then 29 else 28, 31, 30, 31, 30, 31, 31, 30, 31, 30, 31]

/-- The loop over the months that are left, of which the first is `i`. -/
def monthLoop (i d : ℕ) : List ℕ → ℕ × ℕ
  | [] => (11, d)
  | days :: rest => if d < days then (i, d) else monthLoop (i + 1) (d - days) rest

def digitByte (v : ℕ) : UInt8 := UInt8.ofNat (0x30 + v % 10)

def w2 (v : ℕ) : Bytes := [digitByte (v / 10), digitByte v]

def zoneBytes (tzSecs : ℤ) : Bytes :=
  if tzSecs = 0 then []
  else
    let abs := tzSecs.natAbs
    let hh := abs / 3600
    let mm := abs % 3600 / 60
    (if tzSecs > 0 then 0x2B else 0x2D) :: ((if hh ≥ 10 then [digitByte (hh / 10)] else []) ++
      digitByte hh :: if mm > 0 then 0x3A :: w2 mm else [])

/-- The bytes that the function writes, one after the other. -/
def datetimeBytes (adj : ℕ) (tzSecs : ℤ) : Bytes :=
  let t := adj % 86400
  let (yr, d) := yearLoop 1970 (adj / 86400 % 2 ^ 32)
  let (mo, d) := monthLoop 0 d (mdays yr)
  ([1000, 100, 10, 1].map fun div => digitByte (yr / div)) ++ 0x2D :: w2 (mo + 1) ++
    0x2D :: w2 (d + 1) ++ 0x20 :: w2 (t / 3600) ++ 0x3A :: w2 (t % 3600 / 60) ++ 0x3A :: w2 (t % 60) ++
    [0x20, 0x55, 0x54, 0x43] ++ zoneBytes tzSecs

/-- The sum of the time and the offset, saturating in 64 bits and not below zero. -/
def adjusted (unixTs : UInt64) (tzSecs : Int64) : ℕ :=
  (max (min (max (unixTs.toInt64.toInt + tzSecs.toInt) (-2 ^ 63)) (2 ^ 63 - 1)) 0).toNat

/-- The number of bytes written and the buffer; nothing when one of them lies out of bounds. -/
def formatDatetimeWithTz (unixTs : UInt64) (tzSecs : Int64) (buf : Vector UInt8 32) :
    Option (ℕ × Bytes) :=
  let text := datetimeBytes (adjusted unixTs tzSecs) tzSecs.toInt
  if text.length ≤ 32 then some (text.length, splice buf.toList 0 text) else none

/-! ## The calendar -/

def daysInMonth (year month : ℕ) : ℕ :=
  if month = 2 then (if isLeap year then 29 else 28)
  else if month = 4 ∨ month = 6 ∨ month = 9 ∨ month = 11 then 30 else 31

/-- The days from 1970 to the start of a year, by the leap years among those before it. -/
def daysBeforeYear (year : ℕ) : ℕ :=
  365 * (year - 1970) + ((year - 1) / 4 - (year - 1) / 100 + (year - 1) / 400 - 477)

def daysBeforeMonth (year month : ℕ) : ℕ :=
  ((List.range (month - 1)).map fun i => daysInMonth year (i + 1)).sum

/-- A date of the calendar, from 1970 to 9999, with a time of day. -/
structure DateTime where
  year : ℕ
  month : ℕ
  day : ℕ
  hour : ℕ
  minute : ℕ
  second : ℕ
  year_mem : 1970 ≤ year ∧ year ≤ 9999
  month_mem : 1 ≤ month ∧ month ≤ 12
  day_mem : 1 ≤ day ∧ day ≤ daysInMonth year month
  hour_lt : hour < 24
  minute_lt : minute < 60
  second_lt : second < 60

/-- The seconds from the start of 1970. -/
def DateTime.timestamp (f : DateTime) : ℕ :=
  (daysBeforeYear f.year + daysBeforeMonth f.year f.month + (f.day - 1)) * 86400 +
    f.hour * 3600 + f.minute * 60 + f.second

/-- The last digits of a number. -/
def decimal : ℕ → ℕ → Bytes
  | 0, _ => []
  | width + 1, v => decimal width (v / 10) ++ [UInt8.ofNat (0x30 + v % 10)]

/-- The sign, the hours and, if there are any, the minutes of an offset. -/
def zoneText (z : ℤ) : Bytes :=
  if z = 0 then []
  else (if z > 0 then 0x2B else 0x2D) ::
    (decimal (if z.natAbs / 3600 < 10 then 1 else 2) (z.natAbs / 3600) ++
      if z.natAbs / 60 % 60 = 0 then [] else 0x3A :: decimal 2 (z.natAbs / 60 % 60))

/-- `YYYY-MM-DD HH:MM:SS UTC`, and the offset. -/
def DateTime.text (f : DateTime) (z : ℤ) : Bytes :=
  decimal 4 f.year ++ 0x2D :: decimal 2 f.month ++ 0x2D :: decimal 2 f.day ++
    0x20 :: decimal 2 f.hour ++ 0x3A :: decimal 2 f.minute ++ 0x3A :: decimal 2 f.second ++
    [0x20, 0x55, 0x54, 0x43] ++ zoneText z

/-! ## Years and months -/

theorem isLeap_iff {yr : ℕ} : isLeap yr ↔ yr % 4 = 0 ∧ yr % 100 ≠ 0 ∨ yr % 400 = 0 := by
  simp [isLeap]

theorem daysBeforeYear_succ {yr : ℕ} (h : 1970 ≤ yr) :
    daysBeforeYear (yr + 1) = daysBeforeYear yr + yearDays yr := by
  unfold daysBeforeYear yearDays
  by_cases hleap : isLeap yr
  · rw [if_pos hleap]
    rw [isLeap_iff] at hleap
    omega
  · rw [if_neg hleap]
    rw [isLeap_iff] at hleap
    omega

theorem daysBeforeYear_mono {a b : ℕ} (ha : 1970 ≤ a) (hab : a ≤ b) :
    daysBeforeYear a ≤ daysBeforeYear b := by
  induction b, hab using Nat.le_induction with
  | base => exact le_rfl
  | succ b hb ih =>
    rw [daysBeforeYear_succ (ha.trans hb)]
    exact ih.trans (Nat.le_add_right _ _)

/-- The day in the year, and the year that it lies in. -/
theorem yearLoop_spec {yr d : ℕ} (h : 1970 ≤ yr) :
    1970 ≤ (yearLoop yr d).1 ∧ (yearLoop yr d).2 < yearDays (yearLoop yr d).1 ∧
      daysBeforeYear (yearLoop yr d).1 + (yearLoop yr d).2 = daysBeforeYear yr + d := by
  induction d using Nat.strong_induction_on generalizing yr with
  | h d ih =>
    rw [yearLoop]
    split_ifs with hlt
    · exact ⟨h, hlt, rfl⟩
    · have hpos := yearDays_pos yr
      obtain ⟨hge, hday, hsum⟩ := ih (d - yearDays yr) (by omega) (Nat.le_succ_of_le h)
      refine ⟨hge, hday, hsum.trans ?_⟩
      rw [daysBeforeYear_succ h]
      omega

/-- The month is the one in which the days of those before it do not exceed the day. -/
theorem monthLoop_spec (i : ℕ) {d : ℕ} {months : List ℕ} (h : d < months.sum) :
    ∃ k, (months.take k).sum ≤ d ∧ d < (months.take (k + 1)).sum ∧ k < months.length ∧
      monthLoop i d months = (i + k, d - (months.take k).sum) := by
  induction months generalizing i d with
  | nil => exact absurd h (Nat.not_lt_zero d)
  | cons days rest ih =>
    rw [monthLoop]
    split_ifs with hlt
    · exact ⟨0, Nat.zero_le d, by simpa using hlt, by simp, rfl⟩
    · rw [List.sum_cons] at h
      obtain ⟨k, hle, hgt, hk, hloop⟩ := ih (i + 1) (d := d - days) (by omega)
      refine ⟨k + 1, ?_, ?_, Nat.succ_lt_succ hk, ?_⟩
      · rw [List.take_succ_cons, List.sum_cons]
        omega
      · rw [List.take_succ_cons, List.sum_cons]
        omega
      · rw [hloop, List.take_succ_cons, List.sum_cons, Nat.add_right_comm, Nat.sub_sub, Nat.add_assoc]

theorem mdays_eq (yr : ℕ) : mdays yr = (List.range 12).map fun i => daysInMonth yr (i + 1) := rfl

theorem sum_mdays (yr : ℕ) : (mdays yr).sum = yearDays yr := by
  unfold mdays yearDays
  cases isLeap yr <;> rfl

theorem sum_take_mdays (yr : ℕ) {k : ℕ} (hk : k ≤ 12) :
    ((mdays yr).take k).sum = daysBeforeMonth yr (k + 1) := by
  rw [mdays_eq, ← List.map_take, List.take_range, Nat.min_eq_left hk]
  rfl

theorem daysBeforeMonth_succ (yr : ℕ) {k : ℕ} :
    daysBeforeMonth yr (k + 2) = daysBeforeMonth yr (k + 1) + daysInMonth yr (k + 1) := by
  simp [daysBeforeMonth, List.range_succ]

/-! ## The text -/

theorem length_decimal (width v : ℕ) : (decimal width v).length = width := by
  induction width generalizing v with
  | zero => rfl
  | succ width ih => rw [decimal, List.length_append, ih, List.length_singleton]

theorem zoneBytes_eq (z : ℤ) : zoneBytes z = zoneText z := by
  unfold zoneBytes zoneText
  have hminutes : z.natAbs % 3600 / 60 = z.natAbs / 60 % 60 := by omega
  dsimp only
  rw [hminutes]
  generalize z.natAbs / 3600 = hh
  generalize z.natAbs / 60 % 60 = mm
  have hhours : (if hh ≥ 10 then [digitByte (hh / 10)] else []) ++ [digitByte hh] =
      decimal (if hh < 10 then 1 else 2) hh := by
    by_cases hlt : hh < 10
    · rw [if_neg (Nat.not_le.mpr hlt), if_pos hlt]
      rfl
    · rw [if_pos (Nat.not_lt.mp hlt), if_neg hlt]
      rfl
  rw [← hhours, List.append_assoc]
  rcases Nat.eq_zero_or_pos mm with rfl | hpos
  · rfl
  · rw [if_pos hpos, if_neg hpos.ne']
    rfl

theorem exists_datetimeBytes_eq {adj : ℕ} (h : adj < 253402300800) (z : ℤ) :
    ∃ f : DateTime, f.timestamp = adj ∧ datetimeBytes adj z = f.text z := by
  have hdays : adj / 86400 % 2 ^ 32 = adj / 86400 := Nat.mod_eq_of_lt (by omega)
  obtain ⟨hge, hday, hyear⟩ := @yearLoop_spec 1970 (adj / 86400) le_rfl
  generalize hloop : yearLoop 1970 (adj / 86400) = r at hge hday hyear
  obtain ⟨yr, d⟩ := r
  have hle : yr ≤ 9999 := by
    by_contra hlarge
    have hmono := @daysBeforeYear_mono 10000 yr (by decide) (by omega)
    have hlast : daysBeforeYear 10000 = 2932897 := rfl
    have hfirst : daysBeforeYear 1970 = 0 := rfl
    dsimp only at hyear
    omega
  obtain ⟨k, hbefore, hafter, hk, hmonth⟩ := monthLoop_spec 0 (hday.trans_eq (sum_mdays yr).symm)
  have hk' : k < 12 := hk
  rw [sum_take_mdays yr hk'.le] at hbefore hmonth
  rw [sum_take_mdays yr hk', daysBeforeMonth_succ] at hafter
  dsimp only at hbefore hafter hyear hmonth
  refine ⟨⟨yr, k + 1, d - daysBeforeMonth yr (k + 1) + 1, adj % 86400 / 3600,
    adj % 86400 % 3600 / 60, adj % 86400 % 60, ⟨hge, hle⟩, by omega, by omega, by omega, by omega,
    by omega⟩, ?_, ?_⟩
  · have hfirst : daysBeforeYear 1970 = 0 := rfl
    simp only [DateTime.timestamp]
    omega
  · unfold datetimeBytes DateTime.text
    rw [hdays, hloop]
    dsimp only
    rw [hmonth, zoneBytes_eq, Nat.zero_add]
    have hdigits : [1000, 100, 10, 1].map (fun div => digitByte (yr / div)) = decimal 4 yr := by
      simp only [decimal, digitByte, Nat.div_div_eq_div_mul, List.map_cons, List.map_nil,
        Nat.div_one]
      rfl
    rw [hdigits]
    rfl

theorem length_text (f : DateTime) (z : ℤ) : (f.text z).length ≤ 32 := by
  have hzone : (zoneText z).length ≤ 6 := by
    unfold zoneText
    split_ifs <;> simp [length_decimal]
  simp only [DateTime.text, List.length_append, List.length_cons, length_decimal, List.length_nil]
  omega

theorem adjusted_eq {unixTs : UInt64} {tzSecs : Int64} (hz : tzSecs.toInt.natAbs ≤ 50400)
    (hpos : 0 ≤ unixTs.toNat + tzSecs.toInt) (hlt : unixTs.toNat + tzSecs.toInt < 253402300800) :
    (adjusted unixTs tzSecs : ℤ) = unixTs.toNat + tzSecs.toInt := by
  have hsmall : 2 * unixTs.toBitVec.toNat < 2 ^ 64 := by
    change 2 * unixTs.toNat < 2 ^ 64
    omega
  have hint : unixTs.toInt64.toInt = unixTs.toNat := BitVec.toInt_eq_toNat_of_lt hsmall
  rw [adjusted, hint]
  omega

/-- **Dates.** For a time from 1970 to 9999 and an offset of at most 14 hours, the text of the date
that stands for their sum is written to the front of the buffer. -/
theorem formatDatetimeWithTz_spec (unixTs : UInt64) (tzSecs : Int64)
    (hz : tzSecs.toInt.natAbs ≤ 50400) (hpos : 0 ≤ unixTs.toNat + tzSecs.toInt)
    (hlt : unixTs.toNat + tzSecs.toInt < 253402300800) (buf : Vector UInt8 32) :
    ∃ f : DateTime, (f.timestamp : ℤ) = unixTs.toNat + tzSecs.toInt ∧
      formatDatetimeWithTz unixTs tzSecs buf =
        some ((f.text tzSecs.toInt).length, splice buf.toList 0 (f.text tzSecs.toInt)) := by
  have hadj := adjusted_eq hz hpos hlt
  have hadj' : adjusted unixTs tzSecs < 253402300800 := by omega
  obtain ⟨f, htime, htext⟩ := exists_datetimeBytes_eq hadj' tzSecs.toInt
  refine ⟨f, by rw [htime, hadj], ?_⟩
  unfold formatDatetimeWithTz
  rw [htext]
  exact if_pos (length_text f _)

/-- The last day of February 2024, seen from UTC+3. -/
theorem formatDatetimeWithTz_spec_leapDay :
    ∃ f : DateTime, (f.timestamp : ℤ) = 1709240399 ∧
      formatDatetimeWithTz 1709229599 10800 (Vector.replicate 32 0) =
        some ((f.text 10800).length, splice (List.replicate 32 0) 0 (f.text 10800)) :=
  formatDatetimeWithTz_spec 1709229599 10800 (by decide) (by decide) (by decide)
    (Vector.replicate 32 0)

end Aeterna.Net.Sntp
