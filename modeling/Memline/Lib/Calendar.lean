/-
The calendar: reading the texts of dates, and going on by days and minutes.

Days are counted from the first of the year 1 on. Going on by days keeps a date one of the
calendar and raises its count by as many; a moment has its place in the calendar as long as the
year has four digits.
-/
import Mathlib.Data.List.Induction
import Memline.Lib.Datetime

set_option autoImplicit false

namespace Py

/-! ## Numbers -/

/-- A number in decimal digits, of which Python takes the ASCII ones only. -/
def number (cs : List Char) : Option ℕ :=
  if cs.all Char.isDigit then some (Nat.ofDigitChars 10 cs 0) else none

/-- The last digit of a numeral counts once, the others ten times. -/
theorem ofDigitChars_concat (cs : List Char) (c : Char) :
    Nat.ofDigitChars 10 (cs ++ [c]) 0 = 10 * Nat.ofDigitChars 10 cs 0 + (c.toNat - '0'.toNat) := by
  rw [Nat.ofDigitChars_eq_foldl, Nat.ofDigitChars_eq_foldl, List.foldl_append]
  rfl

/-- A decimal digit is worth less than ten, and printing its worth gives it back. -/
theorem digitChar_of_isDigit {c : Char} (h : c.isDigit = true) :
    c.toNat - '0'.toNat < 10 ∧ Nat.digitChar (c.toNat - '0'.toNat) = c := by
  obtain ⟨hzero, hnine⟩ := Char.isDigit_iff_toNat.mp h
  have hz : '0'.toNat = 48 := rfl
  have hn : '9'.toNat = 57 := rfl
  refine ⟨by omega, ?_⟩
  apply Char.toNat_inj.mp
  rw [Nat.toNat_digitChar_of_lt_ten (by omega)]
  omega

/-- The digits are those of the number. -/
theorem digits_ofDigitChars {cs : List Char} (h : ∀ c ∈ cs, c.isDigit = true) :
    digits cs.length (Nat.ofDigitChars 10 cs 0) = cs := by
  induction cs using List.reverseRecOn with
  | nil => rfl
  | append_singleton cs c ih =>
    obtain ⟨hlt, hchar⟩ := digitChar_of_isDigit (h c (by simp))
    rw [List.length_append, List.length_singleton, ofDigitChars_concat, digits]
    have hdiv : (10 * Nat.ofDigitChars 10 cs 0 + (c.toNat - '0'.toNat)) / 10 =
        Nat.ofDigitChars 10 cs 0 := by omega
    have hmod : (10 * Nat.ofDigitChars 10 cs 0 + (c.toNat - '0'.toNat)) % 10 =
        c.toNat - '0'.toNat := by omega
    rw [hdiv, hmod, ih fun d hd => h d (by simp [hd]), hchar]

theorem isDigit_of_mem_digits {width n : ℕ} {c : Char} (h : c ∈ digits width n) :
    c.isDigit = true := by
  induction width generalizing n with
  | zero => cases h
  | succ width ih =>
    rcases List.mem_append.mp h with h | h
    · exact ih h
    · rw [List.mem_singleton.mp h]
      rw [Nat.isDigit_digitChar]
      exact decide_eq_true (Nat.mod_lt n (by omega))

/-- A number that fits its width is read as it was printed, leading zeros and all. -/
theorem ofDigitChars_digits {width n : ℕ} (h : n < 10 ^ width) :
    Nat.ofDigitChars 10 (digits width n) 0 = n := by
  induction width generalizing n with
  | zero =>
    rw [digits, Nat.ofDigitChars_nil]
    omega
  | succ width ih =>
    rw [pow_succ] at h
    have hchar : (Nat.digitChar (n % 10)).toNat - '0'.toNat = n % 10 := by
      have hall : ∀ k < 10, (Nat.digitChar k).toNat - '0'.toNat = k := by decide
      exact hall _ (Nat.mod_lt n (by omega))
    rw [digits, ofDigitChars_concat, ih (by omega), hchar]
    omega

/-- Reading what was printed to a width gives the number. -/
theorem number_digits {width n : ℕ} (h : n < 10 ^ width) : number (digits width n) = some n := by
  rw [number, if_pos (List.all_eq_true.mpr fun c hc => isDigit_of_mem_digits hc),
    ofDigitChars_digits h]

/-- Printing what was read gives the digits: nothing else is read as a number. -/
theorem digits_of_number {cs : List Char} {n : ℕ} (h : number cs = some n) :
    digits cs.length n = cs := by
  rw [number] at h
  split at h
  · rename_i hall
    rw [← Option.some.inj h]
    exact digits_ofDigitChars (List.all_eq_true.mp hall)
  · cases h

/-! ## Days -/

/-- A date by its year, month and day, of the calendar or not. -/
structure Date where
  year : ℕ
  month : ℕ
  day : ℕ

namespace Date

/-- A date of the calendar. -/
structure Valid (t : Date) : Prop where
  year_pos : 0 < t.year
  month_pos : 0 < t.month
  month_le : t.month ≤ 12
  day_pos : 0 < t.day
  day_le : t.day ≤ days_in_month t.year t.month

/-- The day after. -/
def next (t : Date) : Date :=
  if t.day < days_in_month t.year t.month then ⟨t.year, t.month, t.day + 1⟩
  else if t.month < 12 then ⟨t.year, t.month + 1, 1⟩
  else ⟨t.year + 1, 1, 1⟩

def leap_days (year : ℕ) : ℕ := year / 4 - year / 100 + year / 400

def days_before_year (year : ℕ) : ℕ := 365 * (year - 1) + leap_days (year - 1)

def days_before_month (year month : ℕ) : ℕ :=
  ((List.range' 1 (month - 1)).map (days_in_month year)).sum

/-- `date.toordinal()`: the number of the day, the first day of the year 1 being 1. -/
def toordinal (t : Date) : ℕ := days_before_year t.year + days_before_month t.year t.month + t.day

theorem days_in_month_pos (year month : ℕ) : 0 < days_in_month year month := by
  unfold days_in_month
  split
  · split
    · omega
    · omega
  · split
    · omega
    · omega

theorem Valid.next {t : Date} (h : t.Valid) : t.next.Valid := by
  have hyear := h.year_pos
  have hmonth := h.month_pos
  unfold Date.next
  split
  · rename_i hlt
    exact ⟨hyear, hmonth, h.month_le, Nat.succ_pos _, hlt⟩
  · split
    · rename_i hlt
      exact ⟨hyear, Nat.succ_pos _, hlt, Nat.one_pos, days_in_month_pos _ _⟩
    · exact ⟨Nat.succ_pos _, Nat.one_pos, Nat.le_of_ble_eq_true rfl, Nat.one_pos,
        days_in_month_pos _ _⟩

/-- The days before a month are those before the last one, and that one. -/
theorem days_before_month_succ (year : ℕ) {month : ℕ} (h : 0 < month) :
    days_before_month year (month + 1) =
      days_before_month year month + days_in_month year month := by
  obtain ⟨k, rfl⟩ : ∃ k, month = k + 1 := ⟨month - 1, by omega⟩
  rw [days_before_month, days_before_month, Nat.add_sub_cancel, Nat.add_sub_cancel,
    List.range'_concat, List.map_append, List.sum_append, Nat.one_mul, Nat.add_comm 1 k]
  simp

/-- Every fourth year has a day more, but for three of every four hundred. -/
theorem leap_days_step {year : ℕ} (h : 0 < year) :
    leap_days year + 28 = leap_days (year - 1) + days_in_month year 2 := by
  obtain ⟨before, rfl⟩ := Nat.exists_eq_succ_of_ne_zero h.ne'
  have hfebruary : days_in_month (before + 1) 2
      = if (before + 1) % 4 = 0 ∧ ((before + 1) % 100 ≠ 0 ∨ (before + 1) % 400 = 0) then 29
        else 28 := rfl
  have hless : before / 100 ≤ before / 4 := Nat.div_le_div_left (by decide) (by decide)
  rw [hfebruary, Nat.succ_eq_add_one, Nat.add_sub_cancel, leap_days, leap_days, Nat.succ_div,
    Nat.succ_div, Nat.succ_div]
  simp only [Nat.dvd_iff_mod_eq_zero]
  -- a year of the century is one of the fourth, and one of the fourth century one of the century
  have hcentury : (before + 1) % 100 = 0 → (before + 1) % 4 = 0 := by omega
  have hfourth : (before + 1) % 400 = 0 → (before + 1) % 100 = 0 := by omega
  -- from here on the quotients are numbers like any other
  generalize before / 4 = fours at hless ⊢
  generalize before / 100 = centuries at hless ⊢
  by_cases h4 : (before + 1) % 4 = 0
  · by_cases h100 : (before + 1) % 100 = 0
    · by_cases h400 : (before + 1) % 400 = 0
      · simp only [h4, h100, h400, if_true, ne_eq, not_true, or_true, and_true]
        omega
      · simp only [h4, h100, h400, if_true, if_false, ne_eq, not_true, or_self, and_false]
        omega
    · have h400 := mt hfourth h100
      simp only [h4, h100, h400, if_true, if_false, ne_eq, not_false_eq_true, true_or, and_true]
      omega
  · have h100 := mt hcentury h4
    have h400 := mt hfourth h100
    simp only [h4, h100, h400, if_false, false_and]
    omega

/-- What lies before December depends on February alone. -/
theorem days_before_december (year : ℕ) :
    days_before_month year 12 = 306 + days_in_month year 2 := by
  have hfebruary := Nat.add_comm 306 (days_in_month year 2)
  rw [hfebruary]
  change 31 + (days_in_month year 2 + 275) = _
  omega

/-- The days of a year. -/
theorem days_before_year_succ {year : ℕ} (h : 0 < year) :
    days_before_year (year + 1) = days_before_year year + (days_before_month year 12 + 31) := by
  have hstep := leap_days_step h
  rw [days_before_december, days_before_year, days_before_year, Nat.add_sub_cancel]
  omega

/-- The ordinal of the next day is the next ordinal, over the ends of months and years. -/
theorem toordinal_next {t : Date} (h : t.Valid) : t.next.toordinal = t.toordinal + 1 := by
  have hday := h.day_le
  unfold Date.next
  split
  · exact (Nat.add_assoc _ t.day 1).symm
  · rename_i hlast
    have heq : t.day = days_in_month t.year t.month := by omega
    split
    · change days_before_year t.year + days_before_month t.year (t.month + 1) + 1
        = days_before_year t.year + days_before_month t.year t.month + t.day + 1
      rw [days_before_month_succ t.year h.month_pos]
      omega
    · have hmonth : t.month = 12 := by
        have hle := h.month_le
        omega
      have hlength : days_in_month t.year 12 = 31 := rfl
      change days_before_year (t.year + 1) + 0 + 1
        = days_before_year t.year + days_before_month t.year t.month + t.day + 1
      rw [days_before_year_succ h.year_pos, heq, hmonth, hlength]
      omega

/-- Some days on. -/
def add_days (t : Date) (n : ℕ) : Date := Date.next^[n] t

/-- Adding days stays among the valid dates and adds to the ordinal. -/
theorem add_days_spec {t : Date} (h : t.Valid) (n : ℕ) :
    (t.add_days n).Valid ∧ (t.add_days n).toordinal = t.toordinal + n := by
  induction n with
  | zero => exact ⟨h, rfl⟩
  | succ n ih =>
    rw [add_days, Function.iterate_succ_apply']
    refine ⟨ih.1.next, (toordinal_next ih.1).trans ?_⟩
    rw [← Nat.add_assoc, ← ih.2]

theorem days_before_year_mono {year year' : ℕ} (h : year ≤ year') :
    days_before_year year ≤ days_before_year year' := by
  rw [days_before_year, days_before_year, leap_days, leap_days]
  omega

theorem days_before_month_mono (year : ℕ) {month month' : ℕ} (hpos : 0 < month)
    (h : month ≤ month') : days_before_month year month ≤ days_before_month year month' := by
  induction month', h using Nat.le_induction with
  | base => exact le_rfl
  | succ month' h ih =>
    rw [days_before_month_succ year (by omega)]
    omega

/-- A day is within its year. -/
theorem day_of_year_le {t : Date} (h : t.Valid) :
    days_before_month t.year t.month + t.day ≤ days_before_month t.year 12 + 31 := by
  have hday := h.day_le
  rcases h.month_le.lt_or_eq with hlt | heq
  · have hmono := days_before_month_mono t.year (Nat.succ_pos t.month) hlt
    rw [days_before_month_succ t.year h.month_pos] at hmono
    omega
  · have hlength : days_in_month t.year 12 = 31 := rfl
    rw [heq, hlength] at hday
    rw [heq]
    omega

/-- The last day of a year of four digits has this number. -/
theorem year_lt_iff {t : Date} (h : t.Valid) : t.year < 10000 ↔ t.toordinal ≤ 3652059 := by
  have hlast : days_before_year 10000 = 3652059 := rfl
  constructor
  · intro hlt
    have hmono := days_before_year_mono (Nat.succ_le_of_lt hlt)
    have hday := day_of_year_le h
    rw [hlast, Nat.succ_eq_add_one, days_before_year_succ h.year_pos] at hmono
    rw [toordinal]
    omega
  · intro hle
    by_contra hge
    have hmono := days_before_year_mono (Nat.le_of_not_lt hge)
    have hday := h.day_pos
    rw [hlast] at hmono
    rw [toordinal] at hle
    omega

end Date

/-! ## Moments -/

namespace Datetime

def date (t : Datetime) : Date := ⟨t.year, t.month, t.day⟩

theorem date_valid (t : Datetime) :
    t.date.Valid := ⟨t.year_pos, t.month_pos, t.month_le, t.day_pos, t.day_le⟩

/-- The minutes since the start of the year 1, of which the first day has the number 1. -/
def minutes (t : Datetime) : ℕ := t.date.toordinal * 1440 + t.hour * 60 + t.minute

/-- `t + timedelta(minutes=n)`, which has to be a moment of the calendar. -/
def add_minutes (t : Datetime) (n : ℕ) : Option Datetime :=
  let total := t.hour * 60 + t.minute + n
  let date := t.date.add_days (total / 1440)
  if h : date.year < 10000 then
    have hdate := (Date.add_days_spec t.date_valid (total / 1440)).1
    some {
      year := date.year
      month := date.month
      day := date.day
      hour := total % 1440 / 60
      minute := total % 60
      second := t.second
      microsecond := t.microsecond
      year_pos := hdate.year_pos
      year_lt := h
      month_pos := hdate.month_pos
      month_le := hdate.month_le
      day_pos := hdate.day_pos
      day_le := hdate.day_le
      hour_lt := by omega
      minute_lt := by omega
      second_lt := t.second_lt
      microsecond_lt := t.microsecond_lt }
  else none

/-- A sum of minutes is a moment as long as it lies before the year 10000. -/
theorem add_minutes_isSome_iff (t : Datetime) (n : ℕ) :
    (t.add_minutes n).isSome = true ↔ t.minutes + n < 3652060 * 1440 := by
  have hspec := Date.add_days_spec t.date_valid ((t.hour * 60 + t.minute + n) / 1440)
  have hyear := Date.year_lt_iff hspec.1
  rw [hspec.2] at hyear
  rw [minutes, add_minutes]
  simp only
  split
  · rename_i h
    have hday := hyear.mp h
    rw [Option.isSome_some]
    exact iff_of_true rfl (by omega)
  · rename_i h
    have hday := mt hyear.mpr h
    rw [Option.isSome_none]
    exact iff_of_false Bool.false_ne_true (by omega)

end Datetime

/-! ## Reading -/

/-- The moment of some fields, or which of them is out of its range. -/
def Datetime.of (year month day hour minute second : ℕ) : Except String Datetime :=
  if hyear : 0 < year ∧ year < 10000 then
    if hmonth : 0 < month ∧ month ≤ 12 then
      if hday : 0 < day ∧ day ≤ days_in_month year month then
        if hhour : hour < 24 then
          if hminute : minute < 60 then
            if hsecond : second < 60 then
              .ok {
                year := year
                month := month
                day := day
                hour := hour
                minute := minute
                second := second
                microsecond := 0
                year_pos := hyear.1
                year_lt := hyear.2
                month_pos := hmonth.1
                month_le := hmonth.2
                day_pos := hday.1
                day_le := hday.2
                hour_lt := hhour
                minute_lt := hminute
                second_lt := hsecond
                microsecond_lt := by omega }
            else .error "second must be in 0..59"
          else .error "minute must be in 0..59"
        else .error "hour must be in 0..23"
      else .error "day is out of range for month"
    else .error "month must be in 1..12"
  else .error ("year " ++ toString year ++ " is out of range")

/-- The fields of a moment make one. -/
theorem Datetime.of_fields {year month day hour minute second : ℕ} {t : Datetime}
    (h : t.fields = [year, month, day, hour, minute, second]) :
    ∃ u, Datetime.of year month day hour minute second = .ok u := by
  simp only [Datetime.fields, List.cons.injEq, and_true] at h
  obtain ⟨rfl, rfl, rfl, rfl, rfl, rfl⟩ := h
  refine ⟨{ t with microsecond := 0, microsecond_lt := by omega }, ?_⟩
  rw [Datetime.of, dif_pos ⟨t.year_pos, t.year_lt⟩, dif_pos ⟨t.month_pos, t.month_le⟩,
    dif_pos ⟨t.day_pos, t.day_le⟩, dif_pos t.hour_lt, dif_pos t.minute_lt, dif_pos t.second_lt]

/-- The fields of a moment that was made of six numbers are those six numbers. -/
theorem Datetime.fields_of {year month day hour minute second : ℕ} {t : Datetime}
    (h : Datetime.of year month day hour minute second = .ok t) :
    t.fields = [year, month, day, hour, minute, second] := by
  unfold Datetime.of at h
  split at h
  · split at h
    · split at h
      · split at h
        · split at h
          · split at h
            · cases h
              rfl
            · cases h
          · cases h
        · cases h
      · cases h
    · cases h
  · cases h

/-- `YYYY-MM-DD`, and behind it `Thh:mm:ss` or nothing. -/
def extended (cs : List Char) : Bool :=
  cs[4]? = some '-' && cs[7]? = some '-' && (cs.length = 10 ||
    cs.length = 19 && cs[10]? = some 'T' && cs[13]? = some ':' && cs[16]? = some ':')

/-- The number at a place. Where the text has ended it is zero. -/
def field (cs : List Char) (start width : ℕ) : Option ℕ := number ((cs.drop start).take width)

/-- `datetime.fromisoformat(s)`: what it makes of the extended format is written out here. -/
def fromisoformat (other : String → Except String Datetime) (s : String) : Except String Datetime :=
  let cs := s.toList
  if extended cs then
    match field cs 0 4, field cs 5 2, field cs 8 2, field cs 11 2, field cs 14 2, field cs 17 2 with
    | some year, some month, some day, some hour, some minute, some second =>
      Datetime.of year month day hour minute second
    | _, _, _, _, _, _ => .error ("Invalid isoformat string: '" ++ s ++ "'")
  else other s

/-- The parts of a text in the extended format. -/
structure IsoText where
  year : List Char
  month : List Char
  day : List Char
  year_length : year.length = 4
  month_length : month.length = 2
  day_length : day.length = 2

namespace IsoText

variable (x : IsoText)

/-- The date alone. -/
def date : List Char := x.year ++ '-' :: (x.month ++ '-' :: x.day)

/-- The date and a time. -/
def timed (hour minute second : List Char) : List Char :=
  x.date ++ 'T' :: (hour ++ ':' :: (minute ++ ':' :: second))

theorem length_date : x.date.length = 10 := by
  simp [date, x.year_length, x.month_length, x.day_length]

/-- The fields of a date stand where they are looked for. -/
theorem fields_date (rest : List Char) :
    field (x.date ++ rest) 0 4 = number x.year ∧ field (x.date ++ rest) 5 2 = number x.month ∧
      field (x.date ++ rest) 8 2 = number x.day := by
  obtain ⟨year, month, day, hyear, hmonth, hday⟩ := x
  obtain ⟨y₁, y₂, y₃, y₄, rfl⟩ : ∃ a b c d, year = [a, b, c, d] := by
    match year, hyear with
    | [a, b, c, d], _ => exact ⟨a, b, c, d, rfl⟩
  obtain ⟨m₁, m₂, rfl⟩ := List.length_eq_two.mp hmonth
  obtain ⟨d₁, d₂, rfl⟩ := List.length_eq_two.mp hday
  exact ⟨rfl, rfl, rfl⟩

/-- In a text with a time the three fields of the time are where the reader looks for them. -/
theorem fields_timed {hour minute second : List Char} (hhour : hour.length = 2)
    (hminute : minute.length = 2) (hsecond : second.length = 2) :
    field (x.timed hour minute second) 11 2 = number hour ∧
      field (x.timed hour minute second) 14 2 = number minute ∧
      field (x.timed hour minute second) 17 2 = number second := by
  obtain ⟨h₁, h₂, rfl⟩ := List.length_eq_two.mp hhour
  obtain ⟨i₁, i₂, rfl⟩ := List.length_eq_two.mp hminute
  obtain ⟨s₁, s₂, rfl⟩ := List.length_eq_two.mp hsecond
  have hdrop : ∀ k rest, (x.date ++ rest).drop (10 + k) = rest.drop k := by
    intro k rest
    rw [← x.length_date, List.drop_length_add_append]
  refine ⟨?_, ?_, ?_⟩
  · exact congrArg (fun l => number (l.take 2)) (hdrop 1 _)
  · exact congrArg (fun l => number (l.take 2)) (hdrop 4 _)
  · exact congrArg (fun l => number (l.take 2)) (hdrop 7 _)

theorem extended_date : extended x.date = true := by
  obtain ⟨year, month, day, hyear, hmonth, hday⟩ := x
  obtain ⟨y₁, y₂, y₃, y₄, rfl⟩ : ∃ a b c d, year = [a, b, c, d] := by
    match year, hyear with
    | [a, b, c, d], _ => exact ⟨a, b, c, d, rfl⟩
  obtain ⟨m₁, m₂, rfl⟩ := List.length_eq_two.mp hmonth
  obtain ⟨d₁, d₂, rfl⟩ := List.length_eq_two.mp hday
  rfl

/-- A date with a time to the second is in the extended format. -/
theorem extended_timed {hour minute second : List Char} (hhour : hour.length = 2)
    (hminute : minute.length = 2) (hsecond : second.length = 2) :
    extended (x.timed hour minute second) = true := by
  obtain ⟨year, month, day, hyear, hmonth, hday⟩ := x
  obtain ⟨y₁, y₂, y₃, y₄, rfl⟩ : ∃ a b c d, year = [a, b, c, d] := by
    match year, hyear with
    | [a, b, c, d], _ => exact ⟨a, b, c, d, rfl⟩
  obtain ⟨m₁, m₂, rfl⟩ := List.length_eq_two.mp hmonth
  obtain ⟨d₁, d₂, rfl⟩ := List.length_eq_two.mp hday
  obtain ⟨h₁, h₂, rfl⟩ := List.length_eq_two.mp hhour
  obtain ⟨i₁, i₂, rfl⟩ := List.length_eq_two.mp hminute
  obtain ⟨s₁, s₂, rfl⟩ := List.length_eq_two.mp hsecond
  rfl

end IsoText

/-- A numeral of a width is read as a number exactly when it is that number printed. -/
theorem number_eq_some_iff {cs : List Char} {n width : ℕ} (hlength : cs.length = width)
    (hn : n < 10 ^ width) : number cs = some n ↔ digits width n = cs := by
  constructor
  · intro h
    rw [← hlength]
    exact digits_of_number h
  · rintro rfl
    exact number_digits hn

/-- A text of the extended format is read if its fields are those of a moment. -/
theorem fromisoformat_iff (other : String → Except String Datetime) {cs : List Char}
    (h : extended cs = true) :
    (∃ t, fromisoformat other (String.ofList cs) = .ok t) ↔
      ∃ t : Datetime, field cs 0 4 = some t.year ∧ field cs 5 2 = some t.month ∧
        field cs 8 2 = some t.day ∧
        field cs 11 2 = some t.hour ∧ field cs 14 2 = some t.minute ∧
        field cs 17 2 = some t.second := by
  rw [fromisoformat]
  simp only [String.toList_ofList, h, if_true]
  constructor
  · rintro ⟨t, ht⟩
    split at ht
    · rename_i hyear hmonth hday hhour hminute hsecond
      have hfields := Datetime.fields_of ht
      simp only [Datetime.fields, List.cons.injEq, and_true] at hfields
      obtain ⟨rfl, rfl, rfl, rfl, rfl, rfl⟩ := hfields
      exact ⟨t, hyear, hmonth, hday, hhour, hminute, hsecond⟩
    · cases ht
  · rintro ⟨t, hyear, hmonth, hday, hhour, hminute, hsecond⟩
    rw [hyear, hmonth, hday, hhour, hminute, hsecond]
    exact Datetime.of_fields rfl

/-- The parts of the date of a moment. -/
def Datetime.iso (t : Datetime) : IsoText :=
  ⟨digits 4 t.year, digits 2 t.month, digits 2 t.day, length_digits _ _, length_digits _ _,
    length_digits _ _⟩

/-- The stamp of a moment is its date and its time to the second, each field to its width. -/
theorem Datetime.stamp_eq (t : Datetime) :
    t.stamp = t.iso.timed (digits 2 t.hour) (digits 2 t.minute) (digits 2 t.second) := by
  simp [Datetime.stamp, Datetime.iso, IsoText.timed, IsoText.date]

theorem IsoText.date_inj {x y : IsoText} (h : x.date = y.date) :
    x.year = y.year ∧ x.month = y.month ∧ x.day = y.day := by
  obtain ⟨hyear, hrest⟩ := List.append_inj h (by rw [x.year_length, y.year_length])
  obtain ⟨hmonth, hrest⟩ :=
    List.append_inj (List.cons.inj hrest).2 (by rw [x.month_length, y.month_length])
  exact ⟨hyear, hmonth, (List.cons.inj hrest).2⟩

/-- The parts of a text are those of the date of a moment. -/
theorem IsoText.date_eq_iff {x : IsoText} {t : Datetime} :
    t.iso.date = x.date ↔ number x.year = some t.year ∧ number x.month = some t.month ∧
      number x.day = some t.day := by
  have hmonth := t.month_le
  have hday := t.day_le.trans (days_in_month_le t.year t.month)
  rw [number_eq_some_iff x.year_length t.year_lt, number_eq_some_iff x.month_length (by omega),
    number_eq_some_iff x.day_length (by omega)]
  constructor
  · exact IsoText.date_inj
  · rintro ⟨hyear, hmonth, hday⟩
    rw [IsoText.date, IsoText.date, ← hyear, ← hmonth, ← hday]
    rfl

/-- A date and a time are read if they are those of a moment. -/
theorem fromisoformat_timed_iff (other : String → Except String Datetime) (x : IsoText)
    {hour minute second : List Char} (hhour : hour.length = 2) (hminute : minute.length = 2)
    (hsecond : second.length = 2) :
    (∃ t, fromisoformat other (String.ofList (x.timed hour minute second)) = .ok t) ↔
      ∃ t : Datetime, t.stamp = x.timed hour minute second := by
  rw [fromisoformat_iff other (x.extended_timed hhour hminute hsecond)]
  refine exists_congr fun t => ?_
  have hdate := x.fields_date ('T' :: (hour ++ ':' :: (minute ++ ':' :: second)))
  have htime := x.fields_timed hhour hminute hsecond
  rw [← IsoText.timed] at hdate
  have hhour_lt := t.hour_lt
  have hminute_lt := t.minute_lt
  have hsecond_lt := t.second_lt
  rw [hdate.1, hdate.2.1, hdate.2.2, htime.1, htime.2.1, htime.2.2,
    number_eq_some_iff hhour (by omega), number_eq_some_iff hminute (by omega),
    number_eq_some_iff hsecond (by omega), t.stamp_eq]
  constructor
  · rintro ⟨hyear, hmonth, hday, rfl, rfl, rfl⟩
    rw [IsoText.timed, IsoText.timed, IsoText.date_eq_iff.mpr ⟨hyear, hmonth, hday⟩]
  · intro hstamp
    obtain ⟨hdate, hstamp⟩ := List.append_inj hstamp (by rw [t.iso.length_date, x.length_date])
    obtain ⟨hyear, hmonth, hday⟩ := IsoText.date_eq_iff.mp hdate
    obtain ⟨hh, hstamp⟩ := List.append_inj (List.cons.inj hstamp).2 (by rw [length_digits, hhour])
    obtain ⟨hi, hstamp⟩ := List.append_inj (List.cons.inj hstamp).2 (by rw [length_digits, hminute])
    exact ⟨hyear, hmonth, hday, hh, hi, (List.cons.inj hstamp).2⟩

/-- The start of the day. -/
def Datetime.midnight (t : Datetime) : Datetime where
  year := t.year
  month := t.month
  day := t.day
  hour := 0
  minute := 0
  second := 0
  microsecond := 0
  year_pos := t.year_pos
  year_lt := t.year_lt
  month_pos := t.month_pos
  month_le := t.month_le
  day_pos := t.day_pos
  day_le := t.day_le
  hour_lt := no_hour
  minute_lt := no_minute
  second_lt := no_minute
  microsecond_lt := no_microsecond

/-- A date is read if it is that of a moment. -/
theorem fromisoformat_date_iff (other : String → Except String Datetime) (x : IsoText) :
    (∃ t, fromisoformat other (String.ofList x.date) = .ok t) ↔
      ∃ t : Datetime, t.stamp.take 10 = x.date := by
  rw [fromisoformat_iff other x.extended_date]
  have hdate := x.fields_date []
  rw [List.append_nil] at hdate
  have hend : ∀ k, field x.date (10 + k) 2 = some 0 := by
    intro k
    rw [field, List.drop_eq_nil_of_le (by rw [x.length_date]; omega)]
    rfl
  have hstamp : ∀ t : Datetime, t.stamp.take 10 = t.iso.date := by
    intro t
    rw [t.stamp_eq, IsoText.timed, ← t.iso.length_date, List.take_left]
  rw [hdate.1, hdate.2.1, hdate.2.2, hend 1, hend 4, hend 7]
  simp only [hstamp, IsoText.date_eq_iff]
  constructor
  · rintro ⟨t, hyear, hmonth, hday, -⟩
    exact ⟨t, hyear, hmonth, hday⟩
  · rintro ⟨t, hyear, hmonth, hday⟩
    exact ⟨t.midnight, hyear, hmonth, hday, rfl, rfl, rfl⟩

end Py
