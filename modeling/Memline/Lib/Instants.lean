/-
Moments as numbers, and moments with a zone.

The microseconds since the start of the calendar tell which of two moments is the earlier one: they
agree with the order of the fields, and so with the order of the texts. A moment with a zone is
printed with its distance from UTC, and what is printed is read back as it was, whatever the reader
makes of texts of other shapes.
-/
import Memline.Lib.Calendar

set_option autoImplicit false

namespace Py

/-! ## Instants -/

/-- Of two dates the one that is earlier by its fields has the smaller number. -/
theorem Date.toordinal_lt {t u : Date} (ht : t.Valid) (hu : u.Valid)
    (h : t.year < u.year ∨ t.year = u.year ∧
      (t.month < u.month ∨ t.month = u.month ∧ t.day < u.day)) :
    t.toordinal < u.toordinal := by
  have hday := hu.day_pos
  rw [Date.toordinal, Date.toordinal]
  rcases h with hyear | ⟨hyear, hmonth | ⟨hmonth, hlt⟩⟩
  · -- the whole of the earlier year lies before
    have hwithin := Date.day_of_year_le ht
    have hnext := Date.days_before_year_succ ht.year_pos
    have hmono := Date.days_before_year_mono (Nat.succ_le_of_lt hyear)
    rw [Nat.succ_eq_add_one] at hmono
    omega
  · have hlast := ht.day_le
    have hnext := Date.days_before_month_succ t.year ht.month_pos
    have hmono :=
      Date.days_before_month_mono t.year (Nat.succ_pos t.month) (Nat.succ_le_of_lt hmonth)
    rw [Nat.succ_eq_add_one] at hmono
    rw [← hyear]
    omega
  · rw [← hyear, ← hmonth]
    omega

namespace Datetime

/-- The microseconds since the start of the calendar. -/
def instant (t : Datetime) : ℕ := (t.minutes * 60 + t.second) * 1000000 + t.microsecond

/-- Minutes follow the fields, the larger ones first. -/
theorem minutes_lt_of_fields {t u : Datetime}
    (h : t.date.toordinal < u.date.toordinal ∨
      t.date = u.date ∧ (t.hour < u.hour ∨ t.hour = u.hour ∧ t.minute < u.minute)) :
      t.minutes < u.minutes := by
  have hhour := t.hour_lt
  have hminute := t.minute_lt
  rw [minutes, minutes]
  rcases h with hdate | ⟨hdate, hlt⟩
  · omega
  · rw [hdate]
    omega

/-- The first field in which two moments differ decides. -/
theorem instant_lt_of_fields {t u : Datetime} (h : t.fields < u.fields) :
    t.instant < u.instant := by
  have hsecond := t.second_lt
  have hmicro := t.microsecond_lt
  -- the date decides; on one day the time does
  have hdates : (t.year < u.year ∨ t.year = u.year ∧
      (t.month < u.month ∨ t.month = u.month ∧ t.day < u.day)) →
      t.instant < u.instant := by
    intro hlt
    have hminutes := minutes_lt_of_fields (.inl (Date.toordinal_lt t.date_valid u.date_valid hlt))
    rw [instant, instant]
    omega
  have htimes : t.date = u.date ∧ (t.hour < u.hour ∨ t.hour = u.hour ∧ t.minute < u.minute) →
      t.instant < u.instant := by
    intro hlt
    have hminutes := minutes_lt_of_fields (.inr hlt)
    rw [instant, instant]
    omega
  rcases cons_lt_cons h with hyear | ⟨hyear, h⟩
  · exact hdates (.inl hyear)
  rcases cons_lt_cons h with hmonth | ⟨hmonth, h⟩
  · exact hdates (.inr ⟨hyear, .inl hmonth⟩)
  rcases cons_lt_cons h with hday | ⟨hday, h⟩
  · exact hdates (.inr ⟨hyear, .inr ⟨hmonth, hday⟩⟩)
  have hdate : t.date = u.date := by rw [date, date, hyear, hmonth, hday]
  rcases cons_lt_cons h with hhour | ⟨hhour, h⟩
  · exact htimes ⟨hdate, .inl hhour⟩
  rcases cons_lt_cons h with hminute | ⟨hminute, h⟩
  · exact htimes ⟨hdate, .inr ⟨hhour, hminute⟩⟩
  rcases cons_lt_cons h with hlt | ⟨-, h⟩
  · have hminutes : t.minutes = u.minutes := by rw [minutes, minutes, hdate, hhour, hminute]
    rw [instant, instant, hminutes]
    omega
  · cases h

/-- The seconds of moments with the same fields are the same. -/
theorem instant_of_fields {t u : Datetime} (h : t.fields = u.fields) :
    t.instant + u.microsecond = u.instant + t.microsecond := by
  simp only [fields, List.cons.injEq, and_true] at h
  obtain ⟨hyear, hmonth, hday, hhour, hminute, hsecond⟩ := h
  have hdate : t.date = u.date := by rw [date, date, hyear, hmonth, hday]
  rw [instant, instant, minutes, minutes, hdate, hhour, hminute, hsecond]
  omega

theorem le_total (t u : Datetime) : t.le u ∨ u.le t := by
  rcases lt_trichotomy t.fields u.fields with h | h | h
  · exact .inl (.inl h)
  · rcases Nat.le_total t.microsecond u.microsecond with hle | hle
    · exact .inl (.inr ⟨h, hle⟩)
    · exact .inr (.inr ⟨h.symm, hle⟩)
  · exact .inr (.inl h)

/-- Moments are in the order of their instants. -/
theorem le_iff_instant {t u : Datetime} : t.le u ↔ t.instant ≤ u.instant := by
  have hmono : ∀ {t u : Datetime}, t.le u → t.instant ≤ u.instant := by
    intro t u h
    rcases h with h | ⟨h, hmicro⟩
    · exact le_of_lt (instant_lt_of_fields h)
    · have heq := instant_of_fields h
      omega
  refine ⟨hmono, fun h => ?_⟩
  rcases le_total t u with hle | hle
  · exact hle
  · have hback := hmono hle
    rcases hle with hlt | ⟨hfields, hmicro⟩
    · have hstrict := instant_lt_of_fields hlt
      omega
    · have heq := instant_of_fields hfields
      exact .inr ⟨hfields.symm, by omega⟩

/-- One text, one moment. -/
theorem isoformat_inj {t u : Datetime} (h : t.isoformat = u.isoformat) : t = u := by
  have hmain : ∀ {t u : Datetime}, t.isoformat = u.isoformat → t.le u → t = u := by
    intro t u h hle
    rcases hle with hlt | ⟨hfields, hmicro⟩
    · -- the stamps would differ, and they are of one length
      have hlist := String.ofList_injective h
      rw [List.append_assoc, List.append_assoc] at hlist
      have hstamp := (List.append_inj hlist (by rw [length_stamp, length_stamp])).1
      exact absurd hstamp (stamp_lt hlt).ne
    · refine le_antisymm (.inr ⟨hfields, hmicro⟩) (.inr ⟨hfields.symm, ?_⟩)
      by_contra hlt
      have hne : u.microsecond ≠ 0 := by omega
      have hlist := String.ofList_injective h
      have hstamp : t.stamp = u.stamp := by
        rw [List.append_assoc, List.append_assoc] at hlist
        exact (List.append_inj hlist (by rw [length_stamp, length_stamp])).1
      rw [hstamp, if_neg hne, List.append_assoc, List.append_assoc,
        List.append_cancel_left_eq] at hlist
      by_cases ht : t.microsecond = 0
      · rw [if_pos ht] at hlist
        exact absurd (List.cons.inj hlist).1 (by decide)
      · rw [if_neg ht] at hlist
        have hdigits := (List.append_inj (List.cons.inj hlist).2 (by simp)).1
        exact absurd hdigits (digits_lt (by omega) u.microsecond_lt).ne
  rcases le_total t u with hle | hle
  · exact hmain h hle
  · exact (hmain h.symm hle).symm

/-- **Texts in time.** Of two moments the texts are in the order of the instants. -/
theorem isoformat_le_iff {t u : Datetime} : t.isoformat ≤ u.isoformat ↔ t.instant ≤ u.instant := by
  rw [← le_iff_instant]
  refine ⟨fun h => ?_, isoformat_le⟩
  rcases le_total t u with hle | hle
  · exact hle
  · rw [isoformat_inj (h.antisymm (isoformat_le hle))]
    exact le_refl u

/-- Printed moments of one zone are ordered as the moments are. -/
theorem isoformat_lt_iff {t u : Datetime} : t.isoformat < u.isoformat ↔ t.instant < u.instant := by
  rw [← not_le, isoformat_le_iff, not_le]

end Datetime

/-! ## Zones -/

/-- How far a zone is from UTC: less than a day, and not below zero by nothing. -/
structure Offset where
  negative : Bool
  hour : ℕ
  minute : ℕ
  second : ℕ
  microsecond : ℕ
  hour_lt : hour < 24
  minute_lt : minute < 60
  second_lt : second < 60
  microsecond_lt : microsecond < 1000000
  signed : negative = true → hour ≠ 0 ∨ minute ≠ 0 ∨ second ≠ 0 ∨ microsecond ≠ 0

namespace Offset

/-- The fields of an offset. -/
def fields (o : Offset) : Bool × ℕ × ℕ × ℕ × ℕ :=
  (o.negative, o.hour, o.minute, o.second, o.microsecond)

theorem fields_eq_iff (o o' : Offset) : o.fields = o'.fields ↔ o = o' := by
  cases o
  cases o'
  simp [fields]

instance : DecidableEq Offset := fun o o' => decidable_of_iff _ (fields_eq_iff o o')

/-- The microseconds by which the clocks of the zone are ahead. -/
def ahead (o : Offset) : ℤ :=
  let size : ℤ := ((o.hour * 60 + o.minute) * 60 + o.second) * 1000000 + o.microsecond
  if o.negative then -size else size

/-- `+hh:mm`, with seconds and microseconds only if there are any. -/
def text (o : Offset) : List Char :=
  (if o.negative then '-' else '+') :: (digits 2 o.hour ++ ':' :: (digits 2 o.minute ++
    if o.second = 0 ∧ o.microsecond = 0 then []
    else ':' :: (digits 2 o.second ++ if o.microsecond = 0 then []
      else '.' :: digits 6 o.microsecond)))

/-- The zone of a sign and some fields, if they are in their ranges. -/
def of (negative : Bool) (hour minute second microsecond : ℕ) : Option Offset :=
  if h : hour < 24 ∧ minute < 60 ∧ second < 60 ∧ microsecond < 1000000 then
    some {
      negative := negative && decide (hour ≠ 0 ∨ minute ≠ 0 ∨ second ≠ 0 ∨ microsecond ≠ 0)
      hour := hour
      minute := minute
      second := second
      microsecond := microsecond
      hour_lt := h.1
      minute_lt := h.2.1
      second_lt := h.2.2.1
      microsecond_lt := h.2.2.2
      signed := by simp }
  else none

theorem of_fields (o : Offset) : of o.negative o.hour o.minute o.second o.microsecond = some o := by
  rw [of, dif_pos ⟨o.hour_lt, o.minute_lt, o.second_lt, o.microsecond_lt⟩]
  have hsigned := o.signed
  cases hneg : o.negative with
  | false =>
    cases o
    simp_all
  | true =>
    have hsome := decide_eq_true (hsigned hneg)
    cases o
    simp_all

end Offset

/-- A moment on the clocks of a zone, or of no zone. -/
structure Zoned where
  clock : Datetime
  zone : Option Offset

namespace Zoned

/-- The microseconds since the start of the calendar in UTC, of a moment on the clocks of a zone. -/
def instant (clock : Datetime) (zone : Offset) : ℤ := clock.instant - zone.ahead

/-- What is printed of a time behind its seconds. -/
def fraction (microsecond : ℕ) : List Char :=
  if microsecond = 0 then [] else '.' :: digits 6 microsecond

/-- `isoformat()`. -/
def isoformat (t : Zoned) : String :=
  String.ofList (t.clock.stamp ++
    (fraction t.clock.microsecond ++ (t.zone.map Offset.text).getD []))

/-! ### Reading -/

/-- The zone at the end of a text. -/
def zone_of : List Char → Option Offset
  | [] => none
  | sign :: rest =>
    if sign ≠ '+' ∧ sign ≠ '-' then none
    else if rest[2]? ≠ some ':' then none
    -- hours and minutes, and seconds and their fraction if they are there
    else if ¬ (rest.length = 5 ∨ rest.length = 8 ∧ rest[5]? = some ':' ∨
        rest.length = 15 ∧ rest[5]? = some ':' ∧ rest[8]? = some '.') then none
    else
      match field rest 0 2, field rest 3 2, field rest 6 2, field rest 9 6 with
      | some hour, some minute, some second, some microsecond =>
        Offset.of (decide (sign = '-')) hour minute second microsecond
      | _, _, _, _ => none

/-- The microseconds and the zone behind the seconds of a text. -/
def tail_of (cs : List Char) : Option (ℕ × Offset) :=
  if cs.head? = some '.' then
    if (cs.drop 1).length < 6 then none
    else (field cs 1 6).bind fun microsecond => (zone_of (cs.drop 7)).map fun o => (microsecond, o)
  else (zone_of cs).map fun o => (0, o)

/-- The moment with so many microseconds in its second. -/
def replace_microsecond (t : Datetime) (n : ℕ) (h : n < 1000000) : Datetime :=
  { t with microsecond := n, microsecond_lt := h }

def invalid {α : Type} (s : String) : Except String α :=
  .error ("Invalid isoformat string: '" ++ s ++ "'")

/-- `datetime.fromisoformat(s)`: what it makes of the extended format, and of that with a zone
behind it, is written out here. -/
def fromisoformat (other : String → Except String Zoned) (s : String) : Except String Zoned :=
  let cs := s.toList
  if extended cs then (Py.fromisoformat invalid s).map fun t => ⟨t, none⟩
  else if extended (cs.take 19) then
    match tail_of (cs.drop 19) with
    | none => other s
    | some (microsecond, o) =>
      if h : microsecond < 1000000 then
        (Py.fromisoformat invalid (String.ofList (cs.take 19))).map fun t =>
          ⟨replace_microsecond t microsecond h, some o⟩
      else other s
  else other s

/-- A numeral at the start of a text is read there. -/
theorem field_here {cs rest : List Char} {width n : ℕ} (hlength : cs.length = width)
    (h : number cs = some n) : field (cs ++ rest) 0 width = some n := by
  rw [field, List.drop_zero, ← hlength, List.take_left, h]

theorem field_behind (before cs : List Char) (start width : ℕ) :
    field (before ++ cs) (before.length + start) width = field cs start width := by
  rw [field, field, List.drop_length_add_append]

/-- The text of a zone is read as that zone. -/
theorem zone_of_text (o : Offset) : zone_of o.text = some o := by
  have hhour := @number_digits 2 o.hour (by have := o.hour_lt; omega)
  have hminute := @number_digits 2 o.minute (by have := o.minute_lt; omega)
  have hsecond := @number_digits 2 o.second (by have := o.second_lt; omega)
  have hmicro := @number_digits 6 o.microsecond o.microsecond_lt
  have hof := o.of_fields
  have hsign : decide ((if o.negative = true then '-' else '+') = '-') = o.negative := by
    cases o.negative <;> decide
  have hsign' : ¬ ((if o.negative = true then '-' else '+') ≠ '+' ∧
      (if o.negative = true then '-' else '+') ≠ '-') := by
    cases o.negative <;> decide
  obtain ⟨h₁, h₂, hh⟩ := List.length_eq_two.mp (length_digits 2 o.hour)
  obtain ⟨m₁, m₂, hm⟩ := List.length_eq_two.mp (length_digits 2 o.minute)
  obtain ⟨s₁, s₂, hs⟩ := List.length_eq_two.mp (length_digits 2 o.second)
  rw [hh] at hhour
  rw [hm] at hminute
  rw [hs] at hsecond
  have hzero : number [] = some 0 := rfl
  rw [Offset.text, hh, hm, hs]
  generalize (if o.negative = true then '-' else '+') = sign at hsign hsign' ⊢
  by_cases hus : o.microsecond = 0
  · by_cases hss : o.second = 0
    · rw [if_pos ⟨hss, hus⟩]
      rw [hss, hus] at hof
      simp [zone_of, hsign', field, hhour, hminute, hzero, hsign, hof]
    · rw [if_neg (fun h => hss h.1), if_pos hus]
      rw [hus] at hof
      simp [zone_of, hsign', field, hhour, hminute, hsecond, hzero, hsign, hof]
  · rw [if_neg (fun h => hus h.2), if_neg hus]
    have htake : (digits 6 o.microsecond).take 6 = digits 6 o.microsecond := by
      rw [List.take_of_length_le (by simp)]
    simp [zone_of, hsign', field, hhour, hminute, hsecond, htake, hmicro, hsign, hof]

/-- The fraction and the offset that were printed are read back from the end of a text. -/
theorem tail_of_text (microsecond : ℕ) (h : microsecond < 1000000) (o : Offset) :
    tail_of (fraction microsecond ++ o.text) = some (microsecond, o) := by
  rw [fraction]
  by_cases hzero : microsecond = 0
  · have hhead : (([] : List Char) ++ o.text).head? ≠ some '.' := by
      rw [Offset.text, List.nil_append, List.head?_cons]
      cases o.negative <;> decide
    rw [if_pos hzero, tail_of, if_neg hhead, List.nil_append, zone_of_text, hzero]
    rfl
  · have hnumber := @number_digits 6 _ h
    have hlength := length_digits 6 microsecond
    have hfield : field ('.' :: digits 6 microsecond ++ o.text) 1 6 = some microsecond :=
      (field_behind ['.'] (digits 6 microsecond ++ o.text) 0 6).trans (field_here hlength hnumber)
    have hdrop : ('.' :: digits 6 microsecond ++ o.text).drop 7 = o.text := by
      rw [List.cons_append, List.drop_succ_cons]
      exact List.drop_left' hlength
    have hlong : ¬ (('.' :: digits 6 microsecond ++ o.text).drop 1).length < 6 := by
      rw [List.cons_append, List.drop_succ_cons, List.drop_zero, List.length_append, hlength]
      omega
    rw [if_neg hzero, tail_of, if_pos (by rfl), if_neg hlong, hfield, hdrop, zone_of_text]
    rfl

/-- The stamp of a moment is read as its fields. -/
theorem fromisoformat_stamp (t : Datetime) :
    Py.fromisoformat invalid (String.ofList t.stamp) =
      .ok (replace_microsecond t 0 Datetime.no_microsecond) := by
  have hmonth := t.month_le
  have hday := t.day_le.trans (days_in_month_le t.year t.month)
  have hhour := t.hour_lt
  have hminute := t.minute_lt
  have hsecond := t.second_lt
  have hdate :=
    t.iso.fields_date ('T' ::
      (digits 2 t.hour ++ ':' :: (digits 2 t.minute ++ ':' :: digits 2 t.second)))
  have htime := t.iso.fields_timed (length_digits 2 t.hour) (length_digits 2 t.minute)
    (length_digits 2 t.second)
  rw [← IsoText.timed] at hdate
  have hextended := t.iso.extended_timed (length_digits 2 t.hour) (length_digits 2 t.minute)
    (length_digits 2 t.second)
  rw [Py.fromisoformat, t.stamp_eq]
  simp only [String.toList_ofList, hextended, if_true, hdate, htime]
  have hyear' : number t.iso.year = some t.year := number_digits t.year_lt
  have hmonth' : number t.iso.month = some t.month := number_digits (by omega)
  have hday' : number t.iso.day = some t.day := number_digits (by omega)
  rw [hyear', hmonth', hday', number_digits (by omega), number_digits (by omega),
    number_digits (by omega)]
  simp only
  rw [Datetime.of, dif_pos ⟨t.year_pos, t.year_lt⟩, dif_pos ⟨t.month_pos, t.month_le⟩,
    dif_pos ⟨t.day_pos, t.day_le⟩, dif_pos t.hour_lt, dif_pos t.minute_lt, dif_pos t.second_lt]
  rfl

theorem length_text (o : Offset) : 6 ≤ o.text.length := by
  rw [Offset.text]
  simp
  omega

/-- A text of more than nineteen characters goes through the reader of fractions and offsets. -/
theorem not_extended_of_long {cs : List Char} (h : 19 < cs.length) : extended cs = false := by
  have hten : decide (cs.length = 10) = false := by simpa using by omega
  have hnineteen : decide (cs.length = 19) = false := by simpa using by omega
  rw [extended, hten, hnineteen]
  simp

/-- **A printed moment is read back.** -/
theorem fromisoformat_isoformat (other : String → Except String Zoned) (t : Datetime) (o : Offset) :
    fromisoformat other (isoformat ⟨t, some o⟩) = .ok ⟨t, some o⟩ := by
  have hlength := t.length_stamp
  have htext := length_text o
  have htake : (t.stamp ++ (fraction t.microsecond ++ o.text)).take 19 = t.stamp := by
    rw [← hlength, List.take_left]
  have hdrop : (t.stamp ++ (fraction t.microsecond ++ o.text)).drop 19 =
      fraction t.microsecond ++ o.text := by
    rw [← hlength, List.drop_left]
  have hlong : extended (t.stamp ++ (fraction t.microsecond ++ o.text)) = false := by
    apply not_extended_of_long
    rw [List.length_append, List.length_append, hlength]
    omega
  have hstamp : extended t.stamp = true := by
    rw [t.stamp_eq]
    exact t.iso.extended_timed (length_digits 2 t.hour) (length_digits 2 t.minute)
      (length_digits 2 t.second)
  rw [fromisoformat, isoformat]
  simp only [Option.map_some, Option.getD_some, String.toList_ofList, hlong, htake, hdrop,
    hstamp, if_true, tail_of_text _ t.microsecond_lt, t.microsecond_lt, dif_pos,
    fromisoformat_stamp]
  rfl

/-! ### Dates without a time -/

/-- The first moment of the day. -/
def at_midnight (cs : List Char) : List Char := cs ++ "T00:00:00".toList

/-- A date becomes a moment of the extended format when its midnight is written out. -/
theorem extended_at_midnight {cs : List Char} (h : extended cs = true) (hlength : cs.length = 10) :
    extended (at_midnight cs) = true := by
  have hget : ∀ k < 10, (at_midnight cs)[k]? = cs[k]? := by
    intro k hk
    rw [at_midnight, List.getElem?_append_left (by omega)]
  have hbehind : ∀ k, (at_midnight cs)[10 + k]? = "T00:00:00".toList[k]? := by
    intro k
    rw [at_midnight, List.getElem?_append_right (by omega), hlength, Nat.add_sub_cancel_left]
  have hlong : (at_midnight cs).length = 19 := by
    rw [at_midnight, List.length_append, hlength]
    rfl
  have hT := hbehind 0
  have hhour := hbehind 3
  have hminute := hbehind 6
  rw [extended, Bool.and_eq_true] at h
  rw [extended, hget 4 (by omega), hget 7 (by omega), hT, hhour, hminute, hlong, h.1]
  decide

/-- A date is read as its midnight. -/
theorem fromisoformat_at_midnight {cs : List Char} (h : extended cs = true)
    (hlength : cs.length = 10) (t : Datetime) :
    Py.fromisoformat invalid (String.ofList (at_midnight cs)) = .ok t ↔
      Py.fromisoformat invalid (String.ofList cs) = .ok t := by
  have hfirst : ∀ start width, start + width ≤ 10 →
      field (at_midnight cs) start width = field cs start width := by
    intro start width hle
    rw [field, field, at_midnight, List.drop_append_of_le_length (by omega),
      List.take_append_of_le_length (by rw [List.length_drop]; omega)]
  have hlater : ∀ k, field (at_midnight cs) (10 + k) 2 = field "T00:00:00".toList k 2 := by
    intro k
    rw [at_midnight, ← hlength, field_behind]
  have hend : ∀ k, field cs (10 + k) 2 = some 0 := by
    intro k
    rw [field, List.drop_eq_nil_of_le (by omega)]
    rfl
  have hhour := (hlater 1).trans (by decide : field "T00:00:00".toList 1 2 = some 0)
  have hminute := (hlater 4).trans (by decide : field "T00:00:00".toList 4 2 = some 0)
  have hsecond := (hlater 7).trans (by decide : field "T00:00:00".toList 7 2 = some 0)
  rw [Py.fromisoformat, Py.fromisoformat]
  simp only [String.toList_ofList, extended_at_midnight h hlength, h, if_true,
    hfirst 0 4 (by omega), hfirst 5 2 (by omega), hfirst 8 2 (by omega), hhour, hminute, hsecond,
    hend 1, hend 4, hend 7]
  split
  · exact Iff.rfl
  · exact iff_of_false (fun h => by cases h) (fun h => by cases h)

theorem map_eq_ok {α β : Type} {f : α → β} {x : Except String α} {b : β} :
    x.map f = .ok b ↔ ∃ a, x = .ok a ∧ b = f a := by
  cases x with
  | error e => exact iff_of_false nofun nofun
  | ok a =>
    rw [Except.map, Except.ok.injEq]
    constructor
    · intro h
      exact ⟨a, rfl, h.symm⟩
    · rintro ⟨a', ha, rfl⟩
      rw [Except.ok.inj ha]

/-- A date with a midnight and a zone behind it. -/
theorem fromisoformat_zoned_date (other : String → Except String Zoned) {cs : List Char}
    (h : extended cs = true) (hlength : cs.length = 10) (o : Offset) (z : Zoned) :
    fromisoformat other (String.ofList (at_midnight cs ++ o.text)) = .ok z ↔
      ∃ t, Py.fromisoformat invalid (String.ofList cs) = .ok t ∧
        z = ⟨replace_microsecond t 0 Datetime.no_microsecond, some o⟩ := by
  have hlong : (at_midnight cs).length = 19 := by
    rw [at_midnight, List.length_append, hlength]
    rfl
  have htext := length_text o
  have hwhole : extended (at_midnight cs ++ o.text) = false := by
    apply not_extended_of_long
    rw [List.length_append]
    omega
  have htake : (at_midnight cs ++ o.text).take 19 = at_midnight cs := List.take_left' hlong
  have hdrop : (at_midnight cs ++ o.text).drop 19 = fraction 0 ++ o.text := List.drop_left' hlong
  rw [fromisoformat]
  simp only [String.toList_ofList, hwhole, Bool.false_eq_true, if_false, htake, hdrop,
    extended_at_midnight h hlength, if_true, tail_of_text 0 (by omega)]
  rw [dif_pos (by omega), map_eq_ok]
  exact exists_congr fun t => and_congr_left' (fromisoformat_at_midnight h hlength t)

/-- A date, alone or with a midnight behind it, is in no zone. -/
theorem fromisoformat_naive (other : String → Except String Zoned) {cs : List Char}
    (h : extended cs = true) (z : Zoned) :
    fromisoformat other (String.ofList cs) = .ok z ↔
      ∃ t, Py.fromisoformat invalid (String.ofList cs) = .ok t ∧ z = ⟨t, none⟩ := by
  rw [fromisoformat]
  simp only [String.toList_ofList, h, if_true]
  exact map_eq_ok

/-- The microseconds that are not written are none. -/
theorem microsecond_of_extended {cs : List Char} {t : Datetime} (h : extended cs = true)
    (ht : Py.fromisoformat invalid (String.ofList cs) = .ok t) : t.microsecond = 0 := by
  rw [Py.fromisoformat] at ht
  simp only [String.toList_ofList, h, if_true] at ht
  split at ht
  · rename_i year month day hour minute second _ _ _ _ _ _
    unfold Datetime.of at ht
    repeat' split at ht
    all_goals cases ht
    rfl
  · cases ht

end Zoned

end Py
