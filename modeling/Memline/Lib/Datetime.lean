/-
Moments in time and the texts ISO 8601 writes for them.

A `Datetime` is a moment in UTC by its fields, and moments are ordered by their fields
from the year down. The text of a moment to the second has a fixed width, so comparing
the texts as strings compares the seconds: that is all that programs rely on when they
sort or compare timestamps as text.
-/
import Mathlib.Algebra.Order.Ring.Nat
import Mathlib.Data.List.Lex
import Mathlib.Data.String.Basic

set_option autoImplicit false

namespace Py

/-! ## Texts of one width -/

/-- Texts of one length are compared before what follows them. -/
theorem append_lt_append {a b : List Char} (x y : List Char) (h : a < b)
    (hlength : a.length = b.length) : a ++ x < b ++ y := by
  induction h with
  | nil => cases hlength
  | rel hab => exact List.Lex.rel hab
  | cons _ ih => exact List.Lex.cons (ih (Nat.succ.inj hlength))

/-- Texts of one length decide a comparison, and what stands behind them only where they are
equal. -/
theorem append_le_append {a b x y : List Char} (h : a < b ∨ (a = b ∧ x ≤ y))
    (hlength : a.length = b.length) : a ++ x ≤ b ++ y := by
  rcases h with h | ⟨rfl, h⟩
  · exact le_of_lt (append_lt_append x y h hlength)
  · rcases h.lt_or_eq with h | rfl
    · exact le_of_lt (List.Lex.append_left _ h a)
    · exact le_rfl

/-- The last `width` decimal digits of a number. -/
def digits : ℕ → ℕ → List Char
  | 0, _ => []
  | width + 1, n => digits width (n / 10) ++ [Nat.digitChar (n % 10)]

@[simp] theorem length_digits (width n : ℕ) : (digits width n).length = width := by
  induction width generalizing n with
  | zero => rfl
  | succ width ih => rw [digits, List.length_append, ih, List.length_singleton]

theorem digitChar_lt {m n : ℕ} (h : m < n) (hn : n < 10) : Nat.digitChar m < Nat.digitChar n := by
  have hall : ∀ n < 10, ∀ m < n, Nat.digitChar m < Nat.digitChar n := by decide
  exact hall n hn m h

/-- Numbers below the width's limit are ordered as their texts: the reason for printing with leading
zeros. -/
theorem digits_lt {width m n : ℕ} (h : m < n) (hn : n < 10 ^ width) :
    digits width m < digits width n := by
  induction width generalizing m n with
  | zero => omega
  | succ width ih =>
    have hlength : (digits width (m / 10)).length = (digits width (n / 10)).length := by simp
    by_cases hdiv : m / 10 = n / 10
    · have hmod : m % 10 < n % 10 := by omega
      rw [digits, digits, hdiv]
      exact List.Lex.append_left _ (List.Lex.rel (digitChar_lt hmod (by omega))) _
    · rw [pow_succ] at hn
      exact append_lt_append _ _ (ih (by omega) (by omega)) hlength

/-! ## Moments -/

/-- How many days a month has. -/
def days_in_month (year month : ℕ) : ℕ :=
  if month = 2 then if year % 4 = 0 ∧ (year % 100 ≠ 0 ∨ year % 400 = 0) then 29 else 28
  else if month ∈ [4, 6, 9, 11] then 30 else 31

theorem days_in_month_le (year month : ℕ) : days_in_month year month ≤ 31 := by
  unfold days_in_month
  split
  · split
    · omega
    · omega
  · split
    · omega
    · omega

/-- A moment in UTC. -/
structure Datetime where
  year : ℕ
  month : ℕ
  day : ℕ
  hour : ℕ
  minute : ℕ
  second : ℕ
  microsecond : ℕ
  year_pos : 0 < year
  year_lt : year < 10000
  month_pos : 0 < month
  month_le : month ≤ 12
  day_pos : 0 < day
  day_le : day ≤ days_in_month year month
  hour_lt : hour < 24
  minute_lt : minute < 60
  second_lt : second < 60
  microsecond_lt : microsecond < 1000000
  deriving DecidableEq

namespace Datetime

/-! The fields of the first moment of a day, and of a year. -/

theorem no_hour : 0 < 24 := by omega

theorem no_minute : 0 < 60 := by omega

theorem no_microsecond : 0 < 1000000 := by omega

theorem year_2026_pos : 0 < 2026 := by omega

theorem year_2026_lt : 2026 < 10000 := by omega

theorem first_pos : 0 < 1 := by omega

theorem january_le : 1 ≤ 12 := by omega

theorem first_of_january_le : 1 ≤ days_in_month 2026 1 := by decide

/-- The fields of a moment, from the year to the second. -/
def fields (t : Datetime) : List ℕ := [t.year, t.month, t.day, t.hour, t.minute, t.second]

/-- `t` is not after `u`. -/
def le (t u : Datetime) : Prop :=
  t.fields < u.fields ∨ (t.fields = u.fields ∧ t.microsecond ≤ u.microsecond)

instance (t u : Datetime) : Decidable (t.le u) := inferInstanceAs (Decidable (_ ∨ _))

theorem le_refl (t : Datetime) : t.le t := .inr ⟨rfl, Nat.le_refl _⟩

theorem le_trans {t u v : Datetime} (h : t.le u) (h' : u.le v) : t.le v := by
  rcases h with h | ⟨h, hmicro⟩
  · rcases h' with h' | ⟨h', -⟩
    · exact .inl (h.trans h')
    · exact .inl (h' ▸ h)
  · rcases h' with h' | ⟨h', hmicro'⟩
    · exact .inl (h ▸ h')
    · exact .inr ⟨h.trans h', Nat.le_trans hmicro hmicro'⟩

/-- Two moments of which neither is after the other are one. -/
theorem le_antisymm {t u : Datetime} (h : t.le u) (h' : u.le t) : t = u := by
  have hfields : t.fields = u.fields ∧ t.microsecond = u.microsecond := by
    rcases h with h | ⟨h, hmicro⟩
    · rcases h' with h' | ⟨h', -⟩
      · exact absurd (h.trans h') (lt_irrefl _)
      · exact absurd (h' ▸ h) (lt_irrefl _)
    · rcases h' with h' | ⟨-, hmicro'⟩
      · exact absurd (h ▸ h') (lt_irrefl _)
      · exact ⟨h, by omega⟩
  obtain ⟨hfields, hmicro⟩ := hfields
  simp only [fields, List.cons.injEq, and_true] at hfields
  obtain ⟨hyear, hmonth, hday, hhour, hminute, hsecond⟩ := hfields
  cases t
  cases u
  simp only at hyear hmonth hday hhour hminute hsecond hmicro
  subst hyear hmonth hday hhour hminute hsecond hmicro
  rfl

/-- The text of a moment to the second. -/
def stamp (t : Datetime) : List Char :=
  digits 4 t.year ++ '-' :: (digits 2 t.month ++ '-' :: (digits 2 t.day ++ 'T' ::
    (digits 2 t.hour ++ ':' :: (digits 2 t.minute ++ ':' :: digits 2 t.second))))

/-- A printed moment has nineteen characters, whatever it is. -/
theorem length_stamp (t : Datetime) : t.stamp.length = 19 := by
  simp [stamp]

/-- `isoformat(timespec="seconds")`. -/
def isoformat_seconds (t : Datetime) : String := String.ofList (t.stamp ++ "+00:00".toList)

/-- `isoformat()`: microseconds only if there are any. -/
def isoformat (t : Datetime) : String :=
  String.ofList (t.stamp ++ (if t.microsecond = 0 then [] else '.' :: digits 6 t.microsecond) ++
    "+00:00".toList)

/-- A moment is never printed as the empty text, which stands for no deadline. -/
theorem isoformat_ne_empty (t : Datetime) : t.isoformat ≠ "" := by
  intro heq
  have hlength := congrArg (fun s => s.toList.length) heq
  simp [isoformat, length_stamp] at hlength

/-- One field decides, or the rest does. -/
theorem field_le {width m n : ℕ} (c : Char) {x y : List Char} (h : m < n ∨ (m = n ∧ x ≤ y))
    (hn : n < 10 ^ width) : digits width m ++ c :: x ≤ digits width n ++ c :: y := by
  refine append_le_append ?_ (by simp)
  rcases h with h | ⟨rfl, h⟩
  · exact .inl (digits_lt h hn)
  · refine .inr ⟨rfl, ?_⟩
    rcases h.lt_or_eq with h | rfl
    · exact le_of_lt (List.Lex.cons h)
    · exact le_rfl

/-- Fields are compared from the first on. -/
theorem cons_le_cons {m n : ℕ} {x y : List ℕ} (h : m :: x ≤ n :: y) : m < n ∨ (m = n ∧ x ≤ y) := by
  rcases h.lt_or_eq with h | h
  · cases h with
    | rel h => exact .inl h
    | cons h => exact .inr ⟨rfl, le_of_lt h⟩
  · obtain ⟨hhead, htail⟩ := List.cons.inj h
    exact .inr ⟨hhead, htail.le⟩

/-- Later moments have no smaller texts. -/
theorem stamp_mono {t u : Datetime} (h : t.fields ≤ u.fields) : t.stamp ≤ u.stamp := by
  have hyear := u.year_lt
  have hmonth := u.month_le
  have hday := u.day_le.trans (days_in_month_le u.year u.month)
  have hhour := u.hour_lt
  have hminute := u.minute_lt
  have hsecond := u.second_lt
  refine field_le '-' ((cons_le_cons h).imp_right fun ⟨heq, h⟩ => ⟨heq, ?_⟩) (by omega)
  refine field_le '-' ((cons_le_cons h).imp_right fun ⟨heq, h⟩ => ⟨heq, ?_⟩) (by omega)
  refine field_le 'T' ((cons_le_cons h).imp_right fun ⟨heq, h⟩ => ⟨heq, ?_⟩) (by omega)
  refine field_le ':' ((cons_le_cons h).imp_right fun ⟨heq, h⟩ => ⟨heq, ?_⟩) (by omega)
  refine field_le ':' ((cons_le_cons h).imp_right fun ⟨heq, h⟩ => ⟨heq, ?_⟩) (by omega)
  rcases cons_le_cons h with h | ⟨heq, -⟩
  · exact le_of_lt (digits_lt h (by omega))
  · rw [heq]

/-- One field decides, or the rest does: strictly. -/
theorem field_lt {width m n : ℕ} (c : Char) {x y : List Char} (h : m < n ∨ (m = n ∧ x < y))
    (hn : n < 10 ^ width) : digits width m ++ c :: x < digits width n ++ c :: y := by
  rcases h with h | ⟨rfl, h⟩
  · exact append_lt_append _ _ (digits_lt h hn) (by simp)
  · exact List.Lex.append_left _ (List.Lex.cons h) _

/-- The lexicographic order is read off the first fields. -/
theorem cons_lt_cons {m n : ℕ} {x y : List ℕ} (h : m :: x < n :: y) : m < n ∨ (m = n ∧ x < y) := by
  cases h with
  | rel h => exact .inl h
  | cons h => exact .inr ⟨rfl, h⟩

/-- Moments of different seconds have different texts, in their order. -/
theorem stamp_lt {t u : Datetime} (h : t.fields < u.fields) : t.stamp < u.stamp := by
  have hyear := u.year_lt
  have hmonth := u.month_le
  have hday := u.day_le.trans (days_in_month_le u.year u.month)
  have hhour := u.hour_lt
  have hminute := u.minute_lt
  have hsecond := u.second_lt
  refine field_lt '-' ((cons_lt_cons h).imp_right fun ⟨heq, h⟩ => ⟨heq, ?_⟩) (by omega)
  refine field_lt '-' ((cons_lt_cons h).imp_right fun ⟨heq, h⟩ => ⟨heq, ?_⟩) (by omega)
  refine field_lt 'T' ((cons_lt_cons h).imp_right fun ⟨heq, h⟩ => ⟨heq, ?_⟩) (by omega)
  refine field_lt ':' ((cons_lt_cons h).imp_right fun ⟨heq, h⟩ => ⟨heq, ?_⟩) (by omega)
  refine field_lt ':' ((cons_lt_cons h).imp_right fun ⟨heq, h⟩ => ⟨heq, ?_⟩) (by omega)
  rcases cons_lt_cons h with h | ⟨-, h⟩
  · exact digits_lt h (by omega)
  · cases h

/-- The text to the second of a later moment. -/
theorem stamp_le {t u : Datetime} (h : t.le u) : t.stamp ≤ u.stamp := by
  rcases h with h | ⟨h, -⟩
  · exact stamp_mono (le_of_lt h)
  · exact stamp_mono h.le

/-- ISO 8601 texts are in chronological order, whether or not they show microseconds. -/
theorem isoformat_le {t u : Datetime} (h : t.le u) : t.isoformat ≤ u.isoformat := by
  rw [String.le_iff_toList_le, isoformat, isoformat]
  simp only [String.toList_ofList, List.append_assoc]
  have hlength : t.stamp.length = u.stamp.length := by rw [length_stamp, length_stamp]
  refine append_le_append ?_ hlength
  rcases (stamp_le h).lt_or_eq with hlt | heq
  · exact .inl hlt
  refine .inr ⟨heq, ?_⟩
  -- within one second the microseconds decide
  have hmicro : t.microsecond ≤ u.microsecond := by
    rcases h with h | ⟨-, h⟩
    · exact absurd heq (stamp_lt h).ne
    · exact h
  by_cases ht : t.microsecond = 0
  · by_cases hu : u.microsecond = 0
    · rw [if_pos ht, if_pos hu]
    · rw [if_pos ht, if_neg hu]
      exact le_of_lt (List.Lex.rel (by decide))
  · rw [if_neg ht, if_neg (by omega : ¬ u.microsecond = 0)]
    refine append_le_append ?_ (by simp)
    rcases hmicro.lt_or_eq with hlt | heq'
    · exact .inl (List.Lex.cons (digits_lt hlt u.microsecond_lt))
    · exact .inr ⟨by rw [heq'], le_rfl⟩

end Datetime

end Py
