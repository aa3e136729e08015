/-
Timestamps as the command line takes them.

A timestamp without a zone is one of the configured zone, unless it is a bare date, which is put at
a midnight of its own, eight hours ahead of UTC. What comes of a timestamp is printed in full, and
so is taken as it is the next time.
-/
import Memline.Lib.Instants
import Memline.Payload
import Memline.Text

set_option autoImplicit false

namespace Memline.cli

open Py

/-- What `datetime.fromisoformat` makes of texts in other formats than the extended one. -/
abbrev OtherFormats : Type := String → Except String Zoned

/-- `+00:00` for the letter at the end. -/
def utc_written_out (raw : String) : String :=
  if raw.toList.getLast? = some 'Z' then String.ofList (raw.toList.dropLast ++ "+00:00".toList)
  else raw

/-- A date and nothing else, by its length and its dashes. -/
def is_bare_date (raw : String) : Bool :=
  decide (raw.toList.length = 10 ∧ raw.toList[4]? = some '-' ∧ raw.toList[7]? = some '-')

variable (other : OtherFormats) (LOCAL_TZ : Offset)

/-- `normalize_timestamp(value)`; `LOCAL_TZ` is a fixed distance from UTC, configured or the
system's. -/
def normalize_timestamp (value : Option String) : Except Exn (Option String) :=
  match value with
  | none => .ok none
  | some value =>
    let raw := Mem0.strip value
    if value = "" ∨ raw = "" then .ok none
    else
      let raw := utc_written_out raw
      -- a date gets a zone that is written out here, not the configured one
      let raw := if is_bare_date raw then raw ++ "T00:00:00+08:00" else raw
      match Zoned.fromisoformat other raw with
      | .error _ => .error (.click_exception ("Timestamp must be ISO-8601, got: " ++ value))
      -- a time without a zone gets the configured one
      | .ok parsed =>
        .ok (some (Zoned.isoformat { parsed with zone := some (parsed.zone.getD LOCAL_TZ) }))

/-- The moment that an input without a zone shows on the clocks. -/
def zoneless (value : String) : Option Datetime :=
  let raw := Mem0.strip value
  if raw = "" ∨ raw.toList.getLast? = some 'Z' then none
  else
    match Zoned.fromisoformat other raw with
    | .ok ⟨clock, none⟩ => some clock
    | _ => none

/-- Eight hours ahead of UTC. -/
def EAST_8 : Offset where
  negative := false
  hour := 8
  minute := 0
  second := 0
  microsecond := 0
  hour_lt := by omega
  minute_lt := Datetime.no_minute
  second_lt := Datetime.no_minute
  microsecond_lt := Datetime.no_microsecond
  signed := nofun

/-- A printed moment with a zone, and the instant it stands for. -/
def Denotes (out : String) (instant : ℤ) : Prop :=
  ∃ clock zone, out = Zoned.isoformat ⟨clock, some zone⟩ ∧ instant = Zoned.instant clock zone

/-- A bare date, which has no letter for a zone either. -/
def BareDate (value : String) : Prop :=
  is_bare_date (Mem0.strip value) = true ∧ (Mem0.strip value).toList.getLast? ≠ some 'Z'

variable {other LOCAL_TZ}

theorem toList_EAST_8 : EAST_8.text = "+08:00".toList := by decide

/-! ## What is printed -/

theorem digit_not_blank {c : Char} (h : c.isDigit = true) : Mem0.isspace c = false ∧ c ≠ 'Z' := by
  obtain ⟨hzero, hnine⟩ := Char.isDigit_iff_toNat.mp h
  have hz : '0'.toNat = 48 := rfl
  have hn : '9'.toNat = 57 := rfl
  rw [hz] at hzero
  rw [hn] at hnine
  refine ⟨?_, ?_⟩
  · rw [Mem0.isspace, ← Bool.not_eq_true]
    simp only [Bool.or_eq_true, Bool.and_eq_true, decide_eq_true_eq]
    omega
  · rintro rfl
    exact absurd hnine (by decide)

/-- The text of a zone ends in a digit. -/
theorem text_ends (o : Offset) : ∃ front width n, o.text = front ++ digits (width + 1) n := by
  rw [Offset.text]
  generalize (if o.negative = true then '-' else '+') = sign
  by_cases hsecond : o.second = 0 ∧ o.microsecond = 0
  · rw [if_pos hsecond, List.append_nil]
    exact ⟨sign :: (digits 2 o.hour ++ [':']), 1, o.minute, by simp⟩
  · rw [if_neg hsecond]
    by_cases hmicro : o.microsecond = 0
    · rw [if_pos hmicro, List.append_nil]
      exact ⟨sign :: (digits 2 o.hour ++ ':' :: (digits 2 o.minute ++ [':'])), 1, o.second, by simp⟩
    · rw [if_neg hmicro]
      exact ⟨sign :: (digits 2 o.hour ++ ':' ::
        (digits 2 o.minute ++ ':' :: (digits 2 o.second ++ ['.']))), 5, o.microsecond, by simp⟩

theorem last_of_digits (front : List Char) (width n : ℕ) :
    ∃ c, (front ++ digits (width + 1) n).getLast? = some c ∧ c.isDigit = true := by
  refine ⟨Nat.digitChar (n % 10), by rw [digits]; simp, ?_⟩
  exact @isDigit_of_mem_digits (width + 1) n _ (by rw [digits]; simp)

/-- What is printed starts and ends in a digit, and is longer than a date. -/
theorem printed_ends (clock : Datetime) (zone : Offset) :
    (∃ c, (Zoned.isoformat ⟨clock, some zone⟩).toList.getLast? = some c ∧ c.isDigit = true) ∧
      Mem0.Stripped (Zoned.isoformat ⟨clock, some zone⟩).toList ∧
      10 < (Zoned.isoformat ⟨clock, some zone⟩).toList.length := by
  obtain ⟨front, width, n, htext⟩ := text_ends zone
  have hlist : (Zoned.isoformat ⟨clock, some zone⟩).toList
      = (clock.stamp ++ (Zoned.fraction clock.microsecond ++ front)) ++ digits (width + 1) n := by
    rw [Zoned.isoformat, String.toList_ofList]
    simp only [Option.map_some, Option.getD_some, htext, List.append_assoc]
  obtain ⟨c, hlast, hc⟩ :=
    last_of_digits (clock.stamp ++ (Zoned.fraction clock.microsecond ++ front)) width n
  have hhead : ∃ d rest, clock.stamp = d :: rest ∧ d.isDigit = true := by
    obtain ⟨d, rest, hd⟩ := List.exists_cons_of_length_pos (l := digits 4 clock.year) (by simp)
    refine ⟨d, _, by rw [Datetime.stamp, hd, List.cons_append], ?_⟩
    exact @isDigit_of_mem_digits 4 clock.year _ (by rw [hd]; simp)
  obtain ⟨d, rest, hstamp, hd⟩ := hhead
  have hlong := clock.length_stamp
  rw [hlist]
  refine ⟨⟨c, hlast, hc⟩, ⟨?_, ?_⟩, ?_⟩
  · intro e he
    rw [hstamp] at he
    cases Option.mem_some_iff.mp he
    exact (digit_not_blank hd).1
  · intro e he
    rw [hlast] at he
    cases Option.mem_some_iff.mp he
    exact (digit_not_blank hc).1
  · simp only [List.length_append]
    omega

theorem strip_of_stripped_text {s : String} (h : Mem0.Stripped s.toList) : Mem0.strip s = s := by
  have hnil : Mem0.Blank [] := nofun
  have hstrip := Mem0.strip_of_stripped h hnil hnil
  rwa [List.nil_append, List.append_nil, String.ofList_toList] at hstrip

/-- A printed moment is taken as it is. -/
theorem normalize_printed (clock : Datetime) (zone : Offset) :
    normalize_timestamp other LOCAL_TZ (some (Zoned.isoformat ⟨clock, some zone⟩))
      = .ok (some (Zoned.isoformat ⟨clock, some zone⟩)) := by
  obtain ⟨⟨c, hlast, hc⟩, hstripped, hlong⟩ := printed_ends clock zone
  have hread := Zoned.fromisoformat_isoformat other clock zone
  have hstrip := strip_of_stripped_text hstripped
  have hutc : utc_written_out (Zoned.isoformat ⟨clock, some zone⟩) =
      Zoned.isoformat ⟨clock, some zone⟩ := by
    rw [utc_written_out, if_neg]
    rw [hlast, Option.some.injEq]
    exact (digit_not_blank hc).2
  have hdate : is_bare_date (Zoned.isoformat ⟨clock, some zone⟩) = false := by
    rw [is_bare_date, decide_eq_false_iff_not]
    omega
  have hne : Zoned.isoformat ⟨clock, some zone⟩ ≠ "" := by
    intro hempty
    rw [hempty] at hlong
    cases hlong
  rw [normalize_timestamp]
  simp only [hstrip, hne, or_self, if_false, hutc, hdate, Bool.false_eq_true, hread,
    Option.getD_some]

/-- Whatever is accepted is printed. -/
theorem printed_of_normalize {value out : String}
    (h : normalize_timestamp other LOCAL_TZ (some value) = .ok (some out)) :
    ∃ clock zone, out = Zoned.isoformat ⟨clock, some zone⟩ := by
  rw [normalize_timestamp] at h
  dsimp only at h
  split at h
  · cases h
  · split at h
    · cases h
    · rename_i parsed _
      cases h
      exact ⟨parsed.clock, parsed.zone.getD LOCAL_TZ, rfl⟩

/-! ## The instant -/

/-- A text stands for one instant. -/
theorem Denotes.eq {out : String} {n m : ℤ} (h : Denotes out n) (h' : Denotes out m) : n = m := by
  obtain ⟨clock, zone, hout, rfl⟩ := h
  obtain ⟨clock', zone', hout', rfl⟩ := h'
  have hread := Zoned.fromisoformat_isoformat Zoned.invalid clock zone
  rw [← hout, hout', Zoned.fromisoformat_isoformat, Except.ok.injEq, Zoned.mk.injEq,
    Option.some.injEq] at hread
  rw [hread.1, hread.2]

/-- A printed moment tells its clock and its zone. -/
theorem isoformat_inj {clock clock' : Datetime} {zone zone' : Offset}
    (h : Zoned.isoformat ⟨clock, some zone⟩ = Zoned.isoformat ⟨clock', some zone'⟩) :
    clock = clock' ∧ zone = zone' := by
  have hread := Zoned.fromisoformat_isoformat Zoned.invalid clock zone
  rw [h, Zoned.fromisoformat_isoformat, Except.ok.injEq, Zoned.mk.injEq, Option.some.injEq] at hread
  exact ⟨hread.1.symm, hread.2.symm⟩

/-! ## Inputs without a zone -/

/-- A text without a zone: it is not empty, has no `Z` at its end, and is read as a clock alone. -/
theorem zoneless_iff {value : String} {t : Datetime} : zoneless other value = some t ↔
    Mem0.strip value ≠ "" ∧ (Mem0.strip value).toList.getLast? ≠ some 'Z' ∧
      Zoned.fromisoformat other (Mem0.strip value) = .ok ⟨t, none⟩ := by
  rw [zoneless]
  by_cases hraw : Mem0.strip value = "" ∨ (Mem0.strip value).toList.getLast? = some 'Z'
  · simp only [hraw, if_true]
    refine iff_of_false nofun ?_
    rintro ⟨hne, hlast, -⟩
    exact hraw.elim hne hlast
  · simp only [hraw, if_false]
    rw [not_or] at hraw
    cases hread : Zoned.fromisoformat other (Mem0.strip value) with
    | error e => exact iff_of_false nofun fun h => nomatch h.2.2
    | ok z =>
      obtain ⟨clock, zone⟩ := z
      cases zone with
      | some o => exact iff_of_false nofun fun h => nomatch h.2.2
      | none =>
        simp only [Option.some.injEq, Except.ok.injEq, Zoned.mk.injEq, and_true]
        exact ⟨fun h => ⟨hraw.1, hraw.2, h⟩, fun h => h.2.2⟩

/-- A bare date is a date in the extended format. -/
theorem extended_of_bare {raw : String} (h : is_bare_date raw = true) :
    extended raw.toList = true ∧ raw.toList.length = 10 := by
  obtain ⟨hlength, hfirst, hsecond⟩ := of_decide_eq_true h
  refine ⟨?_, hlength⟩
  rw [extended, hfirst, hsecond, hlength]
  rfl

/-- A bare date as `datetime.fromisoformat` reads it: its midnight, in no zone. -/
theorem bare_date_iff {raw : String} (h : is_bare_date raw = true) (z : Zoned) :
    Zoned.fromisoformat other raw = .ok z ↔
      ∃ t, Py.fromisoformat Zoned.invalid raw = .ok t ∧ z = ⟨t, none⟩ := by
  have hread := Zoned.fromisoformat_naive other (extended_of_bare h).1 z
  rwa [String.ofList_toList] at hread

/-- And as it is read with the midnight that is put behind it. -/
theorem completed_date_iff {raw : String} (h : is_bare_date raw = true) (z : Zoned) :
    Zoned.fromisoformat other (raw ++ "T00:00:00+08:00") = .ok z ↔
      ∃ t, Py.fromisoformat Zoned.invalid raw = .ok t ∧ z = ⟨t, some EAST_8⟩ := by
  obtain ⟨hextended, hlength⟩ := extended_of_bare h
  have hsplit : "T00:00:00+08:00".toList = "T00:00:00".toList ++ "+08:00".toList := by decide
  have htext : raw ++ "T00:00:00+08:00" =
      String.ofList (Zoned.at_midnight raw.toList ++ EAST_8.text) := by
    apply String.toList_inj.mp
    rw [String.toList_append, toList_EAST_8, Zoned.at_midnight, List.append_assoc, ← hsplit]
    exact String.toList_ofList.symm
  rw [htext, Zoned.fromisoformat_zoned_date other hextended hlength, String.ofList_toList]
  refine exists_congr fun t => and_congr_right fun ht => ?_
  have hmicro : t.microsecond = 0 :=
    Zoned.microsecond_of_extended hextended (by rw [String.ofList_toList]; exact ht)
  have hsame : Zoned.replace_microsecond t 0 (by omega) = t := by
    cases t
    cases hmicro
    rfl
  rw [hsame]

/-- The same date with its midnight written out. -/
theorem timed_date_iff {raw : String} (h : is_bare_date raw = true) (z : Zoned) :
    Zoned.fromisoformat other (raw ++ "T00:00:00") = .ok z ↔
      ∃ t, Py.fromisoformat Zoned.invalid raw = .ok t ∧ z = ⟨t, none⟩ := by
  obtain ⟨hextended, hlength⟩ := extended_of_bare h
  have htext : raw ++ "T00:00:00" = String.ofList (Zoned.at_midnight raw.toList) := by
    apply String.toList_inj.mp
    rw [String.toList_append, Zoned.at_midnight]
    exact String.toList_ofList.symm
  rw [htext, Zoned.fromisoformat_naive other (Zoned.extended_at_midnight hextended hlength)]
  refine exists_congr fun t => and_congr_left' ?_
  have hmidnight := Zoned.fromisoformat_at_midnight hextended hlength t
  rwa [String.ofList_toList] at hmidnight

/-- A text that does not end with `Z` is left as it is. -/
theorem utc_of_not_z {raw : String} (h : raw.toList.getLast? ≠ some 'Z') :
    utc_written_out raw = raw := if_neg h

/-- An input without a zone is put into the configured one, a bare date into its own. -/
theorem normalize_zoneless {value : String} {t : Datetime} (h : zoneless other value = some t) :
    normalize_timestamp other LOCAL_TZ (some value) =
      .ok (some (Zoned.isoformat ⟨t,
        some (if is_bare_date (Mem0.strip value) then EAST_8 else LOCAL_TZ)⟩)) := by
  obtain ⟨hraw, hlast, hread⟩ := zoneless_iff.mp h
  have hvalue : value ≠ "" := by
    rintro rfl
    exact hraw (Mem0.strip_eq_empty_iff.mpr nofun)
  rw [normalize_timestamp]
  simp only [hvalue, hraw, or_self, if_false, utc_of_not_z hlast]
  by_cases hbare : is_bare_date (Mem0.strip value) = true
  · obtain ⟨t', ht', hz⟩ := (bare_date_iff hbare _).mp hread
    cases hz
    have hcompleted := (@completed_date_iff other _ hbare _).mpr ⟨t, ht', rfl⟩
    simp only [hbare, if_true, hcompleted, Option.getD_some]
  · simp only [hbare, if_false, Bool.false_eq_true, hread, Option.getD_none]

/-- The input, the text that the code reads of it, and the same date with its midnight. -/
theorem zoneless_timed {raw : String} (hbare : is_bare_date raw = true) {t : Datetime}
    (ht : Py.fromisoformat Zoned.invalid raw = .ok t) (hstrip : Mem0.Stripped raw.toList) :
    zoneless other (raw ++ "T00:00:00") = some t ∧
      is_bare_date (Mem0.strip (raw ++ "T00:00:00")) = false := by
  obtain ⟨-, hlength⟩ := extended_of_bare hbare
  have hlist : (raw ++ "T00:00:00").toList = raw.toList ++ "T00:00:00".toList :=
    String.toList_append
  have hlast : (raw ++ "T00:00:00").toList.getLast? = some '0' := by
    rw [hlist, List.getLast?_append_of_ne_nil _ (by decide)]
    rfl
  have hwhole : Mem0.Stripped (raw ++ "T00:00:00").toList := by
    refine ⟨?_, ?_⟩
    · intro c hc
      rw [hlist,
        List.head?_append_of_ne_nil _ (by rintro hnil; rw [hnil] at hlength; cases hlength)] at hc
      exact hstrip.1 c hc
    · intro c hc
      rw [hlast] at hc
      cases Option.mem_some_iff.mp hc
      decide
  have hsame := strip_of_stripped_text hwhole
  -- with its time it is nineteen characters long, and no bare date any more
  have hlong : (raw ++ "T00:00:00").toList.length = 19 := by
    rw [hlist, List.length_append, hlength]
    rfl
  refine ⟨zoneless_iff.mpr ⟨?_, ?_, ?_⟩, ?_⟩
  · rw [hsame]
    intro hempty
    rw [hempty] at hlong
    cases hlong
  · rw [hsame, hlast]
    decide
  · rw [hsame]
    exact (timed_date_iff hbare _).mpr ⟨t, ht, rfl⟩
  · rw [hsame, is_bare_date, decide_eq_false_iff_not]
    omega

/-- A bare date that is accepted has no zone. -/
theorem zoneless_of_bare {value out : String} (hbare : BareDate value)
    (h : normalize_timestamp other LOCAL_TZ (some value) = .ok (some out)) :
    ∃ t, zoneless other value = some t ∧
      Py.fromisoformat Zoned.invalid (Mem0.strip value) = .ok t := by
  obtain ⟨hbare, hlast⟩ := hbare
  have hraw : Mem0.strip value ≠ "" := by
    intro hempty
    have hlength := (extended_of_bare hbare).2
    rw [hempty] at hlength
    cases hlength
  rw [normalize_timestamp] at h
  dsimp only at h
  split at h
  · cases h
  · rw [utc_of_not_z hlast, if_pos hbare] at h
    split at h
    · cases h
    · rename_i parsed hread
      obtain ⟨t, ht, -⟩ := (completed_date_iff hbare _).mp hread
      exact ⟨t, zoneless_iff.mpr ⟨hraw, hlast, (bare_date_iff hbare _).mpr ⟨t, ht, rfl⟩⟩, ht⟩

/-- **One zone for all.** What is accepted stays as it was printed. An input without a zone is read
in the configured one, and a bare date as its own midnight, if and only if it is no bare date that
is accepted, or the configured zone is eight hours ahead of UTC. -/
theorem normalize_timestamp_iff (other : OtherFormats) (LOCAL_TZ : Offset) (value : String) :
    ((∀ out, normalize_timestamp other LOCAL_TZ (some value) = .ok (some out) →
        normalize_timestamp other LOCAL_TZ (some out) = .ok (some out)) ∧
      (∀ t, zoneless other value = some t →
        normalize_timestamp other LOCAL_TZ (some value) =
          .ok (some (Zoned.isoformat ⟨t, some LOCAL_TZ⟩))) ∧
      ∀ out out' n n', BareDate value →
        normalize_timestamp other LOCAL_TZ (some value) = .ok (some out) →
        normalize_timestamp other LOCAL_TZ (some (Mem0.strip value ++ "T00:00:00")) =
          .ok (some out') →
        Denotes out n → Denotes out' n' → n = n') ↔
      (BareDate value → (zoneless other value).isSome = true → LOCAL_TZ = EAST_8) := by
  constructor
  -- the code reads a bare date in `EAST_8`
  · rintro ⟨-, hread, -⟩ hbare hsome
    obtain ⟨t, ht⟩ := Option.isSome_iff_exists.mp hsome
    have heq := (hread t ht).symm.trans (normalize_zoneless ht)
    rw [if_pos hbare.1, Except.ok.injEq, Option.some.injEq] at heq
    exact (isoformat_inj heq).2
  · intro hzone
    have hread : ∀ t, zoneless other value = some t →
        normalize_timestamp other LOCAL_TZ (some value) =
          .ok (some (Zoned.isoformat ⟨t, some LOCAL_TZ⟩)) := by
      intro t ht
      rw [normalize_zoneless ht]
      by_cases hbare : is_bare_date (Mem0.strip value) = true
      · rw [if_pos hbare, hzone ⟨hbare, (zoneless_iff.mp ht).2.1⟩ (by rw [ht]; rfl)]
      · rw [if_neg hbare]
    refine ⟨?_, hread, ?_⟩
    · intro out hout
      obtain ⟨clock, zone, rfl⟩ := printed_of_normalize hout
      exact normalize_printed clock zone
    · intro out out' n n' hbare hout hout' hn hn'
      obtain ⟨t, ht, hdate⟩ := zoneless_of_bare hbare hout
      obtain ⟨-, -, -, -, -, hstripped⟩ := Mem0.strip_spec value
      obtain ⟨htimed, hnot⟩ := @zoneless_timed other _ hbare.1 t hdate hstripped
      have hfirst := (hread t ht).symm.trans hout
      have hsecond := (normalize_zoneless htimed).symm.trans hout'
      rw [hnot, if_neg Bool.false_ne_true] at hsecond
      have hsame : out = out' := by
        rw [Except.ok.injEq, Option.some.injEq] at hfirst hsecond
        rw [← hfirst, ← hsecond]
      rw [← hsame] at hn'
      exact hn.eq hn'

/-- A bare date where the clocks show UTC: it is put eight hours ahead, the same date with its
midnight written out is not. -/
theorem bare_date_misread :
    let UTC : Offset := ⟨false, 0, 0, 0, 0, by decide, by decide, by decide, by decide, nofun⟩
    normalize_timestamp Zoned.invalid UTC (some "2026-07-01") =
      .ok (some "2026-07-01T00:00:00+08:00") ∧
      normalize_timestamp Zoned.invalid UTC (some "2026-07-01T00:00:00") =
        .ok (some "2026-07-01T00:00:00+00:00") := by
  decide +kernel

end Memline.cli
