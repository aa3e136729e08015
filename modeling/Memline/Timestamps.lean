/-
When a ledger chunk was written.

The time of a chunk is read off its text, or off the innermost heading that shows one, or counted
from the date of the file. A date in a text is found by a pattern of digits, and what is found
need not be a date.
-/
import Memline.Lib.Calendar
import Memline.Lib.Language
import Memline.Sanitizer
import Memline.Segments

set_option autoImplicit false

namespace Memline.ledger

open Py

/-! ## The pattern -/

section pattern

variable (cls : Classes)

/-- So many digits. -/
def digits_of (n : ℕ) : Regex := .between (.one cls.digit) n 0

/-- `\d{4}-\d{2}-\d{2}`. -/
def DATE : Regex :=
  .seq (digits_of cls 4) <| .seq (.char '-') <| .seq (digits_of cls 2) <|
    .seq (.char '-') (digits_of cls 2)

/-- `\d{2}:\d{2}(?::\d{2})?`. -/
def TIME : Regex :=
  .seq (digits_of cls 2) <| .seq (.char ':') <| .seq (digits_of cls 2) <|
    .between (.seq (.char ':') (digits_of cls 2)) 0 1

/-- `\b(\d{4}-\d{2}-\d{2})(?:[ T](\d{2}:\d{2}(?::\d{2})?))?\b`. The date is what is read first,
the time is the group. -/
def DATE_TIME : Regex :=
  .seq (edge cls) <| .seq (DATE cls) <|
    .seq (.between (.seq (.one fun c => c == ' ' || c == 'T') (.group (TIME cls))) 0 1) (edge cls)

/-! ## The time of a chunk -/

/-- What the pattern finds first: the date, and the time or nothing. -/
def found (value : String) : Option (List Char × List Char) :=
  (Regex.search (DATE_TIME cls) [] value.toList).map fun m => ((m.1.upTo m.2).take 10, m.2.captured)

/-- The text that is read as a moment: the date, and the time to the second if there is one. -/
def raw (date time_part : List Char) : List Char :=
  if time_part = [] then date
  else date ++ 'T' :: if time_part.count ':' = 1 then time_part ++ ":00".toList else time_part

variable (other : String → Except String Datetime)

def parse_datetime_prefix (value : String) : Except Exn (Option (Datetime × Bool)) :=
  match found cls value with
  | none => .ok none
  | some (date, time_part) =>
    match fromisoformat other (String.ofList (raw date time_part)) with
    | .error msg => .error (.value_error msg)
    | .ok parsed => .ok (some (parsed, decide (time_part ≠ [])))

/-- `t.replace(second=0, microsecond=0).isoformat()` for a moment of the local zone. -/
def local_isoformat (offset : String) (t : Datetime) : String :=
  String.ofList (t.stamp.take 17 ++ "00".toList) ++ offset

variable (offset : String)

/-- The first of the headings that shows a time. -/
def heading_timestamp : List String → Except Exn (Option String)
  | [] => .ok none
  | heading :: rest =>
    match parse_datetime_prefix cls other heading with
    | .error err => .error err
    | .ok (some (parsed, true)) => .ok (some (local_isoformat offset parsed))
    | .ok _ => heading_timestamp rest

/-- The date of the file and as many minutes as there are lines before the chunk. -/
def file_timestamp (chunk : Chunk) : Except Exn String :=
  match fromisoformat other chunk.ledger_date with
  | .error msg => .error (.value_error msg)
  | .ok parsed =>
    match parsed.add_minutes (chunk.start_line - 1) with
    | none => .error (.other "date value out of range")
    | some t => .ok (local_isoformat offset t)

def ledger_timestamp (chunk : Chunk) (_sequence : ℕ) : Except Exn (String × String) := do
  match ← parse_datetime_prefix cls other chunk.body with
  | some (parsed, true) => pure (local_isoformat offset parsed, "explicit_text")
  | _ =>
    match ← heading_timestamp cls other offset chunk.heading_path.reverse with
    | some timestamp => pure (timestamp, "explicit_heading")
    | none => pure (← file_timestamp other offset chunk, "file_date_sequence")

end pattern

/-! ## What the pattern finds -/

section found

variable {cls : Classes} {other : String → Except String Datetime} {offset : String}

/-- A numeral of a length looks at nothing but what it reads. -/
theorem plain_digits (n : ℕ) : (digits_of cls n).Plain :=
  Regex.plain_between (show (Regex.one cls.digit).Plain from trivial) n 0

theorem plain_date : (DATE cls).Plain :=
  ⟨plain_digits 4, trivial, plain_digits 2, trivial, plain_digits 2⟩

theorem plain_time : (TIME cls).Plain :=
  ⟨plain_digits 2, trivial, plain_digits 2,
    Regex.plain_between (show (Regex.seq (.char ':') (digits_of cls 2)).Plain from ⟨trivial,
      plain_digits 2⟩) 0 1⟩

/-- A given character, and then a word of a language. -/
theorem char_of_language {c : Char} {r : Regex} {w : List Char}
    (hw : w ∈ (Regex.seq (.char c) r).language) : ∃ rest ∈ r.language, w = c :: rest := by
  obtain ⟨u, ⟨d, hd, rfl⟩, rest, hrest, rfl⟩ := Language.mem_mul.mp hw
  exact ⟨rest, hrest, by rw [beq_iff_eq.mp hd]; rfl⟩

/-- A date is four, two and two characters. -/
theorem date_of_language {w : List Char} (hw : w ∈ (DATE cls).language) :
    ∃ x : IsoText, w = x.date := by
  obtain ⟨year, hyear, rest, hrest, rfl⟩ := Language.mem_mul.mp hw
  obtain ⟨tail, htail, rfl⟩ := char_of_language hrest
  obtain ⟨month, hmonth, last, hlast, rfl⟩ := Language.mem_mul.mp htail
  obtain ⟨day, hday, rfl⟩ := char_of_language hlast
  exact ⟨⟨year, month, day, (Regex.mem_language_between.mp hyear).1,
    (Regex.mem_language_between.mp hmonth).1, (Regex.mem_language_between.mp hday).1⟩, rfl⟩

/-- Two digits, of which none is a colon. -/
theorem two_digits {w : List Char} (hw : w ∈ (digits_of cls 2).language) :
    w.length = 2 ∧ w.count ':' = 0 := by
  obtain ⟨hlength, hdigits⟩ := Regex.mem_language_between.mp hw
  refine ⟨hlength, List.count_eq_zero.mpr fun hmem => ?_⟩
  have hcolon := hdigits ':' hmem
  rw [cls.digit_ascii ':' (by decide)] at hcolon
  cases hcolon

/-- A time is two digits and two, and two more or none: to the second it is six. -/
theorem raw_of_time {time_part : List Char} (hw : time_part ∈ (TIME cls).language)
    (date : List Char) :
    time_part ≠ [] ∧ ∃ hour minute second : List Char, hour.length = 2 ∧ minute.length = 2 ∧
      second.length = 2 ∧
      raw date time_part = date ++ 'T' :: (hour ++ ':' :: (minute ++ ':' :: second)) := by
  obtain ⟨hour, hhour, rest, hrest, rfl⟩ := Language.mem_mul.mp hw
  obtain ⟨tail, htail, rfl⟩ := char_of_language hrest
  obtain ⟨minute, hminute, last, hlast, rfl⟩ := Language.mem_mul.mp htail
  obtain ⟨hhour, hcount⟩ := two_digits hhour
  obtain ⟨hminute, hcount'⟩ := two_digits hminute
  have hne : hour ++ ':' :: (minute ++ last) ≠ [] :=
    List.append_ne_nil_of_right_ne_nil _ (List.cons_ne_nil _ _)
  refine ⟨hne, ?_⟩
  rw [raw, if_neg hne, List.count_append, List.count_cons_self, List.count_append, hcount, hcount']
  rcases hlast with hlast | hlast
  · obtain ⟨colon, hcolon, empty, hempty, rfl⟩ := Language.mem_mul.mp hlast
    obtain ⟨second, hsecond, rfl⟩ := char_of_language hcolon
    obtain ⟨hlength, hcount''⟩ := two_digits hsecond
    rw [(Language.mem_one empty).mp hempty, List.append_nil, List.count_cons_self, hcount'']
    exact ⟨hour, minute, second, hhour, hminute, hlength, rfl⟩
  · rw [(Language.mem_one last).mp hlast, List.append_nil]
    refine ⟨hour, minute, "00".toList, hhour, hminute, rfl, ?_⟩
    rw [List.count_nil, if_pos rfl]
    simp

/-- Where the pattern is found, it matches. -/
theorem run_of_search {r : Regex} {before text : List Char} {p q : Regex.Place}
    (h : Regex.search r before text = some (p, q)) : q ∈ r.run p ∧ p.captured = [] := by
  have hmem : ∀ {p q : Regex.Place}, r.matchAt p = some q →
      q ∈ r.run p := fun h => List.mem_of_head? h
  induction text generalizing before with
  | nil =>
    obtain ⟨q', hq', hpair⟩ := Option.map_eq_some_iff.mp h
    obtain ⟨rfl, rfl⟩ := Prod.mk.inj hpair
    exact ⟨hmem hq', rfl⟩
  | cons c rest ih =>
    rw [Regex.search] at h
    split at h
    · rename_i q' hq'
      obtain ⟨rfl, rfl⟩ := Prod.mk.inj (Option.some.inj h)
      exact ⟨hmem hq', rfl⟩
    · exact ih h

/-- What is found is a date, alone or with a time. -/
theorem found_spec {value : String} {date time_part : List Char}
    (h : found cls value = some (date, time_part)) :
    ∃ x : IsoText, date = x.date ∧ (time_part = [] ∨ time_part ∈ (TIME cls).language) := by
  obtain ⟨⟨p, q⟩, hsearch, hpair⟩ := Option.map_eq_some_iff.mp h
  obtain ⟨rfl, rfl⟩ := Prod.mk.inj hpair
  obtain ⟨hrun, hcaptured⟩ := run_of_search hsearch
  have hreads := Regex.run_reads hrun
  have hedge : ∀ {p q : Regex.Place}, q ∈ (edge cls).run p → q = p := by
    intro p q hq
    rw [edge, Regex.run] at hq
    split at hq
    · exact List.mem_singleton.mp hq
    · cases hq
  rw [DATE_TIME, Regex.run, List.mem_flatMap] at hrun
  obtain ⟨p', hp', hrun⟩ := hrun
  cases hedge hp'
  rw [Regex.run, List.mem_flatMap] at hrun
  obtain ⟨m, hm, hrun⟩ := hrun
  obtain ⟨w, hw, hafter, rfl⟩ := (Regex.mem_run_iff plain_date).mp hm
  obtain ⟨x, rfl⟩ := date_of_language hw
  refine ⟨x, ?_, ?_⟩
  · obtain ⟨s, hs, -⟩ := Regex.run_reads hrun
    have hupTo := hreads.upTo_append
    rw [hafter, hs, ← List.append_assoc] at hupTo
    rw [List.append_cancel_right hupTo, ← x.length_date, List.take_left]
  · rw [Regex.run, List.mem_flatMap] at hrun
    obtain ⟨q', hq', hend⟩ := hrun
    cases hedge hend
    -- the group has read a time, or the pattern has gone past it
    rcases List.mem_append.mp hq' with hq' | hq'
    · rw [Regex.run, List.mem_flatMap] at hq'
      obtain ⟨m', hm', hempty⟩ := hq'
      cases List.mem_singleton.mp hempty
      rw [Regex.run, List.mem_flatMap] at hm'
      obtain ⟨m'', -, hgroup⟩ := hm'
      obtain ⟨w', hw', -, rfl⟩ := (Regex.mem_run_group plain_time).mp hgroup
      exact .inr hw'
    · cases List.mem_singleton.mp hq'
      exact .inl hcaptured

/-- The text found is that of a moment. -/
def Dated (date time_part : List Char) : Prop :=
  if time_part = [] then ∃ t : Datetime, t.stamp.take 10 = date
  else ∃ t : Datetime, t.stamp = raw date time_part

/-- What is found in a text, if anything is, is a date of the calendar and a time of the day. -/
def Sound (cls : Classes) (value : String) : Prop :=
  ∀ date time_part, found cls value = some (date, time_part) → Dated date time_part

/-- A time is found in a text. -/
def Timed (cls : Classes) (value : String) : Prop :=
  ∃ date time_part, found cls value = some (date, time_part) ∧ time_part ≠ []

/-- What was found is read as a moment when its fields are those of one. -/
theorem fromisoformat_found {value : String} {date time_part : List Char}
    (h : found cls value = some (date, time_part)) :
    (∃ t, fromisoformat other (String.ofList (raw date time_part)) = .ok t) ↔
      Dated date time_part := by
  obtain ⟨x, rfl, hnone | htime⟩ := found_spec h
  · rw [Dated, if_pos hnone, raw, if_pos hnone]
    exact fromisoformat_date_iff other x
  · obtain ⟨hne, hour, minute, second, hhour, hminute, hsecond, hraw⟩ := raw_of_time htime x.date
    rw [Dated, if_neg hne, hraw]
    exact fromisoformat_timed_iff other x hhour hminute hsecond

/-- A text is read without an exception if what is found in it is sound, and then it shows a
time or does not. -/
theorem parse_datetime_prefix_spec (value : String) :
    (Sound cls value ∧ ∃ result, parse_datetime_prefix cls other value = .ok result ∧
        ((∃ parsed, result = some (parsed, true)) ↔ Timed cls value)) ∨
      ¬ Sound cls value ∧ ∃ err, parse_datetime_prefix cls other value = .error err := by
  unfold parse_datetime_prefix
  -- no date at the beginning is no error; one that is found may be no date of the calendar
  cases hfound : found cls value with
  | none =>
    refine .inl ⟨fun date time_part h => ?_, none, rfl, ?_⟩
    · rw [hfound] at h
      cases h
    · constructor
      · rintro ⟨parsed, h⟩
        cases h
      · rintro ⟨date, time_part, h, -⟩
        rw [hfound] at h
        cases h
  | some e =>
    obtain ⟨date, time_part⟩ := e
    have hiff := @fromisoformat_found cls other _ _ _ hfound
    have hsound : Sound cls value ↔ Dated date time_part := by
      constructor
      · exact fun h => h date time_part hfound
      · intro h date' time' hfound'
        rw [hfound] at hfound'
        cases hfound'
        exact h
    have htimed : Timed cls value ↔ time_part ≠ [] := by
      constructor
      · rintro ⟨date', time', hfound', hne⟩
        rw [hfound] at hfound'
        cases hfound'
        exact hne
      · exact fun h => ⟨date, time_part, hfound, h⟩
    rw [hsound, htimed, ← hiff]
    dsimp only
    cases hread : fromisoformat other (String.ofList (raw date time_part)) with
    | error msg =>
      refine .inr ⟨?_, _, rfl⟩
      rintro ⟨t, ht⟩
      cases ht
    | ok parsed =>
      refine .inl ⟨⟨parsed, rfl⟩, _, rfl, ?_⟩
      constructor
      · rintro ⟨t, ht⟩
        exact of_decide_eq_true (Prod.mk.inj (Option.some.inj ht)).2
      · intro hne
        exact ⟨parsed, by rw [decide_eq_true hne]⟩

/-! ## When a chunk has a time -/

/-- The headings are read from the innermost on, up to the first that shows a time: all of these
have to be sound. -/
def HeadingsSound (cls : Classes) (heading_path : List String) : Prop :=
  ∀ outer heading inner, heading_path = outer ++ heading :: inner → (∀ h ∈ inner, ¬ Timed cls h) →
    Sound cls heading

theorem headingsSound_nil : HeadingsSound cls [] := by
  intro outer heading inner heq
  exact absurd heq.symm (List.append_ne_nil_of_right_ne_nil _ (List.cons_ne_nil _ _))

/-- The innermost heading decides, unless it has no time. -/
theorem headingsSound_concat {path : List String} {heading : String} :
    HeadingsSound cls (path ++ [heading]) ↔
      Sound cls heading ∧ (¬ Timed cls heading → HeadingsSound cls path) := by
  constructor
  · intro h
    refine ⟨h path heading [] rfl nofun, fun hnot outer heading' inner heq hinner => ?_⟩
    refine h outer heading' (inner ++ [heading]) (by rw [heq]; simp) fun x hx => ?_
    rcases List.mem_append.mp hx with hx | hx
    · exact hinner x hx
    · rwa [List.mem_singleton.mp hx]
  · rintro ⟨hsound, hrest⟩ outer heading' inner heq hinner
    rcases List.eq_nil_or_concat inner with rfl | ⟨inner, last, rfl⟩
    · rwa [← (List.append_singleton_inj.mp heq).2]
    · rw [List.concat_eq_append] at heq hinner
      rw [← List.cons_append, ← List.append_assoc] at heq
      obtain ⟨rfl, rfl⟩ := List.append_singleton_inj.mp heq
      have hlast := hinner heading (List.mem_append_right _ (List.mem_singleton_self heading))
      exact hrest hlast outer heading' inner rfl fun x hx => hinner x (List.mem_append_left _ hx)

/-- The headings are gone through without an exception if those read are sound, and a time comes
of it if one of them shows a time. -/
theorem heading_timestamp_spec (path : List String) :
    (HeadingsSound cls path ∧
      ∃ result, heading_timestamp cls other offset path.reverse = .ok result ∧
        (result = none ↔ ∀ h ∈ path, ¬ Timed cls h)) ∨
      ¬ HeadingsSound cls path ∧ ∃ err, heading_timestamp cls other offset path.reverse =
        .error err := by
  -- from the innermost heading outwards: the first with a time answers, and no outer one is
  -- read
  induction path using List.reverseRecOn with
  | nil => exact .inl ⟨headingsSound_nil, none, rfl, iff_of_true rfl nofun⟩
  | append_singleton path heading ih =>
    rw [List.reverse_append, List.reverse_singleton, List.singleton_append, heading_timestamp,
      headingsSound_concat]
    rcases @parse_datetime_prefix_spec cls other heading with ⟨hsound, result, hparse, htimed⟩ |
      ⟨hnot, err, hparse⟩
    · rw [hparse]
      by_cases htime : Timed cls heading
      · obtain ⟨parsed, rfl⟩ := htimed.mpr htime
        refine .inl ⟨⟨hsound, fun hnot => absurd htime hnot⟩, _, rfl,
          iff_of_false nofun fun hall => ?_⟩
        exact hall heading (by simp) htime
      · have hrest : heading_timestamp cls other offset (heading :: path.reverse)
            = heading_timestamp cls other offset path.reverse := by
          rw [heading_timestamp, hparse]
          cases result with
          | none => rfl
          | some e =>
            obtain ⟨parsed, has_time⟩ := e
            cases has_time with
            | true => exact absurd (htimed.mp ⟨parsed, rfl⟩) htime
            | false => rfl
        rw [heading_timestamp, hparse] at hrest
        rw [hrest]
        rcases ih with ⟨hpath, result', hresult', hnone⟩ | ⟨hpath, err, herr⟩
        · refine .inl ⟨⟨hsound, fun _ => hpath⟩, result', hresult', hnone.trans ?_⟩
          constructor
          · intro hall h hh
            rcases List.mem_append.mp hh with hh | hh
            · exact hall h hh
            · rwa [List.mem_singleton.mp hh]
          · exact fun hall h hh => hall h (List.mem_append_left _ hh)
        · exact .inr ⟨fun h => hpath (h.2 htime), err, herr⟩
    · rw [hparse]
      exact .inr ⟨fun h => hnot h.1, err, rfl⟩

/-- What a chunk needs to have a time: that what is found in its text is sound, and, where that
shows no time, that the headings read are sound, and where these show none either, that the
minutes counted from the date of the file do not go past the last year. -/
def Datable (cls : Classes) (date : Datetime) (chunk : Chunk) : Prop :=
  Sound cls chunk.body ∧ (¬ Timed cls chunk.body → HeadingsSound cls chunk.heading_path ∧
    ((∀ h ∈ chunk.heading_path, ¬ Timed cls h) →
      date.minutes + (chunk.start_line - 1) < 3652060 * 1440))

/-- Where the text shows no time, the headings and the file are asked. -/
theorem ledger_timestamp_untimed {chunk : Chunk} {sequence : ℕ} {result : Option (Datetime × Bool)}
    (hparse : parse_datetime_prefix cls other chunk.body = .ok result)
    (hnot : ∀ parsed, result ≠ some (parsed, true)) :
    ledger_timestamp cls other offset chunk sequence = (do
      match ← heading_timestamp cls other offset chunk.heading_path.reverse with
      | some timestamp => pure (timestamp, "explicit_heading")
      | none => pure (← file_timestamp other offset chunk, "file_date_sequence")) := by
  rw [ledger_timestamp, hparse]
  cases result with
  | none => rfl
  | some e =>
    obtain ⟨parsed, has_time⟩ := e
    cases has_time with
    | true => exact absurd rfl (hnot parsed)
    | false => rfl

/-- The moment that a file's date gives to a chunk exists while its line number does not lead beyond
the year 9999. -/
theorem file_timestamp_iff {date : Datetime} {chunk : Chunk}
    (hdate : fromisoformat other chunk.ledger_date = .ok date) :
    (∃ t, file_timestamp other offset chunk = .ok t) ↔
      date.minutes + (chunk.start_line - 1) < 3652060 * 1440 := by
  rw [← date.add_minutes_isSome_iff, file_timestamp, hdate]
  dsimp only
  cases date.add_minutes (chunk.start_line - 1) with
  | none =>
    refine iff_of_false ?_ Bool.false_ne_true
    rintro ⟨t, ht⟩
    cases ht
  | some t => exact iff_of_true ⟨_, rfl⟩ rfl

/-- A chunk of a file named by a date has a time just when it is datable. -/
theorem datable_iff {date : Datetime} {chunk : Chunk}
    (hdate : fromisoformat other chunk.ledger_date = .ok date) (sequence : ℕ) :
    (∃ r, ledger_timestamp cls other offset chunk sequence = .ok r) ↔ Datable cls date chunk := by
  rw [Datable]
  -- first the body, then the headings, last the date of the file
  rcases @parse_datetime_prefix_spec cls other chunk.body with ⟨hsound, result, hparse, htimed⟩ |
    ⟨hnot, err, hparse⟩
  · by_cases htime : Timed cls chunk.body
    · obtain ⟨parsed, rfl⟩ := htimed.mpr htime
      rw [ledger_timestamp, hparse]
      exact iff_of_true ⟨_, rfl⟩ ⟨hsound, fun hnot => absurd htime hnot⟩
    · rw [ledger_timestamp_untimed hparse fun parsed hresult => htime (htimed.mp ⟨parsed, hresult⟩)]
      rcases @heading_timestamp_spec cls other offset chunk.heading_path with
        ⟨hpath, result', hresult', hnone⟩ | ⟨hpath, err, herr⟩
      · rw [hresult']
        cases result' with
        | none =>
          -- no heading has a time either
          have hall := hnone.mp rfl
          have hfile := @file_timestamp_iff other offset _ _ hdate
          change (∃ r, (file_timestamp other offset chunk >>=
            fun t => pure (t, "file_date_sequence")) = .ok r) ↔ _
          constructor
          · rintro ⟨r, hr⟩
            obtain ⟨t, ht, -⟩ := Except.bind_ok.mp hr
            exact ⟨hsound, fun _ => ⟨hpath, fun _ => hfile.mp ⟨t, ht⟩⟩⟩
          · intro h
            obtain ⟨t, ht⟩ := hfile.mpr ((h.2 htime).2 hall)
            exact ⟨_, Except.bind_ok.mpr ⟨t, ht, rfl⟩⟩
        | some timestamp =>
          have hsome : ¬ ∀ h ∈ chunk.heading_path, ¬ Timed cls h :=
            fun hall => by cases hnone.mpr hall
          exact iff_of_true ⟨_, rfl⟩ ⟨hsound, fun _ => ⟨hpath, fun hall => absurd hall hsome⟩⟩
      · rw [herr]
        refine iff_of_false ?_ fun h => hpath (h.2 htime).1
        rintro ⟨r, hr⟩
        cases hr
  · rw [ledger_timestamp, hparse]
    refine iff_of_false ?_ fun h => hnot h.1
    rintro ⟨r, hr⟩
    cases hr

/-! ## The import loop -/

variable (cls other offset)

/-- The turns of the import loop with the times of their chunks: the manifest lines that have been
written, and the exception that the loop has ended with, if any. -/
def import_timed (month : String) (mode : Mode) : List Entry → List Item × Option Exn
  | [] => ([], none)
  | e :: rest =>
    match ledger_timestamp cls other offset e.chunk e.sequence with
    | .error err => ([], some err)
    | .ok _ =>
      let later := import_timed month mode rest
      (⟨e.ledger_id, e.chunk, month, mode⟩ :: later.1, later.2)

variable {cls other offset}

/-- The loop imports the chunks before the first that has no time, and nothing after it. -/
theorem import_timed_spec (month : String) (mode : Mode) (entries : List Entry) :
    ∃ before after, entries = before ++ after ∧
      (∀ e ∈ before, ∃ r, ledger_timestamp cls other offset e.chunk e.sequence = .ok r) ∧
      (import_timed cls other offset month mode entries).1 =
        before.map (fun e => ⟨e.ledger_id, e.chunk, month, mode⟩) ∧
      (∀ e ∈ after.head?, ∃ err, ledger_timestamp cls other offset e.chunk e.sequence = .error err ∧
        (import_timed cls other offset month mode entries).2 = some err) ∧
      (after = [] → (import_timed cls other offset month mode entries).2 = none) := by
  induction entries with
  | nil => exact ⟨[], [], rfl, nofun, rfl, fun e he => absurd he (by simp), fun _ => rfl⟩
  | cons e rest ih =>
    cases htime : ledger_timestamp cls other offset e.chunk e.sequence with
    | error err =>
      have hstop : import_timed cls other offset month mode (e :: rest) = ([], some err) := by
        rw [import_timed, htime]
      rw [hstop]
      refine ⟨[], e :: rest, rfl, nofun, rfl, fun e' he' => ?_, fun h => by cases h⟩
      rw [← Option.some.inj he']
      exact ⟨err, htime, rfl⟩
    | ok r =>
      obtain ⟨before, after, rfl, hbefore, hitems, hafter, hend⟩ := ih
      have hgoes : import_timed cls other offset month mode (e :: (before ++ after))
          = (⟨e.ledger_id, e.chunk, month,
            mode⟩ :: (import_timed cls other offset month mode (before ++ after)).1,
            (import_timed cls other offset month mode (before ++ after)).2) := by
        rw [import_timed, htime]
      rw [hgoes]
      refine ⟨e :: before, after, rfl, List.forall_mem_cons.mpr ⟨⟨r, htime⟩, hbefore⟩,
        ?_, hafter, hend⟩
      rw [List.map_cons, hitems]

/-- **Chunks have a time.** For a chunk of a file named by a date, a timestamp is returned if and
only if the dates that are read on the way to it exist and the file is not one of the last
minutes of the calendar. A run over such chunks imports those before the first of which that does
not hold and none behind it, and comes to its end if and only if it holds of each of them. -/
theorem ledger_timestamp_iff (cls : Classes) (other : String → Except String Datetime)
    (offset : String) :
    (∀ {date : Datetime} {chunk : Chunk}, fromisoformat other chunk.ledger_date = .ok date →
      ∀ sequence, ((∃ r, ledger_timestamp cls other offset chunk sequence = .ok r) ↔
        Datable cls date chunk)) ∧
    ∀ {date : Entry → Datetime} {entries : List Entry},
      (∀ e ∈ entries, fromisoformat other e.chunk.ledger_date = .ok (date e)) → ∀ month mode,
        (∃ before after, entries = before ++ after ∧ (∀ e ∈ before, Datable cls (date e) e.chunk) ∧
          (∀ e ∈ after.head?, ¬ Datable cls (date e) e.chunk) ∧
          (import_timed cls other offset month mode entries).1 =
            before.map fun e => ⟨e.ledger_id, e.chunk, month, mode⟩) ∧
        ((import_timed cls other offset month mode entries).2 = none ↔
          ∀ e ∈ entries, Datable cls (date e) e.chunk) := by
  refine ⟨datable_iff, fun {date entries} hdate month mode => ?_⟩
  -- the entries that were dated, and the one at which the loop has ended
  obtain ⟨before, after, rfl, hbefore, hitems, hafter, hend⟩ :=
    @import_timed_spec cls other offset month mode entries
  have hdatable : ∀ e ∈ before, Datable cls (date e) e.chunk := fun e he =>
    (datable_iff (hdate e (List.mem_append_left _ he)) e.sequence).mp (hbefore e he)
  have hfirst : ∀ e ∈ after.head?, ¬ Datable cls (date e) e.chunk := by
    intro e he h
    have hmem : e ∈ before ++ after := List.mem_append_right _ (List.mem_of_mem_head? he)
    obtain ⟨err, herr, -⟩ := hafter e he
    obtain ⟨r, hr⟩ := (datable_iff (hdate e hmem) e.sequence).mpr h
    rw [herr] at hr
    cases hr
  refine ⟨⟨before, after, rfl, hdatable, hfirst, hitems⟩, ?_⟩
  cases after with
  | nil =>
    rw [List.append_nil] at hend ⊢
    exact iff_of_true (hend rfl) hdatable
  | cons first after =>
    obtain ⟨err, -, herr⟩ := hafter first rfl
    refine iff_of_false ?_ fun hall => hfirst first rfl (hall first (by simp))
    rw [herr]
    nofun

end found

/-- Nothing is read that is not in the extended format. -/
def extended_only (s : String) : Except String Datetime :=
  .error ("Invalid isoformat string: '" ++ s ++ "'")

/-- A line that shows a date and a time, and one that shows none. -/
def two_lines : List Entry :=
  [⟨1, ⟨["/", "w", "2026-05-31.md"], "2026-05-31", 1, 1, [], "- 2026-05-30 08:30 shipped"⟩, "l-1"⟩,
    ⟨2, ⟨["/", "w", "2026-05-31.md"], "2026-05-31", 2, 2, [], "- a"⟩, "l-2"⟩]

/-- A line with a date and a time of its own; and the import of a file with a line of the next day
goes through without an error. -/
theorem plain_line_timed :
    (∃ r, ledger_timestamp Classes.ascii extended_only "+00:00"
      ⟨["/", "w", "2026-05-31.md"], "2026-05-31", 1, 1, [], "- 2026-05-30 08:30 shipped"⟩ 1 =
        .ok r) ∧
    (import_timed Classes.ascii extended_only "+00:00" "2026-05" .line two_lines).2 = none := by
  obtain ⟨date, hdate⟩ : ∃ date, fromisoformat extended_only "2026-05-31" = .ok date := ⟨_, rfl⟩
  have hfound : found Classes.ascii "- 2026-05-30 08:30 shipped" =
      some ("2026-05-30".toList, "08:30".toList) := by decide +kernel
  have hmoment : ∃ t, fromisoformat extended_only
      (String.ofList (raw "2026-05-30".toList "08:30".toList)) = .ok t := ⟨_, rfl⟩
  have htimed : Datable Classes.ascii date
      ⟨["/", "w", "2026-05-31.md"], "2026-05-31", 1, 1, [], "- 2026-05-30 08:30 shipped"⟩ := by
    refine ⟨fun _ _ h => ?_, fun hnot => absurd ⟨_, _, hfound, by decide⟩ hnot⟩
    obtain ⟨rfl, rfl⟩ := Prod.mk.inj (Option.some.inj (hfound.symm.trans h))
    exact (fromisoformat_found hfound).mp hmoment
  have hnone : found Classes.ascii "- a" = none := by decide +kernel
  have huntimed : Datable Classes.ascii date ⟨["/", "w", "2026-05-31.md"], "2026-05-31", 2, 2,
      [], "- a"⟩ := by
    refine ⟨fun _ _ h => ?_, fun _ => ⟨headingsSound_nil, fun _ => ?_⟩⟩
    · rw [hnone] at h
      cases h
    · have hminutes : (fromisoformat extended_only "2026-05-31").toOption.all
          (fun date => date.minutes + (2 - 1) < 3652060 * 1440) = true := by decide +kernel
      rw [hdate] at hminutes
      exact of_decide_eq_true hminutes
  have hboth := @ledger_timestamp_iff Classes.ascii extended_only "+00:00"
  refine ⟨(hboth.1 hdate 1).mpr htimed,
    ((@hboth.2 (fun _ => date) two_lines ?_ "2026-05" .line).2).mpr ?_⟩
  · simp only [two_lines, List.forall_mem_cons]
    exact ⟨hdate, hdate, nofun⟩
  · simp only [two_lines, List.forall_mem_cons]
    exact ⟨htimed, huntimed, nofun⟩

/-- A line with a thirteenth month. -/
theorem odd_line_raises :
    parse_file ["/", "w", "2026-05-31.md"] "- see 2026-13-45\n" .line
        = [⟨["/", "w", "2026-05-31.md"], "2026-05-31", 1, 1, [], "- see 2026-13-45"⟩] ∧
      (∃ date, fromisoformat extended_only "2026-05-31" = .ok date) ∧
      ledger_timestamp Classes.ascii extended_only "+00:00"
        ⟨["/", "w", "2026-05-31.md"], "2026-05-31", 1, 1, [], "- see 2026-13-45"⟩ 1
          = .error (.value_error "month must be in 1..12") := by
  refine ⟨by decide +kernel, ⟨_, rfl⟩, ?_⟩
  decide +kernel

end Memline.ledger
