/-
What the judge answers, as it is read.

A model's answer is a text of any kind. It is taken out of its fence and decoded; where it does not
decode, the objects that look like judgments are picked out of it one by one, and those that decode
are kept. What is kept is coerced field by field: an id and a verdict that are asked for, a
confidence between zero and one, and the start of a reason.

The answer that a caller gets is always of that form, or a `ValueError`, but for the confidences.
`float` has a third exception beside the two that are caught, and the clamp sends what is no number
to one: it asks what is less, and nothing is less than `nan`.
-/
import Memline.Text
import Memline.Lib.JsonWriting
import Memline.Lib.Regex
import Memline.Lib.Check

set_option autoImplicit false

namespace Memline.judge

open Py Py.JsonText Regex

/-- What the parsing raises. -/
inductive Raised where
  | value_error (msg : String)
  | attribute_error
  | overflow_error
  | recursion_error
  deriving DecidableEq

/-- What the language brings along: how values print, how JSON is read, upper case, and what `float`
reads in a string. -/
structure Runtime extends Printer where
  language : Language
  upper : String → String
  parse_float : String → Option Double

/-- A runtime to try the definitions in. -/
def Runtime.plain : Runtime where
  toPrinter := .plain
  language := .plain
  upper s := String.ofList (s.toList.map Char.toUpper)
  parse_float _ := none

def VERDICTS : List String := ["SUPERSEDED", "DUPLICATE", "KEPT"]

/-! ## Text -/

/-- `$`: the end, or the end of the last line. -/
def dollar : Regex := .alt stop (lookahead (.seq (char '\n') stop))

/-- `^\x60\x60\x60[a-zA-Z]*\n|\x60\x60\x60$`. -/
def FENCE : Regex :=
  .alt (.seq start (.seq (lit "\x60\x60\x60".toList) (.seq (many (one Char.isAlpha)) (char '\n'))))
    (.seq (lit "\x60\x60\x60".toList) dollar)

/-- `re.sub(FENCE, "", text)`. -/
def unfence (text : List Char) : List Char :=
  (cut FENCE text).filterMap fun
    | .plain c => some c
    | .found _ _ => none

/-- The text of a response: without blanks around it and without a fence. -/
def text_of (response : String) : String :=
  let text := Mem0.strip response
  if "\x60\x60\x60".toList.isPrefixOf text.toList then
    Mem0.strip (String.ofList (unfence text.toList))
  else text

def is_brace (c : Char) : Bool := c == '\x7b' || c == '\x7d'

def VERDICT_KEY : List Char := "\"verdict\"".toList

/-- `\{[^{}]*?"verdict"[^{}]*?\}`, whole. -/
def JUDGMENT : Regex :=
  .group (.seq (char '\x7b') (.seq (few (one fun c => !is_brace c)) (.seq (lit VERDICT_KEY)
    (.seq (few (one fun c => !is_brace c)) (char '\x7d')))))

/-- `"verdict"\s*:\s*"([A-Za-z_]+)"`. -/
def VERDICT : Regex :=
  .seq (lit VERDICT_KEY) (.seq (many (one Mem0.isspace))
    (.seq (char ':') (.seq (many (one Mem0.isspace))
    (.seq (char '"') (.seq (.group (plus (one fun c => c.isAlpha || c == '_'))) (char '"'))))))

def non_json (text : String) : Raised :=
  .value_error ("judge returned non-JSON output: " ++ String.ofList (text.toList.take 200))

/-! ## Numbers -/

/-- An integer rounded to 53 bits, ties to even. -/
def nearest (n : ℕ) : ℕ :=
  let unit := 2 ^ (n.log2 - 52)
  let quotient := n / unit
  let rest := n % unit
  (if unit < 2 * rest ∨ (2 * rest = unit ∧ quotient % 2 = 1) then quotient + 1 else quotient) * unit

/-- `float(n)`. -/
def float_of_int (n : ℤ) : Result Double :=
  if 2 ^ 1024 ≤ nearest n.natAbs then .error .overflow_error
  else .ok (.finite (if n < 0 then -(nearest n.natAbs : ℚ) else nearest n.natAbs))

variable (rt : Runtime)

/-- `float(value)`. -/
def to_float : Json → Result Double
  | .null | .list _ | .obj _ => .error .type_error
  | .bool b => .ok (.finite (if b then 1 else 0))
  | .int n => float_of_int n
  | .float x => .ok x
  | .str s =>
    match rt.parse_float s with
    | some x => .ok x
    | none => .error .value_error

def less (x y : Double) : Bool := (Json.float x).num_lt (.float y)

/-- `max(0.0, min(1.0, x))`: the first of two that neither is less than the other. -/
def clamp (x : Double) : Double :=
  let least := if less x (.finite 1) then x else .finite 1
  if less (.finite 0) least then least else .finite 0

/-- `d.get(key, default)`. -/
def field (d : Dict) (key : String) (default : Json) : Json := (d.lookup key).getD default

/-- The confidence of a judgment: zero where `float` raises one of the two exceptions that are
caught. -/
def confidence_of (d : Dict) : Except Raised Double :=
  match to_float rt (field d "confidence" (.float (.finite 0))) with
  | .ok x => .ok (clamp x)
  | .error .overflow_error => .error .overflow_error
  | .error _ => .ok (.finite 0)

/-- `str(d.get("reason") or "")[:500]`. -/
def reason_of (d : Dict) : String :=
  String.ofList ((((Dict.get d "reason").or_else (.str "")).toStr rt.toPrinter).toList.take 500)

/-- `str(d.get("verdict", "")).upper()`. -/
def verdict_of (d : Dict) : String := rt.upper ((field d "verdict" (.str "")).toStr rt.toPrinter)

def id_of (d : Dict) : String := (field d "id" (.str "")).toStr rt.toPrinter

/-! ## A batch of judgments -/

structure Judgment where
  id : String
  verdict : String
  confidence : Double
  reason : String
  deriving DecidableEq

/-- `_try_json`. -/
def try_json (chunk : List Char) : Except Raised (Option Json) :=
  match json_loads rt.language false chunk with
  | .ok .null => .ok none
  | .ok x => .ok (some x)
  | .error .decode => .ok none
  | .error .digits => .error (.value_error "Exceeds the limit for integer string conversion")
  | .error .depth => .error .recursion_error

/-- Salvage complete objects from truncated or malformed output. -/
def salvage (text : String) : Except Raised (List Json) := do
  let raw ← (findall JUDGMENT text.toList).mapM (try_json rt)
  let raw := raw.filterMap id
  if raw = [] then .error (non_json text) else .ok raw

/-- What is decoded of a text, or salvaged. -/
def raw_judgments (text : String) : Except Raised (List Json) :=
  match json_loads rt.language false text.toList with
  | .ok (.obj data) =>
    match Dict.get data "judgments" with
    | .list raw => .ok raw
    | _ => .error (.value_error "judge output missing 'judgments' list")
  | .ok _ => .error (.value_error "judge output missing 'judgments' list")
  -- what is no JSON is salvaged; the other errors are not caught
  | .error .decode => salvage rt text
  | .error .digits => .error (.value_error "Exceeds the limit for integer string conversion")
  | .error .depth => .error .recursion_error

variable (allowed_ids : List String)

/-- An entry of the list; hallucinated ids and unknown verdicts are dropped. -/
def judgment_of (item : Json) : Except Raised (Option Judgment) :=
  match item with
  | .obj d =>
    if id_of rt d ∉ allowed_ids ∨ verdict_of rt d ∉ VERDICTS then .ok none
    else
      match confidence_of rt d with
      | .ok confidence => .ok (some ⟨id_of rt d, verdict_of rt d, confidence, reason_of rt d⟩)
      | .error e => .error e
  | _ => .ok none

def empty_response : Raised := .value_error "judge returned an empty response"

def parse_judgments (response : Option String) : Except Raised (List Judgment) := do
  let response := response.getD ""
  if response = "" then .error empty_response
  else
    let raw ← raw_judgments rt (text_of response)
    let judgments ← raw.mapM (judgment_of rt allowed_ids)
    pure (judgments.filterMap id)

/-! ## A single judgment -/

structure SingleJudgment where
  verdict : String
  confidence : Double
  reason : String
  deriving DecidableEq

/-- The object of a single judgment, or what can be made out of truncated output. -/
def single_data (text : String) : Except Raised Json :=
  match json_loads rt.language false text.toList with
  | .ok data => .ok data
  | .error .decode =>
    match search VERDICT [] text.toList with
    | none => .error (non_json text)
    -- a verdict that is found in it counts, with no confidence
    | some (_, q) =>
      .ok (.obj [("verdict", .str (String.ofList q.captured)), ("confidence", .float (.finite 0)),
        ("reason", .str "<truncated output>")])
  | .error .digits => .error (.value_error "Exceeds the limit for integer string conversion")
  | .error .depth => .error .recursion_error

/-- The fields of a single judgment; unknown verdicts fall back to the default. -/
def single_of (allowed_verdicts : List String) (default_verdict : String) (data : Json) :
    Except Raised SingleJudgment := do
  match data with
  | .obj d =>
    let verdict := if verdict_of rt d ∈ allowed_verdicts then verdict_of rt d else default_verdict
    let confidence ← confidence_of rt d
    pure ⟨verdict, confidence, reason_of rt d⟩
  | _ => .error .attribute_error

/-- Parse a one-entry judgment. -/
def parse_single_judgment (response : Option String) (allowed_verdicts : List String)
    (default_verdict : String) :
    Except Raised SingleJudgment := do
  let response := response.getD ""
  if response = "" then .error empty_response
  else
    let data ← single_data rt (text_of response)
    single_of rt allowed_verdicts default_verdict data

variable {rt allowed_ids}

/-! ## The clamp -/

/-- Between zero and one. -/
def InUnit (x : Double) : Prop := ∃ q : ℚ, x = .finite q ∧ 0 ≤ q ∧ q ≤ 1

def Finite (x : Double) : Prop := x = .neg_zero ∨ ∃ q : ℚ, x = .finite q

/-- What is no number, or more than any, is sent to one. -/
theorem clamp_eq (x : Double) : clamp x =
    match x with
    | .finite q => .finite (max 0 (min 1 q))
    | .neg_zero | .neg_inf => .finite 0
    | .inf | .nan => .finite 1 := by
  cases x with
  | finite q =>
    have hless : ∀ a b : ℚ, less (.finite a) (.finite b) = decide (a < b) := by
      intro a b
      simp [less, Json.num_lt, Json.place, Json.num]
    simp only [clamp]
    rw [hless]
    by_cases h : q < 1
    · rw [decide_eq_true h, if_pos rfl, hless, min_eq_right h.le]
      by_cases h0 : 0 < q
      · rw [decide_eq_true h0, if_pos rfl, max_eq_right h0.le]
      · rw [decide_eq_false h0, if_neg Bool.false_ne_true, max_eq_left (not_lt.mp h0)]
    · rw [decide_eq_false h, if_neg Bool.false_ne_true, hless, min_eq_left (not_lt.mp h)]
      rfl
  | _ => rfl

theorem clamp_inUnit (x : Double) : InUnit (clamp x) := by
  rw [clamp_eq]
  cases x with
  | finite q => exact ⟨_, rfl, le_max_left _ _, max_le zero_le_one (min_le_left _ _)⟩
  | neg_zero | neg_inf => exact ⟨0, rfl, le_rfl, zero_le_one⟩
  | inf | nan => exact ⟨1, rfl, zero_le_one, le_rfl⟩

/-- The given confidence is a finite number. -/
def GivesNumber (rt : Runtime) (d : Dict) : Prop :=
  ∃ x, to_float rt (field d "confidence" (.float (.finite 0))) = .ok x ∧ Finite x

/-- The given confidence is not so large that `float` raises, and neither `nan` nor `inf`. -/
def Tame (rt : Runtime) (d : Dict) : Prop :=
  let given := to_float rt (field d "confidence" (.float (.finite 0)))
  given ≠ .error .overflow_error ∧ given ≠ .ok .nan ∧ given ≠ .ok .inf

/-- What there is to a confidence: a number in its range, and zero where no number was given. -/
def Sound (rt : Runtime) (d : Dict) (x : Double) : Prop :=
  InUnit x ∧ (¬ GivesNumber rt d → x = .finite 0)

/-- A confidence is sound exactly if the one that was given is tame. -/
theorem confidence_of_sound_iff {d : Dict} :
    (∃ x, confidence_of rt d = .ok x ∧ Sound rt d x) ↔ Tame rt d := by
  unfold confidence_of Tame Sound GivesNumber
  have hzero : InUnit (.finite 0) := ⟨0, rfl, le_rfl, zero_le_one⟩
  cases hgiven : to_float rt (field d "confidence" (.float (.finite 0))) with
  | error e =>
    cases e with
    | overflow_error => simp
    | _ => simp [hzero]
  | ok x =>
    cases x with
    | finite q =>
      have hnumber : Finite (.finite q) := .inr ⟨q, rfl⟩
      simp [clamp_inUnit, hnumber]
    | neg_zero =>
      have hnumber : Finite .neg_zero := .inl rfl
      simp [clamp_inUnit, hnumber]
    | neg_inf => simp [clamp_eq, hzero]
    | inf | nan => simp [clamp_eq, Finite]

/-- The only exception a confidence raises. -/
theorem confidence_of_error {d : Dict} {e : Raised} (h : confidence_of rt d = .error e) :
    e = .overflow_error := by
  unfold confidence_of at h
  split at h
  · cases h
  · cases h
    rfl
  · cases h

theorem length_reason_of (d : Dict) : (reason_of rt d).toList.length ≤ 500 := by
  rw [reason_of, String.toList_ofList]
  exact List.length_take_le _ _

/-! ## What a batch can be -/

variable (rt allowed_ids) in
/-- The objects that are asked for. -/
def Wanted (d : Dict) : Prop := id_of rt d ∈ allowed_ids ∧ verdict_of rt d ∈ VERDICTS

instance (d : Dict) : Decidable (Wanted rt allowed_ids d) := inferInstanceAs (Decidable (_ ∧ _))

variable (rt allowed_ids) in
def wanted : List Json → List Dict
  | [] => []
  | .obj d :: raw => if Wanted rt allowed_ids d then d :: wanted raw else wanted raw
  | _ :: raw => wanted raw

/-- The judgments that are wanted are the objects about a memory that was asked about. -/
theorem mem_wanted {raw : List Json} {d : Dict} :
    d ∈ wanted rt allowed_ids raw ↔ .obj d ∈ raw ∧ Wanted rt allowed_ids d := by
  fun_induction wanted rt allowed_ids raw with
  | case1 => simp
  | case2 d' raw h ih =>
    rw [List.mem_cons, ih, List.mem_cons, Json.obj.injEq]
    constructor
    · rintro (rfl | ⟨hd, hwanted⟩)
      · exact ⟨.inl rfl, h⟩
      · exact ⟨.inr hd, hwanted⟩
    · rintro ⟨rfl | hd, hwanted⟩
      · exact .inl rfl
      · exact .inr ⟨hd, hwanted⟩
  | case3 d' raw h ih =>
    rw [ih, List.mem_cons, Json.obj.injEq]
    constructor
    · rintro ⟨hd, hwanted⟩
      exact ⟨.inr hd, hwanted⟩
    · rintro ⟨rfl | hd, hwanted⟩
      · exact absurd hwanted h
      · exact ⟨hd, hwanted⟩
  | case4 x raw hne ih =>
    rw [ih, List.mem_cons]
    constructor
    · rintro ⟨hd, hwanted⟩
      exact ⟨.inr hd, hwanted⟩
    · rintro ⟨rfl | hd, hwanted⟩
      · exact absurd rfl (hne d)
      · exact ⟨hd, hwanted⟩

variable (rt) in
/-- The judgment that an object is. -/
def judged (d : Dict) : Except Raised Judgment := do
  let confidence ← confidence_of rt d
  pure ⟨id_of rt d, verdict_of rt d, confidence, reason_of rt d⟩

/-- The loop goes through the objects that are asked for. -/
theorem loop_eq (raw : List Json) :
    (do let judgments ← raw.mapM (judgment_of rt allowed_ids)
        pure (judgments.filterMap id)) = (wanted rt allowed_ids raw).mapM (judged rt) := by
  have hcons : ∀ (x : Json) (xs : List Json), (do
      let judgments ← (x :: xs).mapM (judgment_of rt allowed_ids)
      pure (judgments.filterMap id)) =
      (judgment_of rt allowed_ids x >>= fun j => do
        let judgments ← (do
          let judgments ← xs.mapM (judgment_of rt allowed_ids)
          pure (judgments.filterMap id))
        pure ([j].filterMap id ++ judgments)) := by
    intro x xs
    rw [List.mapM_cons]
    cases judgment_of rt allowed_ids x with
    | error e => rfl
    | ok j =>
      cases xs.mapM (judgment_of rt allowed_ids) with
      | error e => rfl
      | ok js => cases j <;> rfl
  have hdropped : ∀ (x : Json) (xs : List Json), judgment_of rt allowed_ids x = .ok none →
      (do let judgments ← xs.mapM (judgment_of rt allowed_ids)
          pure (judgments.filterMap id)) = (wanted rt allowed_ids xs).mapM (judged rt) →
      (do let judgments ← (x :: xs).mapM (judgment_of rt allowed_ids)
          pure (judgments.filterMap id)) = (wanted rt allowed_ids xs).mapM (judged rt) := by
    intro x xs hx hxs
    rw [hcons, hx, hxs]
    cases (wanted rt allowed_ids xs).mapM (judged rt) <;> rfl
  -- along the list of what is wanted: a value that is kept, one that is left out, and one
  -- that is no object
  fun_induction wanted rt allowed_ids raw with
  | case1 => rfl
  | case2 d raw h ih =>
    have hkept : ¬ (id_of rt d ∉ allowed_ids ∨ verdict_of rt d ∉ VERDICTS) := by
      rintro (hid | hverdict)
      · exact hid h.1
      · exact hverdict h.2
    rw [hcons, ih, List.mapM_cons, judgment_of, if_neg hkept, judged]
    cases confidence_of rt d with
    | error e => rfl
    | ok x => rfl
  | case3 d raw h ih =>
    have hleft : id_of rt d ∉ allowed_ids ∨ verdict_of rt d ∉ VERDICTS := by
      by_contra hboth
      rw [not_or, not_not, not_not] at hboth
      exact h hboth
    exact hdropped _ raw (by rw [judgment_of, if_pos hleft]) ih
  | case4 x raw hne ih =>
    refine hdropped _ raw ?_ ih
    cases x with
    | obj d => exact absurd rfl (hne d)
    | _ => rfl

variable (rt allowed_ids) in
/-- A judgment of an object as it has to be. -/
structure Proper (d : Dict) (j : Judgment) : Prop where
  id : j.id = id_of rt d ∧ j.id ∈ allowed_ids
  verdict : j.verdict = verdict_of rt d ∧ j.verdict ∈ VERDICTS
  confidence : Sound rt d j.confidence
  reason : j.reason.toList.length ≤ 500

/-- A wanted judgment becomes a proper one exactly when it is tame. -/
theorem judged_proper_iff {d : Dict} (hd : Wanted rt allowed_ids d) :
    (∃ j, judged rt d = .ok j ∧ Proper rt allowed_ids d j) ↔ Tame rt d := by
  rw [← confidence_of_sound_iff]
  constructor
  · rintro ⟨j, hj, hproper⟩
    obtain ⟨x, hx, hj⟩ := Except.bind_ok.mp hj
    cases hj
    exact ⟨x, hx, hproper.confidence⟩
  · rintro ⟨x, hx, hsound⟩
    exact ⟨_, Except.bind_ok.mpr ⟨x, hx, rfl⟩, ⟨rfl, hd.1⟩, ⟨rfl, hd.2⟩, hsound, length_reason_of d⟩

/-- The objects of a list that are asked for are judged as they have to be exactly if all are
tame. -/
theorem mapM_judged_iff {ds : List Dict} (h : ∀ d ∈ ds, Wanted rt allowed_ids d) :
    (∃ js, ds.mapM (judged rt) = .ok js ∧ List.Forall₂ (Proper rt allowed_ids) ds js) ↔
      ∀ d ∈ ds, Tame rt d := by
  induction ds with
  | nil => exact ⟨fun _ => nofun, fun _ => ⟨[], rfl, .nil⟩⟩
  | cons d ds ih =>
    obtain ⟨hd, hds⟩ := List.forall_mem_cons.mp h
    rw [List.forall_mem_cons, ← ih hds, ← judged_proper_iff hd]
    constructor
    · rintro ⟨js, hjs, hproper⟩
      cases hproper with
      | cons hfirst hrest =>
        have hall := Except.mapM_forall₂.mp hjs
        cases hall with
        | cons hj hjs => exact ⟨⟨_, hj, hfirst⟩, _, Except.mapM_forall₂.mpr hjs, hrest⟩
    · rintro ⟨⟨j, hj, hfirst⟩, js, hjs, hrest⟩
      exact ⟨j :: js, Except.mapM_forall₂.mpr (.cons hj (Except.mapM_forall₂.mp hjs)),
        .cons hfirst hrest⟩

/-! ### Which texts -/

section texts

variable (rt allowed_ids)

/-- Every object of the list that is asked for is tame. -/
def TameList (raw : List Json) : Prop := ∀ d, .obj d ∈ raw → Wanted rt allowed_ids d → Tame rt d

/-- An object that is picked out of a text. -/
def TameChunk (chunk : List Char) : Prop :=
  ∀ d, json_loads rt.language false chunk = .ok (.obj d) → Wanted rt allowed_ids d → Tame rt d

/-- No object is nested too deep, and every one that is asked for is tame; or an integer is too long
before anything is nested too deep. -/
def TameChunks (chunks : List (List Char)) : Prop :=
  (∃ before chunk after, chunks = before ++ chunk :: after ∧
    json_loads rt.language false chunk = .error .digits ∧
    ∀ c ∈ before, json_loads rt.language false c ≠ .error .depth) ∨
  ∀ chunk ∈ chunks, json_loads rt.language false chunk ≠ .error .depth ∧
    TameChunk rt allowed_ids chunk

/-- What the text says is nested no deeper than the language allows, and the judgments in it that
are asked for have tame confidences. -/
def TameText (text : String) : Prop :=
  match json_loads rt.language false text.toList with
  | .ok x => ∀ data raw, x = .obj data → Dict.get data "judgments" = .list raw →
      TameList rt allowed_ids raw
  | .error .decode => TameChunks rt allowed_ids (findall JUDGMENT text.toList)
  | .error .digits => True
  | .error .depth => False

end texts

theorem try_json_obj {chunk : List Char} {d : Dict} :
    try_json rt chunk = .ok (some (.obj d)) ↔
      json_loads rt.language false chunk = .ok (.obj d) := by
  unfold try_json
  cases json_loads rt.language false chunk with
  | ok x => cases x <;> simp
  | error f => cases f <;> simp

/-- Reading fails on digits or on depth; a text that is no JSON is passed over. -/
theorem try_json_fails {chunk : List Char} {e : Raised} (h : try_json rt chunk = .error e) :
    (json_loads rt.language false chunk = .error .digits ∧ ∃ msg, e = .value_error msg) ∨
      (json_loads rt.language false chunk = .error .depth ∧ e = .recursion_error) := by
  unfold try_json at h
  split at h
  · cases h
  · cases h
  · cases h
  · cases h
    exact .inl ⟨‹_›, _, rfl⟩
  · cases h
    exact .inr ⟨‹_›, rfl⟩

theorem try_json_returns {chunk : List Char} {x : Option Json} (h : try_json rt chunk = .ok x) :
    json_loads rt.language false chunk ≠ .error .digits ∧
      json_loads rt.language false chunk ≠ .error .depth := by
  unfold try_json at h
  constructor
  · intro hload
    rw [hload] at h
    cases h
  · intro hload
    rw [hload] at h
    cases h

/-- What is salvaged, and when it is tame. -/
theorem salvage_cases (text : String) :
    (∃ raw, salvage rt text = .ok raw ∧
      (TameChunks rt allowed_ids (findall JUDGMENT text.toList) ↔ TameList rt allowed_ids raw)) ∨
    (∃ msg, salvage rt text = .error (.value_error msg) ∧
      TameChunks rt allowed_ids (findall JUDGMENT text.toList)) ∨
    (salvage rt text = .error .recursion_error ∧
      ¬ TameChunks rt allowed_ids (findall JUDGMENT text.toList)) := by
  rw [salvage]
  generalize findall JUDGMENT text.toList = chunks
  -- the chunks are loaded in turn, up to the first whose error is not caught
  cases hmap : chunks.mapM (try_json rt) with
  | error e =>
    obtain ⟨before, chunk, after, rfl, hbefore, hchunk⟩ := Except.mapM_error.mp hmap
    have hread : ∀ c ∈ before, json_loads rt.language false c ≠ .error .digits ∧
        json_loads rt.language false c ≠ .error .depth := by
      intro c hc
      obtain ⟨x, hx⟩ := hbefore c hc
      exact try_json_returns hx
    rcases try_json_fails hchunk with ⟨hload, msg, rfl⟩ | ⟨hload, rfl⟩
    · exact .inr (.inl ⟨msg, rfl,
        .inl ⟨before, chunk, after, rfl, hload, fun c hc => (hread c hc).2⟩⟩)
    · refine .inr (.inr ⟨rfl, ?_⟩)
      rintro (⟨before', chunk', after', hsplit, hdigits, hdepth⟩ | hall)
      · -- the integer that is too long would have to come first
        rcases List.append_eq_append_iff.mp hsplit with ⟨more, hb, hrest⟩ | ⟨more, hb, hrest⟩
        · cases more with
          | nil =>
            obtain ⟨rfl, -⟩ := List.cons.inj hrest
            rw [hload] at hdigits
            cases hdigits
          | cons c more =>
            obtain ⟨rfl, -⟩ := List.cons.inj hrest
            exact hdepth chunk (by rw [hb]; simp) hload
        · cases more with
          | nil =>
            obtain ⟨rfl, -⟩ := List.cons.inj hrest
            rw [hload] at hdigits
            cases hdigits
          | cons c more =>
            obtain ⟨rfl, -⟩ := List.cons.inj hrest
            exact (hread chunk' (by rw [hb]; simp)).1 hdigits
      · exact (hall chunk (by simp)).1 hload
  | ok found =>
    have hread : ∀ c ∈ chunks, json_loads rt.language false c ≠ .error .digits ∧
        json_loads rt.language false c ≠ .error .depth := by
      intro c hc
      obtain ⟨x, hx⟩ := Except.mapM_returns.mp ⟨found, hmap⟩ c hc
      exact try_json_returns hx
    have hmem : ∀ d, Json.obj d ∈ found.filterMap id ↔
        ∃ c ∈ chunks, json_loads rt.language false c = .ok (.obj d) := by
      intro d
      rw [List.mem_filterMap]
      simp only [id_eq, exists_eq_right]
      rw [Except.mem_of_mapM hmap]
      exact exists_congr fun c => and_congr_right fun _ => try_json_obj
    have htame : TameChunks rt allowed_ids chunks ↔
        TameList rt allowed_ids (found.filterMap id) := by
      constructor
      · rintro (⟨before, chunk, after, rfl, hdigits, -⟩ | hall)
        · exact absurd hdigits (hread chunk (by simp)).1
        · intro d hd hwanted
          obtain ⟨c, hc, hload⟩ := (hmem d).mp hd
          exact (hall c hc).2 d hload hwanted
      · intro hall
        refine .inr fun c hc => ⟨(hread c hc).2, fun d hload hwanted => ?_⟩
        exact hall d ((hmem d).mpr ⟨c, hc, hload⟩) hwanted
    by_cases hempty : found.filterMap id = []
    · refine .inr (.inl ⟨_, if_pos hempty, htame.mpr ?_⟩)
      rw [hempty]
      exact fun _ hd => absurd hd List.not_mem_nil
    · exact .inl ⟨found.filterMap id, if_neg hempty, htame⟩

/-- What a text is decoded to, and when it is tame. -/
theorem raw_cases (text : String) :
    (∃ raw, raw_judgments rt text = .ok raw ∧ (TameText rt allowed_ids text ↔
      TameList rt allowed_ids raw)) ∨
    (∃ msg, raw_judgments rt text = .error (.value_error msg) ∧ TameText rt allowed_ids text) ∨
    (raw_judgments rt text = .error .recursion_error ∧ ¬ TameText rt allowed_ids text) := by
  unfold raw_judgments TameText
  cases hload : json_loads rt.language false text.toList with
  | error f =>
    cases f with
    | decode => exact salvage_cases text
    | digits => exact .inr (.inl ⟨_, rfl, trivial⟩)
    | depth => exact .inr (.inr ⟨rfl, not_false⟩)
  | ok x =>
    cases x with
    | obj data =>
      cases hraw : Dict.get data "judgments" with
      | list raw =>
        refine .inl ⟨raw, by simp only [hraw], fun h => h data raw rfl hraw, ?_⟩
        rintro h _ _ ⟨⟩ hget
        rw [hraw] at hget
        cases hget
        exact h
      | _ =>
        refine .inr (.inl ⟨"judge output missing 'judgments' list", by simp only [hraw], ?_⟩)
        rintro _ _ ⟨⟩ hget
        rw [hraw] at hget
        cases hget
    | _ => exact .inr (.inl ⟨_, rfl, nofun⟩)

/-- What is required of a batch: a `ValueError`, or one proper judgment of each object that is asked
for. -/
def BatchMeets (rt : Runtime) (allowed_ids : List String) (response : Option String) : Prop :=
  (∃ msg, parse_judgments rt allowed_ids response = .error (.value_error msg)) ∨
  ∃ js raw, parse_judgments rt allowed_ids response = .ok js ∧
    raw_judgments rt (text_of (response.getD "")) = .ok raw ∧
    List.Forall₂ (Proper rt allowed_ids) (wanted rt allowed_ids raw) js

/-- A response that is not empty is read in two steps: its raw judgments, and what is made of those
that are wanted. -/
theorem parse_judgments_eq {response : Option String} (h : response.getD "" ≠ "") :
    parse_judgments rt allowed_ids response =
      (raw_judgments rt (text_of (response.getD "")) >>=
        fun raw => (wanted rt allowed_ids raw).mapM (judged rt)) := by
  rw [parse_judgments, if_neg h]
  exact congrArg _ (funext fun raw => loop_eq raw)

/-- A response about several memories is answered as it should be exactly when it is empty or its
text is tame. -/
theorem batch_meets_iff (response : Option String) :
    BatchMeets rt allowed_ids response ↔
      (response.getD "" ≠ "" → TameText rt allowed_ids (text_of (response.getD ""))) := by
  by_cases hempty : response.getD "" = ""
  · refine ⟨fun _ hne => ?_, fun _ => .inl ⟨"judge returned an empty response", ?_⟩⟩
    · contradiction
    · rw [parse_judgments, if_pos hempty, empty_response]
  · rw [BatchMeets, parse_judgments_eq hempty, imp_iff_right hempty]
    generalize text_of (response.getD "") = text
    -- judgments that can be read, an error with a message, and one that is not caught
    rcases @raw_cases rt allowed_ids text with ⟨raw, hraw, htame⟩ |
      ⟨msg, hraw, htame⟩ | ⟨hraw, htame⟩
    · have hjudged := @mapM_judged_iff rt allowed_ids (wanted rt allowed_ids raw) fun d hd =>
        (mem_wanted.mp hd).2
      have hlist : TameList rt allowed_ids raw ↔ ∀ d ∈ wanted rt allowed_ids raw, Tame rt d :=
        ⟨fun h d hd => h d (mem_wanted.mp hd).1 (mem_wanted.mp hd).2,
          fun h d hd hw => h d (mem_wanted.mpr ⟨hd, hw⟩)⟩
      rw [htame, hlist, ← hjudged, hraw]
      constructor
      · rintro (⟨msg, h⟩ | ⟨js, raw', hjs, hraw', hproper⟩)
        · obtain ⟨before, d, after, -, -, hd⟩ := Except.mapM_error.mp h
          rcases Except.bind_error.mp hd with hconf | ⟨x, -, hx⟩
          · cases confidence_of_error hconf
          · cases hx
        · cases hraw'
          exact ⟨js, hjs, hproper⟩
      · rintro ⟨js, hjs, hproper⟩
        exact .inr ⟨js, raw, hjs, rfl, hproper⟩
    · rw [hraw]
      exact iff_of_true (.inl ⟨msg, rfl⟩) htame
    · rw [hraw]
      refine iff_of_false ?_ htame
      rintro (⟨msg, h⟩ | ⟨js, raw, h, -⟩)
      · cases h
      · cases h

/-! ## What a single judgment can be -/

/-- An object with a tame confidence, or no JSON that is nested too deep. -/
def TameSingle (rt : Runtime) (text : String) : Prop :=
  match json_loads rt.language false text.toList with
  | .ok (.obj d) => Tame rt d
  | .ok _ => False
  | .error f => f ≠ .depth

/-- What is required of a single judgment: a `ValueError`, or a proper judgment of the object there
is. -/
def SingleMeets (rt : Runtime) (allowed_verdicts : List String) (default_verdict : String)
    (response : Option String) : Prop :=
  (∃ msg, parse_single_judgment rt response allowed_verdicts default_verdict =
    .error (.value_error msg)) ∨
  ∃ j d, parse_single_judgment rt response allowed_verdicts default_verdict = .ok j ∧
    single_data rt (text_of (response.getD "")) = .ok (.obj d) ∧ j.verdict ∈ allowed_verdicts ∧
    Sound rt d j.confidence ∧ j.reason.toList.length ≤ 500

/-- The object that is made out of truncated output is tame. -/
theorem tame_truncated (verdict reason : Json) :
    Tame rt [("verdict", verdict), ("confidence", .float (.finite 0)), ("reason", reason)] := by
  have hgiven : field [("verdict", verdict), ("confidence", .float (.finite 0)),
      ("reason", reason)] "confidence"
      (.float (.finite 0)) = .float (.finite 0) := rfl
  rw [Tame, hgiven]
  exact ⟨nofun, nofun, nofun⟩

/-- What a response about one memory is read as: an object, another value, nothing, or too deep a
text. -/
theorem single_cases (text : String) :
    (∃ d, single_data rt text = .ok (.obj d) ∧ (TameSingle rt text ↔ Tame rt d)) ∨
    (∃ x, single_data rt text = .ok x ∧ (∀ d, x ≠ .obj d) ∧ ¬ TameSingle rt text) ∨
    (∃ msg, single_data rt text = .error (.value_error msg) ∧ TameSingle rt text) ∨
    (single_data rt text = .error .recursion_error ∧ ¬ TameSingle rt text) := by
  unfold single_data TameSingle
  cases json_loads rt.language false text.toList with
  | error f =>
    cases f with
    | decode =>
      cases search VERDICT [] text.toList with
      | none => exact .inr (.inr (.inl ⟨_, rfl, nofun⟩))
      | some e => exact .inl ⟨_, rfl, iff_of_true nofun (tame_truncated _ _)⟩
    | digits => exact .inr (.inr (.inl ⟨_, rfl, nofun⟩))
    | depth => exact .inr (.inr (.inr ⟨rfl, fun h => h rfl⟩))
  | ok x =>
    cases x with
    | obj d => exact .inl ⟨d, rfl, Iff.rfl⟩
    | _ => exact .inr (.inl ⟨_, rfl, nofun, not_false⟩)

/-- A response about one memory is answered as it should be exactly when it is empty or its text is
tame. -/
theorem single_meets_iff {allowed_verdicts : List String} {default_verdict : String}
    (hdefault : default_verdict ∈ allowed_verdicts) (response : Option String) :
    SingleMeets rt allowed_verdicts default_verdict response ↔
      (response.getD "" ≠ "" → TameSingle rt (text_of (response.getD ""))) := by
  by_cases hempty : response.getD "" = ""
  · refine ⟨fun _ hne => ?_, fun _ => .inl ⟨"judge returned an empty response", ?_⟩⟩
    · contradiction
    · rw [parse_single_judgment, if_pos hempty, empty_response]
  · rw [SingleMeets, parse_single_judgment, if_neg hempty, imp_iff_right hempty]
    generalize text_of (response.getD "") = text
    -- an object, another value, an error with a message, and one that is not caught
    rcases @single_cases rt text with
      ⟨d, hdata, htame⟩ | ⟨x, hdata, hx, htame⟩ | ⟨msg, hdata, htame⟩ | ⟨hdata, htame⟩
    · have hobj : single_of rt allowed_verdicts default_verdict (.obj d) =
          (confidence_of rt d >>= fun x =>
            pure ⟨if verdict_of rt d ∈ allowed_verdicts then verdict_of rt d else default_verdict,
              x, reason_of rt d⟩) := rfl
      have hdone : (single_data rt text >>= single_of rt allowed_verdicts default_verdict) =
          single_of rt allowed_verdicts default_verdict (.obj d) := by rw [hdata]; rfl
      rw [htame, ← confidence_of_sound_iff, hdone, hobj]
      constructor
      · rintro (⟨msg, h⟩ | ⟨j, d', hj, hd', -, hsound, -⟩)
        · rcases Except.bind_error.mp h with hconf | ⟨x, -, hx⟩
          · cases confidence_of_error hconf
          · cases hx
        · obtain ⟨x, hx, hj⟩ := Except.bind_ok.mp hj
          rw [hdata] at hd'
          cases hd'
          cases hj
          exact ⟨x, hx, hsound⟩
      · rintro ⟨x, hx, hsound⟩
        refine .inr ⟨_, d, Except.bind_ok.mpr ⟨x, hx, rfl⟩, hdata, ?_, hsound, length_reason_of d⟩
        dsimp only
        split
        · assumption
        · exact hdefault
    · have hraises : (single_data rt text >>= single_of rt allowed_verdicts default_verdict) =
          .error .attribute_error := by
        rw [hdata]
        cases x with
        | obj d => exact absurd rfl (hx d)
        | _ => rfl
      refine iff_of_false ?_ htame
      rintro (⟨msg, h⟩ | ⟨j, d, h, -⟩)
      · cases hraises.symm.trans h
      · cases hraises.symm.trans h
    · rw [hdata]
      exact iff_of_true (.inl ⟨msg, rfl⟩) htame
    · rw [hdata]
      refine iff_of_false ?_ htame
      rintro (⟨msg, h⟩ | ⟨j, d, h, -⟩)
      · cases h
      · cases h

/-! ## All answers -/

variable (rt allowed_ids) in
/-- **Answers of a judge.** A response is answered with a `ValueError` or with proper judgments
exactly if it is tame. -/
theorem parsing_meets_iff (allowed_verdicts : List String) (default_verdict : String)
    (hdefault : default_verdict ∈ allowed_verdicts) (response : Option String) :
    (BatchMeets rt allowed_ids response ↔
      (response.getD "" ≠ "" → TameText rt allowed_ids (text_of (response.getD "")))) ∧
    (SingleMeets rt allowed_verdicts default_verdict response ↔
      (response.getD "" ≠ "" → TameSingle rt (text_of (response.getD "")))) :=
  ⟨batch_meets_iff response, single_meets_iff hdefault response⟩

def NECESSITY_VERDICTS : List String := ["DURABLE", "BORN_UNNECESSARY", "EXPIRING"]

/-- A judgment whose confidence is no number. -/
def nan_response : String := "\x7b\"confidence\":NaN\x7d"

/-- The response with `NaN` decides both conditions. -/
theorem necessity_meets_iff :
    (BatchMeets .plain ["a"] (some nan_response) ↔
      ((some nan_response).getD "" ≠ "" →
        TameText .plain ["a"] (text_of ((some nan_response).getD "")))) ∧
    (SingleMeets .plain NECESSITY_VERDICTS "DURABLE" (some nan_response) ↔
      ((some nan_response).getD "" ≠ "" →
        TameSingle .plain (text_of ((some nan_response).getD "")))) :=
  parsing_meets_iff .plain ["a"] NECESSITY_VERDICTS "DURABLE" (by decide) (some nan_response)

/-- `NaN` becomes full confidence. -/
theorem nan_at_full_confidence :
    ¬ SingleMeets .plain NECESSITY_VERDICTS "DURABLE" (some nan_response) := by
  have hload :
      json_loads Runtime.plain.language false (text_of ((some nan_response).getD "")).toList =
      .ok (.obj [("confidence", .float .nan)]) := by decide +kernel
  rw [single_meets_iff (by decide)]
  intro h
  have htame := h (by decide +kernel)
  rw [TameSingle, hload] at htame
  exact htame.2.1 (by decide +kernel)

end Memline.judge
