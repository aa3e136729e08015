/-
What is salvaged of an answer that was cut off.

A batch of judgments that ends too early does not decode, and the objects in it are found by a
pattern: an opening brace, no braces, a verdict, no braces, a closing brace. An object with a brace
in one of its texts is not found, however complete it is; and what the pattern finds instead, inside
of a text or at the start of an object that goes on, never decodes. So what is salvaged are the
complete objects that have no brace in them, each once and in order (`picked_cut`), and the answer
is right as long as these are all.
-/
import Memline.Judge
import Memline.Lib.Language
import Memline.Lib.Matching

set_option autoImplicit false

namespace Memline.judge

open Py Py.JsonText Regex

/-! ## The pattern -/

/-- No braces, and a verdict. -/
structure Body (w : List Char) : Prop where
  plain : ∀ c ∈ w, is_brace c = false
  verdict : VERDICT_KEY <:+: w

/-- What the pattern reads with a body. -/
def braced (w : List Char) : List Char := '\x7b' :: (w ++ ['\x7d'])

/-- The body that the pattern reads, and the text behind it. -/
def judgment_at : List Char → Option (List Char × List Char)
  | '\x7b' :: l =>
    match l.dropWhile fun c => !is_brace c with
    | '\x7d' :: r =>
      if VERDICT_KEY <:+: l.takeWhile fun c => !is_brace c then
        some (l.takeWhile fun c => !is_brace c, r)
      else none
    | _ => none
  | _ => none

theorem takeWhile_body {w r : List Char} (h : ∀ c ∈ w, is_brace c = false) :
    (w ++ '\x7d' :: r).takeWhile (fun c => !is_brace c) = w ∧
      (w ++ '\x7d' :: r).dropWhile (fun c => !is_brace c) = '\x7d' :: r := by
  have hw : ∀ c ∈ w, (!is_brace c) = true := fun c hc => by rw [h c hc]; rfl
  rw [List.takeWhile_append_of_pos hw, List.dropWhile_append_of_pos hw,
    List.takeWhile_cons_of_neg (by decide), List.dropWhile_cons_of_neg (by decide), List.append_nil]
  exact ⟨rfl, rfl⟩

/-- A judgment stands in front where a brace, a body and a brace do. -/
theorem judgment_at_iff {l w r : List Char} :
    judgment_at l = some (w, r) ↔ l = '\x7b' :: (w ++ '\x7d' :: r) ∧ Body w := by
  constructor
  · intro h
    unfold judgment_at at h
    split at h
    · rename_i l
      split at h
      · rename_i rest hrest
        split at h
        · rename_i hverdict
          cases h
          refine ⟨?_, fun c hc => ?_, hverdict⟩
          · rw [← hrest, List.takeWhile_append_dropWhile]
          · simpa using List.mem_takeWhile_imp hc
        · cases h
      · cases h
    · cases h
  · rintro ⟨rfl, hbody⟩
    obtain ⟨htake, hdrop⟩ := @takeWhile_body w r hbody.plain
    simp only [judgment_at, htake, hdrop]
    exact if_pos hbody.verdict

/-- The words of the pattern are bodies in braces. -/
theorem mem_judgment {w : List Char} :
    w ∈ language (.seq (char '\x7b') (.seq (few (one fun c => !is_brace c)) (.seq (lit VERDICT_KEY)
      (.seq (few (one fun c => !is_brace c)) (char '\x7d'))))) ↔ ∃ v, w = braced v ∧ Body v := by
  have hfew : ∀ u, u ∈ language (few (one fun c => !is_brace c)) ↔ ∀ c ∈ u, is_brace c = false := by
    intro u
    refine (mem_language_many (f := fun c => !is_brace c)).trans (forall₂_congr fun c _ => ?_)
    cases is_brace c <;> simp
  have hchar : ∀ c u, u ∈ language (char c) ↔ u = [c] := by
    intro c u
    constructor
    · rintro ⟨d, hd, rfl⟩
      rw [beq_iff_eq.mp hd]
    · rintro rfl
      exact ⟨c, beq_self_eq_true c, rfl⟩
  simp only [language, Language.mem_mul, hchar]
  constructor
  · rintro ⟨_, rfl, _, ⟨a, ha, _, ⟨k, hk, _, ⟨b, hb, _, rfl, rfl⟩, rfl⟩, rfl⟩, rfl⟩
    rw [mem_language_lit] at hk
    subst hk
    refine ⟨a ++ VERDICT_KEY ++ b, by simp [braced], ?_, List.infix_append a VERDICT_KEY b⟩
    intro c hc
    rw [List.mem_append, List.mem_append] at hc
    rcases hc with (hc | hc) | hc
    · exact (hfew a).mp ha c hc
    · revert c
      decide
    · exact (hfew b).mp hb c hc
  · rintro ⟨v, rfl, hplain, a, b, rfl⟩
    refine ⟨_, rfl, _, ⟨a, (hfew a).mpr fun c hc => hplain c (by simp [hc]), _,
      ⟨_, mem_language_lit.mpr rfl, _,
        ⟨b, (hfew b).mpr fun c hc => hplain c (by simp [hc]), _, rfl, rfl⟩, rfl⟩, rfl⟩, ?_⟩
    simp [braced]

/-- The pattern reads a body in braces, and in one way. -/
theorem matchAt_judgment (p : Place) : matchAt JUDGMENT p =
    (judgment_at p.after).map fun e => { p.skip (braced e.1) with captured := braced e.1 } := by
  have hplain :
      Plain (.seq (char '\x7b') (.seq (few (one fun c => !is_brace c)) (.seq (lit VERDICT_KEY)
      (.seq (few (one fun c => !is_brace c)) (char '\x7d'))))) :=
    ⟨trivial, trivial, plain_lit _, trivial, trivial⟩
  -- the pattern reads in one way only, so any match is the first
  have hrun : ∀ q, q ∈ run JUDGMENT p ↔ ∃ w r, judgment_at p.after = some (w, r) ∧
      q = { p.skip (braced w) with captured := braced w } := by
    intro q
    rw [JUDGMENT, mem_run_group hplain]
    constructor
    · rintro ⟨_, hw, hafter, hq⟩
      obtain ⟨v, rfl, hbody⟩ := mem_judgment.mp hw
      refine ⟨v, q.after, judgment_at_iff.mpr ⟨?_, hbody⟩, hq⟩
      rw [hafter]
      simp [braced]
    · rintro ⟨w, r, hread, rfl⟩
      obtain ⟨hafter, hbody⟩ := judgment_at_iff.mp hread
      refine ⟨braced w, mem_judgment.mpr ⟨w, rfl, hbody⟩, ?_, rfl⟩
      have hsplit : p.after = braced w ++ r := by
        rw [hafter]
        simp [braced]
      simp only [Place.skip]
      rw [hsplit, List.drop_left]
  rw [matchAt]
  cases hread : judgment_at p.after with
  | none =>
    have hnil : run JUDGMENT p = [] := by
      apply List.eq_nil_iff_forall_not_mem.mpr
      intro q hq
      obtain ⟨w, r, h, -⟩ := (hrun q).mp hq
      rw [hread] at h
      cases h
    rw [hnil]
    rfl
  | some e =>
    cases hall : run JUDGMENT p with
    | nil =>
      have hmem := (hrun _).mpr ⟨e.1, e.2, hread, rfl⟩
      rw [hall] at hmem
      exact absurd hmem List.not_mem_nil
    | cons q qs =>
      obtain ⟨w, r, h, rfl⟩ := (hrun q).mp (hall ▸ List.mem_cons_self)
      rw [hread] at h
      cases h
      rfl

/-! ## What it finds -/

/-- The bodies that are found, from left to right. -/
def bodies : List Char → List (List Char)
  | [] => []
  | c :: l =>
    match _h : judgment_at (c :: l) with
    | some (w, r) => w :: bodies r
    | none => bodies l
termination_by l => l.length
decreasing_by
  · obtain ⟨hsplit, -⟩ := judgment_at_iff.mp _h
    have hlength := congrArg List.length hsplit
    simp only [List.length_cons, List.length_append] at hlength ⊢
    omega
  · simp

theorem bodies_found {l w r : List Char} (h : judgment_at l = some (w, r)) :
    bodies l = w :: bodies r := by
  obtain ⟨hsplit, -⟩ := judgment_at_iff.mp h
  subst hsplit
  rw [bodies]
  split
  · rename_i heq
    rw [h] at heq
    cases heq
    rfl
  · rename_i heq
    rw [h] at heq
    cases heq

/-- Where none stands, a character is passed over. -/
theorem bodies_skip {c : Char} {l : List Char} (h : judgment_at (c :: l) = none) :
    bodies (c :: l) = bodies l := by
  rw [bodies]
  split
  · rename_i heq
    rw [h] at heq
    cases heq
  · rfl

/-- The pattern finds the bodies, one after the other. -/
theorem findall_judgment (text : List Char) : findall JUDGMENT text = (bodies text).map braced := by
  obtain ⟨given, hgiven, hplain, hfound⟩ : ∃ given : Piece → Option (List Char),
      findall JUDGMENT text = (pieces JUDGMENT text.length [] text).filterMap given ∧
        (∀ c, given (.plain c) = none) ∧ ∀ w captured, given (.found w captured) = some captured :=
    ⟨_, rfl, fun _ => rfl, fun _ _ => rfl⟩
  -- the scan goes on behind a match, and one character later where there is none
  have hpieces : ∀ (n : ℕ) (before l : List Char), l.length ≤ n →
      (pieces JUDGMENT n before l).filterMap given = (bodies l).map braced := by
    intro n
    induction n with
    | zero =>
      intro before l hl
      rw [List.eq_nil_of_length_eq_zero (Nat.le_zero.mp hl), bodies]
      rfl
    | succ n ih =>
      intro before l hl
      cases l with
      | nil =>
        rw [bodies]
        rfl
      | cons c l =>
        rw [List.length_cons] at hl
        have hmatch := matchAt_judgment ⟨before, c :: l, []⟩
        rw [pieces, hmatch]
        cases hread : judgment_at (c :: l) with
        | none =>
          rw [bodies_skip hread]
          exact (List.filterMap_cons_none (hplain c)).trans (ih _ l (by omega))
        | some e =>
          obtain ⟨w, r⟩ := e
          have hafter : c :: l = braced w ++ r := by
            rw [(judgment_at_iff.mp hread).1]
            simp [braced]
          have hrest : (c :: l).drop (braced w).length = r := by rw [hafter, List.drop_left]
          have hlength := congrArg List.length hafter
          simp only [List.length_cons, List.length_append, braced] at hlength
          rw [bodies_found hread]
          simp only [Option.map_some, Place.skip, hrest]
          rw [if_pos (by omega)]
          exact (List.filterMap_cons_some (hfound _ _)).trans (congrArg _ (ih _ r (by omega)))
  rw [hgiven]
  exact hpieces text.length [] text le_rfl

/-- What is found is a body between braces of the text. -/
theorem mem_bodies {l w : List Char} (h : w ∈ bodies l) :
    ∃ s r, l = s ++ '\x7b' :: (w ++ '\x7d' :: r) ∧ Body w := by
  fun_induction bodies l with
  | case1 => cases h
  | case2 c l v r hread ih =>
    obtain ⟨hsplit, hbody⟩ := judgment_at_iff.mp hread
    rcases List.mem_cons.mp h with rfl | h
    · exact ⟨[], r, hsplit, hbody⟩
    · obtain ⟨s, r', rfl, hw⟩ := ih h
      exact ⟨'\x7b' :: (v ++ '\x7d' :: s), r', by rw [hsplit]; simp, hw⟩
  | case3 c l hread ih =>
    obtain ⟨s, r, rfl, hw⟩ := ih h
    exact ⟨c :: s, r, rfl, hw⟩

/-- More text behind a judgment does not change it. -/
theorem judgment_at_append {l w r : List Char} (h : judgment_at l = some (w, r)) (z : List Char) :
    judgment_at (l ++ z) = some (w, r ++ z) := by
  obtain ⟨rfl, hbody⟩ := judgment_at_iff.mp h
  exact judgment_at_iff.mpr ⟨by simp, hbody⟩

/-- Nothing is found before the first opening brace. -/
theorem bodies_before {g : List Char} (hg : '\x7b' ∉ g) (r : List Char) :
    bodies (g ++ r) = bodies r := by
  induction g with
  | nil => rfl
  | cons c g ih =>
    rw [List.mem_cons, not_or] at hg
    have hnone : judgment_at (c :: (g ++ r)) = none := by
      cases hread : judgment_at (c :: (g ++ r)) with
      | none => rfl
      | some e => exact absurd (List.cons.inj (judgment_at_iff.mp hread).1).1.symm hg.1
    rw [List.cons_append, bodies_skip hnone]
    exact ih hg.2

theorem bodies_unclosed {l : List Char} (h : '\x7d' ∉ l) : bodies l = [] := by
  apply List.eq_nil_iff_forall_not_mem.mpr
  intro w hw
  obtain ⟨s, r, rfl, -⟩ := mem_bodies hw
  exact h (by simp)

/-- A body that starts before a closing brace ends there at the latest. -/
theorem closes_within {l r w z : List Char} (h : l ++ '\x7d' :: r = w ++ '\x7d' :: z)
    (hw : ∀ c ∈ w, is_brace c = false) : ∃ a, l ++ ['\x7d'] = w ++ '\x7d' :: a ∧ z = a ++ r := by
  induction w generalizing l with
  | nil =>
    cases l with
    | nil => exact ⟨[], rfl, (List.cons.inj h).2.symm⟩
    | cons c l =>
      obtain ⟨rfl, rfl⟩ := List.cons.inj h
      exact ⟨l ++ ['\x7d'], rfl, by simp⟩
  | cons d w ih =>
    obtain ⟨hd, hplain⟩ := List.forall_mem_cons.mp hw
    cases l with
    | nil =>
      obtain ⟨rfl, -⟩ := List.cons.inj h
      cases hd
    | cons c l =>
      obtain ⟨rfl, hrest⟩ := List.cons.inj h
      obtain ⟨a, hl, hz⟩ := ih hrest hplain
      exact ⟨a, by rw [List.cons_append, hl, List.cons_append], hz⟩

/-- Nothing that is found goes beyond a closing brace. -/
theorem bodies_closed (r : List Char) {n : ℕ} : ∀ l : List Char, l.length ≤ n →
    bodies (l ++ '\x7d' :: r) = bodies (l ++ ['\x7d']) ++ bodies r := by
  have hclose : ∀ z : List Char, bodies ('\x7d' :: z) = bodies z :=
    fun z => bodies_before (g := ['\x7d']) (by simp) z
  induction n with
  | zero =>
    intro l hl
    rw [List.eq_nil_of_length_eq_zero (Nat.le_zero.mp hl), List.nil_append, List.nil_append, hclose,
      hclose, bodies]
    rfl
  | succ n ih =>
    intro l hl
    cases l with
    | nil =>
      rw [List.nil_append, List.nil_append, hclose, hclose, bodies]
      rfl
    | cons c l =>
      rw [List.length_cons] at hl
      rw [List.cons_append, List.cons_append]
      cases hread : judgment_at (c :: (l ++ '\x7d' :: r)) with
      | some e =>
        obtain ⟨w, z⟩ := e
        obtain ⟨hsplit, hbody⟩ := judgment_at_iff.mp hread
        obtain ⟨rfl, htail⟩ := List.cons.inj hsplit
        obtain ⟨a, hl', rfl⟩ := closes_within htail hbody.plain
        have hshort : judgment_at ('\x7b' :: (l ++ ['\x7d'])) = some (w, a) :=
          judgment_at_iff.mpr ⟨by rw [hl'], hbody⟩
        rw [bodies_found hread, bodies_found hshort, List.cons_append]
        refine congrArg _ ?_
        -- what is left before the brace ends in it, or is nothing
        rcases List.eq_nil_or_concat a with rfl | ⟨a', d, rfl⟩
        · rw [List.nil_append, bodies]
          rfl
        · rw [List.concat_eq_append] at hl' ⊢
          have hlast : l ++ ['\x7d'] = (w ++ '\x7d' :: a') ++ [d] := by rw [hl']; simp
          obtain ⟨hfront, hd⟩ := List.append_inj' hlast rfl
          obtain rfl := List.singleton_inj.mp hd
          have hlength := congrArg List.length hfront
          simp only [List.length_cons, List.length_append] at hlength
          rw [List.append_assoc]
          exact ih a' (by omega)
      | none =>
        have hshort : judgment_at (c :: (l ++ ['\x7d'])) = none := by
          cases hmore : judgment_at (c :: (l ++ ['\x7d'])) with
          | none => rfl
          | some e =>
            have hlong := judgment_at_append hmore r
            rw [List.cons_append, List.append_assoc, List.singleton_append, hread] at hlong
            cases hlong
        rw [bodies_skip hread, bodies_skip hshort]
        exact ih l (by omega)

/-- A character behind a stretch that does not have it lies before that stretch. -/
theorem ends_before {c : Char} {b x y z : List Char} (hb : c ∉ b) (h : x ++ b = y ++ c :: z) :
    ∃ a, x = y ++ c :: a := by
  rcases List.append_eq_append_iff.mp h with ⟨a, rfl, hrest⟩ | ⟨a, rfl, hrest⟩
  · exact absurd (by rw [hrest]; simp) hb
  · cases a with
    | nil => exact absurd (by rw [← List.nil_append b, ← hrest]; simp) hb
    | cons d a =>
      obtain ⟨rfl, -⟩ := List.cons.inj hrest
      exact ⟨a, rfl⟩

/-- Text without braces behind the end makes no difference. -/
theorem bodies_behind {b : List Char} (hb : ∀ c ∈ b, is_brace c = false) (l : List Char) :
    bodies (l ++ b) = bodies l := by
  have hnone : bodies b = [] := bodies_unclosed fun h => by cases hb _ h
  fun_induction bodies l with
  | case1 => exact hnone
  | case2 c l w r hread ih =>
    rw [bodies_found (judgment_at_append hread b), ih]
  | case3 c l hread ih =>
    have hmore : judgment_at (c :: l ++ b) = none := by
      cases hmore : judgment_at (c :: l ++ b) with
      | none => rfl
      | some e =>
        obtain ⟨w, z⟩ := e
        obtain ⟨hsplit, hbody⟩ := judgment_at_iff.mp hmore
        have hno : '\x7d' ∉ b := fun h => by cases hb _ h
        obtain ⟨a, ha⟩ := @ends_before _ b (c :: l) ('\x7b' :: w) z hno hsplit
        rw [judgment_at_iff.mpr ⟨ha, hbody⟩] at hread
        cases hread
    rw [List.cons_append] at hmore ⊢
    rw [bodies_skip hmore, ih]

/-- A character before a stretch that does not have it lies behind that stretch. -/
theorem starts_after {c : Char} {p x s y : List Char} (hp : c ∉ p) (h : p ++ x = s ++ c :: y) :
    ∃ a, s = p ++ a ∧ x = a ++ c :: y := by
  rcases List.append_eq_append_iff.mp h with ⟨a, rfl, hrest⟩ | ⟨a, rfl, hrest⟩
  · exact ⟨a, rfl, hrest⟩
  · cases a with
    | nil => exact ⟨[], by simp, hrest.symm⟩
    | cons d a =>
      obtain ⟨rfl, -⟩ := List.cons.inj hrest
      exact absurd (by simp) hp

/-! ## Objects as they are written -/

/-- A judgment in the documented format, with any white space and with any escapes in its texts. -/
structure Written (L : Language) where
  id : String
  verdict : String
  confidence : ℚ
  reason : String
  id_raw : List Char
  verdict_raw : List Char
  stated : Json
  number : List Char
  reason_raw : List Char
  blanks : ℕ → List Char
  before : List Char
  after : List Char
  id_spelled : Spelled false id_raw id.toList
  verdict_spelled : Spelled false verdict_raw verdict.toList
  reason_spelled : Spelled false reason_raw reason.toList
  stated_eq : stated = .float (.finite confidence) ∨ ∃ n : ℤ, stated = .int n ∧ confidence = n
  token : Token L number stated
  in_unit : 0 ≤ confidence ∧ confidence ≤ 1
  known : verdict ∈ VERDICTS
  blank : ∀ n, Blank (blanks n)
  blank_before : Blank before
  blank_after : Blank after

def in_quotes (raw : List Char) : List Char := '"' :: (raw ++ ['"'])

/-- A field, and what follows it. -/
def field_text (blanks : ℕ → List Char) (n : ℕ) (key value rest : List Char) : List Char :=
  blanks (4 * n) ++ (in_quotes key ++
    (blanks (4 * n + 1) ++ (':' :: (blanks (4 * n + 2) ++ (value ++
    (blanks (4 * n + 3) ++ rest))))))

variable {L : Language}

namespace Written

/-- The fields, and what follows them. -/
def fields (e : Written L) (rest : List Char) : List Char :=
  field_text e.blanks 0 "id".toList (in_quotes e.id_raw) <| ',' ::
    (field_text e.blanks 1 "verdict".toList (in_quotes e.verdict_raw) <| ',' ::
      (field_text e.blanks 2 "confidence".toList e.number <| ',' ::
        field_text e.blanks 3 "reason".toList (in_quotes e.reason_raw) rest))

def text (e : Written L) : List Char := '\x7b' :: e.fields ['\x7d']

def dict (e : Written L) : Dict :=
  [("id", .str e.id), ("verdict", .str e.verdict), ("confidence", e.stated),
    ("reason", .str e.reason)]

/-- What is between the braces. -/
def inner (e : Written L) : List Char := e.fields []

/-- The fields of an entry, and what follows them. -/
theorem fields_append (e : Written L) (rest : List Char) : e.fields rest = e.inner ++ rest := by
  simp [inner, fields, field_text]

theorem text_eq (e : Written L) : e.text = braced e.inner := by rw [text, fields_append, braced]

theorem text_spells (e : Written L) : Spells ⟨L, false⟩ (.obj e.dict) e.text := by
  have hkey : ∀ key ∈ ["id", "verdict", "confidence", "reason"],
      Spelled false key.toList key.toList := by
    intro key hkey
    refine spelled_plain ?_
    revert key
    decide
  -- the four fields with the space about each, and then their values
  simp only [dict, text, fields, field_text]
  unfold Spells SpellsFields SpellsFields SpellsFields SpellsFields
  refine ⟨e.blanks 0, _, e.blanks 1, e.blanks 2, in_quotes e.id_raw, e.blanks 3, _, e.blank 0,
    hkey "id" (by simp), e.blank 1, e.blank 2, ?_, e.blank 3,
    ⟨e.blanks 4, _, e.blanks 5, e.blanks 6, in_quotes e.verdict_raw, e.blanks 7, _,
      e.blank 4, hkey "verdict" (by simp), e.blank 5, e.blank 6, ?_, e.blank 7,
      ⟨e.blanks 8, _, e.blanks 9, e.blanks 10,
        e.number, e.blanks 11, _, e.blank 8, hkey "confidence" (by simp), e.blank 9, e.blank 10,
        ?_, e.blank 11,
        ⟨e.blanks 12, _, e.blanks 13, e.blanks 14, in_quotes e.reason_raw, e.blanks 15,
          _, e.blank 12, hkey "reason" (by simp), e.blank 13, e.blank 14, ?_, e.blank 15, rfl, rfl⟩,
          rfl⟩, rfl⟩, rfl⟩
  · unfold Spells
    exact ⟨_, e.id_spelled, rfl⟩
  · unfold Spells
    exact ⟨_, e.verdict_spelled, rfl⟩
  · have htoken := e.token
    rcases e.stated_eq with hstated | ⟨n, hstated, -⟩
    · rw [hstated] at htoken ⊢
      unfold Spells
      exact htoken
    · rw [hstated] at htoken ⊢
      unfold Spells
      exact htoken
  · unfold Spells
    exact ⟨_, e.reason_spelled, rfl⟩

theorem dict_distinct (e : Written L) : Distinct (.obj e.dict) := by
  rcases e.stated_eq with hstated | ⟨n, hstated, -⟩
  · simp [Distinct, DistinctFields, dict, hstated]
  · simp [Distinct, DistinctFields, dict, hstated]

theorem dict_depth (e : Written L) : depth (.obj e.dict) = 1 := by
  rcases e.stated_eq with hstated | ⟨n, hstated, -⟩
  · simp [depth, depthFields, dict, hstated]
  · simp [depth, depthFields, dict, hstated]

/-- The text of an object is read as that object, and no part of it is read. -/
theorem loads_text (e : Written L) (hdepth : 1 ≤ L.max_depth) :
    json_loads L false e.text = .ok (.obj e.dict) :=
  loads_spelled (D := ⟨L, false⟩) e.text_spells e.dict_distinct (by rw [e.dict_depth]; exact hdepth)

theorem loads_part (e : Written L) (hdepth : 1 ≤ L.max_depth) {u : List Char} (hu : u <+: e.text)
    (hne : u ≠ e.text) : json_loads L false u = .error .decode :=
  loads_unfinished (D := ⟨L, false⟩) e.text_spells e.dict_distinct (by
    rw [e.dict_depth]; exact hdepth) rfl hu hne

end Written

/-! ## What does not decode -/

/-- A text is blank, or has a first character that is no space. -/
theorem blank_or_head (y : List Char) :
    Blank y ∨ ∃ b c rest, y = b ++ c :: rest ∧ Blank b ∧ is_space c = false := by
  induction y with
  | nil => exact .inl blank_nil
  | cons d y ih =>
    cases hd : is_space d with
    | false => exact .inr ⟨[], d, y, rfl, blank_nil, hd⟩
    | true =>
      rcases ih with hblank | ⟨b, c, rest, rfl, hb, hc⟩
      · exact .inl (List.forall_mem_cons.mpr ⟨hd, hblank⟩)
      · exact .inr ⟨d :: b, c, rest, rfl, List.forall_mem_cons.mpr ⟨hd, hb⟩, hc⟩

/-- The start of an object and the white space behind it. -/
theorem reads_open (hdepth : 1 ≤ L.max_depth) {b : List Char} (hb : Blank b) :
    Reads ⟨L, false⟩ ⟨[], .value⟩ ('\x7b' :: b) ⟨[.object []], .key_or_end⟩ := by
  refine .cons (m := ⟨[.object []], .key_or_end⟩) rfl ?_
    (reads_space rfl (fun c hc => by simp [step, hc]) hb)
  simp only [step, value_step, is_space]
  exact open_ok hdepth

theorem loads_of_error {D : Decoder} {t rest : List Char} {s : State} {c : Char}
    (h : Reads D ⟨[], .value⟩ t s) (hstep : step D s c = .error .decode) :
    loads D (t ++ c :: rest) = .error .decode := by
  rw [loads, run_append, h.run]
  change (run D s (c :: rest) >>= _) = _
  rw [run_cons, hstep]
  rfl

/-- An object begins with a quote. -/
theorem loads_no_key (hdepth : 1 ≤ L.max_depth) {b rest : List Char} {c : Char} (hb : Blank b)
    (hspace : is_space c = false) (hquote : c ≠ '"') (hclose : c ≠ '\x7d') :
    json_loads L false ('\x7b' :: (b ++ c :: rest)) = .error .decode := by
  refine loads_of_error (t := '\x7b' :: b) (reads_open hdepth hb) ?_
  simp [step, hspace, hquote, hclose]

/-- A key is followed by a colon. -/
theorem loads_no_colon (hdepth : 1 ≤ L.max_depth) {b q rest : List Char} (hb : Blank b)
    (hq : ∀ c ∈ q, c ≠ '"' ∧ c ≠ '\\') :
    json_loads L false ('\x7b' :: (b ++ '"' :: (q ++ '"' :: 'v' :: rest))) = .error .decode := by
  have hquote : Reads ⟨L, false⟩ ⟨[.object []], .key_or_end⟩ ['"'] ⟨[.object []],
      .string [] .none⟩ :=
    .one rfl (by simp [step, is_space])
  have hspelled : Spelled false q (String.ofList q).toList := by
    rw [String.toList_ofList]
    exact spelled_plain hq
  have hkey := @reads_string ⟨L, false⟩ [.object []] _ _ hspelled
  rw [close_string_key] at hkey
  have hread := (reads_open hdepth hb).append (hquote.append hkey)
  have hsplit : '\x7b' :: (b ++ '"' :: (q ++ '"' :: 'v' :: rest)) =
      ('\x7b' :: b ++ (['"'] ++ (q ++ ['"']))) ++ 'v' :: rest := by
    simp
  rw [hsplit]
  exact loads_of_error hread (by simp [step, is_space])

/-- Inside of a text there is no verdict: its second quote has no backslash before it. -/
theorem no_verdict_within {y s w : List Char} (h : Spelled false y s) (hw : w <+: y) :
    ¬ VERDICT_KEY <:+: w := by
  intro hverdict
  obtain ⟨a, b, hsplit⟩ := hverdict.trans hw.isInfix
  have hkey : VERDICT_KEY = "\"verdict".toList ++ ['"'] := by decide
  have hquote : y = (a ++ "\"verdict".toList) ++ '"' :: b := by
    rw [← hsplit, hkey]
    simp
  obtain ⟨a', hlast⟩ := h.quote_escaped hquote
  have hends : a ++ "\"verdict".toList = (a ++ "\"verdic".toList) ++ ['t'] := by simp
  rw [hends] at hlast
  cases (List.append_inj' hlast rfl).2

/-- A body that begins inside of a text: it goes on beyond it, and either does not decode or has
only white space left of the text. -/
theorem body_in_text (hdepth : 1 ≤ L.max_depth) {y s w r rest : List Char} (hy : Spelled false y s)
    (hw : Body w) (h : y ++ '"' :: rest = w ++ '\x7d' :: r) :
    ∃ z, w = y ++ '"' :: z ∧ rest = z ++ '\x7d' :: r ∧
      (json_loads L false (braced w) = .error .decode ∨ Blank y) := by
  rcases List.append_eq_append_iff.mp h with ⟨a, rfl, hrest⟩ | ⟨a, rfl, hrest⟩
  · cases a with
    | nil => exact absurd (List.cons.inj hrest).1 (by decide)
    | cons d z =>
      obtain ⟨rfl, rfl⟩ := List.cons.inj hrest
      refine ⟨z, rfl, rfl, ?_⟩
      rcases blank_or_head y with hblank | ⟨b, c, rest, rfl, hb, hc⟩
      · exact .inr hblank
      · refine .inl ?_
        have hquote : c ≠ '"' := by
          rintro rfl
          obtain ⟨b', rfl⟩ := hy.quote_escaped rfl
          cases hb '\\' (by simp)
        have hclose : c ≠ '\x7d' := by
          rintro rfl
          cases hw.plain '\x7d' (by simp)
        have hsplit : braced (b ++ c :: rest ++ '"' :: z) =
            '\x7b' :: (b ++ c :: (rest ++ '"' :: (z ++ ['\x7d']))) := by
          simp [braced]
        rw [hsplit]
        exact loads_no_key hdepth hb hc hquote hclose
  · have hwithin : w <+: w ++ a := List.prefix_append w a
    exact absurd hw.verdict (no_verdict_within hy hwithin)

namespace Written

theorem notMem_blanks (e : Written L) {c : Char} (hc : is_space c = false) (n : ℕ) :
    c ∉ e.blanks n := by
  intro h
  rw [e.blank n c h] at hc
  cases hc

theorem brace_notMem_verdict (e : Written L) {c : Char} (hc : c = '\x7b' ∨ c = '\x7d') :
    c ∉ e.verdict_raw := by
  intro hmem
  obtain ⟨a, b, hsplit⟩ := List.append_of_mem hmem
  have hin : c ∈ e.verdict.toList := by
    rcases hc with rfl | rfl
    · exact (e.verdict_spelled.behind (by decide) (by decide) (by decide) rfl hsplit).1
    · exact (e.verdict_spelled.behind (by decide) (by decide) (by decide) rfl hsplit).1
  have hknown : ∀ v ∈ VERDICTS, '\x7b' ∉ v.toList ∧ '\x7d' ∉ v.toList := by decide
  rcases hc with rfl | rfl
  · exact (hknown _ e.known).1 hin
  · exact (hknown _ e.known).2 hin

theorem brace_notMem_number (e : Written L) {c : Char} (hc : c = '\x7b' ∨ c = '\x7d') :
    c ∉ e.number := by
  intro hmem
  have hbare := e.token.bare c hmem
  rcases hc with rfl | rfl
  · cases hbare
  · cases hbare

/-- What stands before the id, between the id and the reason. -/
def before_id (e : Written L) : List Char :=
  e.blanks 0 ++ (in_quotes "id".toList ++ (e.blanks 1 ++ (':' :: (e.blanks 2 ++ ['"']))))

def before_reason (e : Written L) : List Char :=
  e.blanks 3 ++ (',' :: field_text e.blanks 1 "verdict".toList (in_quotes e.verdict_raw) (',' ::
    (field_text e.blanks 2 "confidence".toList e.number (',' ::
      (e.blanks 12 ++ (in_quotes "reason".toList ++
        (e.blanks 13 ++ (':' :: (e.blanks 14 ++ ['"'])))))))))

/-- The fields of an entry, with what lies before its id and before its reason. -/
theorem fields_eq (e : Written L) (rest : List Char) : e.fields rest =
    e.before_id ++ (e.id_raw ++ '"' ::
      (e.before_reason ++ (e.reason_raw ++ '"' :: (e.blanks 15 ++ rest)))) := by
  simp [fields, field_text, before_id, before_reason, in_quotes]

theorem notMem_before_id (e : Written L) : '\x7b' ∉ e.before_id := by
  have hblank : ∀ n, '\x7b' ∉ e.blanks n := e.notMem_blanks (by decide)
  simp [before_id, in_quotes, hblank]

/-- No brace lies between the id and the reason. -/
theorem notMem_before_reason (e : Written L) : '\x7b' ∉ e.before_reason := by
  have hblank : ∀ n, '\x7b' ∉ e.blanks n := e.notMem_blanks (by decide)
  simp [before_reason, field_text, in_quotes, hblank, e.brace_notMem_verdict (.inl rfl),
    e.brace_notMem_number (.inl rfl)]

/-- Between the id and the reason the key of the verdict comes first. -/
theorem before_reason_prefix (e : Written L) :
    e.blanks 3 ++ ',' :: (e.blanks 4 ++ ['"', 'v']) <+: e.before_reason := by
  rw [before_reason, field_text]
  refine (List.prefix_append_right_inj _).mpr (List.cons_prefix_cons.mpr ⟨rfl,
    (List.prefix_append_right_inj _).mpr ?_⟩)
  exact ⟨_, rfl⟩

/-- What the pattern finds inside of an object does not decode. -/
theorem inner_fails (e : Written L) (hdepth : 1 ≤ L.max_depth) {s w r : List Char}
    (h : e.fields ['\x7d'] = s ++ '\x7b' :: (w ++ '\x7d' :: r)) (hw : Body w) :
    json_loads L false (braced w) = .error .decode := by
  have hblank : ∀ n, '\x7b' ∉ e.blanks n := e.notMem_blanks (by decide)
  -- an opening brace stands in the text or behind it, never in the quote that ends it
  have hopen : ∀ {raw z : List Char} {t : String} {s : List Char}
      {y : List Char}, Spelled false raw t.toList →
      raw ++ '"' :: z = s ++ '\x7b' :: y →
      (∃ y' t', Spelled false y' t' ∧ y = y' ++ '"' :: z) ∨ ∃ s', z = s' ++ '\x7b' :: y := by
    intro raw z t s y hraw hsplit
    rcases List.append_eq_append_iff.mp hsplit with ⟨a, rfl, hrest⟩ | ⟨a, rfl, hrest⟩
    · cases a with
      | nil => exact absurd (List.cons.inj hrest).1 (by decide)
      | cons d a => exact .inr ⟨a, (List.cons.inj hrest).2⟩
    · cases a with
      | nil => exact absurd (List.cons.inj hrest).1 (by decide)
      | cons d a =>
        obtain ⟨rfl, rfl⟩ := List.cons.inj hrest
        obtain ⟨-, t', ht'⟩ := hraw.behind (by decide) (by decide) (by decide) rfl rfl
        exact .inl ⟨a, t', ht', rfl⟩
  rw [e.fields_eq] at h
  obtain ⟨s₁, -, h₁⟩ := starts_after e.notMem_before_id h
  -- the brace is in the id, in the reason, or between the two, where there is none
  rcases hopen e.id_spelled h₁ with ⟨y, t, hy, hsplit⟩ | ⟨s₂, h₂⟩
  · -- from the id on: what is read as a key ends at the key of the verdict
    obtain ⟨z, rfl, hrest, hdone | hyblank⟩ := body_in_text hdepth hy hw hsplit.symm
    · exact hdone
    · have hclose : ∀ n, '\x7d' ∉ e.blanks n := e.notMem_blanks (by decide)
      obtain ⟨more, hmore⟩ := e.before_reason_prefix
      rw [← hmore, List.append_assoc] at hrest
      obtain ⟨z', rfl, -⟩ := starts_after (by simp [hclose]) hrest
      have hplain : ∀ c ∈ e.blanks 3 ++ ',' :: e.blanks 4, c ≠ '"' ∧ c ≠ '\\' := by
        intro c hc
        rw [List.mem_append, List.mem_cons] at hc
        refine ⟨?_, ?_⟩ <;> rintro rfl
        · rcases hc with hc | hc | hc
          · exact e.notMem_blanks (by decide) 3 hc
          · cases hc
          · exact e.notMem_blanks (by decide) 4 hc
        · rcases hc with hc | hc | hc
          · exact e.notMem_blanks (by decide) 3 hc
          · cases hc
          · exact e.notMem_blanks (by decide) 4 hc
      have hchunk : braced (y ++ '"' :: ((e.blanks 3 ++ ',' :: (e.blanks 4 ++ ['"', 'v'])) ++ z')) =
          '\x7b' ::
            (y ++ '"' :: ((e.blanks 3 ++ ',' :: e.blanks 4) ++ '"' :: 'v' ::
              (z' ++ ['\x7d']))) := by
        simp [braced]
      rw [hchunk]
      exact loads_no_colon hdepth hyblank hplain
  · obtain ⟨s₃, -, h₃⟩ := starts_after e.notMem_before_reason h₂
    rcases hopen e.reason_spelled h₃ with ⟨y, t, hy, hsplit⟩ | ⟨s₄, h₄⟩
    · obtain ⟨z, rfl, hrest, hdone | hyblank⟩ := body_in_text hdepth hy hw hsplit.symm
      · exact hdone
      · -- one quote between blanks is no verdict
        exfalso
        obtain ⟨z', rfl, hend⟩ := starts_after (e.notMem_blanks (by decide) 15) hrest
        have hz' : z' = [] := by
          cases z' with
          | nil => rfl
          | cons d z' => exact absurd (List.cons.inj hend).2 (by simp)
        subst hz'
        have hletter : 'v' ∈ y ++ '"' :: (e.blanks 15 ++ []) := hw.verdict.subset (by decide)
        have hv : 'v' ∉ y := fun hv => by cases hyblank 'v' hv
        simp [hv, e.notMem_blanks (c := 'v') (by decide) 15] at hletter
    · have hmem : '\x7b' ∈ e.blanks 15 ++ ['\x7d'] := by
        rw [h₄]
        simp
      simp [hblank] at hmem

end Written

/-! ## What is picked out -/

variable (L) in
/-- What a chunk decodes to. -/
def pick (chunk : List Char) : Option Json :=
  match json_loads L false chunk with
  | .ok x => some x
  | .error _ => none

variable (L) in
/-- These are the values that are picked out of a text, and everything else that is found does not
decode. -/
structure Picks (l : List Char) (values : List Json) : Prop where
  picked : ((bodies l).map braced).filterMap (pick L) = values
  settled : ∀ w ∈ bodies l, json_loads L false (braced w) = .error .decode ∨
    ∃ d, json_loads L false (braced w) = .ok (.obj d)

/-- Nothing is picked where no body can be read. -/
theorem Picks.of_none {l : List Char}
    (h : ∀ w ∈ bodies l, json_loads L false (braced w) = .error .decode) : Picks L l [] where
  picked := by
    rw [List.filterMap_eq_nil_iff]
    intro c hc
    obtain ⟨w, hw, rfl⟩ := List.mem_map.mp hc
    rw [pick, h w hw]
  settled := fun w hw => .inl (h w hw)

/-- What is picked of two texts whose bodies come one after the other. -/
theorem Picks.append {l x y : List Char} {vs ws : List Json} (hx : Picks L x vs) (hy : Picks L y ws)
    (h : bodies l = bodies x ++ bodies y) : Picks L l (vs ++ ws) where
  picked := by rw [h, List.map_append, List.filterMap_append, hx.picked, hy.picked]
  settled := by
    intro w hw
    rw [h] at hw
    exact (List.mem_append.mp hw).elim (hx.settled w) (hy.settled w)

namespace Written

/-- No brace stands between the outer ones. -/
def Clean (e : Written L) : Prop := ∀ c ∈ e.inner, is_brace c = false

instance (e : Written L) : Decidable e.Clean := inferInstanceAs (Decidable (∀ c ∈ e.inner, _))

/-- What is found in the text of an object, or in a part that it begins with, is the whole text or
does not decode. -/
theorem bodies_part (e : Written L) (hdepth : 1 ≤ L.max_depth) {u w : List Char} (hu : u <+: e.text)
    (hw : w ∈ bodies u) :
    (w = e.inner ∧ u = e.text) ∨ json_loads L false (braced w) = .error .decode := by
  obtain ⟨s, r, rfl, hbody⟩ := mem_bodies hw
  obtain ⟨z, hz⟩ := hu
  cases s with
  | nil =>
    have hsplit : braced w ++ (r ++ z) = e.text := by
      rw [← hz]
      simp [braced]
    by_cases hrest : r ++ z = []
    · obtain ⟨rfl, rfl⟩ := List.append_eq_nil_iff.mp hrest
      refine .inl ⟨?_, by simpa using hz⟩
      rw [hrest, List.append_nil, text_eq] at hsplit
      exact List.append_cancel_right (List.cons.inj hsplit).2
    · refine .inr (e.loads_part hdepth ⟨r ++ z, hsplit⟩ fun heq => hrest ?_)
      rw [heq] at hsplit
      exact List.append_right_eq_self.mp hsplit
  | cons c s =>
    have hsplit : e.fields ['\x7d'] = s ++ '\x7b' :: (w ++ '\x7d' :: (r ++ z)) := by
      rw [text] at hz
      simpa using (List.cons.inj hz).2.symm
    exact .inr (e.inner_fails hdepth hsplit hbody)

theorem picks_part (e : Written L) (hdepth : 1 ≤ L.max_depth) {u : List Char} (hu : u <+: e.text)
    (hne : u ≠ e.text) : Picks L u [] :=
  .of_none fun _ hw => (e.bodies_part hdepth hu hw).resolve_left fun h => hne h.2

theorem verdict_in_inner (e : Written L) : VERDICT_KEY <:+: e.inner := by
  have hkey : VERDICT_KEY = in_quotes "verdict".toList := by decide
  have hreason : VERDICT_KEY <:+: e.before_reason := by
    refine ⟨e.blanks 3 ++ ',' :: e.blanks 4, ?_⟩
    simp only [hkey, before_reason, field_text, List.append_assoc, List.cons_append]
    exact ⟨_, rfl⟩
  have hinner : e.before_reason <:+: e.inner := by
    refine ⟨e.before_id ++ (e.id_raw ++ ['"']), ?_⟩
    simp only [inner, e.fields_eq, List.append_assoc, List.cons_append, List.nil_append]
    exact ⟨_, rfl⟩
  exact hreason.trans hinner

/-- An entry is picked where no brace is in its strings. -/
theorem picks_text (e : Written L) (hdepth : 1 ≤ L.max_depth) :
    Picks L e.text (if e.Clean then [.obj e.dict] else []) := by
  split
  · rename_i hclean
    have hbodies : bodies e.text = [e.inner] := by
      have hread : judgment_at e.text = some (e.inner, []) :=
        judgment_at_iff.mpr ⟨by rw [text_eq, braced], hclean, e.verdict_in_inner⟩
      rw [bodies_found hread, bodies]
    have hload := e.loads_text hdepth
    rw [text_eq] at hload
    constructor
    · rw [hbodies, List.map_singleton,
        List.filterMap_cons_some (b := .obj e.dict) (by rw [pick, hload])]
      rfl
    · intro w hw
      rw [hbodies, List.mem_singleton] at hw
      rw [hw]
      exact .inr ⟨_, hload⟩
  · rename_i hbrace
    refine .of_none fun w hw => (e.bodies_part hdepth (List.prefix_refl _) hw).resolve_left fun h =>
      hbrace ?_
    obtain ⟨-, -, -, hbody⟩ := mem_bodies hw
    rw [Clean, ← h.1]
    exact hbody.plain

end Written

/-! ## A response -/

/-- A response in the documented format: a list of at least one judgment. -/
structure Response (L : Language) where
  first : Written L
  more : List (Written L)
  blanks : ℕ → List Char
  blank : ∀ n, Blank (blanks n)

/-- The judgments that follow. -/
def tail_text : List (Written L) → List Char
  | [] => []
  | e :: es => ',' :: (e.before ++ (e.text ++ (e.after ++ tail_text es)))

/-- How long a judgment is, together with the white space around it and what separates it from the
next one. -/
def Written.span (e : Written L) : ℕ := e.before.length + e.text.length + e.after.length + 1

/-- The judgments whose text lies completely within so many characters of the list. -/
def complete : ℕ → List (Written L) → List (Written L)
  | _, [] => []
  | n, e :: es => if e.before.length + e.text.length ≤ n then e :: complete (n - e.span) es else []

namespace Response

def written (b : Response L) : List (Written L) := b.first :: b.more

/-- Everything up to the first judgment. -/
def opening (b : Response L) : List Char :=
  '\x7b' ::
    (b.blanks 0 ++ (in_quotes "judgments".toList ++ (b.blanks 1 ++ (':' :: (b.blanks 2 ++ ['['])))))

def closing (b : Response L) : List Char := ']' :: (b.blanks 3 ++ ['\x7d'])

/-- The list, after its opening bracket. -/
def items (b : Response L) : List Char :=
  b.first.before ++ (b.first.text ++ (b.first.after ++ (tail_text b.more ++ b.closing)))

def text (b : Response L) : List Char := b.opening ++ b.items

def value (b : Response L) : Json :=
  .obj [("judgments", .list (b.written.map fun e => .obj e.dict))]

/-- The judgments whose text lies completely within the first so many characters. -/
def kept (b : Response L) (n : ℕ) : List (Written L) := complete (n - b.opening.length) b.written

theorem spells_tail (es : List (Written L)) :
    SpellsItems ⟨L, false⟩ (es.map fun e => .obj e.dict) (tail_text es ++ [']']) := by
  induction es with
  | nil =>
    rw [List.map_nil]
    unfold SpellsItems
    rfl
  | cons e es ih =>
    rw [List.map_cons]
    unfold SpellsItems
    exact ⟨e.before, e.text, e.after, _, e.blank_before, e.text_spells, e.blank_after, ih,
      by simp [tail_text]⟩

theorem text_spells (b : Response L) : Spells ⟨L, false⟩ b.value b.text := by
  have hkey : Spelled false "judgments".toList "judgments".toList := spelled_plain (by decide)
  have hlist : Spells ⟨L, false⟩ (.list (b.written.map fun e => .obj e.dict))
      ('[' :: (b.first.before ++
        (b.first.text ++ (b.first.after ++ (tail_text b.more ++ [']']))))) := by
    rw [written, List.map_cons]
    unfold Spells
    exact ⟨_, _, _, _, b.first.blank_before, b.first.text_spells, b.first.blank_after,
      spells_tail b.more, rfl⟩
  rw [value]
  unfold Spells SpellsFields
  refine ⟨b.blanks 0, _, b.blanks 1, b.blanks 2, _, b.blanks 3, _, b.blank 0, hkey, b.blank 1,
    b.blank 2, hlist, b.blank 3, rfl, ?_⟩
  simp [text, opening, items, closing, in_quotes]

/-- The entries of a response have distinct names in each. -/
theorem list_distinct (es : List (Written L)) : DistinctList (es.map fun e => .obj e.dict) := by
  induction es with
  | nil => trivial
  | cons e es ih => exact ⟨e.dict_distinct, ih⟩

/-- The entries of a response are one level deep. -/
theorem list_depth (es : List (Written L)) : depthList (es.map fun e => .obj e.dict) ≤ 1 := by
  induction es with
  | nil => exact Nat.zero_le 1
  | cons e es ih =>
    rw [List.map_cons, depthList, e.dict_depth]
    exact max_le le_rfl ih

theorem value_distinct (b : Response L) : Distinct b.value := by
  rw [value]
  unfold Distinct DistinctFields DistinctFields Distinct
  exact ⟨List.nodup_singleton _, list_distinct _, trivial⟩

theorem value_depth (b : Response L) : depth b.value ≤ 3 := by
  have hlist := list_depth b.written
  rw [value]
  unfold depth depthFields depthFields depth
  omega

end Response

/-! ## A response that is cut off -/

/-- Cutting a text off behind what has no opening brace. -/
theorem bodies_take_before {g : List Char} (hg : '\x7b' ∉ g) (n : ℕ) (r : List Char) :
    bodies ((g ++ r).take n) = bodies (r.take (n - g.length)) := by
  rw [List.take_append]
  exact bodies_before (fun h => hg (List.mem_of_mem_take h)) _

theorem Picks.congr {l l' : List Char} {values : List Json} (h : Picks L l' values)
    (hl : bodies l = bodies l') :
    Picks L l values where
  picked := by rw [hl, h.picked]
  settled := by rw [hl]; exact h.settled

theorem Written.notMem_before (e : Written L) {c : Char} (hc : is_space c = false) :
    c ∉ e.before ∧ c ∉ e.after := by
  refine ⟨fun h => ?_, fun h => ?_⟩
  · have hblank := e.blank_before c h
    rw [hc] at hblank
    cases hblank
  · have hblank := e.blank_after c h
    rw [hc] at hblank
    cases hblank

/-- Nothing is complete of a text that is cut off at its start. -/
theorem complete_zero (es : List (Written L)) : complete 0 es = [] := by
  cases es with
  | nil => rfl
  | cons e es =>
    have htext : 0 < e.text.length := Nat.succ_pos _
    rw [complete, if_neg (by omega)]

theorem Written.text_pos (e : Written L) : 0 < e.text.length := Nat.succ_pos _

/-- One more entry in front: it is picked if it is in the text, and has no brace in its strings. -/
theorem picks_item (hdepth : 1 ≤ L.max_depth) (e : Written L) {n : ℕ} {y : List Char}
    {values : List Json} (h : Picks L (y.take (n - (e.before.length + e.text.length))) values) :
    Picks L ((e.before ++ (e.text ++ y)).take n) (if e.before.length + e.text.length ≤ n then
      (if e.Clean then [.obj e.dict] else []) ++ values else []) := by
  have hbefore := bodies_take_before (e.notMem_before (c := '\x7b') (by decide)).1 n (e.text ++ y)
  split
  · rename_i hlength
    refine .append (e.picks_text hdepth) h ?_
    rw [hbefore, List.take_append, List.take_of_length_le (by omega), Nat.sub_sub]
    have hclosed :=
      bodies_closed (y.take (n - (e.before.length + e.text.length))) ('\x7b' :: e.inner) le_rfl
    have htext : e.text = '\x7b' :: e.inner ++ ['\x7d'] := by rw [e.text_eq, braced]; rfl
    rw [htext] at hclosed ⊢
    rw [← hclosed]
    simp
  · rename_i hlength
    have htake : (e.text ++ y).take (n - e.before.length) = e.text.take (n - e.before.length) :=
      List.take_append_of_le_length (by omega)
    rw [htake] at hbefore
    refine .congr (e.picks_part hdepth (List.take_prefix _ _) fun hwhole => ?_) hbefore
    have hshort := congrArg List.length hwhole
    rw [List.length_take] at hshort
    have hpos := e.text_pos
    omega

/-- What is picked of the complete judgments. -/
def picked (es : List (Written L)) : List Json :=
  (es.filter fun e => decide e.Clean).map fun e => .obj e.dict

/-- What is picked of the complete entries, with one more in front. -/
theorem picked_complete (e : Written L) (es : List (Written L)) (n : ℕ) :
    picked (complete n (e :: es)) = if e.before.length + e.text.length ≤ n then
      (if e.Clean then [.obj e.dict] else []) ++ picked (complete (n - e.span) es) else [] := by
  rw [complete]
  split
  · by_cases hclean : e.Clean
    · simp [picked, hclean]
    · simp [picked, hclean]
  · rfl

/-- From the list, cut off anywhere, the complete judgments without further braces are picked. -/
theorem picks_items (hdepth : 1 ≤ L.max_depth) {z : List Char} (hz : '\x7b' ∉ z)
    (es : List (Written L)) (e : Written L) (n : ℕ) :
    Picks L ((e.before ++ (e.text ++ (e.after ++ (tail_text es ++ z)))).take n)
      (picked (complete n (e :: es))) := by
  have hafter : ∀ e : Written L, '\x7b' ∉ e.after := fun e => (e.notMem_before (by decide)).2
  induction es generalizing e n with
  | nil =>
    rw [picked_complete]
    refine picks_item hdepth e (.of_none fun w hw => ?_)
    have hnone := bodies_take_before (g := e.after ++ z) (by simp [hafter, hz])
      (n - (e.before.length + e.text.length)) []
    rw [List.take_nil, bodies, List.append_nil] at hnone
    rw [tail_text, List.nil_append, hnone] at hw
    cases hw
  | cons e' es ih =>
    rw [picked_complete]
    refine picks_item hdepth e (.congr (ih e' (n - e.span)) ?_)
    have hbefore := bodies_take_before (g := e.after ++ [',']) (by simp [hafter])
      (n - (e.before.length + e.text.length))
      (e'.before ++ (e'.text ++ (e'.after ++ (tail_text es ++ z))))
    rw [List.length_append, Nat.sub_sub] at hbefore
    rw [Written.span, ← Nat.add_assoc] at *
    simpa [tail_text, Nat.add_assoc] using hbefore

namespace Response

theorem notMem_blanks (b : Response L) {c : Char} (hc : is_space c = false) (n : ℕ) :
    c ∉ b.blanks n := by
  intro h
  have hblank := b.blank n c h
  rw [hc] at hblank
  cases hblank

/-- From the response, cut off anywhere, the complete judgments without further braces are
picked. -/
theorem picks_take (b : Response L) (hdepth : 1 ≤ L.max_depth) (n : ℕ) :
    Picks L (b.text.take n) (picked (b.kept n)) := by
  have hopening : ∀ c, c = '\x7b' ∨ c = '\x7d' → c ∉ b.opening.tail := by
    rintro c (rfl | rfl)
    · simp [opening, in_quotes, b.notMem_blanks (c := '\x7b') (by decide)]
    · simp [opening, in_quotes, b.notMem_blanks (c := '\x7d') (by decide)]
  have hclosing : '\x7b' ∉ b.closing := by simp [closing, b.notMem_blanks (c := '\x7b') (by decide)]
  refine .congr (picks_items hdepth hclosing b.more b.first (n - b.opening.length)) ?_
  cases n with
  | zero => rw [Nat.zero_sub, List.take_zero, List.take_zero]
  | succ n =>
    have hbrace : (b.text).take (n + 1) = '\x7b' :: (b.opening.tail ++ b.items).take n := rfl
    have hnone : judgment_at ('\x7b' :: (b.opening.tail ++ b.items).take n) = none := by
      cases hread : judgment_at ('\x7b' :: (b.opening.tail ++ b.items).take n) with
      | none => rfl
      | some found =>
        -- the first brace that follows is an opening one
        obtain ⟨w, r⟩ := found
        obtain ⟨hsplit, hbody⟩ := judgment_at_iff.mp hread
        have hplain : '\x7d' ∉ b.opening.tail ++ b.first.before := by
          simp [hopening, (b.first.notMem_before (c := '\x7d') (by decide)).1]
        have htail : (b.opening.tail ++ b.items) = (b.opening.tail ++ b.first.before) ++
            (b.first.text ++ (b.first.after ++ (tail_text b.more ++ b.closing))) := by
          rw [items, List.append_assoc]
        rw [htail, List.take_append] at hsplit
        obtain ⟨a, rfl, hrest⟩ :=
          starts_after (fun h => hplain (List.mem_of_mem_take h)) (List.cons.inj hsplit).2
        rw [Written.text, List.cons_append] at hrest
        cases hlength : n - (b.opening.tail ++ b.first.before).length with
        | zero =>
          rw [hlength, List.take_zero] at hrest
          exact absurd hrest.symm (List.append_ne_nil_of_right_ne_nil _ (List.cons_ne_nil _ _))
        | succ k =>
          rw [hlength, List.take_succ_cons] at hrest
          cases a with
          | nil => cases (List.cons.inj hrest).1
          | cons d a =>
            have hplain := hbody.plain '\x7b' (by rw [← (List.cons.inj hrest).1]; simp)
            cases hplain
    have hbefore := bodies_take_before (hopening '\x7b' (.inl rfl)) n b.items
    have hlength : n - b.opening.tail.length = n + 1 - b.opening.length := by
      rw [opening, List.tail_cons, List.length_cons]
      omega
    rw [hbrace, bodies_skip hnone, hbefore, hlength, items]

/-- A response that is not cut off has all its judgments. -/
theorem complete_whole (es : List (Written L)) (e : Written L) {n : ℕ}
    (h : (e.before ++ (e.text ++ (e.after ++ (tail_text es)))).length ≤ n) :
    complete n (e :: es) = e :: es := by
  induction es generalizing e n with
  | nil =>
    simp only [List.length_append] at h
    rw [complete, if_pos (by omega), complete]
  | cons e' es ih =>
    rw [tail_text] at h
    simp only [List.length_append, List.length_cons] at h
    rw [complete, if_pos (by omega), ih]
    simp only [List.length_append, Written.span]
    omega

/-- A response that is not cut off keeps its entries. -/
theorem kept_whole (b : Response L) {n : ℕ} (h : b.text.length ≤ n) : b.kept n = b.written := by
  simp only [text, items, List.length_append] at h
  refine complete_whole b.more b.first ?_
  simp only [List.length_append]
  omega

end Response

/-! ## What is returned -/

variable {rt : Runtime} {allowed_ids : List String}

/-- The judgment that is meant. -/
def Written.judgment (e : Written L) : Judgment :=
  ⟨e.id, e.verdict, .finite e.confidence, String.ofList (e.reason.toList.take 500)⟩

theorem id_of_dict (e : Written L) : id_of rt e.dict = e.id := rfl

theorem verdict_of_dict (hupper : ∀ v ∈ VERDICTS, rt.upper v = v) (e : Written L) :
    verdict_of rt e.dict = e.verdict :=
  hupper _ e.known

theorem confidence_of_dict (e : Written L) :
    confidence_of rt e.dict = .ok (.finite e.confidence) := by
  have hclamp : clamp (.finite e.confidence) = .finite e.confidence := by
    rw [clamp_eq]
    simp only
    rw [min_eq_right e.in_unit.2, max_eq_right e.in_unit.1]
  have hgiven : field e.dict "confidence" (.float (.finite 0)) = e.stated := rfl
  rw [confidence_of, hgiven]
  rcases e.stated_eq with hstated | ⟨n, hstated, hn⟩
  · rw [hstated, to_float]
    simp only
    rw [hclamp]
  · -- zero and one are rounded to themselves
    have hfloat : to_float rt (.int n) = .ok (.finite e.confidence) := by
      have h0 : (0 : ℚ) ≤ n := hn ▸ e.in_unit.1
      have h1 : (n : ℚ) ≤ 1 := hn ▸ e.in_unit.2
      have hcases : n = 0 ∨ n = 1 := by
        have h0' : (0 : ℤ) ≤ n := by exact_mod_cast h0
        have h1' : n ≤ 1 := by exact_mod_cast h1
        omega
      have hzero : float_of_int 0 = .ok (.finite 0) := by decide +kernel
      have hone : float_of_int 1 = .ok (.finite 1) := by decide +kernel
      rw [hn, to_float]
      rcases hcases with rfl | rfl
      · rw [hzero, Int.cast_zero]
      · rw [hone, Int.cast_one]
    rw [hstated, hfloat]
    simp only
    rw [hclamp]

theorem reason_of_dict (e : Written L) :
    reason_of rt e.dict = String.ofList (e.reason.toList.take 500) := by
  have hgiven : Dict.get e.dict "reason" = .str e.reason := rfl
  have hsame : (Json.str e.reason).or_else (.str "") = .str e.reason := by
    rw [Json.or_else, Json.truthy]
    by_cases hempty : e.reason = ""
    · rw [hempty]
      rfl
    · rw [decide_eq_true hempty, if_pos rfl]
  rw [reason_of, hgiven, hsame]
  rfl

theorem judged_dict (hupper : ∀ v ∈ VERDICTS, rt.upper v = v) (e : Written L) :
    judged rt e.dict = .ok e.judgment := by
  rw [judged, confidence_of_dict, id_of_dict, verdict_of_dict hupper, reason_of_dict]
  rfl

/-- Of objects that are asked for each one is judged. -/
theorem judged_written (hupper : ∀ v ∈ VERDICTS, rt.upper v = v) {es : List (Written L)}
    (hids : ∀ e ∈ es, e.id ∈ allowed_ids) :
    (wanted rt allowed_ids (es.map fun e => .obj e.dict)).mapM (judged rt) =
      .ok (es.map Written.judgment) := by
  induction es with
  | nil => rfl
  | cons e es ih =>
    rw [List.forall_mem_cons] at hids
    have hwanted : Wanted rt allowed_ids e.dict := by
      rw [Wanted, id_of_dict, verdict_of_dict hupper]
      exact ⟨hids.1, e.known⟩
    rw [List.map_cons, wanted, if_pos hwanted, List.mapM_cons, judged_dict hupper, ih hids.2]
    rfl

/-- What is picked is salvaged. -/
theorem salvage_picks {l : List Char} {values : List Json} (h : Picks rt.language l values) :
    salvage rt (String.ofList l) = if values = [] then .error (non_json (String.ofList l))
      else .ok values := by
  have hmap : ((bodies l).map braced).mapM (try_json rt) =
      .ok (((bodies l).map braced).map (pick rt.language)) := by
    refine Except.mapM_ok fun c hc => ?_
    obtain ⟨w, hw, rfl⟩ := List.mem_map.mp hc
    rw [try_json, pick]
    rcases h.settled w hw with hload | ⟨d, hload⟩
    · rw [hload]
    · rw [hload]
  have hvalues : (((bodies l).map braced).map (pick rt.language)).filterMap id = values := by
    rw [List.filterMap_map, ← h.picked]
    rfl
  rw [salvage, String.toList_ofList, findall_judgment, hmap]
  change (if (((bodies l).map braced).map (pick rt.language)).filterMap id = [] then _
    else Except.ok _) = _
  rw [hvalues]

namespace Response

/-- What is left of a response that is cut off. -/
theorem text_of_cut (b : Response L) {n : ℕ} (hn : 0 < n) :
    ∃ u v, b.text.take n = u ++ v ∧ Mem0.Blank v ∧
    text_of (String.ofList (b.text.take n)) = String.ofList u ∧ (u = b.text ↔
      b.text.length ≤ n) := by
  obtain ⟨rest, hrest⟩ : ∃ rest, b.text.take n = '\x7b' :: rest := by
    cases n with
    | zero => cases hn
    | succ n => exact ⟨_, rfl⟩
  have hspace : Mem0.isspace '\x7b' = false := by decide
  obtain ⟨a, v, hsplit, ha, hv, -⟩ := Mem0.strip_spec (String.ofList (b.text.take n))
  rw [String.toList_ofList] at hsplit
  generalize hu : (Mem0.strip (String.ofList (b.text.take n))).toList = u at hsplit
  have hstrip : Mem0.strip (String.ofList (b.text.take n)) = String.ofList u := by
    rw [← hu, String.ofList_toList]
  -- the text begins with its brace, so nothing is stripped in front, and no fence is seen
  cases a with
  | cons c a =>
    rw [hrest] at hsplit
    have hblank := ha c List.mem_cons_self
    rw [← (List.cons.inj hsplit).1, hspace] at hblank
    cases hblank
  | nil =>
    rw [List.nil_append] at hsplit
    cases u with
    | nil =>
      have hblank :=
        hv '\x7b' (by rw [← List.nil_append v, ← hsplit, hrest]; exact List.mem_cons_self)
      rw [hspace] at hblank
      cases hblank
    | cons c u =>
      have hc : c = '\x7b' := by
        rw [hrest] at hsplit
        exact (List.cons.inj hsplit).1.symm
      have hlist : (String.ofList (c :: u)).toList = '\x7b' :: u := by rw [String.toList_ofList, hc]
      have hfence : "\x60\x60\x60".toList.isPrefixOf (String.ofList (c :: u)).toList = false := by
        rw [hlist]
        rfl
      refine ⟨c :: u, v, hsplit, hv, ?_, fun hwhole => ?_, fun hlength => ?_⟩
      · rw [text_of, hstrip]
        simp only [hfence, Bool.false_eq_true, if_false]
      · have hshort := congrArg List.length hsplit
        rw [hwhole, List.length_take, List.length_append] at hshort
        omega
      · rw [List.take_of_length_le hlength] at hsplit
        rcases List.eq_nil_or_concat v with rfl | ⟨v', d, rfl⟩
        · rw [hsplit, List.append_nil]
        · -- the whole text ends in a brace too, so that nothing is stripped behind it
          have hlast : ∃ y, b.text = y ++ ['\x7d'] := by
            refine ⟨b.opening ++ (b.first.before ++
              (b.first.text ++ (b.first.after ++ (tail_text b.more ++
              (']' :: b.blanks 3))))), ?_⟩
            simp [text, items, closing]
          obtain ⟨y, hy⟩ := hlast
          rw [hy, List.concat_eq_append, ← List.append_assoc] at hsplit
          have hd := List.singleton_inj.mp (List.append_inj' hsplit rfl).2
          have hblank := hv d (by simp)
          rw [← hd] at hblank
          cases hblank

end Response

theorem complete_subset (n : ℕ) (es : List (Written L)) : complete n es ⊆ es := by
  fun_induction complete n es with
  | case1 => exact List.nil_subset _
  | case2 n e es h ih => exact List.cons_subset_cons e ih
  | case3 n e es h => exact List.nil_subset _

/-- The judgments that lie completely before the cut are returned, in order; where there is none a
`ValueError` is raised. -/
def Salvages (rt : Runtime) (allowed_ids : List String) (b : Response rt.language) (n : ℕ) : Prop :=
  if b.kept n = [] then
    ∃ msg, parse_judgments rt allowed_ids (some (String.ofList (b.text.take n))) =
      .error (.value_error msg)
  else
    parse_judgments rt allowed_ids (some (String.ofList (b.text.take n))) =
      .ok ((b.kept n).map Written.judgment)

namespace Response

/-- A response that is cut off behind its start is not empty. -/
theorem cut_ne_empty (b : Response L) {n : ℕ} (hn : 0 < n) :
    (some (String.ofList (b.text.take n))).getD "" ≠ "" := by
  intro h
  cases n with
  | zero => cases hn
  | succ n =>
    have hlist := congrArg String.toList h
    rw [Option.getD_some, String.toList_ofList] at hlist
    cases hlist

section answers

variable (hdepth : 3 ≤ rt.language.max_depth) (hupper : ∀ v ∈ VERDICTS, rt.upper v = v)
    (b : Response rt.language)
  (hids : ∀ e ∈ b.written, e.id ∈ allowed_ids)

include hdepth hupper hids

/-- The whole response is decoded. -/
theorem parse_whole {n : ℕ} (h : b.text.length ≤ n) :
    parse_judgments rt allowed_ids (some (String.ofList (b.text.take n))) =
      .ok (b.written.map Written.judgment) := by
  have hpos : 0 < n := lt_of_lt_of_le (Nat.succ_pos _) h
  obtain ⟨u, v, -, -, htext, hwhole⟩ := b.text_of_cut hpos
  have hload : json_loads rt.language false b.text = .ok b.value :=
    loads_spelled (D := ⟨rt.language, false⟩) b.text_spells b.value_distinct
      (b.value_depth.trans hdepth)
  rw [parse_judgments_eq (b.cut_ne_empty hpos), Option.getD_some, htext, hwhole.mpr h,
    raw_judgments, String.toList_ofList, hload]
  exact judged_written hupper hids

/-- Of a response that is cut off the complete judgments without further braces are salvaged. -/
theorem parse_cut {n : ℕ} (h : n < b.text.length) :
    let found := (b.kept n).filter fun e => decide e.Clean
    if found = [] then
      ∃ msg, parse_judgments rt allowed_ids (some (String.ofList (b.text.take n))) =
        .error (.value_error msg)
    else
      parse_judgments rt allowed_ids (some (String.ofList (b.text.take n))) =
        .ok (found.map Written.judgment) := by
  intro found
  rcases Nat.eq_zero_or_pos n with rfl | hpos
  · have hnone : found = [] := by
      simp only [found, kept, Nat.zero_sub, complete_zero]
      rfl
    rw [if_pos hnone]
    exact ⟨_, rfl⟩
  · obtain ⟨u, v, hsplit, hv, htext, hwhole⟩ := b.text_of_cut hpos
    have hpart : u <+: b.text := (List.prefix_append u v).trans (hsplit ▸ List.take_prefix n b.text)
    -- what is cut off is not finished, and does not load as a whole
    have hload : json_loads rt.language false u = .error .decode :=
      loads_unfinished (D := ⟨rt.language, false⟩) b.text_spells b.value_distinct
        (b.value_depth.trans hdepth) rfl hpart
        fun heq => by have := hwhole.mp heq; omega
    -- the blanks that are stripped hold no brace, so the chunks are those of the cut text
    have hplain : ∀ c ∈ v, is_brace c = false := by
      intro c hc
      have hblank := hv c hc
      by_contra hbrace
      rw [Bool.not_eq_false, is_brace, Bool.or_eq_true, beq_iff_eq, beq_iff_eq] at hbrace
      rcases hbrace with rfl | rfl
      · cases hblank
      · cases hblank
    have hpicks : Picks rt.language u (picked (b.kept n)) := by
      refine .congr (b.picks_take (by omega) n) ?_
      rw [hsplit, bodies_behind hplain]
    have hparse : parse_judgments rt allowed_ids (some (String.ofList (b.text.take n))) =
        (salvage rt (String.ofList u) >>=
          fun raw => (wanted rt allowed_ids raw).mapM (judged rt)) := by
      rw [parse_judgments_eq (b.cut_ne_empty hpos), Option.getD_some, htext, raw_judgments,
        String.toList_ofList, hload]
    rw [hparse, salvage_picks hpicks]
    have hempty : picked (b.kept n) = [] ↔ found = [] := List.map_eq_nil_iff
    by_cases hnone : found = []
    · rw [if_pos hnone, if_pos (hempty.mpr hnone)]
      exact ⟨_, rfl⟩
    · rw [if_neg hnone, if_neg fun h => hnone (hempty.mp h)]
      refine judged_written hupper fun e he => hids e ?_
      exact complete_subset _ _ (List.mem_of_mem_filter he)

/-- A cut response is salvaged exactly when it is not cut at all, or no complete entry has a brace
in its strings. -/
theorem salvages_iff (n : ℕ) :
    Salvages rt allowed_ids b n ↔ b.text.length ≤ n ∨ ∀ e ∈ b.kept n, e.Clean := by
  unfold Salvages
  by_cases hlength : b.text.length ≤ n
  · have hne : b.written ≠ [] := List.cons_ne_nil _ _
    rw [b.kept_whole hlength, if_neg hne]
    exact iff_of_true (parse_whole hdepth hupper b hids hlength) (.inl hlength)
  · have hcut := parse_cut hdepth hupper b hids (not_le.mp hlength)
    rw [or_iff_right hlength]
    constructor
    · intro h
      by_cases hnone : b.kept n = []
      · rw [hnone]
        exact fun _ he => absurd he List.not_mem_nil
      · rw [if_neg hnone] at h
        dsimp only at hcut
        split at hcut
        · obtain ⟨msg, hcut⟩ := hcut
          rw [h] at hcut
          cases hcut
        · rw [h] at hcut
          have hlengths := congrArg List.length (Except.ok.inj hcut)
          rw [List.length_map, List.length_map] at hlengths
          intro e he
          have hall := List.length_filter_eq_length_iff.mp hlengths.symm e he
          exact of_decide_eq_true hall
    · intro hclean
      have hall : ((b.kept n).filter fun e => decide e.Clean) = b.kept n :=
        List.filter_eq_self.mpr fun e he => decide_eq_true (hclean e he)
      rw [hall] at hcut
      exact hcut

end answers

end Response

/-! ## Braces in a text -/

/-- The braces that there can be between the outer ones are in the id and in the reason. -/
theorem Written.clean_iff (e : Written L) :
    e.Clean ↔ ∀ c ∈ e.id_raw ++ e.reason_raw, is_brace c = false := by
  have hbraces : ∀ {w : List Char}, '\x7b' ∉ w → '\x7d' ∉ w → ∀ c ∈ w, is_brace c = false := by
    intro w hopen hclose c hc
    by_contra hbrace
    rw [Bool.not_eq_false, is_brace, Bool.or_eq_true, beq_iff_eq, beq_iff_eq] at hbrace
    rcases hbrace with rfl | rfl
    · exact hopen hc
    · exact hclose hc
  have hblank : ∀ n, ∀ c ∈ e.blanks n, is_brace c = false := fun n =>
    hbraces (e.notMem_blanks (by decide) n) (e.notMem_blanks (by decide) n)
  have hverdict := hbraces (e.brace_notMem_verdict (.inl rfl)) (e.brace_notMem_verdict (.inr rfl))
  have hnumber := hbraces (e.brace_notMem_number (.inl rfl)) (e.brace_notMem_number (.inr rfl))
  have hquote : is_brace '"' = false := by decide
  have hcolon : is_brace ':' = false := by decide
  have hcomma : is_brace ',' = false := by decide
  have hbefore : ∀ c ∈ e.before_id, is_brace c = false := by
    simp only [before_id, in_quotes, List.forall_mem_append, List.forall_mem_cons]
    exact ⟨hblank 0, ⟨hquote, by decide⟩, hblank 1, hcolon, hblank 2, by decide⟩
  have hbetween : ∀ c ∈ e.before_reason, is_brace c = false := by
    simp only [before_reason, field_text, in_quotes, List.forall_mem_append, List.forall_mem_cons]
    exact ⟨hblank 3, hcomma, hblank _, ⟨hquote, by decide⟩, hblank _, hcolon, hblank _,
      ⟨hquote, hverdict, by decide⟩, hblank _, hcomma, hblank _, ⟨hquote, by decide⟩, hblank _,
      hcolon, hblank _, hnumber, hblank _, hcomma, hblank 12,
      ⟨hquote, by decide⟩, hblank 13, hcolon, hblank 14, by decide⟩
  rw [Clean, inner, e.fields_eq]
  simp only [List.forall_mem_append, List.forall_mem_cons]
  constructor
  · rintro ⟨-, hid, -, -, hreason, -⟩
    exact ⟨hid, hreason⟩
  · rintro ⟨hid, hreason⟩
    exact ⟨hbefore, hid, hquote, hbetween, hreason, hquote, hblank 15, nofun⟩

/-- **Salvage.** A text in the documented format, cut off anywhere: the judgments before the cut are
returned exactly if there is no cut, or none of them has a brace in its id or in its reason. -/
theorem cut_salvaged_iff (hdepth : 3 ≤ rt.language.max_depth)
    (hupper : ∀ v ∈ VERDICTS, rt.upper v = v) (b : Response rt.language)
    (hids : ∀ e ∈ b.written, e.id ∈ allowed_ids) (n : ℕ) :
    Salvages rt allowed_ids b n ↔
      b.text.length ≤ n ∨ ∀ e ∈ b.kept n, ∀ c ∈ e.id_raw ++ e.reason_raw, is_brace c = false := by
  rw [b.salvages_iff hdepth hupper hids]
  exact or_congr_right (forall₂_congr fun e _ => e.clean_iff)

/-- A runtime that reads one half. -/
def noted : Runtime :=
  { Runtime.plain with language := { Language.plain with float_of := fun _ => .finite (1 / 2) } }

/-- A judgment that keeps an entry, half certain, without white space. -/
def keeping (id reason : String) (reason_raw : List Char)
    (hid : ∀ c ∈ id.toList, c ≠ '"' ∧ c ≠ '\\') (hreason : Spelled false reason_raw reason.toList) :
    Written noted.language where
  id := id
  verdict := "KEPT"
  confidence := 1 / 2
  reason := reason
  id_raw := id.toList
  verdict_raw := "KEPT".toList
  stated := .float (.finite (1 / 2))
  number := "0.5".toList
  reason_raw := reason_raw
  blanks _ := []
  before := []
  after := []
  id_spelled := spelled_plain hid
  verdict_spelled := spelled_plain (by decide)
  reason_spelled := hreason
  stated_eq := .inl rfl
  token := ⟨by rfl, by decide, by decide, by decide⟩
  in_unit := by norm_num
  known := by decide
  blank _ := blank_nil
  blank_before := blank_nil
  blank_after := blank_nil

/-- Two judgments. -/
def of_two (first second : Written noted.language) : Response noted.language where
  first := first
  more := [second]
  blanks _ := []
  blank _ := blank_nil

def newer : Written noted.language :=
  keeping "a" "newer" "newer".toList (by decide) (spelled_plain (by decide))

def unknown : Written noted.language := keeping "b" "" [] (by decide) (spelled_plain (by decide))

def bracketed : Written noted.language :=
  keeping "a" "\x7b" ['\x7b'] (by decide) (spelled_plain (by decide))

/-- The complete judgment of the two is salvaged. -/
theorem newer_salvaged : Salvages noted ["a", "b"] (of_two newer unknown) 100 :=
  (cut_salvaged_iff (by decide) (by decide) (of_two newer unknown) (by decide) 100).mpr
    (.inr (by decide))

/-- The complete judgment of the two is lost: there is a brace in its reason. -/
theorem bracketed_lost : ¬ Salvages noted ["a", "b"] (of_two bracketed unknown) 100 := by
  rw [Response.salvages_iff (by decide) (by decide) _ (by decide)]
  decide +kernel

end Memline.judge
