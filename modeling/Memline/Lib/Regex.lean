/-
Regular expressions as a backtracking matcher reads them.

A pattern tries its ways to match one after the other and takes the first that lets the rest match:
`run` lists the ways in that order. A repetition is greedy or lazy, an alternative prefers its left
side, and a word boundary looks at the characters on both sides, so that a position keeps what lies
before it; so does a look behind, which tells one character only. One group may be captured.
Replacing and finding all go through the text from left to right, one match after the other.
-/
import Mathlib.Data.List.Basic
import Mathlib.Tactic.Common
import Memline.Lib.Occurrence

set_option autoImplicit false

/-- A pattern. -/
inductive Regex where
  | empty
  | one (p : Char → Bool)
  | seq (r s : Regex)
  | alt (r s : Regex)
  | star (greedy : Bool) (r : Regex)
  | boundary (word : Char → Bool)
  | notAhead (r : Regex)
  | notBehind (p : Char → Bool)
  | group (r : Regex)

namespace Regex

/-- A place in a text: what lies before it, backwards, what lies after it, and the group
captured on the way. -/
structure Place where
  before : List Char
  after : List Char
  captured : List Char := []

/-- What was read from one place to a later one. -/
def Place.upTo (p q : Place) : List Char := p.after.take (p.after.length - q.after.length)

/-- A repetition tries one more round first, or last; a round has to read something. -/
def rounds (greedy : Bool) (step : Place → List Place) : ℕ → Place → List Place
  | 0, p => [p]
  | n + 1, p =>
    let more := ((step p).filter fun q => q.after.length < p.after.length).flatMap
      (rounds greedy step n)
    if greedy then more ++ [p] else p :: more

/-- The places at which a pattern that starts at a place may stop, in the order of its
preference. -/
def run : Regex → Place → List Place
  | empty, p => [p]
  | one f, p =>
    match p.after with
    | [] => []
    | c :: rest => if f c then [{ p with before := c :: p.before, after := rest }] else []
  | seq r s, p => (run r p).flatMap (run s)
  | alt r s, p => run r p ++ run s p
  | star greedy r, p => rounds greedy (run r) p.after.length p
  -- the neighbours on the two sides are of different kinds
  | boundary word, p =>
    if ((p.before.head?.map word).getD false) != ((p.after.head?.map word).getD false) then [p]
    else []
  | notAhead r, p => if (run r p).isEmpty then [p] else []
  | notBehind f, p => if (p.before.head?.map f).getD false then [] else [p]
  | group r, p => (run r p).map fun q => { q with captured := p.upTo q }

/-! ## Patterns -/

/-- One given character. -/
def char (c : Char) : Regex := one fun d => d == c

/-- A text, character by character. -/
def lit : List Char → Regex
  | [] => empty
  | c :: cs => seq (char c) (lit cs)

def any : Regex := one fun _ => true

/-- `r*` and `r*?`. -/
def many (r : Regex) : Regex := star true r

def few (r : Regex) : Regex := star false r

/-- `r+`. -/
def plus (r : Regex) : Regex := seq r (many r)

/-- The first of several alternatives. -/
def oneOf : List Regex → Regex
  | [] => one fun _ => false
  | [r] => r
  | r :: rs => alt r (oneOf rs)

/-- Up to `n` rounds, as many as possible. -/
def atMost (r : Regex) : ℕ → Regex
  | 0 => empty
  | n + 1 => alt (seq r (atMost r n)) empty

/-- Between `m` and `m + n` rounds, as many as possible. -/
def between (r : Regex) : ℕ → ℕ → Regex
  | 0, n => atMost r n
  | m + 1, n => seq r (between r m n)

/-- `(?=r)`. -/
def lookahead (r : Regex) : Regex := .notAhead (.notAhead r)

/-- `\A`. -/
def start : Regex := .notBehind fun _ => true

/-- `\Z`. -/
def stop : Regex := .notAhead any

/-! ## Going through a text -/

/-- The match a pattern finds at a place. -/
def matchAt (r : Regex) (p : Place) : Option Place := (run r p).head?

/-- The first match: where it starts, and where it ends. -/
def search (r : Regex) (before : List Char) : List Char → Option (Place × Place)
  | [] => (matchAt r ⟨before, [], []⟩).map fun q => (⟨before, [], []⟩, q)
  | c :: rest =>
    match matchAt r ⟨before, c :: rest, []⟩ with
    | some q => some (⟨before, c :: rest, []⟩, q)
    | none => search r (c :: before) rest

/-- A piece of a text: a character that no match reads, or a match with its group. -/
inductive Piece where
  | plain (c : Char)
  | found (text captured : List Char)

/-- The text cut into matches and what lies between them. A match that reads nothing is none:
no pattern here has one. -/
def pieces (r : Regex) : ℕ → List Char → List Char → List Piece
  | 0, _, _ => []
  | _ + 1, _, [] => []
  | n + 1, before, c :: rest =>
    match matchAt r ⟨before, c :: rest, []⟩ with
    | some q =>
      -- a match that reads nothing is passed over with the character behind it
      if q.after.length < rest.length + 1 then
        .found (Place.upTo ⟨before, c :: rest, []⟩ q) q.captured :: pieces r n q.before q.after
      else .plain c :: pieces r n (c :: before) rest
    | none => .plain c :: pieces r n (c :: before) rest

/-- The pieces of a whole text. -/
def cut (r : Regex) (text : List Char) : List Piece := pieces r text.length [] text

/-- The groups of all matches. -/
def findall (r : Regex) (text : List Char) : List (List Char) :=
  (cut r text).filterMap fun
    | .plain _ => none
    | .found _ captured => some captured

/-- `re.sub(…, count=1)`. -/
def sub_first (r : Regex) (repl text : List Char) : List Char :=
  match search r [] text with
  | none => text
  | some (p, q) => p.before.reverse ++ repl ++ q.after

/-! ## A literal -/

/-- The place some characters on. -/
def Place.skip (p : Place) (cs : List Char) : Place :=
  { p with before := cs.reverse ++ p.before, after := p.after.drop cs.length }

/-- A literal reads its own text. -/
theorem run_lit (cs : List Char) (p : Place) :
    run (lit cs) p = if cs <+: p.after then [p.skip cs] else [] := by
  induction cs generalizing p with
  | nil => simp [lit, run, Place.skip]
  | cons c cs ih =>
    obtain ⟨before, after, captured⟩ := p
    cases after with
    | nil => simp [lit, run, char]
    | cons d rest =>
      by_cases hd : d = c
      · subst hd
        simp [lit, run, char, ih, Place.skip]
      · simp [lit, run, char, hd, Ne.symm hd]

/-- A repetition has every number of rounds among its ways, the greedy one the longest first. -/
example (c : Char) : run (many (char c)) ⟨[], [c], []⟩ = [⟨[c], [], []⟩, ⟨[], [c], []⟩] := by
  simp [many, char, run, rounds]

/-- A pattern that starts with a literal. -/
theorem run_lit_seq (cs : List Char) (r : Regex) (p : Place) :
    run (.seq (lit cs) r) p = if cs <+: p.after then run r (p.skip cs) else [] := by
  rw [run, run_lit]
  split
  · rw [List.flatMap_singleton]
  · rfl

/-- A literal in front is matched before the rest of a pattern. -/
theorem matchAt_lit_seq (cs : List Char) (r : Regex) (p : Place) :
    matchAt (.seq (lit cs) r) p = if cs <+: p.after then matchAt r (p.skip cs) else none := by
  unfold matchAt
  rw [run_lit_seq]
  split
  · rfl
  · rfl

/-- As little as possible, and then a literal: what lies before the first occurrence of the
literal is read. -/
theorem matchAt_few_any_lit (cs : List Char) (p : Place) :
    matchAt (.seq (few any) (lit cs)) p = (Lists.around cs p.after).map fun w =>
      p.skip (w.1 ++ cs) := by
  -- as few characters as possible, so that the first occurrence is the one that is found
  have hrounds : ∀ n before after captured, after.length ≤ n →
      ((rounds false (run any) n ⟨before, after, captured⟩).flatMap (run (lit cs))).head?
        = (Lists.around cs after).map fun w =>
          (Place.mk before after captured).skip (w.1 ++ cs) := by
    intro n before after captured hn
    induction after generalizing n before with
    | nil =>
      have hstay : rounds false (run any) n ⟨before, [], captured⟩ = [⟨before, [], captured⟩] := by
        cases n with
        | zero => rfl
        | succ n => simp [rounds, run, any]
      rw [hstay, List.flatMap_singleton, run_lit]
      by_cases hcs : cs = []
      · simp [hcs, Lists.around, Place.skip]
      · simp [hcs, Lists.around]
    | cons c rest ih =>
      obtain ⟨n, rfl⟩ : ∃ m, n = m + 1 := ⟨n - 1, by rw [List.length_cons] at hn; omega⟩
      rw [List.length_cons] at hn
      have hmore : rounds false (run any) (n + 1) ⟨before, c :: rest, captured⟩
          = ⟨before, c :: rest, captured⟩ :: rounds false (run any) n ⟨c :: before, rest,
            captured⟩ := by
        simp [rounds, run, any]
      rw [hmore, List.flatMap_cons, run_lit]
      by_cases hpre : cs <+: c :: rest
      · rw [if_pos hpre, Lists.around_of_start hpre]
        rfl
      · rw [if_neg hpre, List.nil_append, ih n (c :: before) (by omega), Lists.around_cons hpre,
          Option.map_map]
        congr 1
        funext w
        simp only [Function.comp_apply, Place.skip, List.cons_append, List.length_cons,
          List.drop_succ_cons, List.reverse_cons, List.append_assoc, List.nil_append]
  exact hrounds _ p.before p.after p.captured le_rfl

/-- A literal, as little as possible, and another literal. -/
theorem matchAt_between (a b : List Char) (p : Place) :
    matchAt (.seq (lit a) (.seq (few any) (lit b))) p
      = if a <+: p.after then (Lists.around b (p.after.drop a.length)).map fun w =>
        (p.skip a).skip (w.1 ++ b)
        else none := by
  rw [matchAt_lit_seq]
  split
  · exact matchAt_few_any_lit b (p.skip a)
  · rfl

/-- The first literal and the first other literal behind it: nothing is found when the other
one does not follow the first occurrence, for then it follows no later one. -/
theorem search_between (a b before text : List Char) :
    search (.seq (lit a) (.seq (few any) (lit b))) before text
      = (Lists.around a text).bind fun w => (Lists.around b w.2).map fun w' =>
          (⟨w.1.reverse ++ before, a ++ w.2, []⟩,
            ⟨(w.1 ++ a ++ w'.1 ++ b).reverse ++ before, w'.2, []⟩) := by
  induction text generalizing before with
  | nil =>
    rw [search, matchAt_between]
    by_cases ha : a = []
    · subst ha
      by_cases hb : b = []
      · subst hb
        rfl
      · simp [Lists.around, hb]
    · simp [Lists.around, ha]
  | cons c rest ih =>
    by_cases hpre : a <+: c :: rest
    · have htext := List.prefix_iff_eq_append.mp hpre
      rw [search, matchAt_between, if_pos hpre, Lists.around_of_start hpre, Option.bind_some]
      cases hb : Lists.around b ((c :: rest).drop a.length) with
      | some w =>
        have hdrop : ((c :: rest).drop a.length).drop (w.1 ++ b).length = w.2 := by
          rw [Lists.eq_of_around hb, List.drop_left]
        have hskip : ((Place.mk before (c :: rest) []).skip a).skip (w.1 ++ b)
            = ⟨(a ++ w.1 ++ b).reverse ++ before, w.2, []⟩ := by
          simp only [Place.skip, hdrop, List.reverse_append, List.append_assoc]
        simp only [Option.map_some, List.reverse_nil, List.nil_append, htext, hskip]
      | none =>
        have hnot := Lists.around_eq_none_iff.mp hb
        simp only [Option.map_none, ih]
        cases hlater : Lists.around a rest with
        | none => rfl
        | some w =>
          have hrest := Lists.eq_of_around hlater
          -- what follows a later occurrence also follows the first
          have hsuffix : w.2 <:+ (c :: rest).drop a.length := by
            have hw : w.2 <:+ c :: rest :=
              List.IsSuffix.trans ⟨w.1 ++ a, hrest.symm⟩ (List.suffix_cons c rest)
            refine List.suffix_of_suffix_length_le hw (List.drop_suffix _ _) ?_
            have hlen := congrArg List.length hrest
            simp only [List.length_append] at hlen
            rw [List.length_drop, List.length_cons]
            omega
          have hw : Lists.around b w.2 = none :=
            Lists.around_eq_none_iff.mpr fun h => hnot (h.trans hsuffix.isInfix)
          rw [Option.bind_some, hw]
          rfl
    · have hnone : matchAt (.seq (lit a) (.seq (few any) (lit b))) ⟨before, c :: rest,
          []⟩ = none := by
        rw [matchAt_between, if_neg hpre]
      rw [search, hnone]
      simp only [ih, Lists.around_cons hpre]
      cases Lists.around a rest with
      | none => rfl
      | some w => simp

/-! ## Repetitions of one character -/

end Regex
