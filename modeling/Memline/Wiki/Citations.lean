/-
The citation token.

A citation is a caret and a reference in brackets; the reference has no closing bracket in it, so
that the text up to the first one tells whether there is a citation at a place, and what it cites. A
token is anything in such brackets.
-/
import Mathlib.Data.List.TakeWhile
import Memline.Lib.Finditer
import Memline.Lib.Language

set_option autoImplicit false

namespace Memline.wiki

open Regex

/-- `[0-9a-fA-F-]`. -/
def hex_or_dash (c : Char) : Bool :=
  c.isDigit || ('a' ≤ c && c ≤ 'f') || ('A' ≤ c && c ≤ 'F') || c == '-'

/-- `[^\]]`. -/
def not_closing (c : Char) : Bool := c != ']'

/-- `mem:[0-9a-fA-F-]{8,}|sources/[^\]]+`. -/
def REFERENCE : Regex :=
  .alt (.seq (.lit "mem:".toList)
    (.seq (.between (.one hex_or_dash) 8 0) (.many (.one hex_or_dash))))
    (.seq (.lit "sources/".toList) (.plus (.one not_closing)))

/-- `\^\[(mem:[0-9a-fA-F-]{8,}|sources/[^\]]+)\]`. -/
def CITATION : Regex := .seq (.lit ['^', '[']) (.seq (.group REFERENCE) (.char ']'))

/-- `\^\[([^\]]+)\]`. -/
def CITATION_TOKEN : Regex :=
  .seq (.lit ['^', '[']) (.seq (.group (.plus (.one not_closing))) (.char ']'))

/-- `(?<!\^)\[(mem:[0-9a-fA-F-]{8,}|sources/[^\]]+)\]`. -/
def BARE_CITATION : Regex :=
  .seq (.notBehind fun c => c == '^') (.seq (.char '[') (.seq (.group REFERENCE) (.char ']')))

/-- The groups of all matches, as texts. -/
def groups (r : Regex) (text : List Char) : List String :=
  (finditer r text).map fun e => String.ofList e.group

/-- What is in the brackets of a citation. -/
def is_reference (w : List Char) : Bool :=
  ("mem:".toList.isPrefixOf w && 8 ≤ (w.drop 4).length && (w.drop 4).all hex_or_dash) ||
    ("sources/".toList.isPrefixOf w && (w.drop 8) ≠ [])

/-- A caret and something in brackets, at the start of a text: how long it is, and what is in the
brackets. -/
def bracketed : Reader
  | '^' :: '[' :: rest =>
    let w := rest.takeWhile not_closing
    if w.length < rest.length then some (w.length + 3, w) else none
  | _ => none

def citation_reader : Reader := fun l => (bracketed l).filter fun e => is_reference e.2

def token_reader : Reader := fun l => (bracketed l).filter fun e => e.2 ≠ []

/-! ## What is in brackets -/

/-- What is read between the brackets has none that closes it earlier. -/
theorem bracketed_eq_some {l : List Char} {k : ℕ} {w : List Char} :
    bracketed l = some (k, w) ↔
      k = w.length + 3 ∧ (']' ∉ w) ∧ ∃ rest, l = '^' :: '[' :: (w ++ ']' :: rest) := by
  constructor
  · intro h
    unfold bracketed at h
    split at h
    · rename_i rest
      dsimp only at h
      split at h
      · rename_i hlt
        cases h
        refine ⟨rfl, ?_, ?_⟩
        · intro hmem
          have hbad := List.mem_takeWhile_imp hmem
          simp [not_closing] at hbad
        · -- what is taken stops at a bracket, as it does not take all
          have hsplit := List.takeWhile_append_dropWhile (p := not_closing) (l := rest)
          cases hdrop : rest.dropWhile not_closing with
          | nil =>
            rw [hdrop, List.append_nil] at hsplit
            rw [hsplit] at hlt
            omega
          | cons c more =>
            have hc := List.head_dropWhile_not (p := not_closing) (l := rest) (by
              rw [hdrop]; exact List.cons_ne_nil _ _)
            simp only [hdrop, List.head_cons, not_closing, bne_eq_false_iff_eq] at hc
            refine ⟨more, ?_⟩
            rw [← hc, ← hdrop, hsplit]
      · cases h
    · cases h
  · rintro ⟨rfl, hw, rest, rfl⟩
    have htake : (w ++ ']' :: rest).takeWhile not_closing = w := by
      rw [List.takeWhile_append_of_pos]
      · simp [not_closing]
      · intro c hc
        have hne : c ≠ ']' := fun h => hw (h ▸ hc)
        simpa [not_closing] using hne
    show (if _ then _ else _) = _
    rw [htake, if_pos (by rw [List.length_append, List.length_cons]; omega)]

/-- What is in the brackets tells whether they are read. -/
theorem closed_bracketed (ok : List Char → Bool) :
    Closed fun l => (bracketed l).filter fun e => ok e.2 := by
  constructor
  · intro l k g h
    obtain ⟨rfl, -, rest, rfl⟩ := bracketed_eq_some.mp (Option.eq_some_of_filter_eq_some h)
    simp only [List.length_cons, List.length_append]
    omega
  · intro l k g h z
    obtain ⟨h, hok⟩ := Option.filter_eq_some_iff.mp h
    obtain ⟨rfl, hw, rest, rfl⟩ := bracketed_eq_some.mp h
    have htake : ('^' :: '[' :: (g ++ ']' :: rest)).take (g.length + 3) ++ z =
        '^' :: '[' :: (g ++ ']' :: z) := by
      have hsplit : '^' :: '[' :: (g ++ ']' :: rest) = ('^' :: '[' :: (g ++ [']'])) ++ rest := by
        simp
      rw [hsplit, List.take_left' (by simp)]
      simp
    rw [htake]
    exact Option.filter_eq_some_iff.mpr ⟨bracketed_eq_some.mpr ⟨rfl, hw, z, rfl⟩, hok⟩

/-- The ways to match a plain pattern in brackets. -/
theorem mem_run_bracketed {r : Regex} (hr : Plain r) {p q : Place} :
    q ∈ run (.seq (.lit ['^', '[']) (.seq (.group r) (.char ']'))) p ↔
      ∃ w ∈ language r, ∃ rest, p.after = '^' :: '[' :: (w ++ ']' :: rest) ∧
        q = p.behind (w.length + 3, w) := by
  -- reading the three parts one after the other ends where the whole is skipped
  have hbehind : ∀ {w rest : List Char}, p.after = '^' :: '[' :: (w ++ ']' :: rest) →
      p.behind (w.length + 3, w) =
      Place.skip { (p.skip ['^', '[']).skip w with captured := w } [']'] := by
    intro w rest hafter
    have hsplit : '^' :: '[' :: (w ++ ']' :: rest) = ['^', '['] ++ w ++ [']'] ++ rest := by simp
    rw [Place.behind, Place.skip_skip, hafter, hsplit, List.take_left' (by simp)]
    simp [Place.skip, List.drop_drop]
  constructor
  · intro hq
    obtain ⟨p₁, h₁, hq⟩ := List.mem_flatMap.mp hq
    obtain ⟨p₂, h₂, hq⟩ := List.mem_flatMap.mp hq
    obtain ⟨u, hu, hafter, rfl⟩ := (mem_run_iff (plain_lit _)).mp h₁
    rw [mem_language_lit.mp hu] at hafter h₂
    obtain ⟨w, hw, hafter', rfl⟩ := (mem_run_group hr).mp h₂
    obtain ⟨hafter'', hq⟩ := mem_run_char.mp hq
    have hwhole : p.after = '^' :: '[' :: (w ++ ']' :: q.after) := by
      rw [hafter, hafter']
      exact congrArg _ (congrArg _ hafter'')
    exact ⟨w, hw, q.after, hwhole, by rw [hbehind hwhole, hq]⟩
  · rintro ⟨w, hw, rest, hafter, rfl⟩
    have hopen : (p.skip ['^', '[']).after = w ++ ']' :: rest := Place.skip_after hafter
    have hclose : ((p.skip ['^', '[']).skip w).after = ']' :: rest := Place.skip_after hopen
    have h₁ : p.skip ['^', '['] ∈ run (.lit ['^', '[']) p :=
      (mem_run_iff (plain_lit _)).mpr ⟨_, mem_language_lit.mpr rfl, by rw [hopen, hafter]; rfl, rfl⟩
    have h₂ : { (p.skip ['^', '[']).skip w with captured := w } ∈
        run (.group r) (p.skip ['^', '[']) :=
      (mem_run_group hr).mpr ⟨w, hw, by rw [hclose, hopen], rfl⟩
    have h₃ : Place.skip { (p.skip ['^', '[']).skip w with captured := w } [']'] ∈
        run (.char ']') { (p.skip ['^', '[']).skip w with captured := w } := by
      refine mem_run_char.mpr ⟨?_, rfl⟩
      show ((p.skip ['^', '[']).skip w).after = ']' :: ((p.skip ['^', '[']).skip w).after.drop 1
      rw [hclose]
      rfl
    rw [hbehind hafter]
    exact List.mem_flatMap.mpr ⟨_, h₁, List.mem_flatMap.mpr ⟨_, h₂, h₃⟩⟩

/-- A plain pattern in brackets with no closing bracket in it is a reader. -/
theorem readsBy_bracketed {r : Regex} (ok : List Char → Bool) (hr : Plain r)
    (havoids : Avoids ']' r) (hok : ∀ w, ']' ∉ w → (ok w = true ↔ w ∈ language r)) :
    ReadsBy (.seq (.lit ['^', '[']) (.seq (.group r) (.char ']'))) fun l =>
      (bracketed l).filter fun e => ok e.2 where
  toClosed := closed_bracketed ok
  sound := by
    intro p q hq
    obtain ⟨w, hw, rest, hafter, rfl⟩ := (mem_run_bracketed hr).mp hq
    have hclosing := havoids.not_mem hw
    exact ⟨_, Option.filter_eq_some_iff.mpr ⟨bracketed_eq_some.mpr ⟨rfl, hclosing, rest, hafter⟩,
      (hok w hclosing).mpr hw⟩, rfl⟩
  complete := by
    rintro p ⟨k, w⟩ h
    obtain ⟨h, hw⟩ := Option.filter_eq_some_iff.mp h
    obtain ⟨-, hclosing, rest, hafter⟩ := bracketed_eq_some.mp h
    exact List.ne_nil_of_mem ((mem_run_bracketed hr).mpr ⟨w, (hok w hclosing).mp hw,
      rest, hafter, rfl⟩)

/-! ## The patterns -/

/-- What `REFERENCE` reads. -/
theorem is_reference_iff {w : List Char} (hw : ']' ∉ w) :
    is_reference w = true ↔ w ∈ language REFERENCE := by
  have hclosing : ∀ c ∈ w.drop 8, not_closing c = true := by
    intro c hc
    rw [not_closing, bne_iff_ne]
    rintro rfl
    exact hw (List.mem_of_mem_drop hc)
  rw [is_reference, REFERENCE, language, Language.mem_add, mem_lit_seq, mem_lit_seq,
    mem_between_many, mem_language_plus]
  simp only [Bool.or_eq_true, Bool.and_eq_true, decide_eq_true_eq, List.all_eq_true, and_assoc]
  exact or_congr Iff.rfl (and_congr_right fun _ => (and_iff_left hclosing).symm)

/-- A reference looks at nothing but what it reads. -/
theorem plain_reference : Plain REFERENCE := by
  have hhex : Plain (.one hex_or_dash) := trivial
  exact ⟨⟨plain_lit _, plain_between hhex 8 0, hhex⟩, plain_lit _, trivial, trivial⟩

/-- A reference does not reach beyond a closing bracket. -/
theorem avoids_reference : Avoids ']' REFERENCE := by
  have hhex : Avoids ']' (.one hex_or_dash) := by
    show hex_or_dash ']' = false
    decide
  have hnot : not_closing ']' = false := by decide
  exact ⟨⟨avoids_lit.mpr (by decide), avoids_between hhex 8 0, hhex⟩,
    avoids_lit.mpr (by decide), hnot, hnot⟩

theorem readsBy_citation : ReadsBy CITATION citation_reader :=
  readsBy_bracketed is_reference plain_reference avoids_reference fun _ hw => is_reference_iff hw

theorem readsBy_token : ReadsBy CITATION_TOKEN token_reader := by
  refine readsBy_bracketed (fun w => w ≠ []) ⟨trivial, trivial⟩ ⟨rfl, rfl⟩ ?_
  intro w hw
  rw [mem_language_plus, decide_eq_true_eq]
  refine (and_iff_left ?_).symm
  intro c hc
  rw [not_closing, bne_iff_ne]
  rintro rfl
  exact hw hc

end Memline.wiki
