/-
The blocks of a draft, and the citations in them.

The matches of the block pattern tile the draft: they and the blank lines between them are all of
it. The pattern may first match nothing at the very start, and then start there again, with whatever
blank lines the draft starts with inside the block. A citation without a line break in it stands in
one block.
-/
import Memline.Lib.Language
import Memline.Text
import Memline.Wiki.ReviewBundle

set_option autoImplicit false

namespace Memline.wiki.draft

open Regex Mem0

/-! ## What the block pattern matches -/

/-- A line break, blanks and another line break. -/
def Break (sep : List Char) : Prop :=
  ∃ w, (∀ c ∈ w, space_or_tab c = true) ∧ sep = '\n' :: (w ++ ['\n'])

theorem mem_language_break {sep : List Char} : sep ∈ language BREAK ↔ Break sep := by
  rw [BREAK, language, Language.mem_mul]
  constructor
  · rintro ⟨u, ⟨c, hc, rfl⟩, v, hv, rfl⟩
    obtain ⟨w, hw, x, ⟨d, hd, rfl⟩, rfl⟩ := Language.mem_mul.mp hv
    refine ⟨w, mem_language_many.mp hw, ?_⟩
    rw [beq_iff_eq.mp hc, beq_iff_eq.mp hd]
    rfl
  · rintro ⟨w, hw, rfl⟩
    have hchar : ['\n'] ∈ language (.char '\n') := ⟨'\n', rfl, rfl⟩
    exact ⟨['\n'], hchar, w ++ ['\n'],
      Language.mem_mul.mpr ⟨w, mem_language_many.mpr hw, ['\n'], hchar, rfl⟩, rfl⟩

/-- The separator looks at nothing but what it reads. -/
theorem plain_break : Plain BREAK := ⟨trivial, trivial, trivial⟩

theorem mem_run_break {p q : Place} :
    q ∈ run BREAK p ↔ ∃ sep, Break sep ∧ p.after = sep ++ q.after ∧ q = p.skip sep := by
  rw [mem_run_iff plain_break]
  exact exists_congr fun sep => and_congr_left' mem_language_break

/-- A block starts at the start of the draft, or behind a break. -/
def Opens (before sep : List Char) : Prop := (sep = [] ∧ before = []) ∨ Break sep

/-- It goes on to a break, or to the end of the draft. -/
def Ends (rest : List Char) : Prop := rest = [] ∨ ∃ sep more, Break sep ∧ rest = sep ++ more

theorem mem_run_any {p q : Place} : q ∈ run (.group (.few .any)) p ↔
    ∃ g, p.after = g ++ q.after ∧ q = { p.skip g with captured := g } := by
  have hplain : Plain (.few .any) := trivial
  rw [mem_run_group hplain]
  refine exists_congr fun g => and_iff_right ?_
  exact mem_language_many.mpr fun _ _ => rfl

/-- A block ends before a break or at the end of the draft. -/
theorem run_ends {p : Place} : run (.alt BREAK .stop) p ≠ [] ↔ Ends p.after := by
  constructor
  · intro hne
    obtain ⟨q, hq⟩ := List.exists_mem_of_ne_nil _ hne
    rcases List.mem_append.mp hq with hq | hq
    · obtain ⟨sep, hsep, hafter, -⟩ := mem_run_break.mp hq
      exact .inr ⟨sep, _, hsep, hafter⟩
    · exact .inl (mem_run_stop.mp hq).2
  · rintro (hnil | ⟨sep, more, hsep, hafter⟩)
    · exact List.ne_nil_of_mem (List.mem_append_right _ (mem_run_stop.mpr ⟨rfl, hnil⟩))
    · have hskip := Place.skip_after hafter
      exact List.ne_nil_of_mem (List.mem_append_left _ (mem_run_break.mpr ⟨sep, hsep,
        by rw [hskip, hafter], rfl⟩))

/-- A block opens at the start of the draft or behind a break. -/
theorem mem_run_opens {p q : Place} : q ∈ run (.alt .start BREAK) p ↔
    ∃ sep, Opens p.before sep ∧ p.after = sep ++ q.after ∧ q = p.skip sep := by
  rw [run, List.mem_append, mem_run_start, mem_run_break]
  constructor
  · rintro (⟨rfl, hbefore⟩ | ⟨sep, hsep, h⟩)
    · exact ⟨[], .inl ⟨rfl, hbefore⟩, rfl, rfl⟩
    · exact ⟨sep, .inr hsep, h⟩
  · rintro ⟨sep, ⟨rfl, hbefore⟩ | hsep, h⟩
    · exact .inl ⟨h.2, hbefore⟩
    · exact .inr ⟨sep, hsep, h⟩

/-- A match is an opening and a group up to an end. -/
theorem mem_run_block {p q : Place} : q ∈ run BLOCK p ↔
    ∃ sep g, p.after = sep ++ g ++ q.after ∧ Opens p.before sep ∧ Ends q.after ∧
      q = { p.skip (sep ++ g) with captured := g } := by
  rw [BLOCK, run, List.mem_flatMap]
  constructor
  · rintro ⟨m, hm, hq⟩
    obtain ⟨n, hn, hq⟩ := List.mem_flatMap.mp hq
    obtain ⟨rfl, hne⟩ := mem_run_lookahead.mp hq
    obtain ⟨sep, hopens, hafter, rfl⟩ := mem_run_opens.mp hm
    obtain ⟨g, hafter', rfl⟩ := mem_run_any.mp hn
    refine ⟨sep, g, ?_, hopens, run_ends.mp hne, ?_⟩
    · rw [hafter, hafter', List.append_assoc]
    · rw [Place.skip_skip]
  · rintro ⟨sep, g, hafter, hopens, hends, hq⟩
    have hsep : (p.skip sep).after = g ++ q.after :=
      Place.skip_after (by rw [hafter, List.append_assoc])
    have hqn : q = { (p.skip sep).skip g with captured := g } := by rw [hq, Place.skip_skip]
    refine ⟨p.skip sep, mem_run_opens.mpr ⟨sep, hopens,
      by rw [hsep, hafter, List.append_assoc], rfl⟩, ?_⟩
    exact List.mem_flatMap.mpr ⟨q, mem_run_any.mpr ⟨g, hsep, hqn⟩,
      mem_run_lookahead.mpr ⟨rfl, run_ends.mpr hends⟩⟩

/-! ## The tiles of a draft -/

/-- A text that starts at a position, cut at breaks; a tile at the start of all needs no break
before it. -/
inductive Tiles : ℕ → List Char → List (ℕ × List Char) → Prop
  | nil (off : ℕ) : Tiles off [] []
  | cons {off : ℕ} {sep g rest : List Char} {es : List (ℕ × List Char)}
    (hsep : Break sep ∨ (sep = [] ∧ off = 0)) (hends : Ends rest)
    (h : Tiles (off + sep.length + g.length) rest es) :
    Tiles off (sep ++ g ++ rest) ((off + sep.length, g) :: es)

/-- At a place where a block can start there is a match, unless nothing is left. -/
theorem matchOn_block {advance : Bool} {before after : List Char} (hends : before = [] ∨ Ends after)
    (hafter : after ≠ []) : matchOn BLOCK advance ⟨before, after, []⟩ ≠ none := by
  have hlt : ([] : List Char).length < after.length := List.length_pos_of_ne_nil hafter
  intro hnone
  have hno := List.find?_eq_none.mp hnone
  -- all that is left is one way to match
  have hwhole : ∀ sep g, Opens before sep → after = sep ++ g → False := by
    intro sep g hopens hsplit
    have hq : (Place.skip ⟨before, after, []⟩ (sep ++ g)).after = [] :=
      Place.skip_after (by rw [hsplit, List.append_nil])
    refine hno { Place.skip ⟨before, after, []⟩ (sep ++ g) with captured := g }
      (mem_run_block.mpr ⟨sep, g, ?_, hopens, .inl hq, rfl⟩) ?_
    · dsimp only
      rw [hq, List.append_nil]
      exact hsplit
    · dsimp only
      rw [hq, decide_eq_true hlt, Bool.or_true]
  rcases hends with rfl | rfl | ⟨sep, more, hsep, hsplit⟩
  · exact hwhole [] after (.inl ⟨rfl, rfl⟩) rfl
  · exact hafter rfl
  · exact hwhole sep more (.inr hsep) hsplit

/-- The next block is found right where the search starts. -/
theorem searchOn_block {advance : Bool} {before after : List Char}
    (hends : before = [] ∨ Ends after) :
    searchOn BLOCK advance before after = (matchOn BLOCK advance ⟨before, after, []⟩).map fun q =>
      (⟨before, after, []⟩, q) := by
  cases after with
  | nil => rfl
  | cons c rest =>
    rw [searchOn]
    cases hmatch : matchOn BLOCK advance ⟨before, c :: rest, []⟩ with
    | none => exact absurd hmatch (matchOn_block hends (List.cons_ne_nil _ _))
    | some q => rfl

/-- The next match starts where the last one stopped, at a break. -/
theorem tiles_from {n : ℕ} {advance : Bool} {before after : List Char}
    (hn : 2 * after.length + (if advance then 0 else 1) < n) (hends : before = [] ∨ Ends after) :
    Tiles before.length after ((matchesFrom BLOCK n advance before after).map piece) := by
  induction n generalizing advance before after with
  | zero => omega
  | succ n ih =>
    rw [matchesFrom, searchOn_block hends]
    cases hmatch : matchOn BLOCK advance ⟨before, after, []⟩ with
    | none =>
      by_cases hafter : after = []
      · rw [hafter]
        exact .nil _
      · exact absurd hmatch (matchOn_block hends hafter)
    | some q =>
      obtain ⟨sep, g, hsplit, hopens, hends', hq⟩ :=
        mem_run_block.mp (List.mem_of_find?_eq_some hmatch)
      dsimp only at hsplit hopens
      have hadvance := List.find?_some hmatch
      have hbefore : q.before.length = before.length + sep.length + g.length := by
        rw [hq, Place.skip]
        simp only [List.length_append, List.length_reverse]
        omega
      have hcaptured : q.captured = g := by rw [hq]
      have hlen := congrArg List.length hsplit
      simp only [List.length_append] at hlen
      -- a match that reads nothing must be followed by one that does, which the fuel allows
      -- for
      have hfuel : 2 * q.after.length + (if decide (q.before.length = before.length) then 0
          else 1) < n := by
        by_cases hstay : q.before.length = before.length
        · -- nothing was read, so that nothing had to be
          have hfalse : advance = false := by
            rw [Bool.or_eq_true, decide_eq_true_eq] at hadvance
            have hnot := hadvance.resolve_right (by dsimp only; omega)
            simpa using hnot
          rw [hfalse, if_neg Bool.false_ne_true] at hn
          rw [if_pos (decide_eq_true hstay)]
          omega
        · rw [if_neg (by rw [decide_eq_true_eq]; exact hstay)]
          omega
      have hrest : Tiles q.before.length q.after
          ((matchesFrom BLOCK n (decide (q.before.length = before.length)) q.before q.after).map
            piece) := ih hfuel (.inr hends')
      have hpiece : piece ⟨before.length, q.before.length, q.captured⟩ =
          (before.length + sep.length, g) := by
        rw [piece, hcaptured, hbefore]
        simp
      simp only [Option.map_some, List.map_cons, hpiece]
      rw [hsplit]
      refine .cons ?_ hends' (hbefore ▸ hrest)
      rcases hopens with ⟨rfl, rfl⟩ | hsep
      · exact .inr ⟨rfl, rfl⟩
      · exact .inl hsep

/-- The matches of the block pattern tile the draft. -/
theorem tiles_draft (draft : List Char) : Tiles 0 draft ((finditer BLOCK draft).map piece) := by
  have hstart : ([] : List Char) = [] ∨ Ends draft := .inl rfl
  exact tiles_from (by simp) hstart

/-- Where a tile stands in its text. -/
theorem Tiles.within {off : ℕ} {l : List Char} {es : List (ℕ × List Char)} (h : Tiles off l es)
    {e : ℕ × List Char} (he : e ∈ es) : ∃ a b, l = a ++ e.2 ++ b ∧ e.1 = off + a.length := by
  induction h with
  | nil => cases he
  | @cons off sep g rest es hsep hends h ih =>
    rcases List.mem_cons.mp he with rfl | he
    · exact ⟨sep, rest, rfl, rfl⟩
    · obtain ⟨a, b, rfl, hstart⟩ := ih he
      refine ⟨sep ++ g ++ a, b, by simp only [List.append_assoc], ?_⟩
      rw [hstart, List.length_append, List.length_append]
      omega

/-- Two tiles with a place in common are one. -/
theorem Tiles.eq_of_overlap {off : ℕ} {l : List Char} {es : List (ℕ × List Char)}
    (h : Tiles off l es) {e e' : ℕ × List Char} (he : e ∈ es) (he' : e' ∈ es) {x : ℕ}
    (hx : e.1 ≤ x ∧ x < e.1 + e.2.length) (hx' : e'.1 ≤ x ∧ x < e'.1 + e'.2.length) : e = e' := by
  induction h with
  | nil => cases he
  | @cons off sep g rest es hsep hends h ih =>
    rcases List.mem_cons.mp he with rfl | he
    · rcases List.mem_cons.mp he' with rfl | he'
      · rfl
      · obtain ⟨a, b, -, hstart⟩ := h.within he'
        dsimp only at hx
        omega
    · rcases List.mem_cons.mp he' with rfl | he'
      · obtain ⟨a, b, -, hstart⟩ := h.within he
        dsimp only at hx'
        omega
      · exact ih he he'

theorem blank_break {sep : List Char} (h : Break sep) : Blank sep := by
  obtain ⟨w, hw, rfl⟩ := h
  intro c hc
  simp only [List.mem_cons, List.mem_append, List.not_mem_nil, or_false] at hc
  rcases hc with rfl | hc | rfl
  · decide
  · have hspace := hw c hc
    rw [space_or_tab, Bool.or_eq_true, beq_iff_eq, beq_iff_eq] at hspace
    rcases hspace with rfl | rfl
    · decide
    · decide
  · decide

/-- What has no line break in it, and is not blank, stands in one tile. -/
theorem Tiles.line {off : ℕ} {l : List Char} {es : List (ℕ × List Char)} (h : Tiles off l es)
    {before line after : List Char} (hl : l = before ++ line ++ after) (hbreak : '\n' ∉ line)
    (hline : ¬ Blank line) :
    ∃ e ∈ es, e.1 ≤ off + before.length ∧ off + before.length + line.length ≤ e.1 + e.2.length := by
  induction h generalizing before with
  | nil off =>
    have hnil : line = [] := by
      have hall := congrArg List.length hl
      simp only [List.length_append, List.length_nil] at hall
      exact List.length_eq_zero_iff.mp (by omega)
    exact absurd (hnil ▸ nofun) hline
  | @cons off sep g rest es hsep hends h ih =>
    have hlen := congrArg List.length hl
    simp only [List.length_append] at hlen
    -- no line break of the text is in the line
    have hoff : ∀ i, (sep ++ g ++ rest)[i]? = some '\n' →
        ¬ (before.length ≤ i ∧ i < before.length + line.length) := by
      rintro i hi ⟨hge, hlt⟩
      rw [hl, List.append_assoc, List.getElem?_append_right hge,
        List.getElem?_append_left (by omega)] at hi
      exact hbreak (List.mem_of_getElem? hi)
    obtain ⟨c, hc, hspace⟩ : ∃ c ∈ line, ¬ isspace c = true := by
      by_contra hall
      push Not at hall
      exact hline hall
    obtain ⟨j, hj⟩ := List.mem_iff_getElem?.mp hc
    have hjlt := (List.getElem?_eq_some_iff.mp hj).1
    have hsepBlank : Blank sep := by
      rcases hsep with hsep | ⟨rfl, -⟩
      · exact blank_break hsep
      · nofun
    have hbehind : sep.length ≤ before.length + j := by
      by_contra hlt
      have hat : (sep ++ g ++ rest)[before.length + j]? = some c := by
        rw [hl, List.append_assoc, List.getElem?_append_right (by omega), Nat.add_sub_cancel_left,
          List.getElem?_append_left hjlt, hj]
      rw [List.append_assoc, List.getElem?_append_left (by omega)] at hat
      exact hspace (hsepBlank c (List.mem_of_getElem? hat))
    have hstart : sep.length ≤ before.length := by
      rcases hsep with ⟨w, -, rfl⟩ | ⟨rfl, -⟩
      · have hlast := hoff (w.length + 1) (by simp)
        simp only [List.length_cons, List.length_append, List.length_nil] at hbehind ⊢
        omega
      · exact Nat.zero_le _
    by_cases hhere : before.length ≤ sep.length + g.length
    · refine ⟨_, List.mem_cons_self, by dsimp only; omega, ?_⟩
      dsimp only
      rcases hends with rfl | ⟨-, more, ⟨w, -, rfl⟩, rfl⟩
      · rw [List.length_nil] at hlen
        omega
      · have hnext := hoff (sep.length + g.length) (by rw [← List.length_append]; simp)
        omega
    · have hrest : rest = before.drop (sep.length + g.length) ++ line ++ after := by
        have hdrop := congrArg (List.drop (sep.length + g.length)) hl
        rwa [← List.length_append, List.drop_left, List.length_append, List.append_assoc,
          List.drop_append_of_le_length (by omega), ← List.append_assoc] at hdrop
      obtain ⟨e, he, hge, hle⟩ := ih hrest
      rw [List.length_drop] at hge hle
      exact ⟨e, List.mem_cons_of_mem _ he, by omega, by omega⟩

/-! ## Citations in tiles -/

/-- What the reader of citations reads: a reference between its brackets. -/
theorem citation_reader_eq_some {l : List Char} {k : ℕ} {w : List Char} :
    citation_reader l = some (k, w) ↔
    (k = w.length + 3 ∧ ']' ∉ w ∧ ∃ rest, l = '^' :: '[' :: (w ++ ']' :: rest)) ∧
      is_reference w = true := by
  rw [citation_reader, Option.filter_eq_some_iff, bracketed_eq_some]

theorem citation_reader_cons {c : Char} {l : List Char} (hc : c ≠ '^') :
    citation_reader (c :: l) = none := by
  rw [Option.eq_none_iff_forall_not_mem]
  rintro ⟨k, w⟩ h
  obtain ⟨⟨-, -, rest, heq⟩, -⟩ := citation_reader_eq_some.mp h
  exact hc (List.cons.inj heq).1

/-- No line break is inside a citation without one. -/
theorem not_inside {off : ℕ} {l : List Char} {ms : List Match} (h : Scan citation_reader off l ms)
    {e : Match} (he : e ∈ ms) (hline : '\n' ∉ e.group) {i : ℕ} (hi : l[i]? = some '\n') :
    ¬ (e.start ≤ off + i ∧ off + i < e.stop) := by
  rintro ⟨hstart, hstop⟩
  obtain ⟨s, l', k, rfl, hs, hk, hread⟩ := h.mem readsBy_citation.toClosed he
  obtain ⟨⟨rfl, -, rest, rfl⟩, -⟩ := citation_reader_eq_some.mp hread
  have hsplit : '^' :: '[' :: (e.group ++ ']' :: rest) =
      ('^' :: '[' :: (e.group ++ [']'])) ++ rest := by simp
  rw [List.getElem?_append_right (by omega), hsplit, List.getElem?_append_left (by
    simp only [List.length_cons, List.length_append, List.length_nil]
    omega)] at hi
  have hmem := List.mem_of_getElem? hi
  simp only [List.mem_cons, List.mem_append, List.not_mem_nil, or_false] at hmem
  rcases hmem with hmem | hmem | hmem | hmem
  · exact absurd hmem (by decide)
  · exact absurd hmem (by decide)
  · exact hline hmem
  · exact absurd hmem (by decide)

/-- The citations of a draft are those of its tiles, one tile after the other. -/
theorem scan_tiles {off : ℕ} {l : List Char} {es : List (ℕ × List Char)} (ht : Tiles off l es)
    {ms : List Match} (hs : Scan citation_reader off l ms) (hline : ∀ e ∈ ms, '\n' ∉ e.group) :
    ∃ mss, ms = mss.flatten ∧
      List.Forall₂ (fun e cs => Scan citation_reader e.1 e.2 cs) es mss := by
  induction ht generalizing ms with
  | nil off =>
    refine ⟨[], ?_, .nil⟩
    exact hs.unique readsBy_citation.toClosed (.nil off)
  | @cons off sep g rest es hsep hends ht ih =>
    rw [List.append_assoc] at hs
    have hfirst : ∀ e ∈ ms, e.start < off + sep.length → e.stop ≤ off + sep.length := by
      intro e he hstart
      rcases hsep with ⟨w, hw, rfl⟩ | ⟨rfl, -⟩
      · have hlast : ('\n' :: (w ++ ['\n']) ++ (g ++ rest))[w.length + 1]? = some '\n' := by simp
        have hnot := not_inside hs he (hline e he) hlast
        simp only [List.length_cons, List.length_append, List.length_nil] at hstart ⊢
        omega
      · rw [List.length_nil] at hstart
        obtain ⟨s, -, -, -, hge, -⟩ := hs.mem readsBy_citation.toClosed he
        omega
    -- no citation crosses a line end, and a separator begins and ends with one
    obtain ⟨ms₁, ms₂, rfl, h₁, h₂⟩ := hs.split readsBy_citation.toClosed hfirst
    have hnil : ms₁ = [] := by
      refine h₁.unique readsBy_citation.toClosed (.of_none ?_)
      intro s c t hsplit
      apply citation_reader_cons
      rintro rfl
      rcases hsep with ⟨w, hw, rfl⟩ | ⟨rfl, -⟩
      · have hmem : '^' ∈ '\n' :: (w ++ ['\n']) := by rw [hsplit]; simp
        simp only [List.mem_cons, List.mem_append, List.not_mem_nil, or_false] at hmem
        rcases hmem with hmem | hmem | hmem
        · exact absurd hmem (by decide)
        · exact absurd (hw _ hmem) (by decide)
        · exact absurd hmem (by decide)
      · simp at hsplit
    subst hnil
    have hsecond : ∀ e ∈ ms₂, e.start < off + sep.length + g.length →
        e.stop ≤ off + sep.length + g.length := by
      intro e he hstart
      rcases hends with rfl | ⟨-, more, ⟨w, -, rfl⟩, rfl⟩
      · obtain ⟨s, l', k, hl, hge, hk, hread⟩ := h₂.mem readsBy_citation.toClosed he
        have hle := (readsBy_citation.length hread).2
        have hlen := congrArg List.length hl
        simp only [List.length_append, List.length_nil] at hlen
        omega
      · have hbreak : (g ++ ('\n' :: (w ++ ['\n']) ++ more))[g.length]? = some '\n' := by simp
        have hnot := not_inside h₂ he (hline e (List.mem_append_right _ he)) hbreak
        omega
    obtain ⟨ms₃, ms₄, rfl, h₃, h₄⟩ := h₂.split readsBy_citation.toClosed hsecond
    obtain ⟨mss, rfl, hall⟩ :=
      ih h₄ fun e he => hline e (List.mem_append_right _ (List.mem_append_right _ he))
    exact ⟨ms₃ :: mss, by simp, .cons h₃ hall⟩

end Memline.wiki.draft
