/-
What a long answer of a model is read as.

An answer is one JSON document, perhaps between the lines of a code fence, and nothing else is
tolerated. The text that was written of a value is read as that value, in both forms; no part of it
that was cut off is read as anything, in either form, so that a truncated answer is never mistaken
for a whole one.
-/
import Mathlib.Tactic.Tauto
import Memline.Lib.JsonWriting
import Memline.Lib.Occurrence
import Memline.Text

set_option autoImplicit false

namespace Memline.relay

open Py Mem0
open Py.JsonText hiding Blank

/-! ## Reading an answer -/

/-- What reading an answer may raise: what is tried again, and what is not. -/
inductive Unread where
  | value_error (msg : String)
  | recursion_error
  deriving DecidableEq

/-- The language, and the texts of its errors. -/
structure Reader where
  language : Language
  decode_message : List Char → String
  digits_message : List Char → String

def FENCE : List Char := "\x60\x60\x60".toList

def JSON_TAG : List Char := "json".toList

/-- `s.strip()`. -/
def strip_list (s : List Char) : List Char := (Mem0.strip (String.ofList s)).toList

/-- `s.split("\n", 1)[-1]`. -/
def after_first_line (s : List Char) : List Char :=
  if '\n' ∈ s then (s.dropWhile fun c => c != '\n').tail else s

/-- `s.rsplit(mark, 1)[0]`. -/
def before_last (mark s : List Char) : List Char :=
  match Lists.around mark.reverse s.reverse with
  | some (_, front) => front.reverse
  | none => s

/-- `s.removeprefix(tag)`. -/
def without_tag (tag s : List Char) : List Char := if tag <+: s then s.drop tag.length else s

/-- What stands between the lines of a fence, or the whole. -/
def unfenced (s : List Char) : List Char :=
  if FENCE <+: s then
    strip_list (without_tag JSON_TAG (strip_list (before_last FENCE (after_first_line s))))
  else s

variable (rd : Reader)

/-- Parse a model's answer, tolerating a code fence but nothing else. -/
def parse_json (text : String) : Except Unread Json :=
  -- a fence is looked for at the beginning of the stripped text only
  let s := unfenced (strip_list text.toList)
  if s = [] then .error (.value_error "empty answer")
  else match json_loads rd.language true s with
    | .ok value => .ok value
    | .error .decode => .error (.value_error ("not JSON: " ++ rd.decode_message s))
    | .error .digits => .error (.value_error (rd.digits_message s))
    -- no `ValueError`: the caller does not try again
    | .error .depth => .error .recursion_error

/-! ## Stripping -/

theorem strip_list_eq (s : List Char) :
    strip_list s = (s.dropWhile isspace).rdropWhile isspace := by
  rw [strip_list, strip_toList, String.toList_ofList]

/-- Blanks about a stripped list are stripped off. -/
theorem strip_between {l a b : List Char} (h : Stripped l) (ha : Blank a) (hb : Blank b) :
    strip_list (a ++ l ++ b) = l := by
  rw [strip_list, strip_of_stripped h ha hb, String.toList_ofList]

/-- What is cut off a stripped text and stripped again is still short of it. -/
theorem strip_of_short {l w f : List Char} (hl : l ≠ []) (h : ∀ c ∈ l.head?, isspace c = false)
    (hw : Blank w) (hf : f <+: w ++ l) (hne : f ≠ w ++ l) :
    strip_list f <+: l ∧ strip_list f ≠ l := by
  -- the cut is among the blanks, and nothing is left, or in the text itself
  rcases List.prefix_or_prefix_of_prefix hf (List.prefix_append w l) with hfw | ⟨u, rfl⟩
  · have hblank : Blank f := fun c hc => hw c (hfw.subset hc)
    have hnil : strip_list f = [] := by
      rw [strip_list_eq, List.dropWhile_eq_nil_iff.mpr hblank]
      rfl
    rw [hnil]
    exact ⟨List.nil_prefix, hl.symm⟩
  · have hu : u <+: l := (List.prefix_append_right_inj w).mp hf
    have hdrop : (w ++ u).dropWhile isspace = u := by
      rw [List.dropWhile_append_of_pos hw]
      cases u with
      | nil => rfl
      | cons c u =>
        obtain ⟨v, rfl⟩ := hu
        exact List.dropWhile_cons_of_neg (by rw [h c rfl]; exact Bool.false_ne_true)
    have hcut := List.rdropWhile_prefix isspace u
    rw [strip_list_eq, hdrop]
    refine ⟨hcut.trans hu, fun heq => hne ?_⟩
    -- a beginning that is as long as the text would be the text
    have hlen := hcut.length_le
    rw [heq] at hlen
    rw [hu.eq_of_length_le hlen]

/-! ## The text of a value -/

theorem last_of_items {D : Decoder} {xs : List Json} {t : List Char} (h : SpellsItems D xs t) :
    t.getLast? = some ']' := by
  induction xs generalizing t with
  | nil =>
    unfold SpellsItems at h
    rw [h]
    rfl
  | cons x xs ih =>
    unfold SpellsItems at h
    obtain ⟨a, u, b, rest, -, -, -, hrest, rfl⟩ := h
    have hlast := ih hrest
    simp [List.getLast?_cons, List.getLast?_append, hlast]

theorem last_of_fields {D : Decoder} {fields : List (String × Json)} {t : List Char}
    (h : SpellsFields D fields t) : t.getLast? = some '\x7d' := by
  induction fields generalizing t with
  | nil =>
    unfold SpellsFields at h
    rw [h]
    rfl
  | cons e fields ih =>
    obtain ⟨key, x⟩ := e
    unfold SpellsFields at h
    obtain ⟨a, raw, b, c, u, d, rest, -, -, -, -, -, -, hrest, rfl⟩ := h
    have hlast := ih hrest
    simp [List.getLast?_cons, List.getLast?_append, hlast]

/-- The marks that the text of a string, an array or an object is between. -/
def Marked (t : List Char) : Prop :=
  (∃ c r, t = c :: r ∧ c ∈ ['"', '[', '\x7b']) ∧ ∃ d ∈ ['"', ']', '\x7d'], t.getLast? = some d

/-- A list, an object or a string begins and ends with a mark of its own. -/
theorem marked_of_spells {D : Decoder} {x : Json} {t : List Char} (h : Spells D x t)
    (hbare : bare_value x = false) : Marked t := by
  -- a bare value has no marks; the others begin and end with theirs
  cases x with
  | null | bool _ | int _ | float _ => cases hbare
  | str s =>
    unfold Spells at h
    obtain ⟨raw, -, rfl⟩ := h
    exact ⟨⟨'"', _, rfl, by simp⟩, '"', by simp, by simp [List.getLast?_cons, List.getLast?_append]⟩
  | list xs =>
    cases xs with
    | nil =>
      unfold Spells at h
      obtain ⟨a, -, rfl⟩ := h
      exact ⟨⟨'[', _, rfl, by simp⟩, ']', by simp,
        by simp [List.getLast?_cons, List.getLast?_append]⟩
    | cons x xs =>
      unfold Spells at h
      obtain ⟨a, u, b, rest, -, -, -, hrest, rfl⟩ := h
      have hlast := last_of_items hrest
      exact ⟨⟨'[', _, rfl, by simp⟩, ']', by simp,
        by simp [List.getLast?_cons, List.getLast?_append, hlast]⟩
  | obj fields =>
    cases fields with
    | nil =>
      unfold Spells at h
      obtain ⟨a, -, rfl⟩ := h
      exact ⟨⟨'\x7b', _, rfl, by simp⟩, '\x7d', by simp,
        by simp [List.getLast?_cons, List.getLast?_append]⟩
    | cons e fields =>
      obtain ⟨key, x⟩ := e
      unfold Spells at h
      obtain ⟨a, raw, b, c, u, d, rest, -, -, -, -, -, -, hrest, rfl⟩ := h
      have hlast := last_of_fields hrest
      exact ⟨⟨'\x7b', _, rfl, by simp⟩, '\x7d', by simp,
        by simp [List.getLast?_cons, List.getLast?_append, hlast]⟩

theorem mark_not_space {c : Char} (h : c = '"' ∨ c = '[' ∨ c = '\x7b' ∨ c = ']' ∨ c = '\x7d') :
    isspace c = false := by
  rcases h with rfl | rfl | rfl | rfl | rfl <;> decide

namespace Marked

variable {t : List Char}

theorem ne_nil (h : Marked t) : t ≠ [] := by
  obtain ⟨⟨c, r, rfl, -⟩, -⟩ := h
  exact List.cons_ne_nil c r

theorem head_not_space (h : Marked t) : ∀ c ∈ t.head?, isspace c = false := by
  obtain ⟨⟨c, r, rfl, hc⟩, -⟩ := h
  intro d hd
  cases hd
  exact mark_not_space (by simp only [List.mem_cons, List.not_mem_nil, or_false] at hc; tauto)

theorem stripped (h : Marked t) : Stripped t := by
  refine ⟨h.head_not_space, fun c hc => ?_⟩
  obtain ⟨-, d, hd, hlast⟩ := h
  rw [hlast] at hc
  cases hc
  exact mark_not_space (by simp only [List.mem_cons, List.not_mem_nil, or_false] at hd; tauto)

/-- No beginning of the text is taken for a fence or for its tag. -/
theorem not_tag (h : Marked t) {u : List Char} (hu : u <+: t) {c : Char} {tag : List Char}
    (hc : c ∉ ['"', '[', '\x7b']) : ¬ (c :: tag) <+: u := by
  intro htag
  obtain ⟨⟨d, r, rfl, hd⟩, -⟩ := h
  obtain ⟨rfl, -⟩ := List.cons_prefix_cons.mp (htag.trans hu)
  exact hc hd

/-- No part of a marked text begins with a fence. -/
theorem not_fence (h : Marked t) {u : List Char} (hu : u <+: t) : ¬ FENCE <+: u := by
  apply h.not_tag hu
  decide

/-- No part of a marked text begins with the tag of a fence. -/
theorem without_tag_eq (h : Marked t) {u : List Char} (hu : u <+: t) :
    without_tag JSON_TAG u = u := by
  apply if_neg
  apply h.not_tag hu
  decide

end Marked

/-! ## Fences -/

/-- Blanks at the end do not matter. -/
theorem strip_append_blank (s : List Char) {b : List Char} (hb : Blank b) :
    strip_list (s ++ b) = strip_list s := by
  rw [strip_list, strip_list, Mem0.strip_append_blank s hb]

/-- The tag of a fence is dropped, with the blanks about it. -/
theorem Marked.strip_tagged {t w tag v b : List Char} (h : Marked t) (hw : Blank w) (hv : Blank v)
    (hb : Blank b) (htag : tag = [] ∨ tag = JSON_TAG) :
    strip_list (without_tag JSON_TAG (strip_list (w ++ tag ++ v ++ t ++ b))) = t := by
  have hnil : Blank [] := by simp [Blank]
  have hagain : ∀ v, Blank v → strip_list (v ++ t) = t := by
    intro v hv
    have hv := strip_between h.stripped hv hnil
    rwa [List.append_nil] at hv
  -- without a tag all the blanks go at once; with one, those behind it go with the second stripping
  rcases htag with rfl | rfl
  · rw [List.append_nil, strip_between h.stripped (hw.append hv) hb,
      h.without_tag_eq (List.prefix_refl t)]
    exact hagain [] hnil
  · have hstripped : Stripped (JSON_TAG ++ (v ++ t)) := by
      constructor
      · intro c hc
        cases hc
        decide
      · intro c hc
        rw [List.getLast?_append_of_ne_nil _ (by simp [h.ne_nil]),
          List.getLast?_append_of_ne_nil _ h.ne_nil] at hc
        exact h.stripped.2 c hc
    have hstrip := strip_between hstripped hw hb
    rw [← List.append_assoc, ← List.append_assoc] at hstrip
    rw [hstrip, without_tag, if_pos (List.prefix_append _ _), List.drop_left]
    exact hagain v hv

/-- A stripped text keeps its blanks inside when more follows it. -/
theorem strip_opened {a l : List Char} (r : List Char) (ha : Blank a) (hl : Stripped l)
    (hne : l ≠ []) : strip_list (a ++ (l ++ r)) = l ++ r.rdropWhile isspace := by
  have hdrop : (a ++ (l ++ r)).dropWhile isspace = l ++ r := by
    rw [List.dropWhile_append_of_pos ha]
    obtain ⟨c, l, rfl⟩ := List.exists_cons_of_ne_nil hne
    exact List.dropWhile_cons_of_neg (by rw [hl.1 c rfl]; exact Bool.false_ne_true)
  -- the end is stripped as far as the text at most, which ends in no blank
  have hlast : l.rdropWhile isspace = l := by
    apply List.rdropWhile_eq_self_iff.mpr
    intro hne
    rw [hl.2 _ (List.getLast?_eq_getLast_of_ne_nil hne)]
    exact Bool.false_ne_true
  rw [strip_list_eq, hdrop, List.rdropWhile, List.reverse_append, List.dropWhile_append]
  by_cases hr : r.rdropWhile isspace = []
  · rw [if_pos (by rw [List.isEmpty_iff]; exact List.reverse_eq_nil_iff.mp hr), hr, List.append_nil]
    exact hlast
  · rw [if_neg (by rw [List.isEmpty_iff]; exact fun h => hr (List.reverse_eq_nil_iff.mpr h)),
      List.reverse_append, List.reverse_reverse]
    rfl

/-- What lies before the last mark is a beginning of the text. -/
theorem before_last_begins (mark s : List Char) : before_last mark s <+: s := by
  rw [before_last]
  split
  · rename_i behind front h
    have heq := congrArg List.reverse (Lists.eq_of_around h)
    rw [List.reverse_reverse, List.reverse_append] at heq
    rw [heq]
    exact List.prefix_append _ _
  · exact List.prefix_refl s

/-- Up to the last fence. -/
theorem before_last_fence {remark : List Char} (front : List Char)
    (h : ¬ FENCE <:+: FENCE.tail ++ remark) :
    before_last FENCE (front ++ (FENCE ++ remark)) = front := by
  -- the last fence is the first one when the text is read backwards
  have hfirst : ¬ FENCE.reverse <:+: remark.reverse ++ FENCE.reverse.dropLast := by
    intro hin
    refine h (List.reverse_infix.mp ?_)
    rwa [List.reverse_append]
  have haround := Lists.around_of_first front.reverse (by decide) hfirst
  rw [before_last, List.reverse_append, List.reverse_append, haround]
  exact List.reverse_reverse front

/-- What stands behind the line of an opening fence. -/
theorem unfenced_fence {info : List Char} (hinfo : '\n' ∉ info) (m : List Char) :
    unfenced (FENCE ++ info ++ '\n' :: m) =
      strip_list (without_tag JSON_TAG (strip_list (before_last FENCE m))) := by
  -- neither the marks nor what follows them on the line end it
  have hline : ∀ c ∈ FENCE ++ info, (c != '\n') = true := by
    intro c hc
    rw [bne_iff_ne]
    rintro rfl
    rcases List.mem_append.mp hc with hc | hc
    · revert hc
      decide
    · exact hinfo hc
  have hafter : after_first_line (FENCE ++ info ++ '\n' :: m) = m := by
    rw [after_first_line, if_pos (by simp), List.dropWhile_append_of_pos hline,
      List.dropWhile_cons_of_neg (by simp)]
    rfl
  rw [unfenced, if_pos (by rw [List.append_assoc]; exact List.prefix_append _ _), hafter]

/-- An opening fence, what follows on its line, and more that is not blank. -/
theorem strip_fence {a info : List Char} (ha : Blank a) {w : List Char} {c : Char}
    (hc : isspace c = false) (r : List Char) :
    strip_list (a ++ (FENCE ++ info ++ '\n' :: (w ++ c :: r))) =
      FENCE ++ info ++ '\n' :: (w ++ c :: r.rdropWhile isspace) := by
  have hstripped : Stripped (FENCE ++ info ++ '\n' :: (w ++ [c])) := by
    constructor
    · intro d hd
      cases hd
      decide
    · intro d hd
      have hlast : (FENCE ++ info ++ '\n' :: (w ++ [c])).getLast? = some c := by
        simp [List.getLast?_append, List.getLast?_cons]
      rw [hlast] at hd
      cases hd
      exact hc
  have h := strip_opened r ha hstripped (by simp)
  simpa only [List.append_assoc, List.cons_append, List.nil_append] using h

/-! ## Whole answers, and parts of them -/

variable {rd : Reader} {st : Style} {p : Printer} {x : Json} {t : List Char}

/-- What the writer wrote of a value that is no number and no name. -/
structure Document (L : Language) (st : Style) (p : Printer) (x : Json) (t : List Char) : Prop where
  written : json_dumps L st p x = .ok t
  floats : FloatsRead L p x
  keys : Distinct x
  closed : bare_value x = false

namespace Document

theorem marked (h : Document rd.language st p x t) : Marked t := by
  obtain ⟨-, hints, rfl⟩ := json_dumps_ok h.written
  exact marked_of_spells (D := ⟨rd.language, true⟩) (spells_write x hints h.floats 0) h.closed

/-- What is left of the answer is the whole document: it is read as the value. -/
theorem parse_whole (h : Document rd.language st p x t) {text : String}
    (ht : unfenced (strip_list text.toList) = t) : parse_json rd text = .ok x := by
  simp only [parse_json, ht, if_neg h.marked.ne_nil, loads_dumps h.written h.floats h.keys true]

/-- What is left of the answer is a part of the document: it is refused. -/
theorem parse_short (h : Document rd.language st p x t) {text : String} {u : List Char}
    (hu : unfenced (strip_list text.toList) = u) (hpart : u <+: t) (hne : u ≠ t) :
    ∃ msg, parse_json rd text = .error (.value_error msg) := by
  by_cases hnil : u = []
  · exact ⟨_, by simp only [parse_json, hu, if_pos hnil]; rfl⟩
  · have hread := loads_torn h.written h.floats h.keys h.closed hpart hne true
    exact ⟨_, by simp only [parse_json, hu, if_neg hnil, hread]; rfl⟩

/-- A part of the text behind a fence is left a part of the text. -/
theorem tag_short (h : Document rd.language st p x t) {w f : List Char} (hw : Blank w)
    (hf : f <+: w ++ t) (hne : f ≠ w ++ t) :
    strip_list (without_tag JSON_TAG (strip_list f)) <+: t ∧
      strip_list (without_tag JSON_TAG (strip_list f)) ≠ t := by
  have hm := h.marked
  obtain ⟨hpart, hshort⟩ := strip_of_short hm.ne_nil hm.head_not_space hw hf hne
  rw [hm.without_tag_eq hpart]
  have hnil : Blank [] := by simp [Blank]
  exact strip_of_short hm.ne_nil hm.head_not_space hnil (by simpa using hpart)
    (by simpa using hshort)

end Document

/-- Nothing is read that begins with a mark of a fence. -/
theorem loads_mark (L : Language) (s : List Char) :
    json_loads L true ('\x60' :: s) = .error .decode := rfl

/-- Behind an open fence without a second line stands nothing, or a mark of the fence. -/
theorem unfenced_open {info : List Char} (h : '\n' ∉ info) :
    unfenced (FENCE ++ info) = [] ∨ ∃ s, unfenced (FENCE ++ info) = '\x60' :: s := by
  have hline : '\n' ∉ FENCE ++ info := by
    rw [List.mem_append, not_or]
    exact ⟨by decide, h⟩
  rw [unfenced, if_pos (List.prefix_append _ _), after_first_line, if_neg hline]
  have hcut := before_last_begins FENCE (FENCE ++ info)
  cases hleft : before_last FENCE (FENCE ++ info) with
  | nil => exact .inl rfl
  | cons c s =>
    rw [hleft] at hcut
    obtain rfl : c = '\x60' := (List.cons_prefix_cons.mp hcut).1
    right
    have hstrip : ∀ s : List Char, strip_list ('\x60' :: s) = '\x60' :: s.rdropWhile isspace :=
      fun s =>
      @strip_opened [] ['\x60'] s nofun ⟨by simp [isspace], by simp [isspace]⟩ (by simp)
    have htag : ∀ s : List Char, ¬ JSON_TAG <+: '\x60' :: s := fun s hp =>
      absurd (List.cons_prefix_cons.mp hp).1 (by decide)
    exact ⟨_, by rw [hstrip, without_tag, if_neg (htag _), hstrip]⟩

/-- A fence that was opened, and nothing else. -/
theorem parse_open {rd : Reader} {a w info : List Char} (ha : Blank a) (hw : Blank w)
    (hinfo : '\n' ∉ info) :
    ∃ msg, parse_json rd (String.ofList (a ++ (FENCE ++ info ++ '\n' :: w))) =
      .error (.value_error msg) := by
  have hblank : Blank ('\n' :: w) := List.forall_mem_cons.mpr ⟨by decide, hw⟩
  have hstrip : strip_list (a ++ (FENCE ++ info ++ '\n' :: w)) =
      FENCE ++ info.rdropWhile isspace := by
    rw [← List.append_assoc, strip_append_blank _ hblank]
    exact strip_opened info ha ⟨by simp [FENCE, isspace],
      by simp [FENCE, isspace]⟩ (List.cons_ne_nil _ _)
  have hline : '\n' ∉ info.rdropWhile isspace :=
    fun h => hinfo ((List.rdropWhile_prefix _ _).subset h)
  have hread : unfenced (strip_list (String.ofList (a ++ (FENCE ++ info ++ '\n' :: w))).toList) =
      unfenced (FENCE ++ info.rdropWhile isspace) := by
    rw [String.toList_ofList, hstrip]
  rcases unfenced_open hline with hnil | ⟨s, hs⟩
  · exact ⟨_, by simp only [parse_json, hread, hnil, if_pos]; rfl⟩
  · exact ⟨_, by simp only [parse_json, hread, hs, loads_mark]; rfl⟩

/-- **Documents and parts of them.** A document is read bare and fenced, whatever blanks are about
it, whatever the fence's line says and whatever is remarked behind the fence; and no part of it is
read, however it was begun. -/
theorem parse_json_document (h : Document rd.language st p x t)
    {a b w v info tag remark : List Char} (ha : Blank a) (hb : Blank b) (hw : Blank w)
    (hv : Blank v) (hinfo : '\n' ∉ info) (htag : tag = [] ∨ tag = JSON_TAG)
    (hremark : ¬ FENCE <:+: FENCE.tail ++ remark) :
    parse_json rd (String.ofList (a ++ t ++ b)) = .ok x ∧
    parse_json rd (String.ofList
      (a ++ (FENCE ++ info ++ '\n' :: (w ++ tag ++ v ++ t ++ b ++ (FENCE ++ remark))))) = .ok x ∧
    ∀ u, u <+: t → u ≠ t →
      (∃ msg, parse_json rd (String.ofList (a ++ u ++ b)) = .error (.value_error msg)) ∧
      ∃ msg, parse_json rd (String.ofList (a ++ (FENCE ++ info ++ '\n' :: (w ++ u)))) =
        .error (.value_error msg) := by
  have hm := h.marked
  refine ⟨?_, ?_, fun u hu hne => ⟨?_, ?_⟩⟩
  · apply h.parse_whole
    rw [String.toList_ofList, strip_between hm.stripped ha hb, unfenced,
      if_neg (hm.not_fence (List.prefix_refl t))]
  · apply h.parse_whole
    -- stripping the answer shortens the remark, which has no fence in it then either
    have hlate : ¬ FENCE <:+: FENCE.tail ++ remark.rdropWhile isspace := fun hin =>
      hremark
        (hin.trans ((List.prefix_append_right_inj _).mpr (List.rdropWhile_prefix _ _)).isInfix)
    have hstrip :=
      @strip_fence a info ha (w ++ tag ++ v ++ t ++ b ++ FENCE.tail) '\x60' (by decide) remark
    -- the answer is stripped as far as the last mark of the closing fence
    have hclosing : ∀ r, w ++ tag ++ v ++ t ++ b ++ FENCE.tail ++ '\x60' :: r =
        w ++ tag ++ v ++ t ++ b ++ (FENCE ++ r) := by
      intro r
      rw [List.append_assoc _ FENCE.tail]
      rfl
    rw [hclosing, hclosing] at hstrip
    rw [String.toList_ofList, hstrip, unfenced_fence hinfo, before_last_fence _ hlate]
    exact hm.strip_tagged hw hv hb htag
  · rw [List.append_assoc, ← List.append_assoc]
    have hshort :=
      strip_of_short hm.ne_nil hm.head_not_space ha ((List.prefix_append_right_inj a).mpr hu)
      fun heq => hne (List.append_cancel_left heq)
    rw [← strip_append_blank _ hb] at hshort
    refine h.parse_short ?_ hshort.1 hshort.2
    rw [String.toList_ofList, unfenced, if_neg (hm.not_fence hshort.1)]
  · by_cases hnil : u = []
    · rw [hnil, List.append_nil]
      exact parse_open ha hw hinfo
    obtain ⟨c, r, rfl⟩ := List.exists_cons_of_ne_nil hnil
    have hc : isspace c = false := by
      obtain ⟨more, rfl⟩ := hu
      exact hm.head_not_space c rfl
    -- a fence in a string of the document is taken for the closing one, and cuts off more
    have hcut : before_last FENCE (w ++ c :: r.rdropWhile isspace) <+: w ++ c :: r :=
      (before_last_begins _ _).trans ((List.prefix_append_right_inj w).mpr
        (List.cons_prefix_cons.mpr ⟨rfl, List.rdropWhile_prefix _ _⟩))
    have hlen := hcut.length_le
    -- what is left is shorter than the document, so it is not the document
    have hshort : (c :: r).length < t.length := by
      refine lt_of_le_of_ne hu.length_le fun heq => hne (hu.eq_of_length heq)
    have htagged := h.tag_short hw (hcut.trans ((List.prefix_append_right_inj w).mpr hu)) fun heq =>
      by
      rw [heq, List.length_append, List.length_append] at hlen
      omega
    refine h.parse_short ?_ htagged.1 htagged.2
    rw [String.toList_ofList, strip_fence ha hc, unfenced_fence hinfo]

def plain_reader : Reader where
  language := .plain
  decode_message _ := ""
  digits_message _ := ""

/-- A document with a fence in one of its strings. -/
def titled : Json := .obj [("title", .str "\x60\x60\x60")]

def titled_text : List Char := "\x7b\"title\": \"\x60\x60\x60\"\x7d".toList

theorem titled_document : Document plain_reader.language .line .plain titled titled_text where
  written := by rfl
  floats := by simp [titled, FloatsRead, FloatsReadFields]
  keys := by simp [titled, Distinct, DistinctFields]
  closed := by rfl

/-- Fenced and with a text behind the fence it is read; cut off, in either form, it is not. -/
theorem titled_read :
    parse_json plain_reader (String.ofList ([' '] ++ (FENCE ++ JSON_TAG ++ '\n' ::
      ([] ++ [] ++ [] ++ titled_text ++ ['\n'] ++ (FENCE ++ "\nDone.".toList))))) = .ok titled ∧
    (∃ msg, parse_json plain_reader (String.ofList ([' '] ++ titled_text.take 12 ++ ['\n'])) =
      .error (.value_error msg)) ∧
    ∃ msg,
      parse_json plain_reader (String.ofList ([' '] ++ (FENCE ++ JSON_TAG ++ '\n' :: ([] ++ [])))) =
      .error (.value_error msg) := by
  have hnil : Blank [] := by simp [Blank]
  have hspace : Blank [' '] := by simp [Blank, isspace]
  have hline : Blank ['\n'] := by simp [Blank, isspace]
  have hinfo : '\n' ∉ JSON_TAG := by decide
  have hremark : ¬ FENCE <:+: FENCE.tail ++ "\nDone.".toList := by decide
  have h := parse_json_document titled_document hspace hline hnil hnil hinfo (.inl rfl) hremark
  exact ⟨h.2.1, (h.2.2 (titled_text.take 12) (List.take_prefix _ _) (by decide)).1,
    (h.2.2 [] List.nil_prefix (by decide)).2⟩

end Memline.relay
