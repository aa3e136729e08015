/-
What is left of a text without the blanks around it, and the lines of a text.
-/
import Mathlib.Data.List.DropRight
import Mathlib.Data.List.TakeWhile
import Memline.Ledger
import Memline.Lib.Lists

set_option autoImplicit false

namespace Memline

namespace Mem0

/-! ## Stripping -/

/-- Nothing but blanks. -/
def Blank (l : List Char) : Prop := ∀ c ∈ l, isspace c = true

theorem Blank.append {l l' : List Char} (h : Blank l) (h' : Blank l') : Blank (l ++ l') := by
  intro c hc
  exact (List.mem_append.mp hc).elim (h c) (h' c)

/-- What is left starts and ends with no blank. -/
def Stripped (l : List Char) : Prop :=
  (∀ c ∈ l.head?, isspace c = false) ∧ ∀ c ∈ l.getLast?, isspace c = false

theorem strip_toList (s : String) :
    (strip s).toList = (s.toList.dropWhile isspace).rdropWhile isspace := by
  rw [strip, String.toList_ofList]
  rfl

/-- Blanks, what is left, and blanks. -/
theorem strip_spec (s : String) : ∃ a b, s.toList = a ++ (strip s).toList ++ b ∧ Blank a ∧ Blank b ∧
    Stripped (strip s).toList := by
  rw [strip_toList]
  generalize hd : s.toList.dropWhile isspace = d
  refine ⟨s.toList.takeWhile isspace, d.rtakeWhile isspace, ?_, ?_, ?_, ?_, ?_⟩
  · rw [List.append_assoc, List.rdropWhile_append_rtakeWhile, ← hd, List.takeWhile_append_dropWhile]
  · exact fun c hc => List.mem_takeWhile_imp hc
  · exact fun c hc => List.mem_rtakeWhile_imp hc
  · intro c hc
    obtain ⟨rest, hrest⟩ := List.head?_eq_some_iff.mp hc
    obtain ⟨more, hmore⟩ := List.rdropWhile_prefix isspace d
    have hhead := List.head?_dropWhile_not isspace s.toList
    rw [hrest] at hmore
    rw [hd, ← hmore, List.cons_append, List.head?_cons] at hhead
    simpa using hhead
  · intro c hc
    obtain ⟨front, hfront⟩ := List.getLast?_eq_some_iff.mp hc
    have hne : d.rdropWhile isspace ≠ [] := by
      rw [hfront]
      exact List.append_ne_nil_of_right_ne_nil _ (List.cons_ne_nil _ _)
    have hlast := List.rdropWhile_last_not isspace d hne
    simp only [hfront, List.getLast_append_singleton, Bool.not_eq_true] at hlast
    exact hlast

/-- Blanks about a stripped text are stripped off. -/
theorem strip_of_stripped {l : List Char} (h : Stripped l) {a b : List Char} (ha : Blank a)
    (hb : Blank b) : strip (String.ofList (a ++ l ++ b)) = String.ofList l := by
  apply String.toList_inj.mp
  rw [strip_toList, String.toList_ofList, String.toList_ofList, List.append_assoc,
    List.dropWhile_append_of_pos ha]
  have hdrop : (l ++ b).dropWhile isspace = if l = [] then [] else l ++ b := by
    cases l with
    | nil => exact List.dropWhile_eq_nil_iff.mpr hb
    | cons c l => exact List.dropWhile_cons_of_neg (by rw [h.1 c rfl]; exact Bool.false_ne_true)
  rw [hdrop]
  split
  · rename_i hl
    rw [hl]
    rfl
  · rename_i hl
    have hlast : ¬ isspace (l.getLast hl) = true := by
      rw [h.2 _ (List.getLast?_eq_getLast_of_ne_nil hl)]
      exact Bool.false_ne_true
    rw [List.rdropWhile, List.reverse_append,
      List.dropWhile_append_of_pos fun c hc => hb c (List.mem_reverse.mp hc)]
    exact List.rdropWhile_eq_self_iff.mpr fun _ => hlast

/-- Nothing is left of blanks, and of nothing else. -/
theorem strip_eq_empty_iff {s : String} : strip s = "" ↔ Blank s.toList := by
  constructor
  · intro h
    obtain ⟨a, b, hs, ha, hb, -⟩ := strip_spec s
    rw [h, String.toList_empty, List.append_nil] at hs
    rw [hs]
    exact ha.append hb
  · intro h
    have hnil : Blank [] := nofun
    have hempty := strip_of_stripped (l := []) ⟨nofun, nofun⟩ h hnil
    rwa [List.append_nil, List.append_nil, String.ofList_toList] at hempty

/-- Blanks at the end do not matter. -/
theorem strip_append_blank (s : List Char) {b : List Char} (hb : Blank b) :
    strip (String.ofList (s ++ b)) = strip (String.ofList s) := by
  obtain ⟨a, b', hs, ha, hb', hstripped⟩ := strip_spec (String.ofList s)
  rw [String.toList_ofList] at hs
  conv_lhs => rw [hs, List.append_assoc]
  rw [strip_of_stripped hstripped ha (hb'.append hb), String.ofList_toList]

theorem strip_strip (s : String) : strip (strip s) = strip s := by
  obtain ⟨-, -, -, -, -, h⟩ := strip_spec s
  have hnil : Blank [] := nofun
  have hagain := strip_of_stripped h hnil hnil
  rwa [List.nil_append, List.append_nil, String.ofList_toList] at hagain

/-- What stands between blanks takes in every stripped stretch of the whole. -/
theorem infix_of_stripped {a t b u l v : List Char} (h : a ++ t ++ b = u ++ l ++ v) (ha : Blank a)
    (hb : Blank b) (hl : Stripped l) : l <:+: t := by
  by_cases hnil : l = []
  · rw [hnil]
    exact List.nil_infix
  have hpos := List.length_pos_of_ne_nil hnil
  have hlen := congrArg List.length h
  simp only [List.length_append] at hlen
  have hfirst : a.length ≤ u.length := by
    by_contra hlt
    obtain ⟨c, rest, rfl⟩ := List.exists_cons_of_ne_nil hnil
    have hat : (a ++ t ++ b)[u.length]? = some c := by simp [h]
    rw [List.append_assoc, List.getElem?_append_left (by omega)] at hat
    have hblank := ha c (List.mem_of_getElem? hat)
    rw [hl.1 c rfl] at hblank
    cases hblank
  have hlast : b.length ≤ v.length := by
    by_contra hlt
    obtain ⟨c, hc⟩ := List.getLast?_isSome.mpr hnil |> Option.isSome_iff_exists.mp
    obtain ⟨front, rfl⟩ := List.getLast?_eq_some_iff.mp hc
    have hat : (a ++ t ++ b)[(u ++ front).length]? = some c := by
      rw [h]
      simp
    rw [List.length_append, List.length_singleton] at hlen
    rw [List.getElem?_append_right (by simp only [List.length_append]; omega)] at hat
    have hblank := hb c (List.mem_of_getElem? hat)
    rw [hl.2 c hc] at hblank
    cases hblank
  exact Lists.infix_of_cuts h hfirst hlast

/-- What is left of a stretch of a text is a stretch of what is left of the text. -/
theorem strip_infix {l text : List Char} (h : l <:+: text) :
    (strip (String.ofList l)).toList <:+: (strip (String.ofList text)).toList := by
  obtain ⟨u, v, rfl⟩ := h
  obtain ⟨a, b, hwhole, ha, hb, -⟩ := strip_spec (String.ofList (u ++ l ++ v))
  obtain ⟨a', b', hpart, -, -, hstripped⟩ := strip_spec (String.ofList l)
  rw [String.toList_ofList] at hwhole hpart
  refine @infix_of_stripped a _ b (u ++ a') _ (b' ++ v) ?_ ha hb hstripped
  rw [← hwhole]
  nth_rewrite 1 [hpart]
  simp only [List.append_assoc]

end Mem0

namespace ledger

/-! ## Lines -/

/-- What a text starts with that is no blank is left of it. -/
theorem strip_head {s : String} {c : Char} {rest : List Char} (hs : s.toList = c :: rest)
    (hc : Mem0.isspace c = false) : ∃ more, (Mem0.strip s).toList = c :: more := by
  obtain ⟨a, b, hwhole, ha, hb, -⟩ := Mem0.strip_spec s
  rw [hs] at hwhole
  cases a with
  | cons d a =>
    have hd : c = d := (List.cons.inj hwhole).1
    have hblank := ha d List.mem_cons_self
    rw [← hd, hc] at hblank
    cases hblank
  | nil =>
    cases hstrip : (Mem0.strip s).toList with
    | cons d more =>
      rw [hstrip] at hwhole
      exact ⟨more, by rw [(List.cons.inj hwhole).1]⟩
    | nil =>
      rw [hstrip] at hwhole
      have hblank := hb c (by rw [← show c :: rest = b from hwhole]; exact List.mem_cons_self)
      rw [hc] at hblank
      cases hblank

/-- The first line starts with what has been read of it. -/
theorem lines_from_head {line : List Char} (hline : line ≠ []) (l : List Char) :
    ∃ s rest, lines_from line l = s :: rest ∧ line.reverse <+: s.toList := by
  fun_induction lines_from line l with
  | case1 => exact absurd rfl hline
  | case2 line hne => exact ⟨_, _, rfl, [], by rw [String.toList_ofList, List.append_nil]⟩
  | case3 line rest ih => exact ⟨_, _, rfl, [], by rw [String.toList_ofList, List.append_nil]⟩
  | case4 line c rest hcr hend ih =>
    exact ⟨_, _, rfl, [], by rw [String.toList_ofList, List.append_nil]⟩
  | case5 line c rest hcr hend ih =>
    obtain ⟨s, more, hlines, hstart⟩ := ih (List.cons_ne_nil _ _)
    rw [List.reverse_cons] at hstart
    exact ⟨s, more, hlines, (List.prefix_append _ _).trans hstart⟩

theorem lines_from_break (line r : List Char) :
    lines_from line ('\n' :: r) = String.ofList line.reverse :: lines_from [] r := by
  rw [lines_from]
  · rfl
  · nofun

/-- A character that is no part of a longer line end: it ends the line or goes on with it. -/
theorem lines_from_cons {c : Char} {l : List Char} (hcr : ∀ r, c = '\r' → l ≠ '\n' :: r)
    (line : List Char) :
    lines_from line (c :: l)
      = if line_end c then String.ofList line.reverse :: lines_from [] l
        else lines_from (c :: line) l := by
  rw [lines_from]
  exact fun r hc hl => hcr r hc hl

/-- A text that does not end with a carriage return stays free of a line end cut in two. -/
theorem not_crlf {c : Char} {rest : List Char} (hcr : ∀ r, c = '\r' → rest = '\n' :: r → False)
    (hlast : ¬ (c = '\r' ∧ rest = [])) (r r' : List Char) (hc : c = '\r') :
    rest ++ '\n' :: r ≠ '\n' :: r' := by
  intro heq
  cases rest with
  | nil => exact hlast ⟨hc, rfl⟩
  | cons d rest =>
    rw [List.cons_append] at heq
    exact hcr rest hc (by rw [(List.cons.inj heq).1])

/-- A text is cut into lines at each of its line breaks. -/
theorem lines_from_append (line l r : List Char) :
    lines_from line (l ++ '\n' :: r) = lines_from line (l ++ ['\n']) ++ lines_from [] r := by
  fun_induction lines_from line l with
  | case1 =>
    rw [List.nil_append, List.nil_append, lines_from_break, lines_from_break, lines_from]
    rfl
  | case2 line hne =>
    rw [List.nil_append, List.nil_append, lines_from_break, lines_from_break, lines_from]
    rfl
  | case3 line rest ih =>
    rw [List.cons_append, List.cons_append, List.cons_append, List.cons_append, lines_from,
      lines_from, ih]
    rfl
  | case4 line c rest hcr hend ih =>
    -- a carriage return at the end makes one break with the line feed
    by_cases hlast : c = '\r' ∧ rest = []
    · obtain ⟨rfl, rfl⟩ := hlast
      rfl
    · have hcr' := not_crlf hcr hlast
      rw [List.cons_append, List.cons_append, lines_from_cons (hcr' r),
        lines_from_cons (hcr' []), if_pos hend, if_pos hend, ih]
      rfl
  | case5 line c rest hcr hend ih =>
    have hlast : ¬ (c = '\r' ∧ rest = []) := by
      rintro ⟨rfl, -⟩
      exact hend rfl
    have hcr' := not_crlf hcr hlast
    rw [List.cons_append, List.cons_append, lines_from_cons (hcr' r),
      lines_from_cons (hcr' []), if_neg hend, if_neg hend, ih]

/-- What follows a line break has lines of its own. -/
theorem splitlines_append {text : String} (h : text.toList.getLast? = some '\n') (added : String) :
    splitlines (text ++ added) = splitlines text ++ splitlines added := by
  obtain ⟨front, hfront⟩ := List.getLast?_eq_some_iff.mp h
  rw [splitlines, splitlines, splitlines, String.toList_append, hfront, List.append_assoc]
  exact lines_from_append [] front added.toList

/-! ### The characters of the lines -/

/-- No line has a line end in it. -/
theorem not_line_end {line l : List Char} (hline : ∀ c ∈ line, line_end c = false) :
    ∀ s ∈ lines_from line l, ∀ c ∈ s.toList, line_end c = false := by
  have hread : ∀ {line : List Char}, (∀ c ∈ line, line_end c = false) →
      ∀ c ∈ (String.ofList line.reverse).toList, line_end c = false := by
    intro line hline c hc
    rw [String.toList_ofList, List.mem_reverse] at hc
    exact hline c hc
  fun_induction lines_from line l with
  | case1 => nofun
  | case2 line hne =>
    intro s hs
    rw [List.mem_singleton.mp hs]
    exact hread hline
  | case3 line rest ih => exact List.forall_mem_cons.mpr ⟨hread hline, ih nofun⟩
  | case4 line c rest hcr hend ih => exact List.forall_mem_cons.mpr ⟨hread hline, ih nofun⟩
  | case5 line c rest hcr hend ih =>
    exact ih (List.forall_mem_cons.mpr ⟨by simpa using hend, hline⟩)

/-- A line break at the end ends the last line, or makes an empty one. -/
theorem lines_from_newline (line l : List Char) :
    lines_from line (l ++ ['\n']) = lines_from line l ∨
      lines_from line (l ++ ['\n']) = lines_from line l ++ [""] := by
  fun_induction lines_from line l with
  | case1 => exact .inr rfl
  | case2 line hne =>
    rw [List.nil_append, lines_from_break]
    exact .inl rfl
  | case3 line rest ih =>
    rw [List.cons_append, List.cons_append, lines_from, List.cons_append]
    exact ih.imp (congrArg _) (congrArg _)
  | case4 line c rest hcr hend ih =>
    by_cases hlast : c = '\r' ∧ rest = []
    · obtain ⟨rfl, rfl⟩ := hlast
      exact .inl rfl
    · rw [List.cons_append, lines_from_cons (not_crlf hcr hlast []), if_pos hend, List.cons_append]
      exact ih.imp (congrArg _) (congrArg _)
  | case5 line c rest hcr hend ih =>
    have hlast : ¬ (c = '\r' ∧ rest = []) := by
      rintro ⟨rfl, -⟩
      exact hend rfl
    rw [List.cons_append, lines_from_cons (not_crlf hcr hlast []), if_neg hend]
    exact ih

/-- What holds of the empty line holds of the lines, whether the last one is ended or not. -/
theorem forall_lines_newline {P : String → Prop} (hempty : P "") (l : List Char) :
    (∀ s ∈ lines_from [] (l ++ ['\n']), P s) ↔ ∀ s ∈ lines_from [] l, P s := by
  rcases lines_from_newline [] l with h | h
  · rw [h]
  · rw [h, List.forall_mem_append, List.forall_mem_singleton]
    exact and_iff_left hempty

/-- Text without line ends is one line, or the beginning of one. -/
theorem lines_from_text {h : List Char} (hh : ∀ c ∈ h, line_end c = false) (line l : List Char) :
    lines_from line (h ++ l) = lines_from (h.reverse ++ line) l := by
  induction h generalizing line with
  | nil => rfl
  | cons c h ih =>
    obtain ⟨hc, hrest⟩ := List.forall_mem_cons.mp hh
    have hcr : ∀ r, c = '\r' → h ++ l ≠ '\n' :: r := by
      rintro r rfl
      cases hc
    rw [List.cons_append, lines_from_cons hcr,
      if_neg (by rw [hc]; exact Bool.false_ne_true), ih hrest, List.reverse_cons, List.append_assoc]
    rfl

/-- Blanks end the line they stand on, and are lines of blanks after it. -/
theorem lines_from_blank {line w : List Char} (hline : line ≠ []) (hw : Mem0.Blank w) :
    ∃ w₀ more, lines_from line w = String.ofList (line.reverse ++ w₀) :: more ∧ Mem0.Blank w₀ ∧
      (∀ s ∈ more, Mem0.Blank s.toList) ∧ ∀ c ∈ w.head?, line_end c = false →
        w₀.head? = some c := by
  -- the lines cut off a blank text are blank
  have hblank : ∀ {l : List Char}, Mem0.Blank l → ∀ line, Mem0.Blank line →
      ∀ s ∈ lines_from line l, Mem0.Blank s.toList := by
    intro l hl line hline
    have hread : ∀ {line : List Char}, Mem0.Blank line →
        Mem0.Blank (String.ofList line.reverse).toList := by
      intro line hline c hc
      rw [String.toList_ofList, List.mem_reverse] at hc
      exact hline c hc
    fun_induction lines_from line l with
    | case1 => nofun
    | case2 line hne =>
      intro s hs
      rw [List.mem_singleton.mp hs]
      exact hread hline
    | case3 line rest ih =>
      exact List.forall_mem_cons.mpr ⟨hread hline, ih (fun c hc => hl c (by simp [hc])) nofun⟩
    | case4 line c rest hcr hend ih =>
      exact List.forall_mem_cons.mpr ⟨hread hline, ih (fun c hc => hl c (by simp [hc])) nofun⟩
    | case5 line c rest hcr hend ih =>
      obtain ⟨hc, hrest⟩ := List.forall_mem_cons.mp hl
      exact ih hrest (List.forall_mem_cons.mpr ⟨hc, hline⟩)
  have hnil : Mem0.Blank [] := nofun
  -- the open line takes the characters up to the first line end
  fun_induction lines_from line w with
  | case1 => exact absurd rfl hline
  | case2 line hne => exact ⟨[], [], by rw [List.append_nil], hnil, nofun, nofun⟩
  | case3 line rest ih =>
    refine ⟨[], _, by rw [List.append_nil], hnil, hblank (fun c hc => hw c (by simp [hc])) [] hnil,
      fun c hc hend => ?_⟩
    rw [← Option.some.inj hc] at hend
    cases hend
  | case4 line c rest hcr hend ih =>
    refine ⟨[], _, by rw [List.append_nil], hnil, hblank (fun c hc => hw c (by simp [hc])) [] hnil,
      fun d hd hnot => ?_⟩
    rw [← Option.some.inj hd, hend] at hnot
    cases hnot
  | case5 line c rest hcr hend ih =>
    obtain ⟨hc, hrest⟩ := List.forall_mem_cons.mp hw
    obtain ⟨w₀, more, hlines, hw₀, hmore, -⟩ := ih (List.cons_ne_nil _ _) hrest
    refine ⟨c :: w₀, more, ?_, List.forall_mem_cons.mpr ⟨hc, hw₀⟩, hmore, fun d hd _ => ?_⟩
    · rw [hlines, List.reverse_cons, List.append_assoc]
      rfl
    · exact hd

theorem lines_from_ne_nil {line l : List Char} (h : line ≠ [] ∨ l ≠ []) :
    lines_from line l ≠ [] := by
  fun_induction lines_from line l with
  | case1 => exact absurd h (by simp)
  | case2 line hne => exact List.cons_ne_nil _ _
  | case3 line rest ih => exact List.cons_ne_nil _ _
  | case4 line c rest hcr hend ih => exact List.cons_ne_nil _ _
  | case5 line c rest hcr hend ih => exact ih (.inl (List.cons_ne_nil _ _))

theorem toList_join_cons (s : String) {rest : List String} (h : rest ≠ []) :
    ("\n".intercalate (s :: rest)).toList = s.toList ++ '\n' :: ("\n".intercalate rest).toList := by
  obtain ⟨s', rest, rfl⟩ := List.exists_cons_of_ne_nil h
  rw [String.intercalate_cons_cons, String.toList_append, String.toList_append, List.append_assoc]
  rfl

/-- The lines of blanks put together are blank. -/
theorem join_lines_blank (line : List Char) {w : List Char} (hw : Mem0.Blank w) :
    ∃ b, Mem0.Blank b ∧ ("\n".intercalate (lines_from line w)).toList = line.reverse ++ b := by
  have hnil : Mem0.Blank [] := nofun
  have hbreak : ∀ {line rest : List Char} {b : List Char}, Mem0.Blank b →
      ("\n".intercalate (lines_from [] rest)).toList = b →
      ∃ b', Mem0.Blank b' ∧
        ("\n".intercalate (String.ofList line.reverse :: lines_from [] rest)).toList
        = line.reverse ++ b' := by
    intro line rest b hb hrest
    by_cases hlast : lines_from [] rest = []
    · refine ⟨[], hnil, ?_⟩
      rw [hlast, String.intercalate_singleton, String.toList_ofList, List.append_nil]
    · refine ⟨'\n' :: b, List.forall_mem_cons.mpr ⟨by decide, hb⟩, ?_⟩
      rw [toList_join_cons _ hlast, hrest, String.toList_ofList]
  fun_induction lines_from line w with
  | case1 => exact ⟨[], hnil, rfl⟩
  | case2 line hne => exact ⟨[], hnil,
      by rw [String.intercalate_singleton, String.toList_ofList, List.append_nil]⟩
  | case3 line rest ih =>
    obtain ⟨b, hb, hrest⟩ := ih fun c hc => hw c (by simp [hc])
    exact hbreak hb hrest
  | case4 line c rest hcr hend ih =>
    obtain ⟨b, hb, hrest⟩ := ih fun c hc => hw c (by simp [hc])
    exact hbreak hb hrest
  | case5 line c rest hcr hend ih =>
    obtain ⟨hc, hrest⟩ := List.forall_mem_cons.mp hw
    obtain ⟨b, hb, hjoin⟩ := ih hrest
    refine ⟨c :: b, List.forall_mem_cons.mpr ⟨hc, hb⟩, ?_⟩
    rw [hjoin, List.reverse_cons, List.append_assoc]
    rfl

/-- The lines of a text put together are the text, where it has no other line ends than newlines. -/
theorem join_lines {s w : List Char} (hs : ∀ c ∈ s, line_end c = true → c = '\n')
    (hlast : ∀ c ∈ s.getLast?, Mem0.isspace c = false) (hw : Mem0.Blank w) (line : List Char) :
    ∃ b, Mem0.Blank b ∧ ("\n".intercalate (lines_from line (s ++ w))).toList =
      line.reverse ++ s ++ b := by
  induction s generalizing line with
  | nil =>
    obtain ⟨b, hb, hjoin⟩ := join_lines_blank line hw
    exact ⟨b, hb, by rw [List.nil_append, hjoin, List.append_nil]⟩
  | cons c s ih =>
    obtain ⟨hc, hrest⟩ := List.forall_mem_cons.mp hs
    have hlater : ∀ d ∈ s.getLast?, Mem0.isspace d = false := by
      intro d hd
      obtain ⟨front, rfl⟩ := List.getLast?_eq_some_iff.mp hd
      exact hlast d (by rw [← List.cons_append, List.getLast?_append]; rfl)
    by_cases hend : line_end c = true
    · obtain rfl := hc hend
      have hne : s ≠ [] := by
        rintro rfl
        exact absurd (hlast '\n' rfl) (by decide)
      have hlines : lines_from [] (s ++ w) ≠ [] := lines_from_ne_nil (.inr (by simp [hne]))
      obtain ⟨b, hb, hjoin⟩ := ih hrest hlater []
      refine ⟨b, hb, ?_⟩
      rw [List.cons_append, lines_from_break, toList_join_cons _ hlines, hjoin,
        String.toList_ofList]
      simp
    · have hcr : ∀ r, c = '\r' → s ++ w ≠ '\n' :: r := by
        rintro r rfl
        exact absurd rfl hend
      obtain ⟨b, hb, hjoin⟩ := ih hrest hlater (c :: line)
      refine ⟨b, hb, ?_⟩
      rw [List.cons_append, lines_from_cons hcr, if_neg hend, hjoin, List.reverse_cons]
      simp

end ledger

end Memline
