/-
How a ledger file is cut.

The lines of a file fall into segments: blank lines, headings, and the entries that become
chunks. Which segments a file has is said here without the loop of `parse_file`; the loop
then gives the chunks of these segments, and what holds of every file is an induction on them.
-/
import Memline.Text
import Memline.Lib.Occurrence

set_option autoImplicit false

namespace Memline.ledger

/-! ## Lines -/

/-- A line of text: no blank one and no heading. -/
def IsText (line : String) : Prop := Mem0.strip line ≠ "" ∧ startsWith (Mem0.strip line) "#" = false

/-- The first line of a list item. -/
def IsItem (line : String) : Prop := startsWith line "- " = true

/-- A line of a paragraph. -/
def IsPlain (line : String) : Prop := IsText line ∧ ¬ IsItem line

instance (line : String) : Decidable (IsText line) := inferInstanceAs (Decidable (_ ∧ _))

instance (line : String) : Decidable (IsItem line) := inferInstanceAs (Decidable (_ = _))

instance (line : String) : Decidable (IsPlain line) := inferInstanceAs (Decidable (_ ∧ _))

/-- How many `#` a heading starts with. -/
def heading_level (line : String) : ℕ := ((Mem0.strip line).toList.takeWhile (· = '#')).length

def heading_title (line : String) : String :=
  Mem0.strip (String.ofList ((Mem0.strip line).toList.drop (heading_level line)))

/-- The text of some lines. -/
def body_of (lines : List String) : String := Mem0.strip ("\n".intercalate lines)

theorem startsWith_iff {s start : String} : startsWith s start = true ↔ start.toList <+: s.toList :=
  List.isPrefixOf_iff_prefix

theorem toList_join (lines : List String) :
    ("\n".intercalate lines).toList = ['\n'].intercalate (lines.map String.toList) := by
  rw [String.toList_intercalate]
  rfl

/-- Lines of which only blanks are left have nothing else. -/
theorem strip_eq_empty_of_join {lines : List String} (h : body_of lines = "") {line : String}
    (hline : line ∈ lines) : Mem0.strip line = "" := by
  rw [body_of, Mem0.strip_eq_empty_iff, toList_join] at h
  rw [Mem0.strip_eq_empty_iff]
  exact fun c hc => h c ((Lists.infix_intercalate (List.mem_map_of_mem hline)).subset hc)

theorem IsItem.toList {line : String} (h : IsItem line) :
    ∃ rest, line.toList = '-' :: ' ' :: rest := by
  obtain ⟨rest, hrest⟩ := startsWith_iff.mp h
  exact ⟨rest, hrest.symm⟩

/-- An item is a line of text. -/
theorem IsItem.isText {line : String} (h : IsItem line) : IsText line := by
  obtain ⟨rest, hline⟩ := h.toList
  obtain ⟨more, hmore⟩ := strip_head hline (by decide)
  constructor
  · intro hempty
    rw [hempty] at hmore
    cases hmore
  · rw [startsWith, hmore]
    rfl

/-- An item goes on with no item. -/
theorem IsItem.not_continues {line : String} (h : IsItem line) : continues line = false := by
  obtain ⟨rest, hline⟩ := h.toList
  have hblank : Mem0.strip line ≠ "" := h.isText.1
  have hindent : startsWith line "  " = false ∧ startsWith line "\t" = false := by
    rw [startsWith, startsWith, hline]
    exact ⟨rfl, rfl⟩
  rw [continues, hindent.1, hindent.2, decide_eq_false hblank]
  rfl

/-! ## Segments -/

inductive Segment where
  | blank (line : String)
  | heading (line : String)
  | entry (lines : List String) (body : String)
deriving DecidableEq, Repr

namespace Segment

def lines : Segment → List String
  | blank line => [line]
  | heading line => [line]
  | entry lines _ => lines

end Segment

/-- The segments of some lines. In line mode every line of text is an entry; in entry mode an
item takes with it the blank and the indented lines below it, and a paragraph is a run of other
lines of text. -/
inductive Segmented (mode : Mode) : List String → List Segment → Prop where
  | nil : Segmented mode [] []
  | blank {line : String} {rest : List String} {segs : List Segment} (hline : Mem0.strip line = "")
      (hrest : Segmented mode rest segs) : Segmented mode (line :: rest) (.blank line :: segs)
  | heading {line : String} {rest : List String} {segs : List Segment}
      (hline : startsWith (Mem0.strip line) "#" = true) (hrest : Segmented mode rest segs) :
      Segmented mode (line :: rest) (.heading line :: segs)
  | line {line : String} {rest : List String} {segs : List Segment} (hmode : mode = .line)
      (hline : IsText line) (hrest : Segmented mode rest segs) :
      Segmented mode (line :: rest) (.entry [line] line :: segs)
  | item {line : String} {more rest : List String} {segs : List Segment} (hmode : mode = .entry)
      (hline : IsItem line) (hmore : ∀ l ∈ more, continues l = true)
      (hend : ∀ l ∈ rest.head?, continues l = false) (hrest : Segmented mode rest segs) :
      Segmented mode (line :: more ++ rest) (.entry (line :: more) (body_of (line :: more)) :: segs)
  | paragraph {line : String} {more rest : List String} {segs : List Segment}
      (hmode : mode = .entry) (hlines : ∀ l ∈ line :: more, IsPlain l)
      (hend : ∀ l ∈ rest.head?, ¬ IsPlain l) (hrest : Segmented mode rest segs) :
      Segmented mode (line :: more ++ rest) (.entry (line :: more) (body_of (line :: more)) :: segs)

/-- The first lines that a test holds of, and what comes then. -/
theorem exists_run (p : String → Bool) (lines : List String) :
    ∃ more rest, lines = more ++ rest ∧ (∀ l ∈ more, p l = true) ∧ ∀ l ∈ rest.head?,
      p l = false := by
  refine ⟨lines.takeWhile p, lines.dropWhile p, (List.takeWhile_append_dropWhile).symm,
    fun l hl => List.mem_takeWhile_imp hl, fun l hl => ?_⟩
  have hhead := List.head?_dropWhile_not p lines
  rw [Option.mem_def.mp hl] at hhead
  simpa using hhead

theorem run_of_end {p : String → Bool} {more rest : List String} (hmore : ∀ l ∈ more, p l = true)
    (hend : ∀ l ∈ rest.head?, p l = false) : (more ++ rest).takeWhile p = more ∧
      (more ++ rest).dropWhile p = rest := by
  rw [List.takeWhile_append_of_pos hmore, List.dropWhile_append_of_pos hmore]
  cases rest with
  | nil => exact ⟨List.append_nil _, rfl⟩
  | cons l rest =>
    have hl : ¬ p l = true := by
      rw [hend l rfl]
      exact Bool.false_ne_true
    rw [List.takeWhile_cons_of_neg hl, List.dropWhile_cons_of_neg hl]
    exact ⟨List.append_nil _, rfl⟩

/-- Lines of every kind have their segments. -/
theorem exists_segmented (mode : Mode) (lines : List String) :
    ∃ segs, Segmented mode lines segs := by
  induction hn : lines.length using Nat.strong_induction_on generalizing lines with
  | _ n ih =>
    subst hn
    cases lines with
    | nil => exact ⟨[], .nil⟩
    | cons line rest =>
      -- a segment takes at least its first line
      have hless : ∀ more rest' : List String, rest = more ++ rest' →
          rest'.length < (line :: rest).length := by
        rintro more rest' rfl
        rw [List.length_cons, List.length_append]
        omega
      obtain ⟨segs, hsegs⟩ := ih _ (hless [] rest rfl) rest rfl
      by_cases hblank : Mem0.strip line = ""
      · exact ⟨_, .blank hblank hsegs⟩
      by_cases hhash : startsWith (Mem0.strip line) "#" = true
      · exact ⟨_, .heading hhash hsegs⟩
      have htext : IsText line := ⟨hblank, by simpa using hhash⟩
      cases hmode : mode with
      | line => exact ⟨_, .line rfl htext (hmode ▸ hsegs)⟩
      | entry =>
        by_cases hitem : IsItem line
        · obtain ⟨more, rest', hrest, hmore, hend⟩ := exists_run continues rest
          obtain ⟨segs', hsegs'⟩ := ih _ (hless more rest' hrest) rest' rfl
          rw [hrest]
          exact ⟨_, .item rfl hitem hmore hend (hmode ▸ hsegs')⟩
        · obtain ⟨more, rest', hrest, hmore, hend⟩ := exists_run (fun l => decide (IsPlain l)) rest
          obtain ⟨segs', hsegs'⟩ := ih _ (hless more rest' hrest) rest' rfl
          have hlines : ∀ l ∈ line :: more, IsPlain l := by
            intro l hl
            rcases List.mem_cons.mp hl with rfl | hl
            · exact ⟨htext, hitem⟩
            · exact of_decide_eq_true (hmore l hl)
          rw [hrest]
          exact ⟨_,
            .paragraph rfl hlines (fun l hl => of_decide_eq_false (hend l hl)) (hmode ▸ hsegs')⟩

/-- The segments of a file put together are its lines. -/
theorem Segmented.lines_eq {mode : Mode} {lines : List String} {segs : List Segment}
    (h : Segmented mode lines segs) : segs.flatMap Segment.lines = lines := by
  induction h with
  | nil => rfl
  | blank _ _ ih => rw [List.flatMap_cons, ih]; rfl
  | heading _ _ ih => rw [List.flatMap_cons, ih]; rfl
  | line _ _ _ ih => rw [List.flatMap_cons, ih]; rfl
  | item _ _ _ _ _ ih => rw [List.flatMap_cons, ih]; rfl
  | paragraph _ _ _ _ ih => rw [List.flatMap_cons, ih]; rfl

/-! ## The chunks of segments -/

/-- The headings that are open after a heading. -/
def opened (headings : List (ℕ × String)) (line : String) : List (ℕ × String) :=
  headings.filter (fun h => h.1 < heading_level line) ++ [(heading_level line, heading_title line)]

/-- The chunk of some lines, the first of which has the number. -/
def chunk_at (path : Path) (line_no : ℕ) (headings : List (ℕ × String)) (lines : List String)
    (body : String) : Chunk :=
  { source_path := path
    ledger_date := stem path
    start_line := line_no
    end_line := line_no + lines.length - 1
    heading_path := ({ headings := headings } : Parse).heading_path
    body := body }

/-- The chunks of the segments from a line on. -/
def layout (path : Path) : ℕ → List (ℕ × String) → List Segment → List Chunk
  | _, _, [] => []
  | n, headings, .blank _ :: segs => layout path (n + 1) headings segs
  | n, headings, .heading line :: segs => layout path (n + 1) (opened headings line) segs
  | n, headings, .entry lines body :: segs =>
    chunk_at path n headings lines body :: layout path (n + lines.length) headings segs

theorem Parse.flush_of_nil {path : Path} {s : Parse} (h : s.paragraph = []) :
    s.flush path = s := if_pos h

theorem Parse.flush_paragraph {path : Path} (s : Parse) : (s.flush path).paragraph = [] := by
  unfold Parse.flush
  split
  · assumption
  · rfl

/-- The chunk that numbered lines make. -/
theorem Parse.take_numbered (path : Path) (s : Parse) (n : ℕ) (line : String) (more : List String)
    (body : String) :
    s.take path (((line :: more).zipIdx n).map Prod.swap) body
      = { s with chunks := s.chunks ++ [chunk_at path n s.headings (line :: more) body] } := by
  have hlast : ((((line :: more).zipIdx n).map Prod.swap).getLast?.map Prod.fst).getD 0 =
      n + more.length := by
    rw [List.getLast?_map, List.getLast?_eq_getElem?, List.getElem?_zipIdx]
    simp
  rw [Parse.take, hlast]
  rfl

theorem Parse.flush_flush {path : Path} (s : Parse) : (s.flush path).flush path = s.flush path :=
  Parse.flush_of_nil s.flush_paragraph

/-- A paragraph is flushed where it ends. -/
theorem parse_lines_flush (path : Path) {rest : List String} (hend : ∀ l ∈ rest.head?, ¬ IsPlain l)
    (fuel n : ℕ) (s : Parse) :
    parse_lines path .entry fuel n rest s = parse_lines path .entry fuel n rest (s.flush path) := by
  match fuel, rest with
  | 0, rest => simp only [parse_lines, Parse.flush_flush]
  | _ + 1, [] => simp only [parse_lines, Parse.flush_flush]
  | fuel + 1, line :: rest =>
    have hnot : ¬ IsPlain line := hend line rfl
    rw [parse_lines, parse_lines, Parse.flush_flush]
    by_cases hblank : Mem0.strip line = ""
    · simp only [hblank, if_true]
    by_cases hhash : startsWith (Mem0.strip line) "#" = true
    · simp only [hblank, hhash, if_true, if_false]
    have hitem : startsWith line "- " = true := by
      by_contra hitem
      exact hnot ⟨⟨hblank, by simpa using hhash⟩, hitem⟩
    simp only [hitem, if_true]

/-- The lines of a paragraph are collected. -/
theorem parse_lines_plain (path : Path) {lines : List String} (hlines : ∀ l ∈ lines, IsPlain l)
    (rest : List String) (n : ℕ) (s : Parse) :
    parse_lines path .entry (lines ++ rest).length n (lines ++ rest) s
      = parse_lines path .entry rest.length (n + lines.length) rest
        { s with paragraph := s.paragraph ++ (lines.zipIdx n).map Prod.swap } := by
  induction lines generalizing n s with
  | nil => simp
  | cons line lines ih =>
    obtain ⟨hline, hlines⟩ := List.forall_mem_cons.mp hlines
    obtain ⟨⟨hblank, hhash⟩, hitem⟩ := hline
    have hdash : startsWith line "- " = false := by simpa [IsItem] using hitem
    rw [List.cons_append, List.length_cons, parse_lines]
    simp only [hblank, hhash, hdash, if_false, Bool.false_eq_true, reduceCtorEq]
    -- the line is numbered and joins the paragraph, and so do those after it
    have hno : n + 1 + lines.length = n + (line :: lines).length := by
      rw [List.length_cons]
      omega
    have hparagraph : s.paragraph ++ [(n, line)] ++ (lines.zipIdx (n + 1)).map Prod.swap
        = s.paragraph ++ ((line :: lines).zipIdx n).map Prod.swap := by
      simp [List.zipIdx_cons]
    rw [ih hlines, hno, ← hparagraph]

theorem body_of_ne_empty {line : String} {more : List String} (h : ∀ l ∈ line :: more, IsPlain l) :
    body_of (line :: more) ≠ "" :=
  fun hempty => (h line List.mem_cons_self).1.1 (strip_eq_empty_of_join hempty List.mem_cons_self)

/-- A paragraph that has been collected becomes a chunk. -/
theorem flush_numbered {path : Path} {s : Parse} {n : ℕ} {line : String} {more : List String}
    (h : s.paragraph = ((line :: more).zipIdx n).map Prod.swap)
    (hbody : body_of (line :: more) ≠ "") :
    s.flush path = { s with
      chunks := s.chunks ++ [chunk_at path n s.headings (line :: more) (body_of (line :: more))]
      paragraph := [] } := by
  have hlines : s.paragraph.map Prod.snd = line :: more := by
    rw [h, List.map_map]
    exact List.zipIdx_map_fst n (line :: more)
  have hne : s.paragraph ≠ [] := by
    intro hnil
    rw [hnil] at hlines
    cases hlines
  rw [Parse.flush, if_neg hne]
  simp only [hlines]
  rw [show Mem0.strip ("\n".intercalate (line :: more)) = body_of (line :: more) from rfl,
    if_neg hbody, h, Parse.take_numbered]

/-- **The loop gives the chunks of the segments.** -/
theorem parse_lines_layout {path : Path} {mode : Mode} {lines : List String} {segs : List Segment}
    (h : Segmented mode lines segs) (n : ℕ) (s : Parse) (hs : s.paragraph = []) :
    (parse_lines path mode lines.length n lines s).chunks =
      s.chunks ++ layout path n s.headings segs := by
  -- along the segments: at the start of each, no paragraph is open
  induction h generalizing n s with
  | nil => simp [parse_lines, layout, Parse.flush_of_nil hs]
  | blank hline _ ih =>
    rw [List.length_cons, parse_lines]
    simp only [hline, if_true, Parse.flush_of_nil hs]
    exact ih _ _ hs
  | @heading line rest segs hline _ ih =>
    have hblank : Mem0.strip line ≠ "" := by
      intro hempty
      rw [hempty] at hline
      cases hline
    rw [List.length_cons, parse_lines]
    simp only [hblank, hline, if_true, if_false, Parse.flush_of_nil hs]
    exact ih _ _ hs
  | @line line rest segs hmode hline _ ih =>
    subst hmode
    have htake := s.take_numbered path n line [] line
    rw [List.length_cons, parse_lines]
    simp only [hline.1, hline.2, if_true, if_false, Bool.false_eq_true, Parse.flush_of_nil hs]
    refine (congrArg (fun s => (parse_lines path .line rest.length (n + 1) rest s).chunks)
      htake).trans ?_
    rw [ih (n + 1), List.append_assoc]
    · rfl
    · exact hs
  | @item line more rest segs hmode hline hmore hend _ ih =>
    subst hmode
    obtain ⟨htake, hdrop⟩ := run_of_end hmore hend
    have hdash : startsWith line "- " = true := hline
    -- an item takes its lines at once, and the fuel that is left is more than enough
    have hfuel := parse_lines_fuel path .entry (more ++ rest).length (n + 1 + more.length) rest
    have hlength : n + 1 + more.length = n + (line :: more).length := by
      rw [List.length_cons]
      omega
    rw [List.cons_append, List.length_cons, parse_lines]
    simp only [hline.isText.1, hline.isText.2, hdash, if_true, if_false,
      Bool.false_eq_true, reduceCtorEq, Parse.flush_of_nil hs, htake, hdrop]
    have hbody :
        Mem0.strip ("\n".intercalate ((((line :: more).zipIdx n).map Prod.swap).map Prod.snd))
        = body_of (line :: more) := by
      rw [List.map_map, body_of]
      exact congrArg (fun l => Mem0.strip ("\n".intercalate l))
        (List.zipIdx_map_fst n (line :: more))
    rw [hfuel _ (by rw [List.length_append]; omega), Parse.take_numbered, hlength, hbody, ih,
      List.append_assoc]
    · rfl
    · exact hs
  | @paragraph line more rest segs hmode hlines hend _ ih =>
    subst hmode
    rw [parse_lines_plain path hlines, hs, List.nil_append, parse_lines_flush path hend,
      flush_numbered rfl (body_of_ne_empty hlines), ih _ _ rfl, List.append_assoc]
    rfl

/-! ## Where the segments stand -/

/-- How many lines some segments take. -/
def extent (segs : List Segment) : ℕ := (segs.flatMap Segment.lines).length

theorem extent_append (a b : List Segment) : extent (a ++ b) = extent a + extent b := by
  rw [extent, List.flatMap_append, List.length_append]
  rfl

/-- The lines of a stretch with one more segment in front. -/
theorem extent_cons (seg : Segment) (segs : List Segment) :
    extent (seg :: segs) = seg.lines.length + extent segs := by
  rw [extent, List.flatMap_cons, List.length_append]
  rfl

/-- The headings among some segments: the numbers of their lines, their levels and titles. -/
def headings_of : ℕ → List Segment → List (ℕ × ℕ × String)
  | _, [] => []
  | n, .heading line :: segs =>
    (n, heading_level line, heading_title line) :: headings_of (n + 1) segs
  | n, seg :: segs => headings_of (n + seg.lines.length) segs

/-- The headings that are open after some. -/
def open_headings (es : List (ℕ × ℕ × String)) : List (ℕ × ℕ × String) :=
  Lists.unclosed (fun e => e.2.1) es

/-- One more heading closes those of its level and below, and is open itself. -/
theorem opened_concat (es : List (ℕ × ℕ × String)) (n : ℕ) (line : String) :
    opened ((open_headings es).map Prod.snd) line
      = (open_headings (es ++ [(n, heading_level line, heading_title line)])).map Prod.snd := by
  rw [opened]
  generalize heading_level line = level
  rw [open_headings, open_headings, Lists.unclosed_concat, List.map_append, List.filter_map]
  rfl

theorem heading_path_open (es : List (ℕ × ℕ × String)) :
    ({ headings := (open_headings es).map Prod.snd } : Parse).heading_path =
      (open_headings es).map fun e => e.2.2 := by
  have hranks : (open_headings es).Pairwise fun e e' => e.2.1 < e'.2.1 :=
    Lists.unclosed_pairwise _ es
  have hsorted : ((open_headings es).map Prod.snd).Pairwise fun h h' => h.1 ≤ h'.1 := by
    rw [List.pairwise_map]
    exact hranks.imp fun h => Nat.le_of_lt h
  rw [Parse.heading_path, hsorted.insertionSort_eq, List.map_map]
  rfl

/-- A segment of a list is its first or comes later. -/
theorem exists_split_cons {seg : Segment} {segs : List Segment}
    {P : List Segment → Segment → Prop} :
    (∃ before seg' after, seg :: segs = before ++ seg' :: after ∧ P before seg') ↔
      P [] seg ∨ ∃ before seg' after, segs = before ++ seg' :: after ∧ P (seg :: before) seg' := by
  constructor
  · rintro ⟨before, seg', after, heq, h⟩
    cases before with
    | nil =>
      obtain ⟨rfl, -⟩ := List.cons.inj heq
      exact .inl h
    | cons first before =>
      obtain ⟨rfl, hsegs⟩ := List.cons.inj heq
      exact .inr ⟨before, seg', after, hsegs, h⟩
  · rintro (h | ⟨before, seg', after, rfl, h⟩)
    · exact ⟨[], seg, segs, rfl, h⟩
    · exact ⟨seg :: before, seg', after, rfl, h⟩

/-- Each chunk is that of an entry, at the number of its first line and below the headings that
are open there. -/
theorem mem_layout_iff {path : Path} {segs : List Segment} {n : ℕ} {es : List (ℕ × ℕ × String)}
    {c : Chunk} :
    c ∈ layout path n ((open_headings es).map Prod.snd) segs ↔
      ∃ before seg after, segs = before ++ seg :: after ∧ ∃ lines body, seg = .entry lines body ∧
        c = chunk_at path (n + extent before)
          ((open_headings (es ++ headings_of n before)).map Prod.snd) lines body := by
  induction segs generalizing n es with
  | nil => simp [layout]
  | cons seg segs ih =>
    rw [exists_split_cons]
    have hextent : ∀ before, n + extent (seg :: before) = n + seg.lines.length + extent before := by
      intro before
      rw [extent_cons, Nat.add_assoc]
    simp only [hextent]
    cases seg with
    | blank line =>
      rw [layout, ih]
      simp [headings_of, Segment.lines]
    | heading line =>
      rw [layout, opened_concat es n, ih]
      simp [headings_of, Segment.lines, List.append_assoc]
    | entry lines body =>
      rw [layout, List.mem_cons, ih]
      simp [headings_of, Segment.lines, extent]

/-! ## What a segment is at its place -/

/-- What the lines of a segment are. -/
def Segment.Ok : Segment → Prop
  | .blank line => Mem0.strip line = ""
  | .heading line => startsWith (Mem0.strip line) "#" = true
  | .entry lines body => lines ≠ [] ∧ Mem0.strip body = body_of lines

/-- Each segment of a file is one that the parser makes. -/
theorem Segmented.ok {mode : Mode} {lines : List String} {segs : List Segment}
    (h : Segmented mode lines segs) : ∀ seg ∈ segs, seg.Ok := by
  have hbody : ∀ lines : List String, Mem0.strip (body_of lines) = body_of lines :=
    fun lines => Mem0.strip_strip _
  have hone : ∀ line : String, Mem0.strip line = body_of [line] := by
    intro line
    rw [body_of, String.intercalate_singleton]
  induction h with
  | nil => nofun
  | blank hline _ ih => exact List.forall_mem_cons.mpr ⟨hline, ih⟩
  | heading hline _ ih => exact List.forall_mem_cons.mpr ⟨hline, ih⟩
  | line _ _ _ ih => exact List.forall_mem_cons.mpr ⟨⟨List.cons_ne_nil _ _, hone _⟩, ih⟩
  | item _ _ _ _ _ ih => exact List.forall_mem_cons.mpr ⟨⟨List.cons_ne_nil _ _, hbody _⟩, ih⟩
  | paragraph _ _ _ _ ih => exact List.forall_mem_cons.mpr ⟨⟨List.cons_ne_nil _ _, hbody _⟩, ih⟩

/-- Every line is in a segment. -/
theorem exists_segment_at {segs : List Segment} {k : ℕ} (h : k < extent segs) :
    ∃ before seg after, segs = before ++ seg :: after ∧ extent before ≤ k ∧
      k < extent before + seg.lines.length := by
  induction segs generalizing k with
  | nil => exact absurd h (Nat.not_lt_zero k)
  | cons seg segs ih =>
    by_cases hk : k < seg.lines.length
    · refine ⟨[], seg, segs, rfl, Nat.zero_le k, ?_⟩
      rw [extent, List.flatMap_nil, List.length_nil, Nat.zero_add]
      exact hk
    · rw [extent_cons] at h
      obtain ⟨before, seg', after, rfl, hfirst, hlast⟩ := ih (k := k - seg.lines.length) (by omega)
      refine ⟨seg :: before, seg', after, rfl, ?_, ?_⟩
      · rw [extent_cons]
        omega
      · rw [extent_cons]
        omega

/-- And in one only. -/
theorem segment_unique {before before' after after' : List Segment} {seg seg' : Segment} {k : ℕ}
    (h : before ++ seg :: after = before' ++ seg' :: after') (hfirst : extent before ≤ k)
    (hlast : k < extent before + seg.lines.length) (hfirst' : extent before' ≤ k)
    (hlast' : k < extent before' + seg'.lines.length) : before = before' ∧ seg = seg' := by
  rcases List.append_eq_append_iff.mp h with ⟨mid, rfl, hmid⟩ | ⟨mid, rfl, hmid⟩
  · cases mid with
    | nil => exact ⟨(List.append_nil _).symm, (List.cons.inj hmid).1⟩
    | cons first mid =>
      obtain ⟨rfl, -⟩ := List.cons.inj hmid
      rw [extent_append, extent_cons] at hfirst'
      omega
  · cases mid with
    | nil => exact ⟨List.append_nil _, (List.cons.inj hmid).1.symm⟩
    | cons first mid =>
      obtain ⟨rfl, -⟩ := List.cons.inj hmid
      rw [extent_append, extent_cons] at hfirst
      omega

/-- The lines of a segment among all the lines. -/
theorem lines_at (before : List Segment) (seg : Segment) (after : List Segment) :
    (((before ++ seg :: after).flatMap Segment.lines).drop (extent before)).take seg.lines.length =
      seg.lines := by
  rw [List.flatMap_append, List.flatMap_cons, extent, List.drop_left, List.take_left]

/-- A line within a segment, by its place in the file. -/
theorem getElem?_segment {before after : List Segment} {seg : Segment} {k : ℕ}
    (hfirst : extent before ≤ k) (hlast : k < extent before + seg.lines.length) :
    ((before ++ seg :: after).flatMap Segment.lines)[k]? = seg.lines[k - extent before]? := by
  rw [List.flatMap_append, List.flatMap_cons, List.getElem?_append_right hfirst,
    List.getElem?_append_left]
  · rfl
  · change k - extent before < _
    omega

theorem line_of_one {line line' : String} {k : ℕ} (h : [line][k]? = some line') :
    k = 0 ∧ line = line' := by
  rw [List.getElem?_singleton] at h
  split at h
  · exact ⟨‹_›, Option.some.inj h⟩
  · cases h

/-! ## Headings -/

/-- The headings of a file, and where they stand. -/
theorem mem_headings_of_iff {segs : List Segment} {n : ℕ} {e : ℕ × ℕ × String} :
    e ∈ headings_of n segs ↔ ∃ before seg after, segs = before ++ seg :: after ∧
      ∃ line, seg = .heading line ∧
        e = (n + extent before, heading_level line, heading_title line) := by
  induction segs generalizing n with
  | nil => simp [headings_of]
  | cons seg segs ih =>
    rw [exists_split_cons]
    have hextent : ∀ before, n + extent (seg :: before) = n + seg.lines.length + extent before := by
      intro before
      rw [extent_cons, Nat.add_assoc]
    simp only [hextent]
    cases seg with
    | blank line =>
      have hnot : ¬ ∃ line', Segment.blank line = .heading line' ∧
          e = (n + extent [], heading_level line', heading_title line') := by
        rintro ⟨_, h, -⟩
        cases h
      rw [headings_of, ih, or_iff_right hnot]
      exact fun _ => Segment.noConfusion
    | heading line =>
      rw [headings_of, List.mem_cons, ih]
      simp [Segment.lines, extent]
    | entry lines body =>
      have hnot : ¬ ∃ line', Segment.entry lines body = .heading line' ∧
          e = (n + extent [], heading_level line', heading_title line') := by
        rintro ⟨_, h, -⟩
        cases h
      rw [headings_of, ih, or_iff_right hnot]
      exact fun _ => Segment.noConfusion

theorem headings_of_append (a b : List Segment) (n : ℕ) :
    headings_of n (a ++ b) = headings_of n a ++ headings_of (n + extent a) b := by
  induction a generalizing n with
  | nil => rfl
  | cons seg a ih =>
    rw [extent_cons, ← Nat.add_assoc]
    cases seg with
    | blank line => exact ih _
    | heading line => exact congrArg _ (ih _)
    | entry lines body => exact ih _

theorem headings_of_ge {segs : List Segment} {n : ℕ} {e : ℕ × ℕ × String}
    (he : e ∈ headings_of n segs) : n ≤ e.1 := by
  obtain ⟨before, _, _, _, line, _, rfl⟩ := mem_headings_of_iff.mp he
  exact Nat.le_add_right n (extent before)

theorem headings_of_lt {segs : List Segment} {n : ℕ} {e : ℕ × ℕ × String}
    (he : e ∈ headings_of n segs) : e.1 < n + extent segs := by
  obtain ⟨before, _, after, rfl, line, rfl, rfl⟩ := mem_headings_of_iff.mp he
  change n + extent before < _
  have hone : (Segment.heading line).lines.length = 1 := rfl
  rw [extent_append, extent_cons, hone]
  omega

theorem headings_of_increase (segs : List Segment) (n : ℕ) :
    (headings_of n segs).Pairwise fun e e' => e.1 < e'.1 := by
  induction segs generalizing n with
  | nil => exact .nil
  | cons seg segs ih =>
    cases seg with
    | blank line => exact ih _
    | heading line =>
      refine List.pairwise_cons.mpr ⟨fun e he => ?_, ih _⟩
      have hge := headings_of_ge he
      change n < e.1
      omega
    | entry lines body => exact ih _

/-! ## The chunks of a file -/

/-- A line within the range of a chunk. -/
def Chunk.Covers (c : Chunk) (k : ℕ) : Prop := c.start_line ≤ k ∧ k ≤ c.end_line

/-- The lines of a file that a chunk has in its range. -/
def Chunk.lines_of (c : Chunk) (lines : List String) : List String :=
  (lines.drop (c.start_line - 1)).take (c.end_line + 1 - c.start_line)

/-- A line of a list item, below its first: the item has begun before it, and all lines from there
on are blank or indented. Where every line stands by itself, no item has more than one. -/
def InItem (mode : Mode) (lines : List String) (k : ℕ) : Prop :=
  mode = .entry ∧ ∃ i < k, (∃ item, lines[i]? = some item ∧ IsItem item) ∧
    ∀ j line, i < j → j ≤ k → lines[j]? = some line → continues line = true

/-- A heading outside list items: the number of its line, its level and its title. -/
def HeadingAt (mode : Mode) (lines : List String) (e : ℕ × ℕ × String) : Prop :=
  ∃ k line, e = (k + 1, heading_level line, heading_title line) ∧ lines[k]? = some line ∧
    startsWith (Mem0.strip line) "#" = true ∧ ¬ InItem mode lines k

/-- A heading before a line that none between them, of its level or above, has closed. -/
def OpenAt (mode : Mode) (lines : List String) (n : ℕ) (e : ℕ × ℕ × String) : Prop :=
  HeadingAt mode lines e ∧ e.1 < n ∧
    ∀ e', HeadingAt mode lines e' → e.1 < e'.1 → e'.1 < n → e.2.1 < e'.2.1

section items

variable {mode : Mode}

/-- From some segment on, the lines have the segments that are left. -/
theorem Segmented.from_segment {before segs : List Segment} {lines : List String}
    (h : Segmented mode lines (before ++ segs)) :
    ∃ skipped rest, lines = skipped ++ rest ∧ skipped.length = extent before ∧
      Segmented mode rest segs := by
  induction before generalizing lines with
  | nil => exact ⟨[], lines, rfl, rfl, h⟩
  | cons seg before ih =>
    have hlater : ∀ {first rest : List String}, seg.lines = first →
        Segmented mode rest (before ++ segs) →
        ∃ skipped rest', first ++ rest = skipped ++ rest' ∧
          skipped.length = extent (seg :: before) ∧
          Segmented mode rest' segs := by
      rintro first rest rfl hrest
      obtain ⟨skipped, rest', rfl, hlength, hsegs⟩ := ih hrest
      refine ⟨seg.lines ++ skipped, rest', (List.append_assoc _ _ _).symm, ?_, hsegs⟩
      rw [List.length_append, hlength, extent_cons]
    cases h with
    | blank _ hrest => exact hlater rfl hrest
    | heading _ hrest => exact hlater rfl hrest
    | line _ _ hrest => exact hlater rfl hrest
    | item _ _ _ _ hrest => exact hlater rfl hrest
    | paragraph _ _ _ hrest => exact hlater rfl hrest

theorem IsText.not_hash {line : String} (h : IsText line) :
    startsWith (Mem0.strip line) "#" ≠ true := by
  rw [h.2]
  exact Bool.false_ne_true

/-- A line that looks like a heading is one, or goes on with a list item. -/
theorem Segmented.heading_of {lines : List String} {segs : List Segment}
    (h : Segmented mode lines segs) {k : ℕ} {line : String} (hk : lines[k]? = some line)
    (hhash : startsWith (Mem0.strip line) "#" = true) (hout : ¬ InItem mode lines k) :
    ∃ before after, segs = before ++ .heading line :: after ∧ extent before = k := by
  have hlength : k < extent segs := by
    rw [extent, h.lines_eq]
    exact (List.getElem?_eq_some_iff.mp hk).1
  obtain ⟨before, seg, after, rfl, hfirst, hlast⟩ := exists_segment_at hlength
  obtain ⟨skipped, rest, rfl, hskipped, hrest⟩ := h.from_segment
  have hfrom : ∀ j, extent before ≤ j → (skipped ++ rest)[j]? = rest[j - extent before]? :=
    fun j hj => by
    rw [List.getElem?_append_right (hskipped ▸ hj), hskipped]
  have hk' := hk
  rw [hfrom k hfirst] at hk'
  -- a segment of one line stands where the line stands
  have hzero : ∀ {line' : String} {tail : List String}, k < extent before + 1 →
      rest = line' :: tail →
      line' = line ∧ extent before = k := by
    rintro line' tail hone rfl
    have hk0 : k - extent before = 0 := by omega
    rw [hk0] at hk'
    exact ⟨Option.some.inj hk', by omega⟩
  -- the line is not blank, and a text or a paragraph has no line with a hash, so it is a
  -- heading or in an item
  cases hrest with
  | blank hline _ =>
    obtain ⟨rfl, -⟩ := hzero hlast rfl
    rw [hline] at hhash
    cases hhash
  | heading _ _ =>
    obtain ⟨rfl, hat⟩ := hzero hlast rfl
    exact ⟨before, after, rfl, hat⟩
  | line _ hline _ =>
    obtain ⟨rfl, -⟩ := hzero hlast rfl
    exact absurd hhash hline.not_hash
  | @item line' more rest' _ hmode hline hmore _ _ =>
    by_cases hkfirst : k < extent before + 1
    · obtain ⟨rfl, -⟩ := hzero hkfirst rfl
      exact absurd hhash hline.isText.not_hash
    · refine absurd ⟨hmode, extent before, by omega, ⟨line', ?_, hline⟩,
        fun j l hj hjk hl => hmore l ?_⟩ hout
      · rw [hfrom _ le_rfl, Nat.sub_self]
        rfl
      · have hlast' : k < extent before + (line' :: more).length := hlast
        rw [List.length_cons] at hlast'
        rw [hfrom j (by omega), List.cons_append, List.getElem?_cons, if_neg (by omega),
          List.getElem?_append_left (by omega)] at hl
        exact List.mem_of_getElem? hl
  | @paragraph line' more rest' _ _ hlines _ _ =>
    have hlast' : k < extent before + (line' :: more).length := hlast
    rw [List.getElem?_append_left (by omega)] at hk'
    exact absurd hhash (hlines line (List.mem_of_getElem? hk')).1.not_hash

/-- No heading goes on with a list item: the item has ended before it. -/
theorem Segmented.not_inItem {lines : List String} {before after : List Segment} {line : String}
    (h : Segmented mode lines (before ++ .heading line :: after)) :
    ¬ InItem mode lines (extent before) := by
  rintro ⟨rfl, i, hi, ⟨item, hitem, hisitem⟩, hall⟩
  have htotal : lines.length = extent (before ++ .heading line :: after) := by
    rw [extent, h.lines_eq]
  have hheading : extent before < lines.length := by
    rw [htotal, extent_append, extent_cons, show (Segment.heading line).lines.length = 1 from rfl]
    omega
  have hlength : i < extent (before ++ .heading line :: after) := by omega
  obtain ⟨before', seg, after', heq, hfirst, hlast⟩ := exists_segment_at hlength
  have hone : extent before < extent before + (Segment.heading line).lines.length :=
    Nat.lt_succ_self _
  rw [heq] at h
  obtain ⟨skipped, rest, rfl, hskipped, hrest⟩ := h.from_segment
  have hfrom : ∀ j, extent before' ≤ j → (skipped ++ rest)[j]? = rest[j - extent before']? :=
    fun j hj => by
    rw [List.getElem?_append_right (hskipped ▸ hj), hskipped]
  have hitem' := hitem
  rw [hfrom i hfirst] at hitem'
  have hzero : ∀ {line' : String} {tail : List String}, i < extent before' + 1 →
      rest = line' :: tail →
      line' = item := by
    rintro line' tail hone rfl
    have hi0 : i - extent before' = 0 := by omega
    rw [hi0] at hitem'
    exact Option.some.inj hitem'
  cases hrest with
  | blank hline _ =>
    obtain rfl := hzero hlast rfl
    exact hisitem.isText.1 hline
  | heading hline _ =>
    obtain rfl := hzero hlast rfl
    exact hisitem.isText.not_hash hline
  | line hmode _ _ => cases hmode
  | @item line' more rest' _ _ _ _ hend _ =>
    have hlast' : i < extent before' + (line' :: more).length := hlast
    rw [List.length_cons] at hlast'
    -- the heading is no line of the item
    have hbeyond : extent before' + (more.length + 1) ≤ extent before := by
      by_contra hwithin
      obtain ⟨-, hseg⟩ := segment_unique heq le_rfl hone (hfirst.trans hi.le)
        (show extent before < extent before' + (line' :: more).length by
          rw [List.length_cons]; omega)
      cases hseg
    -- and the line at which the item ends comes no later than the heading
    have hend_line : ∃ l, rest'[0]? = some l := by
      cases rest' with
      | nil =>
        rw [List.append_nil, List.length_append, hskipped, List.length_cons] at hheading
        omega
      | cons l rest' => exact ⟨l, rfl⟩
    obtain ⟨l, hl⟩ := hend_line
    have hat : (skipped ++ (line' :: more ++ rest'))[extent before' + (more.length + 1)]? =
        some l := by
      rw [hfrom _ (by omega), Nat.add_sub_cancel_left,
        List.getElem?_append_right (by rw [List.length_cons]), List.length_cons, Nat.sub_self, hl]
    have hgoes := hall _ l (by omega) hbeyond hat
    rw [hend l (by rw [List.head?_eq_getElem?, hl]; rfl)] at hgoes
    cases hgoes
  | @paragraph line' more rest' _ _ hlines _ _ =>
    have hlast' : i < extent before' + (line' :: more).length := hlast
    rw [List.getElem?_append_left (by omega)] at hitem'
    exact (hlines item (List.mem_of_getElem? hitem')).2 hisitem

end items

/-- The chunks of a file, as its segments give them. -/
theorem exists_layout (path : Path) (text : String) (mode : Mode) :
    ∃ segs, Segmented mode (splitlines text) segs ∧
      parse_file path text mode = layout path 1 [] segs := by
  obtain ⟨segs, hsegs⟩ := exists_segmented mode (splitlines text)
  exact ⟨segs, hsegs, parse_lines_layout hsegs 1 {} rfl⟩

section chunks

variable {path : Path} {segs : List Segment}

/-- The chunks of a file are its entries, each under the headings that are open there. -/
theorem mem_chunks_iff {c : Chunk} :
    c ∈ layout path 1 [] segs ↔
      ∃ before seg after, segs = before ++ seg :: after ∧ ∃ lines body, seg = .entry lines body ∧
      c = chunk_at path (1 + extent before)
        ((open_headings (headings_of 1 before)).map Prod.snd) lines body :=
  @mem_layout_iff path segs 1 [] c

variable (hok : ∀ seg ∈ segs, seg.Ok)

include hok

/-- A chunk of the segments is that of an entry. -/
theorem mem_chunks {c : Chunk} (hc : c ∈ layout path 1 [] segs) :
    ∃ before lines body after, segs = before ++ .entry lines body :: after ∧ lines ≠ [] ∧
      Mem0.strip body = body_of lines ∧
      c = chunk_at path (1 + extent before) ((open_headings (headings_of 1 before)).map Prod.snd)
        lines body := by
  obtain ⟨before, _, after, rfl, lines, body, rfl, rfl⟩ := mem_chunks_iff.mp hc
  obtain ⟨hne, hbody⟩ := hok (.entry lines body) (by simp)
  exact ⟨before, lines, body, after, rfl, hne, hbody, rfl⟩

/-- The chunks of a file are disjoint and increasing. -/
theorem chunks_pairwise (n : ℕ) (es : List (ℕ × ℕ × String)) :
    (layout path n ((open_headings es).map Prod.snd) segs).Pairwise fun c c' =>
      c.end_line < c'.start_line := by
  induction segs generalizing n es with
  | nil => exact .nil
  | cons seg segs ih =>
    obtain ⟨hseg, hsegs⟩ := List.forall_mem_cons.mp hok
    cases seg with
    | blank line => exact ih hsegs _ _
    | heading line =>
      rw [layout, opened_concat es n]
      exact ih hsegs _ _
    | entry lines body =>
      refine List.pairwise_cons.mpr ⟨fun c hc => ?_, ih hsegs _ _⟩
      obtain ⟨before, _, _, _, _, _, _, rfl⟩ := mem_layout_iff.mp hc
      have hpos : 0 < lines.length := List.length_pos_of_ne_nil hseg.1
      change n + lines.length - 1 < n + lines.length + extent before
      omega

/-- The chunk of an entry covers the lines of the entry. -/
theorem covers_iff {before after : List Segment} {lines : List String} {body : String}
    {hs : List (ℕ × String)} (heq : segs = before ++ .entry lines body :: after) {k : ℕ} :
    (chunk_at path (1 + extent before) hs lines body).Covers (k + 1) ↔
      extent before ≤ k ∧ k < extent before + lines.length := by
  obtain ⟨hne, -⟩ := hok (.entry lines body) (by simp [heq])
  have hpos := List.length_pos_of_ne_nil hne
  change 1 + extent before ≤ k + 1 ∧ k + 1 ≤ 1 + extent before + lines.length - 1 ↔ _
  omega

/-- A line of text is in a chunk. -/
theorem exists_chunk {k : ℕ} {line : String} (hk : (segs.flatMap Segment.lines)[k]? = some line)
    (hline : IsText line) : ∃ c ∈ layout path 1 [] segs, c.Covers (k + 1) := by
  obtain ⟨before, seg, after, rfl, hfirst, hlast⟩ :=
    exists_segment_at (List.getElem?_eq_some_iff.mp hk).1
  rw [getElem?_segment hfirst hlast] at hk
  have hseg : seg.Ok := hok seg (by simp)
  cases seg with
  | blank line' =>
    obtain ⟨-, rfl⟩ := line_of_one hk
    exact absurd hseg hline.1
  | heading line' =>
    obtain ⟨-, rfl⟩ := line_of_one hk
    rw [Segment.Ok, hline.2] at hseg
    cases hseg
  | entry lines body =>
    have hc := (@mem_chunks_iff path _ _).mpr ⟨before, _, after, rfl, lines, body, rfl, rfl⟩
    exact ⟨_, hc, (covers_iff hok rfl).mpr ⟨hfirst, hlast⟩⟩

end chunks

/-- The headings outside list items are the headings among the segments. -/
theorem headingAt_iff {mode : Mode} {lines : List String} {segs : List Segment}
    (h : Segmented mode lines segs) {e : ℕ × ℕ × String} : HeadingAt mode lines e ↔
      e ∈ headings_of 1 segs := by
  rw [mem_headings_of_iff]
  constructor
  · rintro ⟨k, line, rfl, hk, hhash, hout⟩
    obtain ⟨before, after, rfl, rfl⟩ := h.heading_of hk hhash hout
    exact ⟨before, _, after, rfl, line, rfl, by rw [Nat.add_comm]⟩
  · rintro ⟨before, seg, after, rfl, line, rfl, rfl⟩
    have hone : extent before < extent before + (Segment.heading line).lines.length :=
      Nat.lt_succ_self _
    refine ⟨extent before, line, by rw [Nat.add_comm], ?_,
      h.ok (.heading line) (by simp), h.not_inItem⟩
    rw [← h.lines_eq, getElem?_segment le_rfl hone, Nat.sub_self]
    rfl

/-- Which headings a chunk stands below. -/
theorem chunk_heading_path {path : Path} {mode : Mode} {lines : List String} {segs : List Segment}
    (h : Segmented mode lines segs) {c : Chunk} (hc : c ∈ layout path 1 [] segs) :
    ∃ hs : List (ℕ × ℕ × String), hs.Pairwise (fun e e' => e.2.1 < e'.2.1) ∧
      (∀ e, e ∈ hs ↔ OpenAt mode lines c.start_line e) ∧
        c.heading_path = hs.map fun e => e.2.2 := by
  obtain ⟨before, taken, body, after, heq, -, -, rfl⟩ := mem_chunks h.ok hc
  refine ⟨open_headings (headings_of 1 before), Lists.unclosed_pairwise _ _, fun e => ?_,
    heading_path_open _⟩
  -- the headings before the chunk are those of a lower number
  have hbefore : ∀ e', e' ∈ headings_of 1 before ↔
      HeadingAt mode lines e' ∧ e'.1 < 1 + extent before := by
    intro e'
    rw [headingAt_iff h, heq, headings_of_append, List.mem_append]
    constructor
    · exact fun h => ⟨.inl h, headings_of_lt h⟩
    · rintro ⟨h | h, hlt⟩
      · exact h
      · exact absurd (headings_of_ge h) (by omega)
  rw [open_headings, Lists.mem_unclosed_iff_of_increasing _ (headings_of_increase before 1),
    hbefore]
  constructor
  · rintro ⟨⟨hat, hlt⟩, hall⟩
    exact ⟨hat, hlt, fun e' hat' hbetween hlt' => hall e' ((hbefore e').mpr ⟨hat', hlt'⟩) hbetween⟩
  · rintro ⟨hat, hlt, hall⟩
    exact ⟨⟨hat, hlt⟩, fun e' he' hbetween =>
      hall e' ((hbefore e').mp he').1 hbetween ((hbefore e').mp he').2⟩

/-- The range of a chunk is within the file. -/
theorem chunk_within {path : Path} {mode : Mode} {lines : List String} {segs : List Segment}
    (h : Segmented mode lines segs) {c : Chunk} (hc : c ∈ layout path 1 [] segs) :
    1 ≤ c.start_line ∧ c.start_line ≤ c.end_line ∧ c.end_line ≤ lines.length := by
  obtain ⟨before, taken, body, after, rfl, hne, -, rfl⟩ := mem_chunks h.ok hc
  have hpos := List.length_pos_of_ne_nil hne
  have hlength : lines.length = extent before + (taken.length + extent after) := by
    rw [← h.lines_eq]
    exact (extent_append before _).trans (congrArg _ (extent_cons (.entry taken body) after))
  rw [hlength]
  change 1 ≤ 1 + extent before ∧ 1 + extent before ≤ 1 + extent before + taken.length - 1 ∧
    1 + extent before + taken.length - 1 ≤ extent before + (taken.length + extent after)
  omega

/-- A line is in no two chunks of which one ends before the other. -/
theorem covers_unique {chunks : List Chunk}
    (h : chunks.Pairwise fun c c' => c.end_line < c'.start_line) {c c' : Chunk} (hc : c ∈ chunks)
    (hc' : c' ∈ chunks) {k : ℕ} (hk : c.Covers k) (hk' : c'.Covers k) : c = c' := by
  have hapart : chunks.Pairwise fun c c' => ¬ (c.Covers k ∧ c'.Covers k) := by
    refine h.imp fun hlt hboth => ?_
    obtain ⟨⟨-, hend⟩, hstart, -⟩ := hboth
    omega
  have : Std.Symm fun c c' : Chunk => ¬ (c.Covers k ∧ c'.Covers k) :=
    ⟨fun _ _ h h' => h ⟨h'.2, h'.1⟩⟩
  by_contra hne
  exact hapart.forall hc hc' hne ⟨hk, hk'⟩

/-- **A ledger file is cut into its chunks.** The ranges of the chunks are disjoint, increasing
and within the file; every line of text is in exactly one chunk; a chunk has the text of its
range; and it stands below the headings outside list items that are open where it starts. -/
theorem parse_file_chunks (path : Path) (text : String) (mode : Mode) :
    (parse_file path text mode).Pairwise (fun c c' => c.end_line < c'.start_line) ∧
      (∀ c ∈ parse_file path text mode,
        1 ≤ c.start_line ∧ c.start_line ≤ c.end_line ∧ c.end_line ≤ (splitlines text).length) ∧
      (∀ k line, (splitlines text)[k]? = some line → Mem0.strip line ≠ "" →
        startsWith (Mem0.strip line) "#" = false →
          ∃! c, c ∈ parse_file path text mode ∧ c.Covers (k + 1)) ∧
      (∀ c ∈ parse_file path text mode,
        Mem0.strip c.body = Mem0.strip ("\n".intercalate (c.lines_of (splitlines text)))) ∧
      ∀ c ∈ parse_file path text mode, ∃ hs : List (ℕ × ℕ × String),
        hs.Pairwise (fun e e' => e.2.1 < e'.2.1) ∧
        (∀ e, e ∈ hs ↔ OpenAt mode (splitlines text) c.start_line e) ∧
        c.heading_path = hs.map fun e => e.2.2 := by
  -- the chunks are those of a layout of the lines into segments
  obtain ⟨segs, hsegs, hfile⟩ := exists_layout path text mode
  have hok := hsegs.ok
  rw [hfile]
  have hwithin := fun (c : Chunk) (hc : c ∈ layout path 1 [] segs) => chunk_within hsegs hc
  have hheadings := fun (c : Chunk) (hc : c ∈ layout path 1 [] segs) => chunk_heading_path hsegs hc
  rw [← hsegs.lines_eq] at hwithin hheadings ⊢
  have hpairwise : (layout path 1 [] segs).Pairwise fun c c' => c.end_line < c'.start_line :=
    chunks_pairwise hok 1 []
  refine ⟨hpairwise, hwithin, fun k line hk hblank hhash => ?_, fun c hc => ?_, hheadings⟩
  · obtain ⟨c, hc, hcovers⟩ := @exists_chunk path _ hok _ _ hk ⟨hblank, hhash⟩
    exact ⟨c, ⟨hc, hcovers⟩, fun c' hc' => covers_unique hpairwise hc'.1 hc hc'.2 hcovers⟩
  · obtain ⟨before, lines, body, after, rfl, hne, hbody, rfl⟩ := mem_chunks hok hc
    have hpos := List.length_pos_of_ne_nil hne
    -- its lines are those of its segment
    have hrange :
        (chunk_at path (1 + extent before) ((open_headings (headings_of 1 before)).map Prod.snd)
          lines body).lines_of
        ((before ++ Segment.entry lines body :: after).flatMap Segment.lines) = lines := by
      have hlines := lines_at before (.entry lines body) after
      have hstart :
          (chunk_at path (1 + extent before) ((open_headings (headings_of 1 before)).map Prod.snd)
            lines body).start_line - 1
          = extent before := Nat.add_sub_cancel_left 1 (extent before)
      have hcount : 1 + extent before + lines.length - 1 + 1 - (1 + extent before) =
          lines.length := by omega
      rw [Chunk.lines_of, hstart]
      exact (congrArg (fun n => List.take n _) hcount).trans hlines
    rw [hrange]
    exact hbody

/-- A comment within an item is no heading, and a heading closes those of its level and below. -/
example : (parse_file ["2026-05-31.md"] "# A\n## B\n- x\n  # in the item\n# C\ny" .entry).map
    (fun c => (c.start_line, c.end_line, c.heading_path)) =
      [(3, 4, ["A", "B"]), (6, 6, ["C"])] := by
  decide +kernel

end Memline.ledger
