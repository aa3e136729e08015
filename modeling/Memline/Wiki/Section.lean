/-
Sections of a Markdown document.

A citation points at a heading, and the section is cut out of the document by a scan over its
lines. The scan does not know of fenced code: what it takes for a heading there may start the
section in the wrong place or end it too early. It also takes more characters for line ends than
a document has, and puts newlines in their place. Fences are those of CommonMark; the lines of a
document end in newlines, which is what reading a file leaves of other line ends.
-/
import Memline.Text
import Memline.Wiki.Bundle

set_option autoImplicit false

namespace Memline.bundle

open ledger (splitlines)

/-! ## Headings and sections -/

/-- `^(#+)\s+(.*?)\s*$` on a line: how many hashes there are, and the title. -/
def heading_match (line : String) : Option (ℕ × String) :=
  let hashes := line.toList.takeWhile (· = '#')
  let rest := line.toList.dropWhile (· = '#')
  if hashes ≠ [] ∧ rest.head?.any Mem0.isspace = true then
    some (hashes.length, Mem0.strip (String.ofList rest))
  else none

section read

variable (lower : String → String)

/-- The loop of `read_section`, from a line on: where the section has started, if it has, and the
level of its heading. `lower` is `str.lower`. What comes of it are the first line of the section and
the line that ends it. -/
def scan (wanted : String) : ℕ → Option (ℕ × ℕ) → List String → Option (ℕ × Option ℕ)
  | _, none, [] => none
  | _, some (start, _), [] => some (start, none)
  | index, found, line :: rest =>
    match heading_match line with
    | none => scan wanted (index + 1) found rest
    | some (level, title) =>
      match found with
      -- the first heading of this text begins the section
      | none =>
        if lower (Mem0.strip title) = wanted then scan wanted (index + 1) (some (index, level)) rest
        else scan wanted (index + 1) none rest
      | some (start, depth) =>
        -- the next of its level or above ends it
        if level ≤ depth then some (start, some index)
        else scan wanted (index + 1) (some (start, depth)) rest

/-- `"\n".join(lines[start:stop]).strip()`. -/
def cut_out (lines : List String) (start : ℕ) (stop : Option ℕ) : String :=
  Mem0.strip ("\n".intercalate ((match stop with
    | none => lines
    | some stop => lines.take stop).drop start))

/-- The document is its text, if it is a file. -/
def read_section (document : Option String) (heading : Option String) : Option String :=
  match document with
  | none => none
  | some text =>
    match heading with
    | none => some text
    | some heading =>
      if heading = "" then some text
      else (scan lower (lower (Mem0.strip heading)) 0 none (splitlines text)).map fun found =>
        cut_out (splitlines text) found.1 found.2

/-! ## What the scan finds -/

variable {lower} {wanted : String}

/-- A line that the scan takes for a heading of a title. -/
def titled (lower : String → String) (wanted line : String) : Bool :=
  (heading_match line).any fun h => lower (Mem0.strip h.2) = wanted

/-- A line that the scan takes for a heading of a level or above. -/
def closes (depth : ℕ) (line : String) : Bool := (heading_match line).any fun h => h.1 ≤ depth

/-- A section that has started goes on to the first line that closes it. -/
theorem scan_started (index start depth : ℕ) (lines : List String) :
    scan lower wanted index (some (start, depth)) lines
      = some (start, (lines.findIdx? (closes depth)).map (· + index)) := by
  induction lines generalizing index with
  | nil => rfl
  | cons line rest ih =>
    rw [scan, List.findIdx?_cons]
    have hlater : ((rest.findIdx? (closes depth)).map (· + (index + 1)))
        = (((rest.findIdx? (closes depth)).map fun i => i + 1).map (· + index)) := by
      rw [Option.map_map]
      congr 1
      funext k
      simp only [Function.comp_apply]
      omega
    cases hline : heading_match line with
    | none =>
      have hcloses : closes depth line = false := by rw [closes, hline]; rfl
      simp only [hcloses, Bool.false_eq_true, if_false]
      rw [ih, hlater]
    | some h =>
      obtain ⟨level, title⟩ := h
      by_cases hlevel : level ≤ depth
      · have hcloses : closes depth line = true := by
          rw [closes, hline]; exact decide_eq_true hlevel
        simp only [hlevel, hcloses, if_true]
        rw [Option.map_some, Nat.zero_add]
      · have hcloses : closes depth line = false := by
          rw [closes, hline]; exact decide_eq_false hlevel
        simp only [hlevel, hcloses, Bool.false_eq_true, if_false]
        rw [ih, hlater]

/-- Before the section has started a line is passed over, or starts it. -/
theorem scan_first (lower : String → String) (wanted : String) (index : ℕ) (line : String)
    (rest : List String) :
    titled lower wanted line = false ∧
        scan lower wanted index none (line :: rest) = scan lower wanted (index + 1) none rest ∨
      titled lower wanted line = true ∧ ∃ stop, scan lower wanted index none (line :: rest) =
        some (index, stop) := by
  rw [scan, titled]
  cases heading_match line with
  | none => exact .inl ⟨rfl, rfl⟩
  | some h =>
    by_cases htitle : lower (Mem0.strip h.2) = wanted
    · refine .inr ⟨decide_eq_true htitle, (rest.findIdx? (closes h.1)).map (· + (index + 1)), ?_⟩
      simp only [htitle, if_true]
      exact scan_started (index + 1) index h.1 rest
    · refine .inl ⟨decide_eq_false htitle, ?_⟩
      simp only [htitle, if_false]

/-- A section starts at a line of its title if no line before it has the title. -/
theorem scan_iff {before : List String} {line : String} {rest : List String} {level : ℕ}
    {title : String} (hline : heading_match line = some (level, title))
    (htitle : lower (Mem0.strip title) = wanted) (index : ℕ) {stop : Option ℕ} :
    scan lower wanted index none (before ++ line :: rest) = some (index + before.length, stop) ↔
      (∀ l ∈ before, titled lower wanted l = false) ∧
        (rest.findIdx? (closes level)).map (· + (index + before.length + 1)) = stop := by
  induction before generalizing index with
  | nil =>
    have hstart : scan lower wanted index none (line :: rest) =
        scan lower wanted (index + 1) (some (index, level)) rest := by
      rw [scan, hline]
      simp only [htitle, if_true]
    rw [List.nil_append, hstart, scan_started, Option.some.injEq, Prod.mk.injEq]
    constructor
    · exact fun h => ⟨nofun, h.2⟩
    · exact fun h => ⟨rfl, h.2⟩
  | cons first before ih =>
    rw [List.cons_append, List.forall_mem_cons, List.length_cons]
    rcases scan_first lower wanted index first (before ++ line :: rest) with ⟨hfirst, hgoes⟩ |
      ⟨hfirst, stop', hstart⟩
    · have hindex : index + (before.length + 1) = index + 1 + before.length := by omega
      rw [hgoes, hindex, ih, hfirst]
      simp
    · -- the section starts before the line
      rw [hstart, hfirst]
      refine iff_of_false (fun h => ?_) fun h => Bool.false_ne_true h.1.1.symm
      have hsame := (Prod.mk.inj (Option.some.inj h)).1
      omega

/-- A line is the wanted heading by its level and title. -/
theorem titled_iff {line : String} :
    titled lower wanted line = true ↔
      ∃ l t, heading_match line = some (l, t) ∧ lower (Mem0.strip t) = wanted := by
  rw [titled]
  cases heading_match line with
  | none => simp
  | some h =>
    obtain ⟨level, title⟩ := h
    simp

/-- A line closes a section when it is a heading of its level or above. -/
theorem closes_iff {depth : ℕ} {line : String} :
    closes depth line = true ↔ ∃ l t, heading_match line = some (l, t) ∧ l ≤ depth := by
  rw [closes]
  cases heading_match line with
  | none => simp
  | some h =>
    obtain ⟨level, title⟩ := h
    simp

end read

/-! ## Fenced code -/

/-- A line of at least three backticks or tildes, indented by at most three blanks: the mark, how
often it stands there, and what comes after it. -/
def fence_line (line : List Char) : Option (Char × ℕ × List Char) :=
  match line.dropWhile (· = ' ') with
  | [] => none
  | c :: rest =>
    let run := (c :: rest).takeWhile (· = c)
    if (line.takeWhile (· = ' ')).length ≤ 3 ∧ (c = '\x60' ∨ c = '~') ∧ 3 ≤ run.length then
      some (c, run.length, rest.dropWhile (· = c))
    else none

/-- The fence that is open after a line. A fence of backticks has none behind them; it is closed by
as many marks of its own with nothing but blanks behind them. -/
def fence_step (fence : Option (Char × ℕ)) (line : String) : Option (Char × ℕ) :=
  match fence, fence_line line.toList with
  | fence, none => fence
  | none, some (c, n, info) => if c = '\x60' ∧ c ∈ info then none else some (c, n)
  | some (c, n), some (c', n', info) => if c' = c ∧ n ≤ n' ∧ ∀ d ∈ info, d = ' ' ∨
      d = '\t' then none else some (c, n)

/-- The line stands in fenced code: a fence before it is open. -/
def Fenced (lines : List String) (k : ℕ) : Prop := (lines.take k).foldl fence_step none ≠ none

instance (lines : List String) (k : ℕ) : Decidable (Fenced lines k) :=
  inferInstanceAs (Decidable (¬ _))

/-! ## Documents and their sections -/

/-- A heading of a document: hashes, a blank or a tab, and the title. -/
def atx_heading (line : String) : Option (ℕ × String) :=
  let hashes := line.toList.takeWhile (· = '#')
  let rest := line.toList.dropWhile (· = '#')
  if hashes ≠ [] ∧ rest.head?.any (fun c => c = ' ' || c = '\t') = true then
    some (hashes.length, Mem0.strip (String.ofList rest))
  else none

/-- A document around a section: the lines before its heading, the heading, the lines below it and
those behind the section. -/
structure Cut where
  before : List String
  line : String
  within : List String
  behind : List String

namespace Cut

def lines (d : Cut) : List String := d.before ++ d.line :: (d.within ++ d.behind)

def text (d : Cut) : String := "\n".intercalate d.lines

/-- The text from the heading on, up to what lies behind the section. -/
def section_text (d : Cut) : String := "\n".intercalate (d.line :: d.within)

/-- The text before the heading. -/
def pre (d : Cut) : String := "".intercalate (d.before.map (· ++ "\n"))

/-- The text behind the section. -/
def post (d : Cut) : String := "".intercalate (d.behind.map ("\n" ++ ·))

/-- The lines end in newlines; the heading stands outside fenced code, and the section goes up to
the next heading of its level or above outside fenced code, or to the end. -/
structure IsSection (d : Cut) (level : ℕ) (title : String) : Prop where
  lines : ∀ l ∈ d.lines, '\n' ∉ l.toList
  heading : atx_heading d.line = some (level, title)
  outside : ¬ Fenced d.lines d.before.length
  goes_on : ∀ k line l t, d.within[k]? = some line → atx_heading line = some (l, t) →
    ¬ Fenced d.lines (d.before.length + 1 + k) → level < l
  ends : ∀ line ∈ d.behind.head?, ¬ Fenced d.lines (d.before.length + 1 + d.within.length) ∧
    ∃ l t, atx_heading line = some (l, t) ∧ l ≤ level

/-- No other heading outside fenced code has the text. -/
def Once (lower : String → String) (d : Cut) (title : String) : Prop :=
  ∀ k line l t, d.lines[k]? = some line → atx_heading line = some (l, t) → ¬ Fenced d.lines k →
    lower (Mem0.strip t) = lower (Mem0.strip title) → k = d.before.length

/-- A line as `str.splitlines` has it that looks like a heading and is none: it stands in fenced
code, is cut off another line, or has another space than a blank or a tab behind its hashes. -/
def LookAlike (d : Cut) (k level : ℕ) (title : String) : Prop :=
  ∃ line piece, d.lines[k]? = some line ∧ piece ∈ splitlines line ∧
    heading_match piece = some (level, title) ∧
      (Fenced d.lines k ∨ piece ≠ line ∨ atx_heading piece = none)

/-- No look-alike before the heading has its text, none in the section is of its level or above, and
the section has no other line ends than newlines, save at its end. -/
structure Unmimicked (lower : String → String) (d : Cut) (level : ℕ) (title : String) : Prop where
  start : ∀ k l t, k < d.before.length → d.LookAlike k l t →
    lower (Mem0.strip t) ≠ lower (Mem0.strip title)
  stop : ∀ k l t, d.before.length < k → k ≤ d.before.length + d.within.length →
      d.LookAlike k l t → level < l
  ends : ∀ c ∈ (Mem0.strip d.section_text).toList, ledger.line_end c = true → c = '\n'

/-- The first line of the section, as `str.splitlines` numbers the lines. -/
def first (d : Cut) : ℕ := (splitlines d.pre).length

/-- The line behind the section, if there is one. -/
def last (d : Cut) : Option ℕ :=
  if d.behind = [] then none else some (splitlines (d.pre ++ d.section_text ++ "\n")).length

end Cut

/-! ### The text of a document -/

/-- Texts put together are their characters put together. -/
theorem toList_concat (lines : List String) :
    ("".intercalate lines).toList = (lines.map String.toList).flatten := by
  rw [String.toList_intercalate]
  induction lines with
  | nil => rfl
  | cons l lines ih =>
    cases lines with
    | nil => simp
    | cons l' lines =>
      rw [List.map_cons, List.map_cons, List.intercalate_cons_cons, ← List.map_cons, ih]
      simp

/-- Lines put together, some of them first. -/
theorem join_split (a : List String) {b : List String} (hb : b ≠ []) :
    "\n".intercalate (a ++ b) = "".intercalate (a.map (· ++ "\n")) ++ "\n".intercalate b := by
  induction a with
  | nil => simp
  | cons l a ih =>
    have hne : a ++ b ≠ [] := List.append_ne_nil_of_right_ne_nil _ hb
    apply String.toList_inj.mp
    rw [List.cons_append, ledger.toList_join_cons l hne, ih, String.toList_append,
      String.toList_append, toList_concat, toList_concat]
    simp [String.toList_append]

/-- And some of them last. -/
theorem join_behind (l : String) (a b : List String) :
    "\n".intercalate (l :: a ++ b) =
      "\n".intercalate (l :: a) ++ "".intercalate (b.map ("\n" ++ ·)) := by
  induction a generalizing l with
  | nil =>
    induction b generalizing l with
    | nil => simp
    | cons l' b ih =>
      apply String.toList_inj.mp
      rw [List.cons_append, List.nil_append, ledger.toList_join_cons l (List.cons_ne_nil l' b),
        ← List.nil_append b, ← List.cons_append, ih l', String.toList_append, toList_concat,
        String.toList_append, toList_concat]
      simp [String.toList_append]
  | cons l' a ih =>
    apply String.toList_inj.mp
    rw [List.cons_append, ledger.toList_join_cons l (by simp), ih l', String.toList_append,
      String.toList_append, ledger.toList_join_cons l (List.cons_ne_nil l' a), List.append_assoc,
      List.cons_append]

/-- **A document is what comes before its section, the section, and what lies behind it.** -/
theorem Cut.text_eq (d : Cut) : d.text = d.pre ++ d.section_text ++ d.post := by
  rw [Cut.text, Cut.lines, ← List.cons_append, join_split _ (by simp), join_behind,
    ← String.append_assoc]
  rfl

/-! ### The lines of a document, as `str.splitlines` has them -/

/-- Lines that are ended have lines of their own. -/
theorem splitlines_concat (before : List String) (rest : String) :
    splitlines ("".intercalate (before.map (· ++ "\n")) ++ rest)
      = (before.flatMap fun l => splitlines (l ++ "\n")) ++ splitlines rest := by
  induction before with
  | nil => simp
  | cons l before ih =>
    have hsplit : "".intercalate ((l :: before).map (· ++ "\n")) ++ rest
        = l ++ "\n" ++ ("".intercalate (before.map (· ++ "\n")) ++ rest) := by
      apply String.toList_inj.mp
      simp only [String.toList_append, toList_concat, List.map_cons, List.flatten_cons,
        List.append_assoc]
    have hend : (l ++ "\n").toList.getLast? = some '\n' := by
      rw [String.toList_append]
      exact List.getLast?_concat
    rw [hsplit, ledger.splitlines_append hend, ih, List.flatMap_cons, List.append_assoc]

/-- What holds of the empty line holds of the lines of a line, whether it is ended or not. -/
theorem forall_splitlines_newline {P : String → Prop} (hempty : P "") (l : String) :
    (∀ s ∈ splitlines (l ++ "\n"), P s) ↔ ∀ s ∈ splitlines l, P s := by
  have hiff := ledger.forall_lines_newline hempty l.toList
  rwa [splitlines, String.toList_append]

/-- Lines put together have the lines of each. -/
theorem forall_splitlines_join {P : String → Prop} (hempty : P "") (lines : List String) :
    (∀ s ∈ splitlines ("\n".intercalate lines), P s) ↔ ∀ l ∈ lines, ∀ s ∈ splitlines l, P s := by
  rcases List.eq_nil_or_concat' lines with rfl | ⟨before, last, rfl⟩
  · simp [splitlines, ledger.lines_from]
  · rw [join_split before (List.cons_ne_nil last []), String.intercalate_singleton,
      splitlines_concat, List.forall_mem_append, List.forall_mem_append, List.forall_mem_singleton,
      List.forall_mem_flatMap]
    exact and_congr_left' (forall₂_congr fun l _ => forall_splitlines_newline hempty l)

namespace Cut

variable {lower : String → String} {d : Cut} {level : ℕ} {title : String}

/-- What ends the section: nothing at the end of the document. -/
def ending (d : Cut) : String := if d.behind = [] then "" else "\n"

theorem blank_newline : Mem0.Blank "\n".toList := fun c hc => by
  rw [List.mem_singleton.mp hc]
  decide

theorem blank_ending (d : Cut) : Mem0.Blank d.ending.toList := by
  unfold ending
  split
  · exact nofun
  · exact blank_newline

/-- The section with its last line ended. -/
theorem section_ended (d : Cut) :
    "".intercalate ((d.line :: d.within).map (· ++ "\n")) = d.section_text ++ "\n" := by
  have hsplit := join_split (d.line :: d.within) (List.cons_ne_nil "" [])
  rw [join_behind, String.intercalate_singleton, String.append_empty] at hsplit
  exact hsplit.symm

/-- The lines of the document: those before the heading, those of the section, those behind. -/
theorem splitlines_text (d : Cut) : splitlines d.text = splitlines d.pre ++
    (splitlines (d.section_text ++ d.ending) ++ splitlines ("\n".intercalate d.behind)) := by
  have hnone : splitlines "" = [] := rfl
  have hpre : splitlines d.pre = d.before.flatMap fun l => splitlines (l ++ "\n") := by
    have hconcat := splitlines_concat d.before ""
    rwa [String.append_empty, hnone, List.append_nil] at hconcat
  have htext : d.text = d.pre ++ "\n".intercalate (d.line :: d.within ++ d.behind) := by
    rw [Cut.text, Cut.lines, ← List.cons_append, join_split _ (by simp), Cut.pre]
  rw [htext, Cut.pre, splitlines_concat, ← hpre]
  refine congrArg _ ?_
  by_cases hbehind : d.behind = []
  · rw [hbehind, ending, if_pos hbehind, List.append_nil, String.append_empty,
      String.intercalate_nil, hnone, List.append_nil, section_text]
  · have hend : (d.section_text ++ "\n").toList.getLast? = some '\n' := by
      rw [String.toList_append]
      exact List.getLast?_concat
    rw [ending, if_neg hbehind, ← ledger.splitlines_append hend, join_split _ hbehind,
      section_ended]

/-- The lines up to the end of the section. -/
theorem length_ended (hbehind : d.behind ≠ []) :
    (splitlines (d.pre ++ d.section_text ++ "\n")).length
    = (splitlines d.pre ++ splitlines (d.section_text ++ d.ending)).length := by
  have hpre := splitlines_concat d.before ""
  rw [String.append_empty, show splitlines "" = [] from rfl, List.append_nil] at hpre
  rw [ending, if_neg hbehind, String.append_assoc, pre, splitlines_concat, hpre]

/-- What is read when the section is found where it is. -/
theorem cut_out_text (d : Cut) : cut_out (splitlines d.text) d.first d.last
    = Mem0.strip ("\n".intercalate (splitlines (d.section_text ++ d.ending))) := by
  have hnone : splitlines "" = [] := rfl
  have htail : ∀ lines : List String, cut_out (splitlines d.pre ++ lines) d.first none
      = Mem0.strip ("\n".intercalate lines) := by
    intro lines
    change Mem0.strip ("\n".intercalate
      ((splitlines d.pre ++ lines).drop (splitlines d.pre).length)) = _
    rw [List.drop_left]
  by_cases hbehind : d.behind = []
  · rw [splitlines_text, hbehind, String.intercalate_nil, hnone, List.append_nil, last,
      if_pos hbehind, htail]
  · rw [splitlines_text, last, if_neg hbehind, length_ended hbehind, ← List.append_assoc]
    have htake : ∀ lines rest : List String, cut_out (lines ++ rest) d.first (some lines.length)
        = cut_out lines d.first none := by
      intro lines rest
      change Mem0.strip ("\n".intercalate (((lines ++ rest).take lines.length).drop d.first)) = _
      rw [List.take_left]
      rfl
    rw [htake, htail]

/-! ### The heading and its section -/

theorem blank_hash {w : List Char} (hw : Mem0.Blank w) :
    w.takeWhile (· = '#') = [] ∧ w.dropWhile (· = '#') = w := by
  cases w with
  | nil => exact ⟨rfl, rfl⟩
  | cons c w =>
    have hc : ¬ decide (c = '#') = true := by
      intro hc
      have hblank := hw c List.mem_cons_self
      rw [of_decide_eq_true hc] at hblank
      cases hblank
    exact ⟨List.takeWhile_cons_of_neg hc, List.dropWhile_cons_of_neg hc⟩

/-- The hashes of a line do not depend on the blanks at its end. -/
theorem hashes_append {h w : List Char} (hw : Mem0.Blank w) :
    (h ++ w).takeWhile (· = '#') = h.takeWhile (· = '#') ∧
    (h ++ w).dropWhile (· = '#') = h.dropWhile (· = '#') ++ w := by
  obtain ⟨htake, hdrop⟩ := blank_hash hw
  rw [List.takeWhile_append, List.dropWhile_append, htake, hdrop, List.append_nil]
  constructor
  · split
    · rename_i hall
      exact ((List.takeWhile_prefix _).eq_of_length hall).symm
    · rfl
  · split
    · rename_i hnone
      rw [List.isEmpty_iff.mp hnone, List.nil_append]
    · rfl

/-- A heading of a document has the form that the scan looks for, also with less space at its
end. -/
theorem heading_match_blank {h w v : List Char} {e : ℕ × String}
    (hatx : atx_heading (String.ofList (h ++ w)) = some e) (hw : Mem0.Blank w) (hv : Mem0.Blank v)
    (hhead : ∀ c ∈ w.head?, ledger.line_end c = false → v.head? = some c) :
    heading_match (String.ofList (h ++ v)) = some e := by
  unfold atx_heading at hatx
  unfold heading_match
  simp only [String.toList_ofList, (hashes_append hw).1, (hashes_append hw).2] at hatx
  simp only [String.toList_ofList, (hashes_append hv).1, (hashes_append hv).2]
  split at hatx
  · rename_i hform
    obtain ⟨hhashes, hspace⟩ := hform
    -- a blank or a tab is a space, and no line end
    have hspace' : (h.dropWhile (· = '#') ++ v).head?.any Mem0.isspace = true := by
      rw [Option.any_eq_true] at hspace ⊢
      obtain ⟨c, hc, hblank⟩ := hspace
      have hspace : Mem0.isspace c = true ∧ ledger.line_end c = false := by
        rw [Bool.or_eq_true, decide_eq_true_eq, decide_eq_true_eq] at hblank
        rcases hblank with rfl | rfl
        · decide
        · decide
      refine ⟨c, ?_, hspace.1⟩
      rw [List.head?_append] at hc ⊢
      cases hrest : (h.dropWhile (· = '#')).head? with
      | some d =>
        rw [hrest] at hc
        exact hc
      | none =>
        rw [hrest, Option.none_or] at hc
        exact hhead c hc hspace.2
    rw [if_pos ⟨hhashes, hspace'⟩]
    rw [Option.some.injEq] at hatx
    rw [← hatx, Mem0.strip_append_blank _ hw, Mem0.strip_append_blank _ hv]
  · cases hatx

/-- A heading begins with a hash. -/
theorem atx_start {line : String} {e : ℕ × String} (h : atx_heading line = some e) :
    ∃ rest, line.toList = '#' :: rest := by
  unfold atx_heading at h
  simp only at h
  split at h
  · rename_i hform
    cases hline : line.toList with
    | nil => exact absurd (by rw [hline]; rfl) hform.1
    | cons c rest =>
      have hc : decide (c = '#') = true := by
        by_contra hc
        rw [hline] at hform
        exact hform.1 (List.takeWhile_cons_of_neg hc)
      exact ⟨rest, by rw [of_decide_eq_true hc]⟩
  · cases h

/-- The section begins with its heading. -/
theorem section_start (d : Cut) : ∃ rest, d.section_text.toList = d.line.toList ++ rest := by
  have hbehind := join_behind d.line [] d.within
  rw [List.singleton_append, String.intercalate_singleton] at hbehind
  exact ⟨_, by rw [section_text, hbehind, String.toList_append]⟩

/-- A section begins with no blank. -/
theorem IsSection.exists_strip (hsection : d.IsSection level title) :
    ∃ b, d.section_text.toList = (Mem0.strip d.section_text).toList ++ b ∧ Mem0.Blank b ∧
      Mem0.Stripped (Mem0.strip d.section_text).toList := by
  obtain ⟨rest, hrest⟩ := d.section_start
  obtain ⟨more, hmore⟩ := atx_start hsection.heading
  obtain ⟨a, b, hwhole, ha, hb, hstripped⟩ := Mem0.strip_spec d.section_text
  cases a with
  | nil =>
    rw [List.nil_append] at hwhole
    exact ⟨b, hwhole, hb, hstripped⟩
  | cons c a =>
    have hblank := ha c List.mem_cons_self
    rw [hrest, hmore, List.cons_append, List.append_assoc, List.cons_append] at hwhole
    rw [← (List.cons.inj hwhole).1] at hblank
    cases hblank

/-- The heading of a section up to its last character that is no blank, if the section has no other
line ends than newlines before its end. -/
theorem IsSection.exists_clean (hsection : d.IsSection level title)
    (hends : ∀ c ∈ (Mem0.strip d.section_text).toList, ledger.line_end c = true → c = '\n') :
    ∃ h w, d.line.toList = h ++ w ∧ h ≠ [] ∧ (∀ c ∈ h, ledger.line_end c = false) ∧
      Mem0.Blank w := by
  obtain ⟨rest, hrest⟩ := d.section_start
  obtain ⟨more, hmore⟩ := atx_start hsection.heading
  have hline : '\n' ∉ d.line.toList := hsection.lines d.line (by simp [Cut.lines])
  have hclean : ∀ h, h <+: (Mem0.strip d.section_text).toList → h <+: d.line.toList →
      ∀ c ∈ h, ledger.line_end c = false := by
    intro h hstripped hprefix c hc
    by_contra hend
    have hlf := hends c (hstripped.subset hc) (by simpa using hend)
    exact hline (hlf ▸ hprefix.subset hc)
  obtain ⟨more', hmore'⟩ :=
    ledger.strip_head (s := d.section_text) (by rw [hrest, hmore]; rfl) (by decide)
  obtain ⟨b, hwhole, hb, -⟩ := hsection.exists_strip
  rw [hrest] at hwhole
  have hne : (Mem0.strip d.section_text).toList ≠ [] := by
    rw [hmore']
    exact List.cons_ne_nil _ _
  rcases List.append_eq_append_iff.mp hwhole with ⟨mid, hstripped, -⟩ | ⟨mid, hshort, hmid⟩
  · refine ⟨d.line.toList, [], (List.append_nil _).symm, ?_,
      hclean _ ⟨mid, hstripped.symm⟩ List.prefix_rfl, nofun⟩
    rw [hmore]
    exact List.cons_ne_nil _ _
  · refine ⟨_, mid, hshort, hne, hclean _ List.prefix_rfl ⟨mid, hshort.symm⟩, fun c hc => hb c ?_⟩
    rw [hmid]
    exact List.mem_append_left _ hc

/-- The first line of the section is its heading, and nothing that stands on that line closes it. -/
theorem IsSection.head_lines (hsection : d.IsSection level title)
    (hends : ∀ c ∈ (Mem0.strip d.section_text).toList, ledger.line_end c = true → c = '\n')
    (e : String) (he : Mem0.Blank e.toList) :
    ∃ first more, splitlines (d.line ++ e) = first :: more ∧
      heading_match first = some (level, title) ∧ ∀ s ∈ more, closes level s = false := by
  obtain ⟨h, w, hline, hne, hclean, hw⟩ := hsection.exists_clean hends
  have hrev : h.reverse ≠ [] := fun hnil => hne (List.reverse_eq_nil_iff.mp hnil)
  obtain ⟨w₀, more, hlines, hw₀, hmore, hhead⟩ := ledger.lines_from_blank hrev (hw.append he)
  refine ⟨_, more, ?_, heading_match_blank (h := h) (w := w) (v := w₀) ?_ hw hw₀ fun c hc =>
    hhead c ?_, fun s hs => ?_⟩
  · rw [splitlines, String.toList_append, hline, List.append_assoc, ledger.lines_from_text hclean,
      List.append_nil, hlines, List.reverse_reverse]
  · rw [← hline, String.ofList_toList]
    exact hsection.heading
  · rw [List.head?_append, Option.mem_def.mp hc]
    rfl
  · have hmatch : heading_match s = none := by
      rw [heading_match, (blank_hash (hmore s hs)).1]
      exact if_neg fun h => h.1 rfl
    rw [closes, hmatch]
    rfl

/-- A heading of a document has the form that the scan looks for. -/
theorem heading_match_of_atx {line : String} {e : ℕ × String} (h : atx_heading line = some e) :
    heading_match line = some e := by
  have hnil : Mem0.Blank [] := nofun
  have hsame := heading_match_blank (h := line.toList) (w := []) (v := []) (e := e)
  rw [List.append_nil, String.ofList_toList] at hsame
  exact hsame h hnil hnil nofun

theorem closes_empty (depth : ℕ) : closes depth "" = false := rfl

/-- The lines of the section: its heading, and lines of which none closes it just when none of the
lines below the heading does. -/
theorem IsSection.section_lines (hsection : d.IsSection level title)
    (hends : ∀ c ∈ (Mem0.strip d.section_text).toList, ledger.line_end c = true → c = '\n') :
    ∃ first more, splitlines (d.section_text ++ d.ending) = first :: more ∧
      heading_match first = some (level, title) ∧
      ((∀ s ∈ more, closes level s = false) ↔
        ∀ l ∈ d.within, ∀ s ∈ splitlines l, closes level s = false) := by
  by_cases hwithin : d.within = []
  · obtain ⟨first, more, hlines, hmatch, hmore⟩ := hsection.head_lines hends d.ending d.blank_ending
    refine ⟨first, more, ?_, hmatch, iff_of_true hmore ?_⟩
    · rw [section_text, hwithin, String.intercalate_singleton, hlines]
    · rw [hwithin]
      exact nofun
  · obtain ⟨first, more, hlines, hmatch, hmore⟩ := hsection.head_lines hends "\n" blank_newline
    have htext : d.section_text ++ d.ending =
        d.line ++ "\n" ++ ("\n".intercalate d.within ++ d.ending) := by
      rw [section_text, ← List.singleton_append, join_split [d.line] hwithin, String.append_assoc]
      refine congrArg (· ++ _) ?_
      exact String.intercalate_singleton
    have hend : (d.line ++ "\n").toList.getLast? = some '\n' := by
      rw [String.toList_append]
      exact List.getLast?_concat
    refine ⟨first, more ++ splitlines ("\n".intercalate d.within ++ d.ending), ?_, hmatch, ?_⟩
    · rw [htext, ledger.splitlines_append hend, hlines, List.cons_append]
    · rw [List.forall_mem_append, and_iff_right hmore,
        ← forall_splitlines_join (closes_empty level)]
      unfold ending
      split
      · rw [String.append_empty]
      · exact forall_splitlines_newline (closes_empty level) _

/-- What lies behind the section closes it. -/
theorem IsSection.behind_closes (hsection : d.IsSection level title) (hbehind : d.behind ≠ []) :
    ∃ first more, splitlines ("\n".intercalate d.behind) = first :: more ∧
      closes level first = true := by
  obtain ⟨b, behind, hb⟩ := List.exists_cons_of_ne_nil hbehind
  obtain ⟨-, l, t, hatx, hle⟩ := hsection.ends b (by rw [hb]; rfl)
  have htext : ∃ rest, ("\n".intercalate d.behind).toList = b.toList ++ rest := by
    have hjoin := join_behind b [] behind
    rw [List.singleton_append, String.intercalate_singleton] at hjoin
    exact ⟨_, by rw [hb, hjoin, String.toList_append]⟩
  obtain ⟨rest, hrest⟩ := htext
  unfold atx_heading at hatx
  simp only at hatx
  split at hatx
  · rename_i hform
    obtain ⟨hhashes, hspace⟩ := hform
    rw [Option.any_eq_true] at hspace
    obtain ⟨c, hc, hblank⟩ := hspace
    obtain ⟨r, hr⟩ := List.head?_eq_some_iff.mp hc
    have hspace : Mem0.isspace c = true ∧ ledger.line_end c = false ∧ c ≠ '#' := by
      rw [Bool.or_eq_true, decide_eq_true_eq, decide_eq_true_eq] at hblank
      rcases hblank with rfl | rfl
      · decide
      · decide
    -- the hashes and the blank are at the beginning of the first line
    have hsplit : b.toList = b.toList.takeWhile (· = '#') ++ [c] ++ r := by
      rw [List.append_assoc, List.singleton_append, ← hr, List.takeWhile_append_dropWhile]
    have hclean : ∀ d ∈ b.toList.takeWhile (· = '#') ++ [c], ledger.line_end d = false := by
      rw [List.forall_mem_append, List.forall_mem_singleton]
      refine ⟨fun x hx => ?_, hspace.2.1⟩
      have hhash := List.mem_takeWhile_imp (p := fun c => decide (c = '#')) hx
      rw [of_decide_eq_true hhash]
      decide
    have hlines : splitlines ("\n".intercalate d.behind)
        = ledger.lines_from (b.toList.takeWhile (· = '#') ++ [c]).reverse (r ++ rest) := by
      rw [splitlines, hrest, hsplit, List.append_assoc, ledger.lines_from_text hclean,
        List.append_nil, ← hsplit]
    obtain ⟨first, more, hfirst, hstart⟩ := @ledger.lines_from_head
      (b.toList.takeWhile (· = '#') ++ [c]).reverse (by simp) (r ++ rest)
    rw [List.reverse_reverse] at hstart
    obtain ⟨tail, htail⟩ := hstart
    refine ⟨first, more, hlines.trans hfirst,
      closes_iff.mpr ⟨l, Mem0.strip (String.ofList (c :: tail)), ?_, hle⟩⟩
    have hall : ∀ d ∈ b.toList.takeWhile (· = '#'), decide (d = '#') = true :=
      fun d hd => List.mem_takeWhile_imp (p := fun c => decide (c = '#')) hd
    have hstop : ¬ decide (c = '#') = true := by simpa using hspace.2.2
    have hnone : (c :: tail).takeWhile (· = '#') = [] := List.takeWhile_cons_of_neg hstop
    have htail' : (c :: tail).dropWhile (· = '#') = c :: tail := List.dropWhile_cons_of_neg hstop
    have htake : first.toList.takeWhile (· = '#') = b.toList.takeWhile (· = '#') := by
      rw [← htail, List.append_assoc, List.takeWhile_append_of_pos hall, List.singleton_append,
        hnone, List.append_nil]
    have hdrop : first.toList.dropWhile (· = '#') = c :: tail := by
      rw [← htail, List.append_assoc, List.dropWhile_append_of_pos hall,
        List.singleton_append, htail']
    rw [heading_match, htake, hdrop]
    rw [if_pos ⟨hhashes, hspace.1⟩]
    rw [Option.some.injEq, Prod.mk.injEq] at hatx
    rw [hatx.1]
  · cases hatx

/-! ### Look-alikes -/

/-- The lines below the heading by their places in the document. -/
theorem getElem?_within {d : Cut} {k : ℕ} (hk : k < d.within.length) :
    d.lines[d.before.length + 1 + k]? = d.within[k]? := by
  rw [Cut.lines, List.getElem?_append_right (by omega),
    show d.before.length + 1 + k - d.before.length = k + 1 by omega, List.getElem?_cons_succ,
      List.getElem?_append_left hk]

/-- No line of a section closes it just when no look-alike in it does. -/
theorem IsSection.stop_iff (hsection : d.IsSection level title) :
    (∀ l ∈ d.within, ∀ s ∈ splitlines l, closes level s = false) ↔
      ∀ k l t, d.before.length < k → k ≤ d.before.length + d.within.length → d.LookAlike k l t →
        level < l := by
  constructor
  · rintro hall k l t hfirst hlast ⟨line, piece, hline, hpiece, hmatch, -⟩
    obtain ⟨j, rfl⟩ : ∃ j, k = d.before.length + 1 + j := ⟨k - (d.before.length + 1), by omega⟩
    rw [getElem?_within (by omega)] at hline
    have hnot := hall line (List.mem_of_getElem? hline) piece hpiece
    by_contra hle
    rw [closes_iff.mpr ⟨l, t, hmatch, Nat.le_of_not_lt hle⟩] at hnot
    cases hnot
  · intro hall line hline piece hpiece
    obtain ⟨j, hj⟩ := List.getElem?_of_mem hline
    have hlt := (List.getElem?_eq_some_iff.mp hj).1
    by_contra hcloses
    obtain ⟨l, t, hmatch, hle⟩ := closes_iff.mp (by simpa using hcloses)
    by_cases halike : Fenced d.lines (d.before.length + 1 + j) ∨ piece ≠ line ∨
      atx_heading piece = none
    · have hgoes := hall (d.before.length + 1 + j) l t (by omega) (by omega)
        ⟨line, piece, by rw [getElem?_within hlt, hj], hpiece, hmatch, halike⟩
      omega
    · -- a heading outside fenced code is of a lower level
      rw [not_or, not_or, not_not] at halike
      obtain ⟨hout, rfl, hatx⟩ := halike
      obtain ⟨e, he⟩ := Option.ne_none_iff_exists'.mp hatx
      have hsame := heading_match_of_atx he
      rw [hmatch, Option.some.injEq] at hsame
      have hgoes := hsection.goes_on j piece l t hj (hsame ▸ he) hout
      omega

/-- No line before the heading has its title just when no look-alike there has. -/
theorem start_iff (honce : d.Once lower title) :
    (∀ s ∈ splitlines d.pre, titled lower (lower (Mem0.strip title)) s = false) ↔
      ∀ k l t, k < d.before.length → d.LookAlike k l t →
        lower (Mem0.strip t) ≠ lower (Mem0.strip title) := by
  have hpre := splitlines_concat d.before ""
  rw [String.append_empty, show splitlines "" = [] from rfl, List.append_nil] at hpre
  have hempty : titled lower (lower (Mem0.strip title)) "" = false := rfl
  have hlines : (∀ s ∈ splitlines d.pre, titled lower (lower (Mem0.strip title)) s = false) ↔
      ∀ l ∈ d.before, ∀ s ∈ splitlines l, titled lower (lower (Mem0.strip title)) s = false := by
    rw [pre, hpre, List.forall_mem_flatMap]
    exact forall₂_congr fun l _ => forall_splitlines_newline hempty l
  rw [hlines]
  constructor
  · rintro hall k l t hk ⟨line, piece, hline, hpiece, hmatch, -⟩ htitle
    rw [Cut.lines, List.getElem?_append_left hk] at hline
    have hnot := hall line (List.mem_of_getElem? hline) piece hpiece
    rw [titled_iff.mpr ⟨l, t, hmatch, htitle⟩] at hnot
    cases hnot
  · intro hall line hline piece hpiece
    obtain ⟨k, hk⟩ := List.getElem?_of_mem hline
    have hlt := (List.getElem?_eq_some_iff.mp hk).1
    have hat : d.lines[k]? = some line := by rw [Cut.lines, List.getElem?_append_left hlt, hk]
    by_contra htitled
    obtain ⟨l, t, hmatch, htitle⟩ := titled_iff.mp (by simpa using htitled)
    by_cases halike : Fenced d.lines k ∨ piece ≠ line ∨ atx_heading piece = none
    · exact hall k l t hlt ⟨line, piece, hat, hpiece, hmatch, halike⟩ htitle
    · -- a heading outside fenced code has another title
      rw [not_or, not_or, not_not] at halike
      obtain ⟨hout, rfl, hatx⟩ := halike
      obtain ⟨e, he⟩ := Option.ne_none_iff_exists'.mp hatx
      have hsame := heading_match_of_atx he
      rw [hmatch, Option.some.injEq] at hsame
      have hplace := honce k piece l t hat (hsame ▸ he) hout htitle
      omega

/-! ### What is read -/

/-- The text that is read is that of the document just when it has no other line ends than
newlines. -/
theorem IsSection.text_iff (hsection : d.IsSection level title) :
    Mem0.strip ("\n".intercalate (splitlines (d.section_text ++ d.ending))) =
      Mem0.strip d.section_text ↔
      ∀ c ∈ (Mem0.strip d.section_text).toList, ledger.line_end c = true → c = '\n' := by
  constructor
  · intro hsame c hc hend
    rw [← hsame] at hc
    obtain ⟨a, b, hwhole, -⟩ :=
      Mem0.strip_spec ("\n".intercalate (splitlines (d.section_text ++ d.ending)))
    have hmem : c ∈ ("\n".intercalate (splitlines (d.section_text ++ d.ending))).toList := by
      rw [hwhole]
      simp [hc]
    -- no line holds a line end, so one in the joined text is a newline between two lines
    have hlines : ∀ lines : List String, (∀ s ∈ lines, ∀ c ∈ s.toList, ledger.line_end c = false) →
        c ∈ ("\n".intercalate lines).toList → c = '\n' := by
      intro lines hlines hmem
      induction lines with
      | nil => cases hmem
      | cons l lines ih =>
        obtain ⟨hl, hrest⟩ := List.forall_mem_cons.mp hlines
        by_cases hlast : lines = []
        · rw [hlast, String.intercalate_singleton] at hmem
          rw [hl c hmem] at hend
          cases hend
        · rw [ledger.toList_join_cons l hlast, List.mem_append, List.mem_cons] at hmem
          rcases hmem with hmem | rfl | hmem
          · rw [hl c hmem] at hend
            cases hend
          · rfl
          · exact ih hrest hmem
    exact hlines _ (@ledger.not_line_end [] (d.section_text ++ d.ending).toList nofun) hmem
  · intro hends
    -- where all line ends are newlines, joining the lines gives the text back but for space
    -- at the end
    obtain ⟨b, hwhole, hb, hstripped⟩ := hsection.exists_strip
    have hnil : Mem0.Blank [] := nofun
    obtain ⟨b', hb', hjoin⟩ := ledger.join_lines hends hstripped.2 (hb.append d.blank_ending) []
    rw [List.reverse_nil, List.nil_append, ← List.append_assoc, ← hwhole,
      ← String.toList_append] at hjoin
    have hstrip := Mem0.strip_of_stripped hstripped hnil hb'
    rw [List.nil_append, ← hjoin, String.ofList_toList, String.ofList_toList] at hstrip
    exact hstrip

end Cut

/-- **The section of a heading.** For a heading outside fenced code whose text no other heading
there has, the section that is read starts at its line and ends at the next heading of its level or
above outside fenced code, and its text is that of the document between the two, if and only if
nothing that is no heading looks like such headings and the text has no other line ends than
newlines. -/
theorem read_section_iff {lower : String → String} {d : Cut} {text heading title : String}
    {level : ℕ} (htext : text = d.pre ++ d.section_text ++ d.post)
    (hsection : d.IsSection level title) (honce : d.Once lower title) (hne : heading ≠ "")
    (hwanted : lower (Mem0.strip heading) = lower (Mem0.strip title)) :
    (scan lower (lower (Mem0.strip heading)) 0 none (splitlines text) = some (d.first, d.last) ∧
        read_section lower (some text) (some heading) = some (Mem0.strip d.section_text)) ↔
      d.Unmimicked lower level title := by
  obtain rfl : text = d.text := htext.trans d.text_eq.symm
  have hread : read_section lower (some d.text) (some heading)
      = (scan lower (lower (Mem0.strip heading)) 0 none (splitlines d.text)).map fun found =>
        cut_out (splitlines d.text) found.1 found.2 := if_neg hne
  -- where the text is right, so are the lines that the scan goes through
  have hscan : (∀ c ∈ (Mem0.strip d.section_text).toList, ledger.line_end c = true → c = '\n') →
      (scan lower (lower (Mem0.strip heading)) 0 none (splitlines d.text) = some (d.first, d.last) ↔
        (∀ s ∈ splitlines d.pre, titled lower (lower (Mem0.strip title)) s = false) ∧
          ∀ l ∈ d.within, ∀ s ∈ splitlines l, closes level s = false) := by
    intro hends
    obtain ⟨first, more, hlines, hmatch, hmore⟩ := hsection.section_lines hends
    rw [hwanted, Cut.splitlines_text, hlines, List.cons_append, Cut.first]
    have hfound := @scan_iff lower (lower (Mem0.strip title)) (splitlines d.pre) first
      (more ++ splitlines ("\n".intercalate d.behind)) level title hmatch rfl 0 d.last
    rw [Nat.zero_add] at hfound
    rw [hfound, ← hmore]
    refine and_congr_right' ?_
    rw [List.findIdx?_append, ← List.findIdx?_eq_none_iff, Cut.last]
    by_cases hbehind : d.behind = []
    · rw [if_pos hbehind, hbehind, String.intercalate_nil]
      cases more.findIdx? (closes level) with
      | none => exact iff_of_true rfl rfl
      | some i => exact iff_of_false nofun nofun
    · obtain ⟨next, rest, hnext, hcloses⟩ := hsection.behind_closes hbehind
      have hend : (splitlines (d.pre ++ d.section_text ++ "\n")).length =
          (splitlines d.pre).length + 1 + more.length := by
        rw [Cut.length_ended hbehind, hlines, List.length_append, List.length_cons]
        omega
      rw [if_neg hbehind, hend, hnext, List.findIdx?_cons, if_pos hcloses]
      cases hfind : more.findIdx? (closes level) with
      | none =>
        refine iff_of_true ?_ rfl
        rw [Option.none_or, Option.map_some, Option.map_some, Option.some.injEq]
        omega
      | some i =>
        refine iff_of_false (fun h => ?_) nofun
        obtain ⟨hi, -⟩ := List.findIdx?_eq_some_iff_getElem.mp hfind
        rw [Option.some_or, Option.map_some, Option.some.injEq] at h
        omega
  constructor
  · rintro ⟨hfound, htext⟩
    rw [hread, hfound, Option.map_some, Option.some.injEq, Cut.cut_out_text] at htext
    have hends := hsection.text_iff.mp htext
    obtain ⟨hstart, hstop⟩ := (hscan hends).mp hfound
    exact ⟨(Cut.start_iff honce).mp hstart, hsection.stop_iff.mp hstop, hends⟩
  · rintro ⟨hstart, hstop, hends⟩
    have hfound := (hscan hends).mpr ⟨(Cut.start_iff honce).mpr hstart, hsection.stop_iff.mpr hstop⟩
    refine ⟨hfound, ?_⟩
    rw [hread, hfound, Option.map_some, Cut.cut_out_text, hsection.text_iff.mpr hends]

/-! ## Documents with shell scripts -/

/-- A section with a comment in a shell script. -/
def with_comment : Cut where
  before := []
  line := "# Build"
  within := ["\x60\x60\x60sh", "# install", "make", "\x60\x60\x60"]
  behind := ["# Run"]

/-- A section with a heading of a lower level in a script and one outside, behind a line with
another line end in it and a script with another comment. -/
def with_scripts : Cut where
  before := ["Notes\u2028and more", "\x60\x60\x60", "# Note", "\x60\x60\x60"]
  line := "# Build"
  within := ["\x60\x60\x60sh", "make", "## all", "\x60\x60\x60", "", "## Check", "done"]
  behind := ["# Run", "now"]

def ascii_lower (s : String) : String := String.ofList (s.toList.map Char.toLower)

/-- What holds of the headings of a short document. -/
theorem forall_headings {lines : List String} {P : ℕ → ℕ → String → Prop}
    (h : ∀ k < lines.length, ∀ e ∈ lines[k]?.bind atx_heading, P k e.1 e.2) {k l : ℕ}
    {t line : String} (hline : lines[k]? = some line) (hatx : atx_heading line = some (l, t)) :
    P k l t :=
  h k (List.getElem?_eq_some_iff.mp hline).1 (l,
    t) (Option.bind_eq_some_iff.mpr ⟨line, hline, hatx⟩)

/-- What holds of all that looks like a heading in a short document. -/
theorem forall_lookAlikes {d : Cut} {P : ℕ → ℕ → String → Prop}
    (h : ∀ k < d.lines.length, ∀ p ∈ splitlines (d.lines[k]?.getD ""),
      ∀ e ∈ heading_match p, P k e.1 e.2)
    {k l : ℕ} {t : String} (halike : d.LookAlike k l t) : P k l t := by
  obtain ⟨line, piece, hline, hpiece, hmatch, -⟩ := halike
  refine h k (List.getElem?_eq_some_iff.mp hline).1 piece ?_ (l, t) hmatch
  rwa [hline, Option.getD_some]

theorem with_comment_isSection : with_comment.IsSection 1 "Build" where
  lines := by decide +kernel
  heading := by decide +kernel
  outside := by decide +kernel
  goes_on k line l t hline hatx := by
    refine forall_headings (P := fun k l _ =>
      ¬ Fenced with_comment.lines (with_comment.before.length + 1 + k) → 1 < l)
      ?_ hline hatx
    decide +kernel
  ends line hline := by
    rw [← Option.some.inj hline]
    exact ⟨by decide +kernel, 1, "Run", by decide +kernel, le_rfl⟩

theorem with_scripts_isSection : with_scripts.IsSection 1 "Build" where
  lines := by decide +kernel
  heading := by decide +kernel
  outside := by decide +kernel
  goes_on k line l t hline hatx := by
    refine forall_headings (P := fun k l _ =>
      ¬ Fenced with_scripts.lines (with_scripts.before.length + 1 + k) → 1 < l)
      ?_ hline hatx
    decide +kernel
  ends line hline := by
    rw [← Option.some.inj hline]
    exact ⟨by decide +kernel, 1, "Run", by decide +kernel, le_rfl⟩

/-- Scripts without such comments do not matter, nor do line ends outside the section. -/
theorem script_read :
    scan ascii_lower (ascii_lower (Mem0.strip "build")) 0 none (splitlines with_scripts.text)
        = some (with_scripts.first, with_scripts.last) ∧
      read_section ascii_lower (some with_scripts.text) (some "build")
        = some (Mem0.strip with_scripts.section_text) := by
  refine (read_section_iff with_scripts.text_eq with_scripts_isSection
    (fun k line l t hline hatx => ?_)
    (by decide) (by decide +kernel)).mpr ⟨fun k l t hk halike => ?_,
    fun k l t hfirst hlast halike => ?_, by decide +kernel⟩
  · refine forall_headings (P := fun k _ t => ¬ Fenced with_scripts.lines k →
      ascii_lower (Mem0.strip t) = ascii_lower (Mem0.strip "Build") →
        k = with_scripts.before.length) ?_ hline hatx
    decide +kernel
  · refine forall_lookAlikes (P := fun k _ t => k < 4 →
      ascii_lower (Mem0.strip t) ≠ ascii_lower (Mem0.strip "Build")) ?_ halike hk
    decide +kernel
  · refine forall_lookAlikes (P := fun k l _ => 4 < k → k ≤ 11 → 1 < l) ?_ halike hfirst hlast
    decide +kernel

/-- A comment ends the section, of which the rest is missing. -/
theorem comment_ends_section :
    with_comment.IsSection 1 "Build" ∧ with_comment.Once ascii_lower "Build" ∧
      read_section ascii_lower (some with_comment.text) (some "Build") =
        some "# Build\n\x60\x60\x60sh" ∧
      read_section ascii_lower (some with_comment.text) (some "Build")
        ≠ some (Mem0.strip with_comment.section_text) := by
  refine ⟨with_comment_isSection, fun k line l t hline hatx => ?_, by decide +kernel,
    by decide +kernel⟩
  refine forall_headings (P := fun k _ t => ¬ Fenced with_comment.lines k →
    ascii_lower (Mem0.strip t) = ascii_lower (Mem0.strip "Build") →
      k = with_comment.before.length) ?_ hline hatx
  decide +kernel

end Memline.bundle
