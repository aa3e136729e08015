/-
Files of JSON documents, one a line.

A document is written on one line, so that a file of documents is read back line by line as the
documents it was written of. A file that ends in the middle of a document is read up to there, and
not beyond.
-/
import Memline.Lib.Check
import Memline.Lib.JsonOrder

set_option autoImplicit false

namespace Py.JsonText

open Json

/-! ## Lines -/

/-- The lines of a file, each with its end. -/
def file_lines : List Char → List (List Char)
  | [] => []
  | c :: rest =>
    if c = '\n' then [c] :: file_lines rest
    else match file_lines rest with
      | [] => [[c]]
      | line :: lines => (c :: line) :: lines

/-- A whole line and what follows it. -/
theorem file_lines_line {line : List Char} (h : '\n' ∉ line) (rest : List Char) :
    file_lines (line ++ '\n' :: rest) = (line ++ ['\n']) :: file_lines rest := by
  induction line with
  | nil => simp [file_lines]
  | cons c line ih =>
    obtain ⟨hc, hline⟩ := List.ne_and_not_mem_of_not_mem_cons h
    rw [List.cons_append, file_lines, if_neg (Ne.symm hc), ih hline]
    rfl

/-- A line without an end. -/
theorem file_lines_end {line : List Char} (h : '\n' ∉ line) (hne : line ≠ []) :
    file_lines line = [line] := by
  induction line with
  | nil => exact absurd rfl hne
  | cons c line ih =>
    obtain ⟨hc, hline⟩ := List.ne_and_not_mem_of_not_mem_cons h
    rw [file_lines, if_neg (Ne.symm hc)]
    by_cases hnil : line = []
    · rw [hnil]
      rfl
    · rw [ih hline hnil]

/-! ## Order, once more -/

/-- Ordering twice is ordering once. -/
theorem ordered_ordered (x : Json) : Distinct x → ordered (ordered x) = ordered x := by
  induction x using parts_induction with
  | list xs ih =>
    intro h
    rw [Distinct, distinctList_iff] at h
    rw [ordered, ordered, orderedList_eq, orderedList_eq, List.map_map]
    exact congrArg Json.list (List.map_congr_left fun x hx => ih x hx (h x hx))
  | obj fields ih =>
    intro h
    rw [Distinct, distinctFields_iff] at h
    -- both sides have the same fields, and keys that are distinct settle their order
    have hkeys :
        ((orderedFields ((orderedFields fields).insertionSort by_key)).map Prod.fst).Nodup := by
      rw [keys_orderedFields]
      exact (keys_ordered_perm fields).nodup_iff.mpr h.1
    rw [ordered, ordered, Json.obj.injEq, sorted_eq_iff hkeys, orderedFields_eq]
    refine ((List.perm_insertionSort by_key _).map _).trans ?_
    rw [orderedFields_eq, List.map_map]
    refine List.Perm.of_eq (List.map_congr_left fun e he => ?_)
    exact congrArg (Prod.mk e.1) (ih e he (h.2 e he))
  | _ => exact fun _ => rfl

/-- A field may be dropped before the fields are put in order or after. -/
theorem ordered_without {d : Dict} (h : Distinct (.obj d)) (key : String) :
    ordered (.obj (Dict.without ((orderedFields d).insertionSort by_key) key)) =
      ordered (.obj (Dict.without d key)) := by
  rw [Distinct, distinctFields_iff] at h
  have hkeys :
      ((orderedFields (Dict.without ((orderedFields d).insertionSort by_key) key)).map
        Prod.fst).Nodup := by
    rw [keys_orderedFields]
    exact List.Nodup.sublist (List.filter_sublist.map Prod.fst)
      ((keys_ordered_perm d).nodup_iff.mpr h.1)
  rw [ordered, ordered, Json.obj.injEq, sorted_eq_iff hkeys, orderedFields_eq]
  -- dropping a field commutes with any rearrangement of the others
  refine (((List.perm_insertionSort by_key _).filter _).map _).trans ?_
  rw [orderedFields_eq, orderedFields_eq, List.filter_map, List.map_map]
  refine List.Perm.of_eq (List.map_congr_left fun e he => ?_)
  exact congrArg (Prod.mk e.1) (ordered_ordered e.2 (h.2 e (List.mem_filter.mp he).1))

/-! ## Documents on lines -/

/-- `json.dumps(x, ensure_ascii=False)`: on one line, in whatever alphabet. -/
def Style.spaced : Style where
  escape c := (Json.escape c).toList
  opening _ := []
  comma _ := [' ']
  closing _ := []
  colon := [' ']
  letter := escape_letter
  blank_opening _ := blank_nil
  blank_comma _ := blank_space
  blank_closing _ := blank_nil
  blank_colon := blank_space

/-- Not an end of a line. -/
def Inline (c : Char) : Prop := c ≠ '\n' ∧ c ≠ '\r'

theorem inline_of_high {c : Char} (h : 32 ≤ c.toNat) : Inline c := by
  constructor
  · rintro rfl
    exact absurd h (by decide)
  · rintro rfl
    exact absurd h (by decide)

theorem inline_of_prints {c : Char} (h : Prints c) : Inline c := inline_of_high h.1

theorem hex_inline {n : ℕ} (h : n < 16) : ∀ d ∈ (hex n).toList, Inline d := by
  intro d hd
  rw [hex, String.toList_singleton, List.mem_singleton] at hd
  rw [hd]
  exact inline_of_prints (hex_char_prints h)

theorem escape_inline (c : Char) : ∀ d ∈ (Json.escape c).toList, Inline d := by
  intro d hd
  have hpair : ∀ {e : Char}, Inline e → d ∈ ['\\', e] → Inline d := by
    intro e he hd
    rcases List.mem_cons.mp hd with rfl | hd
    · exact ⟨by decide, by decide⟩
    · rw [List.mem_singleton.mp hd]
      exact he
  unfold Json.escape at hd
  split at hd
  -- a short escape is a backslash and a letter
  iterate 7
    · exact hpair ⟨by decide, by decide⟩ hd
  · split at hd
    -- a control character is written in hexadecimal digits
    · rw [String.toList_append, String.toList_append, List.mem_append, List.mem_append] at hd
      rcases hd with (hd | hd) | hd
      · have hlead : ∀ e ∈ ['\\', 'u', '0', '0'], Inline e := by simp [Inline]
        exact hlead d hd
      · exact hex_inline (by omega) d hd
      · exact hex_inline (by omega) d hd
    · rw [String.toList_singleton, List.mem_singleton] at hd
      rw [hd]
      exact inline_of_high (by omega)

theorem spaced_confined : Style.spaced.Confined Inline where
  escape := escape_inline
  opening := by simp [Style.spaced]
  comma := by simp [Style.spaced, Inline]
  closing := by simp [Style.spaced]
  colon := by simp [Style.spaced, Inline]
  bare _ h := inline_of_prints (bare_prints h)
  mark := by simp [Inline]

variable {L : Language} {p : Printer}

/-- `json.dumps(x, ensure_ascii=False, sort_keys=True)`. -/
def line_text (p : Printer) (x : Json) : List Char := write .spaced p 0 (ordered x)

/-- Ordering makes no bare word of a list or an object. -/
theorem not_bare_ordered {x : Json} (h : bare_value x = false) :
    bare_value (ordered x) = false := by
  cases x with
  | null | bool _ | int _ | float _ => cases h
  | _ => rfl

/-- The text of a value ends no line before its end. -/
theorem line_text_inline {x : Json} (h : Dumpable L p x) : ∀ c ∈ line_text p x, Inline c := by
  have hordered := h.ordered
  exact write_confined spaced_confined _ hordered.ints hordered.floats 0

/-- A value written into a line has no line end of its own. -/
theorem newline_notMem_line {x : Json} (h : Dumpable L p x) : '\n' ∉ line_text p x :=
  fun hmem => (line_text_inline h _ hmem).1 rfl

/-- A document is read back from its line, with its fields by key. -/
theorem loads_line {x : Json} (h : Dumpable L p x) (hbare : bare_value x = false) :
    json_loads L true (line_text p x ++ ['\n']) = .ok (ordered x) := by
  have hordered := h.ordered
  have hread : Reads ⟨L, true⟩ ⟨[], .value⟩ (line_text p x) ⟨[], .after (ordered x)⟩ :=
    reads_whole (spells_write (ordered x) hordered.ints hordered.floats 0) hordered.keys
      hordered.depth_le
      (not_bare_ordered hbare)
  rw [json_loads, loads, run_append, hread.run]
  rfl

/-- What is missing its end is not read. -/
theorem loads_torn_line {x : Json} {u : List Char} (h : Dumpable L p x)
    (hbare : bare_value x = false) (hu : u <+: line_text p x) (hne : u ≠ line_text p x) :
    json_loads L true u = .error .decode := by
  have hordered := h.ordered
  exact loads_unfinished (D := ⟨L, true⟩)
    (spells_write (ordered x) hordered.ints hordered.floats 0) hordered.keys
    hordered.depth_le (not_bare_ordered hbare) hu hne

/-- Documents on lines of their own. -/
def lines_text (p : Printer) (xs : List Json) : List Char :=
  xs.flatMap fun x => line_text p x ++ ['\n']

/-- The file is the lines of the documents, and what follows them. -/
theorem file_lines_text {xs : List Json} (h : ∀ x ∈ xs, Dumpable L p x) (rest : List Char) :
    file_lines (lines_text p xs ++ rest) = xs.map (fun x => line_text p x ++ ['\n']) ++
      file_lines rest := by
  induction xs with
  | nil => rfl
  | cons x xs ih =>
    obtain ⟨hx, hxs⟩ := List.forall_mem_cons.mp h
    have hcut : lines_text p (x :: xs) ++ rest =
        line_text p x ++ '\n' :: (lines_text p xs ++ rest) := by
      simp [lines_text]
    rw [hcut, file_lines_line (newline_notMem_line hx), ih hxs]
    rfl

/-- The documents of a file, read line by line; some lines are passed over. -/
def read_lines (L : Language) (skip : List Char → Bool)
    (t : List Char) : Except Fault (List Json) :=
  ((file_lines t).filter fun line => !skip line).mapM (json_loads L true)

variable {skip : List Char → Bool} {xs : List Json}

/-- A file of documents is read back. -/
theorem read_lines_text (h : ∀ x ∈ xs, Dumpable L p x) (hbare : ∀ x ∈ xs, bare_value x = false)
    (hskip : ∀ x ∈ xs, skip (line_text p x ++ ['\n']) = false) :
    read_lines L skip (lines_text p xs) = .ok (xs.map ordered) := by
  have hlines := file_lines_text h []
  rw [List.append_nil, file_lines, List.append_nil] at hlines
  have hkeep : (xs.map fun x => line_text p x ++ ['\n']).filter (fun line => !skip line) =
      xs.map fun x => line_text p x ++ ['\n'] := by
    apply List.filter_eq_self.mpr
    intro line hline
    obtain ⟨x, hx, rfl⟩ := List.mem_map.mp hline
    rw [hskip x hx]
    rfl
  rw [read_lines, hlines, hkeep, List.mapM_map]
  exact Except.mapM_ok fun x hx => loads_line (h x hx) (hbare x hx)

/-- A file whose last document was cut off is not read. -/
theorem read_lines_torn (h : ∀ x ∈ xs, Dumpable L p x) (hbare : ∀ x ∈ xs, bare_value x = false)
    (hskip : ∀ x ∈ xs, skip (line_text p x ++ ['\n']) = false) {x : Json} (hx : Dumpable L p x)
    (hx' : bare_value x = false) {u : List Char} (hu : u <+: line_text p x)
    (hne : u ≠ line_text p x) (hnil : u ≠ []) (huskip : skip u = false) :
    read_lines L skip (lines_text p xs ++ u) = .error .decode := by
  have hinline : '\n' ∉ u := fun hmem => newline_notMem_line hx (hu.subset hmem)
  -- the documents before it are read, so that the fault is in the last line
  have hwhole := read_lines_text h hbare hskip
  rw [read_lines, ← List.append_nil (lines_text p xs), file_lines_text h, file_lines,
    List.append_nil] at hwhole
  have hlast : ([u].filter fun line => !skip line) = [u] := by
    apply List.filter_eq_self.mpr
    intro line hline
    rw [List.mem_singleton.mp hline, huskip]
    rfl
  rw [read_lines, file_lines_text h, file_lines_end hinline hnil, List.filter_append,
    List.mapM_append, hwhole, hlast]
  rw [List.mapM_cons, loads_torn_line hx hx' hu hne]
  rfl

end Py.JsonText
