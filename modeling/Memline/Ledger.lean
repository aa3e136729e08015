/-
The import of Markdown ledgers.

A ledger file is cut into chunks, one a line or one an entry. What has been imported is kept
in manifests, one a month, and a run leaves out the chunks that stand in its manifest. The
month of a run is that of the first chunk it has selected, so that a file that is selected
together with older ones is recorded under an older month than when it is selected alone.

What one chunk's turn in the import loop does beyond its manifest line (its timestamp, the
call of the store) is left out; that it may fail, or the process end there, is `Run.cut`.
-/
import Mathlib.Data.List.AList
import Mathlib.Data.List.Lex
import Mathlib.Data.List.Sort
import Mathlib.Data.String.Basic
import Memline.Mem0
import Memline.Lib.Check
import Memline.Lib.Paths

set_option autoImplicit false

namespace Memline.ledger

/-! ## Paths and lines -/

/-- The parts of an absolute path. -/
abbrev Path : Type := List String

/-- `path.relative_to(root).as_posix()`. -/
def relative_to (root path : Path) : Except Exn String :=
  if root.isPrefixOf path then .ok ("/".intercalate (path.drop root.length))
  else .error (.value_error ("'" ++ "/".intercalate path ++ "' is not in the subpath of '" ++
    "/".intercalate root ++ "'"))

/-- `path.stem`. -/
def stem (path : Path) : String := Paths.stem (path.getLastD "")

/-- The characters that end a line. -/
def line_end (c : Char) : Bool :=
  c.toNat ∈ [0x0a, 0x0b, 0x0c, 0x0d, 0x1c, 0x1d, 0x1e, 0x85, 0x2028, 0x2029]

/-- The lines that begin with the characters read so far, backwards. -/
def lines_from (line : List Char) : List Char → List String
  | [] => if line = [] then [] else [String.ofList line.reverse]
  | '\r' :: '\n' :: rest => String.ofList line.reverse :: lines_from [] rest
  | c :: rest =>
    if line_end c then String.ofList line.reverse :: lines_from [] rest
    else lines_from (c :: line) rest

/-- `text.splitlines()`. -/
def splitlines (text : String) : List String := lines_from [] text.toList

def startsWith (s start : String) : Bool := start.toList.isPrefixOf s.toList

/-! ## Chunks -/

structure Chunk where
  source_path : Path
  ledger_date : String
  start_line : ℕ
  end_line : ℕ
  heading_path : List String
  body : String
deriving DecidableEq, Repr

inductive Mode where
  | line
  | entry
deriving DecidableEq, Repr

/-- The first characters of a text. -/
def clip (n : ℕ) (s : String) : String := String.ofList (s.toList.take n)

/-- `Chunk.ledger_id`. -/
def ledger_id (sha256 : String → String) (root : Path) (c : Chunk) : Except Exn String := do
  let rel ← relative_to root c.source_path
  pure (clip 24 (sha256 s!"{rel}:{c.start_line}:{c.end_line}:{c.body}"))

/-- What `parse_file` carries from line to line. -/
structure Parse where
  chunks : List Chunk := []
  headings : List (ℕ × String) := []
  paragraph : List (ℕ × String) := []

namespace Parse

/-- The titles, the outermost first. -/
def heading_path (s : Parse) : List String :=
  (s.headings.insertionSort fun h h' => h.1 ≤ h'.1).map Prod.snd

/-- A chunk of some numbered lines. -/
def take (path : Path) (s : Parse) (lines : List (ℕ × String)) (body : String) : Parse :=
  { s with chunks := s.chunks ++ [{
      source_path := path
      ledger_date := stem path
      start_line := (lines.head?.map Prod.fst).getD 0
      end_line := (lines.getLast?.map Prod.fst).getD 0
      heading_path := s.heading_path
      body := body }] }

/-- `flush_paragraph`. -/
def flush (path : Path) (s : Parse) : Parse :=
  if s.paragraph = [] then s
  else
    let body := Mem0.strip ("\n".intercalate (s.paragraph.map Prod.snd))
    { if body = "" then s else s.take path s.paragraph body with paragraph := [] }

/-- A heading closes the headings of its own level and below. -/
def heading (s : Parse) (level : ℕ) (title : String) : Parse :=
  { s with headings := s.headings.filter (fun h => h.1 < level) ++ [(level, title)] }

end Parse

/-- A line that an entry goes on with: an empty one, or an indented one. -/
def continues (line : String) : Bool :=
  Mem0.strip line = "" || startsWith line "  " || startsWith line "\t"

/-- The loop of `parse_file`, from a line on. The fuel is no less than the lines are. -/
def parse_lines (path : Path) (mode : Mode) : ℕ → ℕ → List String → Parse → Parse
  | 0, _, _, s => s.flush path
  | _ + 1, _, [], s => s.flush path
  | fuel + 1, line_no, line :: rest, s =>
    let stripped := Mem0.strip line
    -- a blank line ends the paragraph
    if stripped = "" then parse_lines path mode fuel (line_no + 1) rest (s.flush path)
    else if startsWith stripped "#" then
      -- a heading closes those of its level and below
      let level := (stripped.toList.takeWhile (· = '#')).length
      let title := Mem0.strip (String.ofList (stripped.toList.drop level))
      parse_lines path mode fuel (line_no + 1) rest ((s.flush path).heading level title)
    else if mode = .line then
      parse_lines path mode fuel (line_no + 1) rest
        ((s.flush path).take path [(line_no, line)] line)
    else if startsWith line "- " then
      -- an item takes its lines at once, blank ones included; the paragraph before it is
      -- done
      let more := rest.takeWhile continues
      let block := ((line :: more).zipIdx line_no).map Prod.swap
      let body := Mem0.strip ("\n".intercalate (block.map Prod.snd))
      parse_lines path mode fuel (line_no + 1 + more.length) (rest.dropWhile continues)
        ((s.flush path).take path block body)
    else
      parse_lines path mode fuel (line_no + 1)
        rest { s with paragraph := s.paragraph ++ [(line_no, line)] }

/-- Fuel for every line is enough. -/
theorem parse_lines_fuel (path : Path) (mode : Mode) (fuel line_no : ℕ) (lines : List String)
    (s : Parse) (h : lines.length ≤ fuel) :
    parse_lines path mode fuel line_no lines s =
      parse_lines path mode lines.length line_no lines s := by
  induction fuel using Nat.strong_induction_on generalizing line_no lines s with
  | _ fuel ih =>
    match fuel, lines with
    | 0, lines => rw [List.length_eq_zero_iff.mp (Nat.le_zero.mp h)]; rfl
    | _ + 1, [] => rfl
    | fuel + 1, line :: rest =>
      rw [List.length_cons] at h
      have hrest : ∀ n s, parse_lines path mode fuel n rest s =
          parse_lines path mode rest.length n rest s :=
        fun n s => ih fuel (Nat.lt_succ_self _) n rest s (by omega)
      -- an entry goes on for some of the lines, and the loop has fewer before it
      have hless : (rest.dropWhile continues).length ≤ rest.length :=
        (List.dropWhile_suffix _).length_le
      have hdrop : ∀ n s, parse_lines path mode fuel n (rest.dropWhile continues) s
          = parse_lines path mode rest.length n (rest.dropWhile continues) s := by
        intro n s
        rw [ih fuel (Nat.lt_succ_self _) n _ s (by omega)]
        by_cases heq : rest.length = fuel
        · rw [heq, ih fuel (Nat.lt_succ_self _) n _ s (by omega)]
        · rw [ih rest.length (by omega) n _ s hless]
      simp only [List.length_cons, parse_lines, hrest, hdrop]

def parse_file (path : Path) (text : String) (mode : Mode) : List Chunk :=
  let lines := splitlines text
  (parse_lines path mode lines.length 1 lines {}).chunks

/-! ## A run -/

/-- A line of a manifest. Nothing reads more of it than the id. -/
structure Item where
  ledger_id : String
  source_entry : Chunk
  month : String
  mode : Mode
deriving DecidableEq, Repr

/-- The manifest directory: the lines of `ledger-{month}.jsonl`. -/
abbrev Manifests : Type := String → List Item

/-- `load_manifest`: the items by their ids, the last line of an id counting. -/
def load_manifest (lines : List Item) : AList fun _ : String => Item :=
  lines.foldl (fun entries item => entries.insert item.ledger_id item) ∅

/-- The arguments of a run, the glob patterns among the paths expanded. -/
structure Args where
  paths : List Path
  month : String := ""
  mode : Mode := .line
  dry_run : Bool := false
  limit : ℤ := 0
  force : Bool := false

/-- A chunk that has its number in the selection and its id. -/
structure Entry where
  sequence : ℕ
  chunk : Chunk
  ledger_id : String
deriving DecidableEq, Repr

/-- What a run is given: its arguments, and the number of the chunk in whose turn it breaks off,
or in none. -/
structure Run where
  args : Args
  cut : Option ℕ := none

section main

variable (disk : Path → Option String) (sha256 : String → String) (root : Path)

/-- The files a run selects, each once. -/
def files (a : Args) : List Path :=
  (a.paths.filter fun p => (disk p).isSome).dedup.insertionSort (· ≤ ·)

/-- `chunks[:limit]`. -/
def limited {α : Type} (limit : ℤ) (chunks : List α) : List α :=
  if 0 ≤ limit then chunks.take limit.toNat else chunks.take (chunks.length - (-limit).toNat)

/-- The chunks a run selects. -/
def chunks (a : Args) : List Chunk :=
  let all := (files disk a).flatMap fun p => parse_file p ((disk p).getD "") a.mode
  if a.limit = 0 then all else limited a.limit all

/-- The month whose manifest a run consults and writes. -/
def month (a : Args) : String :=
  if a.month ≠ "" then a.month
  else match (chunks disk a).head? with
    | some c => clip 7 c.ledger_date
    | none => "unknown"

/-- The chunks of a run with their numbers and ids; a file outside the root has no id. -/
def ordered_chunks (a : Args) : Except Exn (List Entry) :=
  ((chunks disk a).zipIdx 1).mapM fun e => (ledger_id sha256 root e.1).map fun id => ⟨e.2, e.1, id⟩

/-- The chunks of a run that its manifest does not hold. -/
def pending (a : Args) (m : Manifests) : Except Exn (List Entry) := do
  let manifest := if a.force then ∅ else load_manifest (m (month disk a))
  let entries ← ordered_chunks disk sha256 root a
  pure (entries.filter fun e => e.ledger_id ∉ manifest)

/-- The import loop: a manifest line for each pending chunk, up to where the run breaks off. -/
def import_chunks (cut : Option ℕ) (month : String) (mode : Mode) : List Entry → List Item
  | [] => []
  | e :: rest =>
    if cut.any (· ≤ e.sequence) then []
    else ⟨e.ledger_id, e.chunk, month, mode⟩ :: import_chunks cut month mode rest

/-- The lines that a run appends to the manifest of its month. -/
def imported (r : Run) (m : Manifests) : List Item :=
  match pending disk sha256 root r.args m with
  | .error _ => []
  | .ok entries =>
    if r.args.dry_run || entries.isEmpty then []
    else import_chunks r.cut (month disk r.args) r.args.mode entries

/-- `main`: a run, from one state of the manifest directory to the next. -/
def main (m : Manifests) (r : Run) : Manifests :=
  Function.update m (month disk r.args) (m (month disk r.args) ++ imported disk sha256 root r m)

/-- The manifests after some runs. -/
def after (m : Manifests) (runs : List Run) : Manifests := runs.foldl (main disk sha256 root) m

/-! ## What the manifests come to hold -/

/-- An import of the id stands in the manifest of the month. -/
def Held (m : Manifests) (label id : String) : Prop := id ∈ (m label).map Item.ledger_id

/-- The run selects a chunk of the id. -/
def Selects (a : Args) (id : String) : Prop :=
  ∃ entries, ordered_chunks disk sha256 root a = .ok entries ∧ ∃ e ∈ entries, e.ledger_id = id

/-- The run is no dry one, and comes to a chunk of the id before it breaks off. -/
def Reaches (r : Run) (id : String) : Prop :=
  r.args.dry_run = false ∧ ∃ entries, ordered_chunks disk sha256 root r.args = .ok entries ∧
    ∃ e ∈ entries, e.ledger_id = id ∧ r.cut.any (· ≤ e.sequence) = false

/-- The chunk of the id is pending in the run. -/
def Pending (a : Args) (m : Manifests) (id : String) : Prop :=
  ∃ entries, pending disk sha256 root a m = .ok entries ∧ ∃ e ∈ entries, e.ledger_id = id

/-- The chunk of the id is imported by the run. -/
def Imports (r : Run) (m : Manifests) (id : String) : Prop :=
  id ∈ (imported disk sha256 root r m).map Item.ledger_id

/-- Some of the runs was of the month and came to a chunk of the id, or the manifest held it
from the start. -/
def Recorded (runs : List Run) (m : Manifests) (label id : String) : Prop :=
  Held m label id ∨ ∃ r ∈ runs, month disk r.args = label ∧ Reaches disk sha256 root r id

/-- The ids of the manifest are those of its lines. -/
theorem mem_load_manifest {lines : List Item} {id : String} :
    id ∈ load_manifest lines ↔ id ∈ lines.map Item.ledger_id := by
  have hfold : ∀ entries : AList fun _ : String => Item,
      id ∈ lines.foldl (fun entries item => entries.insert item.ledger_id item) entries ↔
        id ∈ entries ∨ id ∈ lines.map Item.ledger_id := by
    induction lines with
    | nil => simp
    | cons item lines ih =>
      intro entries
      rw [List.foldl_cons, ih, AList.mem_insert, List.map_cons, List.mem_cons]
      tauto
  rw [load_manifest, hfold]
  simp

variable {disk sha256 root}

/-- Without `--force`, what is pending is what is selected and not in the manifest. -/
theorem pending_iff {a : Args} {m : Manifests} {id : String} (hforce : a.force = false) :
    Pending disk sha256 root a m id ↔
      Selects disk sha256 root a id ∧ ¬ Held m (month disk a) id := by
  unfold Pending Selects pending
  simp only [hforce, Bool.false_eq_true, if_false, mem_load_manifest]
  constructor
  · rintro ⟨entries, h, e, he, rfl⟩
    obtain ⟨all, hall, hrest⟩ := Except.bind_ok.mp h
    cases hrest
    obtain ⟨hmem, hnot⟩ := List.mem_filter.mp he
    exact ⟨⟨all, hall, e, hmem, rfl⟩, by simpa [Held] using hnot⟩
  · rintro ⟨⟨all, hall, e, hmem, rfl⟩, hnot⟩
    refine ⟨_, Except.bind_ok.mpr ⟨all, hall, rfl⟩, e, List.mem_filter.mpr ⟨hmem, ?_⟩, rfl⟩
    simpa [Held] using hnot

/-- The chunks of a run are numbered in order. -/
theorem sequences_increase {a : Args} {entries : List Entry}
    (h : ordered_chunks disk sha256 root a = .ok entries) :
    entries.Pairwise fun e e' => e.sequence < e'.sequence := by
  have hmap : entries.map Entry.sequence = ((chunks disk a).zipIdx 1).map Prod.snd := by
    refine Except.map_of_mapM (fun x e he => ?_) h
    cases hid : ledger_id sha256 root x.1 with
    | error err => rw [hid] at he; cases he
    | ok id => rw [hid] at he; cases he; rfl
  rw [← List.pairwise_map (f := Entry.sequence) (R := (· < ·)), hmap, List.zipIdx_map_snd]
  exact List.pairwise_lt_range'

/-- The loop imports what comes before the number at which it breaks off. -/
theorem mem_import_chunks {cut : Option ℕ} {label : String} {mode : Mode} {entries : List Entry}
    (h : entries.Pairwise fun e e' => e.sequence < e'.sequence) {id : String} :
    id ∈ (import_chunks cut label mode entries).map Item.ledger_id ↔
      ∃ e ∈ entries, e.ledger_id = id ∧ cut.any (· ≤ e.sequence) = false := by
  induction entries with
  | nil => simp [import_chunks]
  | cons e rest ih =>
    obtain ⟨hfirst, hrest⟩ := List.pairwise_cons.mp h
    rw [import_chunks]
    by_cases hcut : cut.any (· ≤ e.sequence) = true
    · rw [if_pos hcut]
      obtain ⟨n, rfl⟩ : ∃ n, cut = some n := by
        cases cut with
        | none => cases hcut
        | some n => exact ⟨n, rfl⟩
      have hn : n ≤ e.sequence := of_decide_eq_true hcut
      constructor
      · exact fun hmem => absurd hmem List.not_mem_nil
      · rintro ⟨e', he', -, hcut'⟩
        have hle : e.sequence ≤ e'.sequence := by
          rcases List.mem_cons.mp he' with rfl | he'
          · exact le_rfl
          · exact (hfirst e' he').le
        exact absurd (hn.trans hle) (of_decide_eq_false hcut')
    · rw [if_neg hcut, List.map_cons, List.mem_cons, ih hrest, List.exists_mem_cons_iff]
      have hgoes : cut.any (· ≤ e.sequence) = false := by simpa using hcut
      simp only [hgoes, and_true, eq_comm]

/-- A run that is no dry one imports its pending chunks. -/
theorem imported_of_pending {r : Run} {m : Manifests} {entries : List Entry}
    (h : pending disk sha256 root r.args m = .ok entries) (hdry : r.args.dry_run = false) :
    imported disk sha256 root r m =
      import_chunks r.cut (month disk r.args) r.args.mode entries := by
  unfold imported
  rw [h]
  cases entries with
  | nil => simp [import_chunks]
  | cons e rest => simp [hdry]

/-- What a run imports it has come to, and had not found in its manifest. -/
theorem imports_iff {r : Run} {m : Manifests} {id : String} (hforce : r.args.force = false) :
    Imports disk sha256 root r m id ↔
      Reaches disk sha256 root r id ∧ ¬ Held m (month disk r.args) id := by
  unfold Imports Reaches
  cases hall : ordered_chunks disk sha256 root r.args with
  | error err =>
    have hpending : pending disk sha256 root r.args m = .error err := by
      rw [pending, hall]
      rfl
    simp [imported, hpending]
  | ok all =>
    have hpending : pending disk sha256 root r.args m
        = .ok (all.filter fun e => e.ledger_id ∉ load_manifest (m (month disk r.args))) := by
      rw [pending, hall, hforce]
      rfl
    cases hdry : r.args.dry_run with
    | true => simp [imported, hpending, hdry]
    | false =>
      rw [imported_of_pending hpending hdry, mem_import_chunks ((sequences_increase hall).filter _)]
      constructor
      · rintro ⟨e, he, rfl, hcut⟩
        obtain ⟨hmem, hnot⟩ := List.mem_filter.mp he
        exact ⟨⟨rfl, all, rfl, e, hmem, rfl, hcut⟩, by simpa [Held, mem_load_manifest] using hnot⟩
      · rintro ⟨⟨-, entries, hentries, e, hmem, rfl, hcut⟩, hnot⟩
        cases hentries
        exact ⟨e, List.mem_filter.mpr ⟨hmem, by simpa [Held, mem_load_manifest] using hnot⟩, rfl,
          hcut⟩

/-- The step lemma: a run adds to the manifest of its month what it comes to. -/
theorem held_main {r : Run} {m : Manifests} {label id : String} (hforce : r.args.force = false) :
    Held (main disk sha256 root m r) label id ↔
      Held m label id ∨ month disk r.args = label ∧ Reaches disk sha256 root r id := by
  by_cases hlabel : month disk r.args = label
  · subst hlabel
    have hadds : Held (main disk sha256 root m r) (month disk r.args) id ↔
        Held m (month disk r.args) id ∨ Imports disk sha256 root r m id := by
      rw [Held, main, Function.update_self, List.map_append, List.mem_append]
      rfl
    rw [hadds, imports_iff hforce]
    tauto
  · have hkeeps : Held (main disk sha256 root m r) label id ↔ Held m label id := by
      rw [Held, main, Function.update_of_ne (Ne.symm hlabel)]
      rfl
    rw [hkeeps]
    tauto

/-- The run lemma: a manifest holds what it held, and what the runs of its month came to. -/
theorem held_after {runs : List Run} (hforce : ∀ r ∈ runs, r.args.force = false) {m : Manifests}
    {label id : String} :
    Held (after disk sha256 root m runs) label id ↔ Recorded disk sha256 root runs m label id := by
  unfold Recorded
  induction runs generalizing m with
  | nil => simp [after]
  | cons r runs ih =>
    obtain ⟨hr, hruns⟩ := List.forall_mem_cons.mp hforce
    have hstep : after disk sha256 root m (r :: runs) =
        after disk sha256 root (main disk sha256 root m r) runs :=
      rfl
    rw [hstep, ih hruns, held_main hr, List.exists_mem_cons_iff, or_assoc]

/-! ## Runs one after the other -/

variable (disk sha256 root) in
/-- What a completed run imported is pending in no later run. -/
def NeverAgain (runs : List Run) (m : Manifests) : Prop :=
  ∀ i j r r' id, i < j → runs[i]? = some r → runs[j]? = some r' → r.cut = none →
    Imports disk sha256 root r (after disk sha256 root m (runs.take i)) id →
    ¬ Pending disk sha256 root r'.args (after disk sha256 root m (runs.take j)) id

/-- **Imported once.** No chunk that a completed run imported is pending later, if and only if
a run that selects a chunk some completed run was the first of its month to come to is of a
month whose manifest held the chunk from the start, or comes after a run of its own month that
came to the chunk. -/
theorem never_again_iff {runs : List Run} (hforce : ∀ r ∈ runs, r.args.force = false)
    {m : Manifests} :
    NeverAgain disk sha256 root runs m ↔
      ∀ i j r r' id, i < j → runs[i]? = some r → runs[j]? = some r' → r.cut = none →
        Reaches disk sha256 root r id →
        ¬ Recorded disk sha256 root (runs.take i) m (month disk r.args) id →
        Selects disk sha256 root r'.args id →
        Recorded disk sha256 root (runs.take j) m (month disk r'.args) id := by
  have hall : ∀ k, ∀ r ∈ runs.take k, r.args.force = false :=
    fun k r hr => hforce r (List.mem_of_mem_take hr)
  unfold NeverAgain
  refine forall₅_congr fun i j r r' id => ?_
  refine forall₄_congr fun _ hr hr' _ => ?_
  rw [imports_iff (hforce r (List.mem_of_getElem? hr)),
    pending_iff (hforce r' (List.mem_of_getElem? hr')), held_after (hall i), held_after (hall j),
    and_imp, not_and_not_right]

/-- A run reaches only chunks that it has selected. -/
theorem Reaches.selects {r : Run} {id : String} (h : Reaches disk sha256 root r id) :
    Selects disk sha256 root r.args id := by
  obtain ⟨-, entries, hentries, e, he, hid, -⟩ := h
  exact ⟨entries, hentries, e, he, hid⟩

/-- Runs that agree on the month of every chunk they have in common, as when each selects files
of one month, import nothing twice. -/
theorem never_again_of_months {runs : List Run} (hforce : ∀ r ∈ runs, r.args.force = false)
    {m : Manifests} (h : ∀ r ∈ runs, ∀ r' ∈ runs, ∀ id, Selects disk sha256 root r.args id →
      Selects disk sha256 root r'.args id → month disk r.args = month disk r'.args) :
    NeverAgain disk sha256 root runs m := by
  intro i j r r' id hij hr hr' _ himports hpending
  have hr_mem := List.mem_of_getElem? hr
  have hr'_mem := List.mem_of_getElem? hr'
  have hreaches := ((imports_iff (hforce r hr_mem)).mp himports).1
  obtain ⟨hselects, hnot⟩ := (pending_iff (hforce r' hr'_mem)).mp hpending
  refine hnot ((held_after fun q hq => hforce q (List.mem_of_mem_take hq)).mpr (.inr ⟨r, ?_,
    ?_, hreaches⟩))
  · rw [← List.getElem?_take_of_lt hij] at hr
    exact List.mem_of_getElem? hr
  · exact h r hr_mem r' hr'_mem id hreaches.selects hselects

end main

/-- Two ledgers, of the last day of a month and of the first of the next. -/
def two_days : Path → Option String := fun p =>
  if p = ["/", "w", "2026-05-31.md"] then some "- may"
  else if p = ["/", "w", "2026-06-01.md"] then some "- june"
  else none

/-- Both are imported, and then the second one alone. -/
def two_runs : List Run :=
  [⟨{ paths := [["/", "w", "2026-05-31.md"], ["/", "w", "2026-06-01.md"]] }, none⟩,
    ⟨{ paths := [["/", "w", "2026-06-01.md"]] }, none⟩]

/-- The runs of two days, with nothing recorded before. -/
theorem two_runs_never_again_iff :
    NeverAgain two_days id ["/", "w"] two_runs (fun _ => []) ↔
      ∀ i j r r' id', i < j → two_runs[i]? = some r → two_runs[j]? = some r' → r.cut = none →
        Reaches two_days id ["/", "w"] r id' →
        ¬ Recorded two_days id ["/",
          "w"] (two_runs.take i) (fun _ => []) (month two_days r.args) id' →
        Selects two_days id ["/", "w"] r'.args id' →
        Recorded two_days id ["/",
          "w"] (two_runs.take j) (fun _ => []) (month two_days r'.args) id' :=
  never_again_iff (by decide)

/-- The line of June is recorded in the manifest of May, and pending again when its file is
selected alone. -/
theorem imported_again :
    (∀ r ∈ two_runs, r.args.month = "" ∧ r.args.force = false ∧ r.args.mode = .line) ∧
      ¬ NeverAgain two_days id ["/", "w"] two_runs (fun _ => []) := by
  refine ⟨by decide, fun h => ?_⟩
  have hruns : two_runs[0]? =
      some ⟨{ paths := [["/", "w", "2026-05-31.md"], ["/", "w", "2026-06-01.md"]] }, none⟩ ∧
      two_runs[1]? = some ⟨{ paths := [["/", "w", "2026-06-01.md"]] }, none⟩ := ⟨rfl, rfl⟩
  refine h 0 1 _ _ "2026-06-01.md:1:1:- june" Nat.zero_lt_one hruns.1 hruns.2 rfl ?_ ?_
  · unfold Imports
    decide +kernel
  · have hselects : ordered_chunks two_days id ["/", "w"] { paths := [["/", "w", "2026-06-01.md"]] }
        = .ok [⟨1, ⟨["/", "w", "2026-06-01.md"], "2026-06-01", 1, 1, [], "- june"⟩,
          "2026-06-01.md:1:1:- june"⟩] := by
      rfl
    refine (pending_iff rfl).mpr ⟨⟨_, hselects, _, List.mem_singleton_self _, rfl⟩, ?_⟩
    unfold Held
    decide +kernel

end Memline.ledger
