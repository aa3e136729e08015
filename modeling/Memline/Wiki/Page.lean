/-
What every wiki module agrees a page is: its front matter and how to read it, and the markers
of its two generated regions.
-/
import Mathlib.Data.List.DropRight
import Memline.Mem0
import Memline.Lib.Json
import Memline.Lib.Regex

set_option autoImplicit false

namespace Memline.wiki

open Py

/-- `\s`. -/
def space : Regex := .one Mem0.isspace

/-- `\A---\s*\n(.*?)\n---\s*\n`, where a dot is any character. -/
def FRONTMATTER_RE : Regex :=
  .seq (.lit "---".toList) <| .seq (.many space) <| .seq (.char '\n') <|
    .seq (.group (.few .any)) <| .seq (.lit "\n---".toList) <| .seq (.many space) (.char '\n')

/-- What `yaml.safe_load` makes of a text; `none` is a `YAMLError`. -/
abbrev SafeLoad : Type := String → Except Exn (Option Json)

/-- The front matter of a page; nothing when there is none, it is no YAML or no mapping. -/
def parse_frontmatter (safe_load : SafeLoad) (markdown : String) : Except Exn Dict :=
  match FRONTMATTER_RE.matchAt ⟨[], markdown.toList, []⟩ with
  | none => .ok []
  | some q => do
    match ← safe_load (String.ofList q.captured) with
    | some (.obj data) => pure data
    | _ => pure []

/-- A README describes the shelf that holds it rather than belonging to it. -/
def NON_ENTRY : List String := ["README.md"]

/-! ## Generated regions -/

def INDEX_BEGIN : String := "<!-- index:begin -->"

def INDEX_END : String := "<!-- index:end -->"

def RELATED_BEGIN : String := "<!-- related:begin -->"

def RELATED_END : String := "<!-- related:end -->"

/-- A character that ends a line. -/
def newline (c : Char) : Bool := c = '\n' || c = '\r'

/-- A pair of markers: each within a line, with its first character nowhere else in it. -/
structure Markers where
  opening : List Char
  closing : List Char
  opening_solid : Lists.Solid opening
  closing_solid : Lists.Solid closing
  opening_line : ∀ c ∈ opening, newline c = false
  closing_line : ∀ c ∈ closing, newline c = false
  apart : ¬ closing <:+: opening

/-- A marker occurs in a text without overlapping itself. -/
theorem solid_of_marker {cs : List Char} (h : '<' ∉ cs) :
    Lists.Solid ('<' :: cs) := ⟨'<', cs, rfl, h⟩

theorem line_of_all {cs : List Char} (h : (cs.all fun c => !newline c) = true) :
    ∀ c ∈ cs, newline c = false := by
  simpa using h

def index_markers : Markers where
  opening := INDEX_BEGIN.toList
  closing := INDEX_END.toList
  opening_solid := solid_of_marker (by decide)
  closing_solid := solid_of_marker (by decide)
  opening_line := line_of_all (by decide)
  closing_line := line_of_all (by decide)
  apart := by decide

def related_markers : Markers where
  opening := RELATED_BEGIN.toList
  closing := RELATED_END.toList
  opening_solid := solid_of_marker (by decide)
  closing_solid := solid_of_marker (by decide)
  opening_line := line_of_all (by decide)
  closing_line := line_of_all (by decide)
  apart := by decide

/-- What reading a file as text makes of its line ends. -/
def read_text : List Char → List Char
  | [] => []
  | '\r' :: '\n' :: rest => '\n' :: read_text rest
  | c :: rest => (if c = '\r' then '\n' else c) :: read_text rest

/-- The region, and the markers around it. -/
def region_pattern (m : Markers) : Regex :=
  .seq (.lit m.opening) (.seq (.few .any) (.lit m.closing))

/-- `body.rstrip()` between the markers. -/
def Markers.block (m : Markers) (body : String) : List Char :=
  m.opening ++ '\n' :: body.toList.rdropWhile Mem0.isspace ++ '\n' :: m.closing

/-- The text of a page with its region rewritten, or a new one at its end. -/
def updated (m : Markers) (body : String) (current : List Char) : List Char :=
  if ((region_pattern m).search [] current).isSome then
    (region_pattern m).sub_first (m.block body) current
  else current.rdropWhile (· = '\n') ++ "\n\n".toList ++ m.block body ++ "\n".toList

/-- `write_region` on a file that exists: what it holds afterwards, and whether it was written. -/
def write_region (m : Markers) (file : List Char) (body : String) : List Char × Bool :=
  let current := read_text file
  let new := updated m body current
  if new = current then (file, false) else (new, true)

end Memline.wiki
