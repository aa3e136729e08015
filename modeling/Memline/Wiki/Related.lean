/-
Pages related by the evidence they share, and the block that says so on each of them.

Two pages are related when they name enough references in common. What the generators report
beside the paths they wrote is left out.
-/
import Memline.Wiki.Artifacts
import Memline.Wiki.Content

set_option autoImplicit false

namespace Memline.wiki

open Py

/-- What the generators take from the language: how values print, the YAML reader, and
`str.lower`. -/
structure Generator where
  rt : Runtime
  safe_load : SafeLoad
  lower : String → String

/-- An operation that does not apply raises. -/
def raising {α : Type} : Result α → Except Exn α
  | .ok a => .ok a
  | .error _ => .error (.other "TypeError")

/-- A file that is listed as a page. -/
def is_page (path : String) : Bool :=
  ".md".toList.isSuffixOf path.toList && !decide (Paths.name path ∈ NON_ENTRY)

/-- The pages and their texts, in the order of their paths. -/
def Content.pages (c : Content) : List (String × String) :=
  (c.paths.filter is_page).map fun p => (p, String.ofList (read_text ((c.file p).getD [])))

/-- `front.get("title") or page.stem`, as a text. -/
def title_of (g : Generator) (path : String) (front : Dict) : String :=
  fmt g.rt ((Dict.get front "title").or_else (.str (Paths.stem (Paths.name path))))

/-- The references a front matter names, each once. -/
def refs_of (front : Dict) : Except Exn (List String) := do
  let sources ← raising (entries (Dict.get front "sources"))
  pure (sources.filterMap fun
    | .obj entry =>
      match Dict.get entry "ref" with
      | .str ref => some ref
      | _ => none
    | _ => none).dedup

/-- A page with the references it names. -/
def refs_at (path : String) (front : Dict) : Except Exn (String × List String) := do
  let refs ← refs_of front
  pure (path, refs)

/-- Published pages and the evidence each was written from. -/
def page_refs (g : Generator) (c : Content) : Except Exn (List (String × List String)) := do
  let found ← c.pages.mapM fun page => do
    let front ← parse_frontmatter g.safe_load page.2
    refs_at page.1 front
  pure (found.filter fun e => e.2 ≠ [])

/-- The thresholds of a relation: how many references, and whether a number of them is too
small a share of the smaller page's. -/
structure Thresholds where
  min_shared : ℤ
  low : ℕ → ℕ → Bool

structure Related where
  page : String
  shared : ℕ
deriving DecidableEq

/-- `combinations(xs, 2)`. -/
def combinations {α : Type} : List α → List (α × α)
  | [] => []
  | x :: xs => xs.map (x, ·) ++ combinations xs

/-- Stronger relations come first. -/
def stronger (r r' : Related) : Prop :=
  r'.shared < r.shared ∨ r.shared = r'.shared ∧ r.page ≤ r'.page

instance (r r' : Related) : Decidable (stronger r r') := inferInstanceAs (Decidable (_ ∨ _ ∧ _))

/-- The pages that share enough, and how much they share. -/
def related_pairs (k : Thresholds)
    (refs : List (String × List String)) : List (String × String × ℕ) :=
  (combinations (refs.insertionSort fun e e' => e.1 ≤ e'.1)).filterMap fun (a, b) =>
    let shared := (a.2.filter (· ∈ b.2)).length
    if (shared : ℤ) < k.min_shared || k.low shared (min a.2.length b.2.length) then none
    else some (a.1, b.1, shared)

/-- For each page the pages related to it, the strongest first. -/
def relations (k : Thresholds)
    (refs : List (String × List String)) : List (String × List Related) :=
  refs.map fun page =>
    (page.1, ((related_pairs k refs).filterMap fun (a, b, shared) =>
      if a = page.1 then some ⟨b, shared⟩ else if b = page.1 then some ⟨a, shared⟩
        else none).insertionSort
        stronger)

/-- The block of a page. -/
def render (related : List Related) (source : String) (titles : List (String × String)) : String :=
  if related = [] then "_No pages share evidence with this one._"
  else
    let lines := ["_Pages built from overlapping evidence. Generated; not a claim " ++
      "that either page says the same thing._", ""] ++ related.map fun item =>
        "- [" ++ (titles.lookup item.page).getD item.page ++ "](" ++
          Paths.relpath item.page (Paths.parent source) ++ ") — " ++ toString item.shared ++
            " shared references"
    "\n".intercalate lines ++ "\n"

def titles_of (g : Generator) (c : Content) : Except Exn (List (String × String)) :=
  c.pages.mapM fun page => do
    let front ← parse_frontmatter g.safe_load page.2
    pure (page.1, title_of g page.1 front)

/-- What each page with evidence is to say of its relations. -/
def related_blocks (g : Generator) (k : Thresholds)
    (c : Content) : Except Exn (List (String × String)) := do
  let refs ← page_refs g c
  let titles ← titles_of g c
  pure (((relations k refs).insertionSort fun e e' => e.1 ≤ e'.1).map fun e =>
    (e.1, render e.2 e.1 titles))

/-- `build_related`. -/
def build_related (g : Generator) (k : Thresholds) (c : Content) : Written :=
  match related_blocks g k c with
  | .error e => ⟨c, [], some e⟩
  | .ok blocks => write_regions related_markers (blocks.map fun b => (b.1, .ok b.2)) c

end Memline.wiki
