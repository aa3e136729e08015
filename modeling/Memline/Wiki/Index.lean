/-
The listing of a shelf, kept in the README that asks for it, and the refresh of everything
that is generated.
-/
import Memline.Wiki.Related

set_option autoImplicit false

namespace Memline.wiki

open Py

/-- What a listing says of a page. -/
structure Entry where
  path : String
  shelf : String
  title : String
  summary : String
  status : Json
  order : ℤ

/-- The states that mean a page is fine. -/
def NORMAL_STATUS : List Json := [.str "published", .str "current", .null, .str ""]

/-- Sorts last. -/
def UNORDERED : ℤ := 10 ^ 9

def summary_of (g : Generator) (front : Dict) : String :=
  Mem0.strip (fmt g.rt ((Dict.get front "summary").or_else (.str "")))

def entry_of (g : Generator) (path : String) (front : Dict) : Entry where
  path := path
  shelf := Paths.parent path
  title := title_of g path front
  summary := summary_of g front
  status := Dict.get front "status"
  order := match Dict.get front "order" with
    | .int n => n
    -- a bool counts as an integer
    | .bool b => if b then 1 else 0
    | _ => UNORDERED

/-- `_entry`. -/
def entry (g : Generator) (page : String × String) : Except Exn Entry := do
  let front ← parse_frontmatter g.safe_load page.2
  pure (entry_of g page.1 front)

/-- The order of a listing: by shelf, by the order a page states, by title, by path. -/
def listed_before (g : Generator) (e e' : Entry) : Prop :=
  e.shelf < e'.shelf ∨ e.shelf = e'.shelf ∧ (e.order < e'.order ∨ e.order = e'.order ∧
    (g.lower e.title < g.lower e'.title ∨ g.lower e.title = g.lower e'.title ∧ e.path ≤ e'.path))

instance (g : Generator) (e e' : Entry) : Decidable (listed_before g e e') :=
  inferInstanceAs (Decidable (_ ∨ _ ∧ (_ ∨ _ ∧ (_ ∨ _ ∧ _))))

/-- Every listable page, ordered. -/
def collect (g : Generator) (c : Content) : Except Exn (List Entry) := do
  let found ← c.pages.mapM (entry g)
  pure (found.insertionSort (listed_before g))

/-- Whether a status is shown: one that is stated, and not normal. -/
def shows_status (status : Json) : Except Exn Bool :=
  if status.truthy then do
    let normal ← raising (status.in_set NORMAL_STATUS)
    pure !normal
  else pure false

/-- The path of a page, from its shelf. -/
def href_from (base path : String) : String :=
  let start := base.toList ++ ['/']
  if base ≠ "" ∧ start <+: path.toList then String.ofList (path.toList.drop start.length) else path

def render_entry (g : Generator) (e : Entry) (base : String) : Except Exn String := do
  let line := "- [" ++ e.title ++ "](" ++ href_from base e.path ++ ")" ++
    (if e.summary = "" then "" else " — " ++ e.summary)
  let shown ← shows_status e.status
  pure (if shown then line ++ "  \x60" ++ fmt g.rt e.status ++ "\x60" else line)

def render_shelf (g : Generator) (es : List Entry) (shelf : String) : Except Exn String :=
  match es.filter fun e => e.shelf = shelf with
  | [] => .ok "_No pages published yet._"
  | listed => do
    let lines ← listed.mapM fun e => render_entry g e shelf
    pure ("\n".intercalate lines ++ "\n")

/-- The README of a shelf. -/
def readme (shelf : String) : String := shelf ++ "/README.md"

/-- Whether a README has asked to have its listing maintained. -/
def opts_in (c : Content) (shelf : String) : Bool :=
  match c.file (readme shelf) with
  | none => false
  | some t => decide (index_markers.opening <:+: read_text t)

/-- The shelves that are listed. -/
def listed_shelves (c : Content) (es : List Entry) : List String :=
  (((es.map Entry.shelf).filter (· ≠ "")).dedup.insertionSort (· ≤ ·)).filter (opts_in c)

/-- `build_index`: after the listings, the flagged pages are looked for. -/
def build_index (g : Generator) (c : Content) : Written :=
  match collect g c with
  | .error e => ⟨c, [], some e⟩
  | .ok es =>
    let w := write_regions index_markers ((listed_shelves c es).map fun s =>
      (readme s, render_shelf g es s)) c
    match w.raised with
    | some _ => w
    | none =>
      -- a status without a hash raises when all listings are written
      match es.mapM fun e => raising (e.status.in_set NORMAL_STATUS) with
      | .error e => { w with raised := some e }
      | .ok _ => w

/-- Recompute every generated block: listings and relations. -/
def refresh (g : Generator) (k : Thresholds) (c : Content) : Written :=
  let listings := build_index g c
  match listings.raised with
  | some _ => listings
  | none =>
    let related := build_related g k listings.content
    { related with written := listings.written ++ related.written }

end Memline.wiki
