/-
The check of a draft against the bundle it was written from.

The verifier reads the draft's citations, sections and numbers and the sidecar's references,
compares them with the bundle, and notes a finding for whatever does not fit. A draft without
findings is clean. A set is a list without repetitions here, in the order in which its members came.
-/
import Memline.Wiki.Artifacts
import Memline.Wiki.Bundle
import Memline.Wiki.Citations
import Memline.Wiki.Suggest

set_option autoImplicit false

namespace Memline.wiki.draft

open Py Regex bundle

/-! ## What a draft must not hold -/

section leaks

variable (cls : Classes)

/-- `\bI[A-Z0-9]{5}\b`. -/
def ISSUE_ID : Regex :=
  .seq (edge cls) <| .seq (.char 'I') <|
    .seq (.between (.one fun c => c.isUpper || c.isDigit) 5 0) (edge cls)

/-- `(?<![\w!#])[!#]\d{3,6}\b`. -/
def CHANGE_ID : Regex :=
  .seq (.notBehind fun c => cls.word c || c == '!' || c == '#') <|
    .seq (.one fun c => c == '!' || c == '#') <|
    .seq (.between (.one cls.digit) 3 3) (edge cls)

/-- `(?<![\w/])/(?:workspace|data|home|mnt)/[\w/.-]+`. -/
def INTERNAL_PATH : Regex :=
  .seq (.notBehind fun c => cls.word c || c == '/') <| .seq (.char '/') <|
    .seq (.oneOf (["workspace", "data", "home", "mnt"].map fun d => .lit d.toList)) <|
      .seq (.char '/') <|
      .plus (.one fun c => cls.word c || c == '.' || c == '/' || c == '-')

/-- `\bvllm-\d{8,}\b`. -/
def IMAGE_TAG : Regex :=
  .seq (edge cls) <| .seq (.lit "vllm-".toList) <| .seq (.between (.one cls.digit) 8 0) <|
    .seq (.many (.one cls.digit)) (edge cls)

def LEAKS : List (String × Regex) :=
  [("ipv4", HOST cls), ("account_id", USER cls), ("issue_id", ISSUE_ID cls),
    ("change_id", CHANGE_ID cls), ("internal_path", INTERNAL_PATH cls),
    ("image_tag", IMAGE_TAG cls)]

/-- `LEAKS` plus the config-declared internal-domain pattern. -/
def leak_patterns (domains : Option (List String)) : Except Exn (List (String × Regex)) :=
  match domains with
  | none => .error sanitize_unconfigured_error
  | some [] => .ok (LEAKS cls)
  | some domains => .ok (LEAKS cls ++ [("internal_host", INTERNAL_HOST cls domains)])

/-- `(?<![\w.-])\d[\d,]*(?:\.\d+)?(?:e-?\d+)?(?![\w.-]*\d)`. -/
def TRACEABLE_NUMBER : Regex :=
  let part := .one fun c => cls.word c || c == '.' || c == '-'
  .seq (.notBehind fun c => cls.word c || c == '.' || c == '-') <| .seq (.one cls.digit) <|
    .seq (.many (.one fun c => cls.digit c || c == ',')) <|
      .seq (.atMost (.seq (.char '.') (.plus (.one cls.digit))) 1) <|
        .seq (.atMost (.seq (.char 'e') (.seq (.atMost (.char '-') 1) (.plus (.one cls.digit))))
          1) <|
          .notAhead (.seq (.many part) (.one cls.digit))

end leaks

/-- All matches of a pattern without a group. -/
def whole_matches (r : Regex) (text : List Char) : List String := groups (.group r) text

/-- `r.fullmatch(text) is not None`. -/
def fullmatch (r : Regex) (text : List Char) : Bool :=
  (run r ⟨[], text, []⟩).any fun q => q.after.isEmpty

/-- `r.sub(repl, text)`. -/
def sub (r : Regex) (repl : String) (text : List Char) : List Char :=
  (Regex.cut r text).flatMap fun
    | .plain c => [c]
    | .found _ _ => repl.toList

/-! ## The bundle -/

def memory_ref (m : BundledMemory) : String := "mem:" ++ m.id

/-- What the verifier looks up in a bundle. -/
structure Index where
  memory_refs : List String
  source_refs : List String
  corpus : String

/-- `_bundle_index`. -/
def bundle_index (b : Bundle) : Index where
  memory_refs := (b.memories.map memory_ref).eraseDups
  source_refs := (b.source_sections.map SourceSection.ref).eraseDups
  corpus :=
  "\n".intercalate (b.memories.map BundledMemory.text ++ b.source_sections.map SourceSection.text)

def Index.known (i : Index) : List String := (i.memory_refs ++ i.source_refs).eraseDups

/-- The full ref a shortened memory id unambiguously names, if any. -/
def resolve_prefix (ref : String) (memory_refs : List String) : Option String :=
  if starts_with ref "mem:" then
    let stem := ref.toList.drop 4
    match memory_refs.filter fun r => stem.isPrefixOf (r.toList.drop 4) with
    | [full] => some full
    | _ => none
  else none

/-! ## The sidecar -/

/-- References and findings collected on the way through a sidecar. -/
structure Collected where
  refs : List String := []
  findings : List Json := []

def Collected.and (a b : Collected) : Collected := ⟨a.refs ++ b.refs, a.findings ++ b.findings⟩

/-- One entry of a list of references. -/
def collect_ref (item_path : String) (ref : Json) : Collected :=
  let invalid := finding "sidecar_ref_invalid_format" [("ref", ref), ("detail", .str item_path)]
  match ref with
  | .str s => if starts_with s "mem:" ||
      starts_with s "sources/" then { refs := [s] } else { findings := [invalid] }
  | _ => { findings := [invalid] }

/-- What stands under `evidence_refs`. -/
def collect_refs (item_path : String) : Json → Collected
  | .list refs => (refs.map (collect_ref item_path)).foldr Collected.and {}
  | _ => { findings := [finding "sidecar_evidence_refs_not_list" [("detail", .str item_path)]] }

mutual

/-- Collect every structured `evidence_refs` entry in a claims sidecar. -/
def collect_sidecar_refs (path : String) : Json → Collected
  | .list items => collect_items path 0 items
  | .obj fields => collect_fields path fields
  | _ => {}

def collect_items (path : String) (index : ℕ) : List Json → Collected
  | [] => {}
  | item :: items =>
    (collect_sidecar_refs (path ++ "[" ++ toString index ++ "]") item).and
      (collect_items path (index + 1) items)

def collect_fields (path : String) : List (String × Json) → Collected
  | [] => {}
  | (key, item) :: fields =>
    let item_path := path ++ "." ++ key
    (if key = "evidence_refs" then collect_refs item_path item
      else collect_sidecar_refs item_path item).and
      (collect_fields path fields)

end

/-! ## Sections -/

/-- `#{1,6} ` at the start. -/
def opens_heading (l : List Char) : Bool :=
  let hashes := (l.takeWhile (· == '#')).length
  1 ≤ hashes && hashes ≤ 6 && l[hashes]? == some ' '

/-- `re.split(r"\n(?=#{1,6} )", draft)`. -/
def sections : List Char → List (List Char)
  | [] => [[]]
  | c :: rest =>
    if c = '\n' && opens_heading rest then [] :: sections rest
    else
      match sections rest with
      | [] => [[c]]
      | first :: more => (c :: first) :: more

def heading_of (sec : List Char) : String :=
  if Mem0.strip (String.ofList sec) = "" then ""
  else (ledger.splitlines (String.ofList sec)).headD ""

/-- What stands below the heading. -/
def body_of (sec : List Char) : String :=
  Mem0.strip ("\n".intercalate ((ledger.splitlines (String.ofList sec)).drop 1))

/-! ## The findings -/

def summary_findings (claims : Option Dict) : List Json :=
  match claims with
  | none => []
  | some claims => if blank (Dict.get claims "summary") then
      [finding "page_summary_missing"] else []

def bare_findings (draft : List Char) : List Json :=
  (groups BARE_CITATION draft).eraseDups.map fun ref =>
    finding "citation_missing_caret" [("ref", .str ref)]

def token_findings (draft : List Char) : List Json :=
  ((groups CITATION_TOKEN draft).eraseDups.filter fun token =>
      !fullmatch CITATION ('^' :: '[' :: token.toList ++ [']'])).map
    fun token => finding "citation_invalid_format" [("ref", .str token)]

/-- What a cited reference is to the verifier. -/
inductive Standing where
  | known
  | abbreviates (full : String)
  | unknown
  deriving DecidableEq

def standing (i : Index) (ref : String) : Standing :=
  if ref ∈ i.known then .known
  else
    match resolve_prefix ref i.memory_refs with
    | some full => .abbreviates full
    | none => .unknown

def citation_findings (i : Index) (cited : List String) : List Json :=
  cited.eraseDups.flatMap fun ref =>
    match standing i ref with
    | .known => []
    | .abbreviates full =>
      [finding "citation_abbreviated" [("ref", .str ref), ("detail", .str full)]]
    | .unknown => [finding "citation_not_in_bundle" [("ref", .str ref)]]

def abbreviated (i : Index) (cited : List String) : List (String × String) :=
  cited.eraseDups.filterMap fun ref =>
    match standing i ref with
    | .abbreviates full => some (ref, full)
    | _ => none

def section_findings (draft : List Char) : List Json :=
  ((sections draft).filter fun sec =>
      starts_with (heading_of sec) "#" && body_of sec ≠ "" &&
        (search CITATION [] (body_of sec).toList).isNone).map
    fun sec =>
      finding "section_without_citation" [("detail", .str (ledger.clip 80 (heading_of sec)))]

def leak_findings (patterns : List (String × Regex)) (draft : List Char) : List Json :=
  patterns.flatMap fun p =>
    (whole_matches p.2 draft).eraseDups.map fun value =>
      finding ("redaction_lost_" ++ p.1) [("detail", .str value)]

/-- Numbers that stand in the draft and not in its material. -/
def unsupported (cls : Classes) (corpus : String) (draft : List Char) : List String :=
  (whole_matches (TRACEABLE_NUMBER cls) (sub CITATION " " draft)).eraseDups.filter fun n =>
    3 ≤ (str_replace (str_replace n "," "") "." "").length && !suggest.holds corpus n &&
      !suggest.holds corpus (str_replace n "," "")

def number_findings (cls : Classes) (corpus : String) (draft : List Char) : List Json :=
  ((unsupported cls corpus draft).take 40).map fun n =>
    finding "number_not_in_material" [("detail", .str n)]

def is_list : Json → Bool
  | .list _ => true
  | _ => false

def claims_findings (claims : Dict) : List Json :=
  if is_list ((Dict.get claims "claims").or_else (.list [])) then []
  else [finding "claims_not_list"]

/-- `sorted`. -/
def sorted (refs : List String) : List String := refs.insertionSort (· ≤ ·)

/-- References that are not in the bundle and do not abbreviate one that is. -/
def ref_findings (kind : String) (i : Index) (refs : List String) : List Json :=
  ((sorted refs).filter fun ref => ref ∉ i.known ∧ resolve_prefix ref i.memory_refs = none).map
    fun ref => finding kind [("ref", .str ref)]

/-- Each reference, or what it abbreviates. -/
def resolve_all (i : Index) (refs : List String) : List String :=
  let full r := Option.getD ( resolve_prefix r i.memory_refs) r
  (refs.map full).eraseDups

/-- The list of unused references, and whether it is one. -/
def unused_raw (claims : Dict) : List Json × List Json :=
  match (Dict.get claims "unused_evidence_refs").or_else (.list []) with
  | .list refs => (refs, [])
  | _ => ([], [finding "unused_refs_not_list"])

def strings (values : List Json) : List String :=
  values.filterMap fun
    | .str s => some s
    | _ => none

def list_finding (kind : String) (refs : List String) : List Json :=
  if refs = [] then []
  else [finding kind [("refs", .list (refs.map .str)), ("count", .int refs.length)]]

structure Report where
  citations : ℕ
  distinct_citations : ℕ
  abbreviated_citations : List (String × String)
  bundle_refs : ℕ
  /-- Before it is rounded. -/
  coverage : ℚ
  cited_superseded : List String
  uncited_material : ℕ
  claim_refs : ℕ
  unused_refs : ℕ
  findings : List Json
  clean : Bool

def verify (cls : Classes) (domains : Option (List String)) (draft_markdown : String) (b : Bundle)
    (claims : Option Dict) : Except Exn Report := do
  let draft := draft_markdown.toList
  let i := bundle_index b
  let known := i.known
  let cited := groups CITATION draft
  let abbreviations := abbreviated i cited
  let patterns ← leak_patterns cls domains
  let sidecar := claims.getD []
  let collected := collect_sidecar_refs "$" (.obj sidecar)
  let claim_refs := collected.refs.eraseDups
  let raw := unused_raw sidecar
  let unused_refs := (strings raw.1).eraseDups
  let resolved_unused := resolve_all i unused_refs
  let superseded := ((b.memories.filter fun m => m.superseded = some true).map memory_ref).eraseDups
  let resolved := (cited.map fun c => (abbreviations.lookup c).getD c).eraseDups
  -- evidence is cited or declared unused, and not both
  let both :=
    sorted ((resolved.filter (· ∈ known)).filter fun r => r ∈ resolved_unused.filter (· ∈ known))
  let unaccounted := sorted ((known.filter (· ∉ resolved)).filter (· ∉ resolved_unused))
  let findings :=
    summary_findings claims ++ bare_findings draft ++ token_findings draft ++
      citation_findings i cited ++
      section_findings draft ++ leak_findings patterns draft ++
      number_findings cls i.corpus draft ++
      claims_findings sidecar ++ collected.findings ++
      ref_findings "claim_ref_not_in_bundle" i claim_refs ++
      raw.2 ++ (if raw.1.all Json.is_str then [] else [finding "unused_ref_not_string"]) ++
      ref_findings "unused_ref_not_in_bundle" i unused_refs ++
      list_finding "evidence_both_cited_and_unused" both ++
      -- only a sidecar declares anything unused
      (if claims.isSome then list_finding "evidence_neither_cited_nor_unused" unaccounted else [])
  pure {
    citations := cited.length
    distinct_citations := cited.eraseDups.length
    abbreviated_citations := abbreviations
    bundle_refs := known.length
    coverage := (resolved.filter (· ∈ known)).length / max 1 known.length
    cited_superseded := sorted (resolved.filter (· ∈ superseded))
    uncited_material := (known.filter (· ∉ resolved)).length
    claim_refs := ((resolve_all i claim_refs).filter (· ∈ known)).length
    unused_refs := (resolved_unused.filter (· ∈ known)).length
    findings := findings
    clean := findings.isEmpty }

end Memline.wiki.draft
