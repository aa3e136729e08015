/-
The packets in which a draft goes to an outside reviewer.

The draft is cut into blocks at blank lines, and a block at its groups of citations: what stands
before a group is a claim, which goes with the evidence that the group cites, and what stands behind
the last one, or the whole block where nothing is cited, is an uncited passage, if it reads like
prose. The hashes that seal the bundle are left out.
-/
import Memline.Wiki.Verify

set_option autoImplicit false

namespace Memline.wiki.draft

open Py Regex bundle

/-! ## Evidence -/

inductive Evidence where
  | memory (m : BundledMemory)
  | source_section (s : SourceSection)

/-- The bundle as the packet builder looks it up. -/
structure EvidenceIndex where
  index : List (String × Evidence)
  memory_refs : List String

/-- `_evidence_index`. -/
def evidence_index (b : Bundle) : EvidenceIndex where
  index := Keyed.put_all id [] <|
    (b.memories.map fun m => (memory_ref m, Evidence.memory m)) ++
      b.source_sections.map fun s => (s.ref, Evidence.source_section s)
  memory_refs := b.memories.map memory_ref

inductive Status where
  | exact
  | abbreviated
  | ambiguous
  | missing
  deriving DecidableEq

structure Resolution where
  requested_ref : String
  resolved_ref : Option String := none
  status : Status
  candidates : List String := []
  evidence : Option Evidence := none

/-- Resolve one exact or abbreviated ref without guessing. -/
def resolve_reference (ref : String) (i : EvidenceIndex) : Resolution :=
  match Keyed.find id i.index ref with
  | some evidence =>
    { requested_ref := ref, resolved_ref := some ref, status := .exact, evidence := some evidence }
  | none =>
    -- the id of a memory may be cut short as long as it stays the only one
    let stem := ref.toList.drop 4
    let found := if starts_with ref "mem:" then i.memory_refs.filter fun r =>
      stem.isPrefixOf (r.toList.drop 4) else []
    match found with
    | [] => { requested_ref := ref, status := .missing }
    | [resolved] =>
      { requested_ref := ref, resolved_ref := some resolved, status := .abbreviated
        evidence := Keyed.find id i.index resolved }
    | _ => { requested_ref := ref, status := .ambiguous, candidates := sorted found }

/-! ## Blocks -/

/-- `[ \t]`. -/
def space_or_tab (c : Char) : Bool := c == ' ' || c == '\t'

/-- `\n[ \t]*\n`. -/
def BREAK : Regex := .seq (.char '\n') (.seq (.many (.one space_or_tab)) (.char '\n'))

/-- `(?ms)(?:\A|\n[ \t]*\n)(.*?)(?=\n[ \t]*\n|\Z)`. -/
def BLOCK : Regex :=
  .seq (.alt .start BREAK) (.seq (.group (.few .any)) (.lookahead (.alt BREAK .stop)))

def strip (l : List Char) : String := Mem0.strip (String.ofList l)

/-- Where the group of a match of `BLOCK` starts, and the group. -/
def piece (e : Match) : ℕ × List Char := (e.stop - e.group.length, e.group)

/-- Markdown blocks with their offsets. -/
def blocks (markdown : List Char) : List (ℕ × List Char) :=
  ((finditer BLOCK markdown).map piece).filter fun e => strip e.2 ≠ ""

/-! ## Groups of citations -/

/-- Citations with nothing between them. -/
structure Group where
  first : Match
  rest : List Match

def Group.cites (g : Group) : List Match := g.first :: g.rest

def Group.start (g : Group) : ℕ := g.first.start

def Group.stop (g : Group) : ℕ := (g.rest.getLastD g.first).stop

/-- `block[i:j]`. -/
def slice (block : List Char) (i j : ℕ) : List Char := (block.take j).drop i

def add_match (block : List Char) (groups : List Group) (e : Match) : List Group :=
  match groups.getLast? with
  | none => [⟨e, []⟩]
  | some g => if strip (slice block g.stop e.start) =
      "" then groups.dropLast ++ [⟨g.first, g.rest ++ [e]⟩] else groups ++ [⟨e, []⟩]

def citation_groups (block : List Char) : List Group :=
  (finditer CITATION block).foldl (add_match block) []

/-- Whether a text reads like prose. -/
def plain_passage (text : String) : Bool :=
  let stripped := Mem0.strip text
  if stripped = "" || starts_with stripped "\x60\x60\x60" then false
  else
    let lines := ((ledger.splitlines stripped).map Mem0.strip).filter fun line => line ≠ ""
    lines.any fun line => !starts_with line "#"

/-! ## Packets -/

structure Packet where
  claim_id : String
  line : ℕ
  text : String
  citations : List Resolution

structure Passage where
  passage_id : String
  line : ℕ
  text : String
  deriving DecidableEq

/-- A number with at least four digits. -/
def four_digits (n : ℕ) : String :=
  String.ofList (List.replicate (4 - (toString n).length) '0') ++ toString n

/-- `draft_markdown.count("\n", 0, offset) + 1`. -/
def line_at (draft : List Char) (offset : ℕ) : ℕ := (draft.take offset).count '\n' + 1

section packets

variable (draft : List Char) (i : EvidenceIndex)

/-- The claims of a block from a place on, each with the group of citations behind it. -/
def claim_packets (block_offset : ℕ) (block : List Char) : ℕ → ℕ → List Group → List Packet
  | _, _, [] => []
  | number, cursor, g :: groups =>
    { claim_id := "claim-" ++ four_digits (number + 1)
      line := line_at draft (block_offset + g.start)
      text := strip (slice block cursor g.start)
      citations := g.cites.map fun e => resolve_reference (String.ofList e.group) i } ::
      claim_packets block_offset block (number + 1) g.stop groups

/-- What the packet builder has collected. -/
structure Packets where
  packets : List Packet := []
  uncited : List Passage := []

def note_uncited (s : Packets) (offset : ℕ) (text : String) : Packets :=
  let id := "uncited-" ++ four_digits (s.uncited.length + 1)
  { s with uncited := s.uncited ++ [⟨id, line_at draft offset, text⟩] }

/-- One block goes into its packets. -/
def review_block (s : Packets) (e : ℕ × List Char) : Packets :=
  let (block_offset, block) := e
  let groups := citation_groups block
  match groups.getLast? with
  -- a block without citations is a passage as a whole
  | none =>
    if plain_passage (String.ofList block) then note_uncited draft s block_offset (strip block)
    else s
  | some last =>
    let packets := claim_packets draft i block_offset block s.packets.length 0 groups
    let s := { s with packets := s.packets ++ packets }
    -- and so is what stands behind the last citation
    let tail := strip (block.drop last.stop)
    if plain_passage tail then note_uncited draft s (block_offset + last.stop) tail else s

end packets

structure ReviewBundle where
  draft_name : Option String
  article_sha256 : String
  approved_topic : Option Dict
  article_markdown : String
  deterministic_report : Report
  claim_packets : List Packet
  uncited_passages : List Passage
  uncited_evidence : List Evidence
  claims_manifest : Option Dict

/-- Compile the draft into claim-local evidence packets for an independent reviewer. -/
def build_review_bundle (rt : Runtime) (cls : Classes) (domains : Option (List String))
    (draft_markdown : String) (b : Bundle) (claims approved_topic : Option Dict)
    (draft_name : Option String) : Except Exn ReviewBundle := do
  let i := evidence_index b
  let deterministic ← verify cls domains draft_markdown b claims
  let draft := draft_markdown.toList
  let s := (blocks draft).foldl (review_block draft i) {}
  let cited_resolved := s.packets.flatMap fun p => p.citations.filterMap Resolution.resolved_ref
  let by_ref := i.index.insertionSort fun e e' => e.1 ≤ e'.1
  pure {
    draft_name := draft_name
    article_sha256 := sha256_text rt draft_markdown
    approved_topic := approved_topic
    article_markdown := draft_markdown
    deterministic_report := deterministic
    claim_packets := s.packets
    uncited_passages := s.uncited
    uncited_evidence := (by_ref.filter fun e => e.1 ∉ cited_resolved).map Prod.snd
    claims_manifest := claims }

end Memline.wiki.draft
