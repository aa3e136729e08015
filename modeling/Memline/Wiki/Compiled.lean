/-
The review bundle as the document that its readers find.

The compiler writes a bundle as a dictionary and seals it with the hash of all else. The merge of
review passes and the validators rely on a few things about that dictionary, which hold of whatever
the compiler writes.
-/
import Memline.Wiki.ReviewBundle
import Memline.Wiki.Typed

set_option autoImplicit false

namespace Memline.wiki.draft

open Py bundle

/-! ## Writing a bundle -/

/-- What is not there is written as null. -/
def nullable {α : Type} (write : α → Json) : Option α → Json
  | none => .null
  | some x => write x

def Evidence.toDict : Evidence → Dict
  | .memory m =>
    [("ref", .str (memory_ref m)), ("kind", .str "memory"), ("text", .str m.text),
      ("sha256", .str m.sha256), ("created_at", m.created_at), ("writer", m.writer),
      ("superseded", nullable .bool m.superseded)]
  | .source_section s =>
    [("ref", .str s.ref), ("kind", .str "source_section"), ("text", .str s.text),
      ("sha256", .str s.sha256), ("document", .str s.document),
      ("heading", nullable .str s.heading), ("superseded", .bool false)]

def Status.value : Status → String
  | .exact => "exact"
  | .abbreviated => "abbreviated"
  | .ambiguous => "ambiguous"
  | .missing => "missing"

def Resolution.toDict (r : Resolution) : Dict :=
  [("requested_ref", .str r.requested_ref), ("resolved_ref", nullable .str r.resolved_ref),
    ("status", .str r.status.value)] ++
    -- only where there are several
    (if r.status = .ambiguous then [("candidates", .list (r.candidates.map .str))] else []) ++
    [("evidence", nullable (fun e : Evidence => .obj e.toDict) r.evidence)]

def Packet.toDict (p : Packet) : Dict :=
  [("claim_id", .str p.claim_id), ("line", .int p.line), ("text", .str p.text),
    ("citations", .list ((p.citations.map Resolution.toDict).map .obj))]

def Passage.toDict (p : Passage) : Dict :=
  [("passage_id", .str p.passage_id), ("line", .int p.line), ("text", .str p.text)]

/-- `round` is that of the language, to three digits. -/
def Report.toDict (round : ℚ → Double) (r : Report) : Dict :=
  [("citations", .int r.citations), ("distinct_citations", .int r.distinct_citations),
    ("abbreviated_citations", .obj (r.abbreviated_citations.map fun e => (e.1, .str e.2))),
    ("bundle_refs", .int r.bundle_refs), ("coverage", .float (round r.coverage)),
    ("cited_superseded", .list (r.cited_superseded.map .str)),
    ("uncited_material", .int r.uncited_material),
    ("claim_refs", .int r.claim_refs), ("unused_refs", .int r.unused_refs),
    ("findings", .list r.findings),
    ("clean", .bool r.clean)]

/-- The bundle of a draft compiled from some evidence, but for its own hash. -/
def ReviewBundle.fields (rt : Runtime) (round : ℚ → Double) (evidence : Dict)
    (r : ReviewBundle) : Dict :=
  [("schema_version", .int 1), ("draft_name", nullable .str r.draft_name),
    ("article_sha256", .str r.article_sha256),
    ("evidence_bundle_sha256", .str (artifact_sha256 rt (.obj evidence))),
    ("approved_topic", nullable .obj r.approved_topic),
    ("article_markdown", .str r.article_markdown),
    ("deterministic_report", .obj (r.deterministic_report.toDict round)),
    ("claim_packets", .list ((r.claim_packets.map Packet.toDict).map .obj)),
    ("uncited_passages", .list ((r.uncited_passages.map Passage.toDict).map .obj)),
    ("uncited_evidence", .list ((r.uncited_evidence.map Evidence.toDict).map .obj)),
    ("claims_manifest", nullable .obj r.claims_manifest)]

def ReviewBundle.toDict (rt : Runtime) (round : ℚ → Double) (evidence : Dict)
    (r : ReviewBundle) : Dict :=
  (r.fields rt round evidence).set "review_bundle_sha256"
    (.str (content_hash rt (r.fields rt round evidence) "review_bundle_sha256"))

/-! ## What its readers rely on -/

variable {rt : Runtime} {round : ℚ → Double} {evidence : Dict} {r : ReviewBundle}

/-- The fields of a bundle as it is written, but for its hash. -/
theorem get_toDict {key : String} (h : key ≠ "review_bundle_sha256") :
    Dict.get (r.toDict rt round evidence) key = Dict.get (r.fields rt round evidence) key :=
  Dict.get_set_ne _ _ h

/-- A packet that is written has what the validators ask of one. -/
theorem packet_written (p : Packet) : ClaimPacket p.toDict where
  claim_id := ⟨p.claim_id, rfl⟩
  citations := by
    refine ⟨p.citations.map Resolution.toDict, rfl, fun c hc => ?_⟩
    obtain ⟨res, -, rfl⟩ := List.mem_map.mp hc
    have hlookup : res.toDict.lookup "resolved_ref" = some (nullable .str res.resolved_ref) := rfl
    rw [hlookup]
    cases res.resolved_ref with
    | none => exact .inl rfl
    | some ref => exact .inr ⟨ref, rfl⟩

theorem evidence_written (e : Evidence) : ∃ ref, e.toDict.lookup "ref" = some (.str ref) := by
  cases e with
  | memory m => exact ⟨_, rfl⟩
  | source_section s => exact ⟨_, rfl⟩

/-- Whatever is written has the shape that the validators take for granted. -/
theorem well_formed_toDict : WellFormedBundle (r.toDict rt round evidence) where
  claim_packets := by
    refine ⟨r.claim_packets.map Packet.toDict, get_toDict (by decide), fun p hp => ?_⟩
    obtain ⟨packet, -, rfl⟩ := List.mem_map.mp hp
    exact packet_written packet
  uncited_evidence := by
    refine ⟨r.uncited_evidence.map Evidence.toDict, get_toDict (by decide), fun item hitem => ?_⟩
    obtain ⟨e, -, rfl⟩ := List.mem_map.mp hitem
    exact evidence_written e
  article_sha256 := ⟨_, get_toDict (by decide)⟩
  article_markdown := ⟨_, get_toDict (by decide)⟩
  deterministic_report := ⟨_, get_toDict (by decide)⟩

variable {draft : List Char} {i : EvidenceIndex}

theorem claim_packets_named (block_offset : ℕ) (block : List Char) (number cursor : ℕ)
    (groups : List Group) :
    ∀ p ∈ claim_packets draft i block_offset block number cursor groups, p.claim_id ≠ "" := by
  induction groups generalizing number cursor with
  | nil => exact nofun
  | cons g groups ih =>
    refine List.forall_mem_cons.mpr ⟨fun h => ?_, ih _ _⟩
    have hlist := congrArg String.toList h
    rw [String.toList_append] at hlist
    cases hlist

theorem review_block_named (s : Packets) (e : ℕ × List Char)
    (h : ∀ p ∈ s.packets, p.claim_id ≠ "") :
    ∀ p ∈ (review_block draft i s e).packets, p.claim_id ≠ "" := by
  unfold review_block
  dsimp only
  split
  · split
    · exact h
    · exact h
  · have hpackets : ∀ p ∈ s.packets ++
        claim_packets draft i e.1 e.2 s.packets.length 0 (citation_groups e.2),
        p.claim_id ≠ "" := List.forall_mem_append.mpr ⟨h, claim_packets_named _ _ _ _ _⟩
    split
    · exact hpackets
    · exact hpackets

/-- No claim of a draft goes without a name. -/
theorem review_blocks_named (bs : List (ℕ × List Char)) (s : Packets)
    (h : ∀ p ∈ s.packets, p.claim_id ≠ "") :
    ∀ p ∈ (bs.foldl (review_block draft i) s).packets, p.claim_id ≠ "" := by
  induction bs generalizing s with
  | nil => exact h
  | cons e bs ih => exact ih _ (review_block_named s e h)

/-- **What the compiler writes**, whatever the draft and its evidence, is a bundle that review
passes can be merged over and that the validators can read. -/
theorem build_compiled {cls : Classes} {domains : Option (List String)} {draft_markdown : String}
    {b : Bundle} {claims approved_topic : Option Dict} {draft_name : Option String}
    (h : build_review_bundle rt cls domains draft_markdown b claims approved_topic draft_name =
      .ok r) :
    Compiled (r.toDict rt round evidence) ∧ WellFormedBundle (r.toDict rt round evidence) := by
  refine ⟨?_, well_formed_toDict⟩
  obtain ⟨deterministic, -, h⟩ := Except.bind_ok.mp h
  cases h
  refine ⟨⟨_, rt.sha256_ne draft_markdown, get_toDict (by decide)⟩,
    fun packets hpackets packet hpacket id hid => ?_⟩
  rw [get_toDict (by decide)] at hpackets
  obtain rfl := Except.ok.inj ((entries_list _).symm.trans hpackets)
  obtain ⟨d, hd, rfl⟩ := List.mem_map.mp hpacket
  obtain ⟨p, hp, rfl⟩ := List.mem_map.mp hd
  cases hid
  exact ⟨p.claim_id, review_blocks_named _ _ (fun p hp => absurd hp List.not_mem_nil) p hp, rfl⟩

end Memline.wiki.draft
