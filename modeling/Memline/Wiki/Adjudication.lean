/-
An agent's rulings on the findings of one review report.

The findings are read off the report, single-pass or merged; every one has an id, and
the rulings answer to the ids.
-/
import Memline.Wiki.Artifacts
import Memline.Lib.Check

set_option autoImplicit false

namespace Memline.wiki

open Py

/-- `SCHEMA_VERSION` of an adjudication. -/
def ADJUDICATION_SCHEMA_VERSION : ℤ := 1

def DECISIONS : List String := ["blocking", "non_blocking"]

def BLOCKING_CATEGORIES : List String :=
  ["factual_contradiction", "superseded_current_claim", "core_claim_unverifiable",
    "decision_changing_omission", "severe_causal_overclaim", "safety_privacy_or_scope"]

def NON_BLOCKING_CATEGORIES : List String := ["non_material"]

variable (rt : Runtime)

/-- Hash the complete saved report, including provenance and validation. -/
def review_report_sha256 (report : Dict) : String := artifact_sha256 rt (.obj report)

/-! ## Findings -/

/-- A finding: its id, and its other fields. -/
structure Finding where
  finding_id : String
  fields : Dict

/-- One finding of a merged claim review. -/
def merged_claim_finding (claim_id : Json) (item : Dict) : Finding where
  finding_id := "claim:" ++ fmt rt claim_id ++ ":pass:" ++ fmt rt (Dict.get item "pass")
  fields :=
    [("source", .str "claim"), ("pass", Dict.get item "pass"), ("claim_id", claim_id),
      ("reviewer_verdict", Dict.get item "verdict"), ("confidence", Dict.get item "confidence"),
      ("finding", Dict.get item "reason"),
      ("evidence_refs", (Dict.get item "evidence_refs").or_else (.list [])),
      ("suggested_rewrite", (Dict.get item "suggested_rewrite").or_else (.str ""))]

/-- The finding of a claim review that does not say "supported". -/
def claim_finding (claim : Dict) : Finding where
  finding_id := "claim:" ++ fmt rt (Dict.get claim "claim_id")
  fields :=
    [("source", .str "claim"), ("claim_id", Dict.get claim "claim_id"),
      ("reviewer_verdict", Dict.get claim "verdict"), ("confidence", Dict.get claim "confidence"),
      ("finding", Dict.get claim "reason"),
      ("evidence_refs", (Dict.get claim "evidence_refs").or_else (.list [])),
      ("suggested_rewrite", (Dict.get claim "suggested_rewrite").or_else (.str ""))]

/-- The dictionaries among some values. -/
def dicts (values : List Json) : List Dict :=
  values.filterMap fun
    | .obj d => some d
    | _ => none

/-- What a field holds when it holds a list. -/
def items_of (value : Json) : List Json :=
  match value with
  | .list items => items
  | _ => []

/-- What one claim review has found. -/
def claim_findings (merged : Bool) (claim : Dict) : Result (List Finding) :=
  if merged then do
    let items ← entries (Dict.get claim "findings")
    pure ((dicts items).map (merged_claim_finding rt (Dict.get claim "claim_id")))
  else if (Dict.get claim "verdict").eq (.str "supported") then pure []
  else pure [claim_finding rt claim]

/-- The finding of omission review number `index`. -/
def omission_finding (merged : Bool) (index : ℕ) (item : Dict) : Finding where
  finding_id :=
    if merged then
      "omission:pass:" ++ fmt rt (Dict.get item "pass") ++ ":item:" ++ toString index
    else "omission:item:" ++ toString index
  fields :=
    [("source", .str "omission")] ++ (if merged then [("pass", Dict.get item "pass")] else []) ++
    [("reviewer_severity", Dict.get item "severity"), ("reviewer_kind", Dict.get item "kind"),
      ("finding", Dict.get item "finding"),
      ("evidence_refs", (Dict.get item "evidence_refs").or_else (.list [])),
      ("article_quotes", (Dict.get item "article_quotes").or_else (.list [])),
      ("article_location", (Dict.get item "article_location").or_else (.str ""))]

/-- Omission reviews are numbered from one, whatever else is among them. -/
def omission_findings (merged : Bool) (items : List Json) : List Finding :=
  (items.zipIdx 1).filterMap fun
    | (.obj item, index) => some (omission_finding rt merged index item)
    | _ => none

/-- The finding of a scope review outside the scope. -/
def scope_finding (finding_id : String) (item : Dict) (pass : Dict := []) : Finding where
  finding_id := finding_id
  fields :=
    [("source", .str "scope")] ++ pass ++
    [("reviewer_verdict", Dict.get item "verdict"), ("finding", Dict.get item "reason"),
      ("evidence_refs", .list [])]

def merged_scope_finding (item : Dict) : Finding :=
  scope_finding ("scope:pass:" ++ fmt rt (Dict.get item "pass")) item
    [("pass", Dict.get item "pass")]

def in_scope (item : Dict) : Bool := (Dict.get item "verdict").eq (.str "in_scope")

/-- A merged report that has kept no scope reviews. -/
def legacy_scope_finding : Finding where
  finding_id := "scope:legacy-aggregate"
  fields :=
    [("source", .str "scope"), ("reviewer_verdict", .str "legacy_non_clean"),
      ("finding", .str "A legacy merged review recorded a non-clean scope result."),
      ("evidence_refs", .list [])]

def scope_findings (merged : Bool) (report : Dict) : Result (List Finding) :=
  if merged then
    match Dict.get report "scope_reviews" with
    | .list items =>
      pure (((dicts items).filter fun item => !in_scope item).map (merged_scope_finding rt))
    -- a report of old has one flag for the scopes of all its passes
    | _ => do
      let scope_clean ← ((Dict.get report "validation").or_else (.obj [])).get "scope_clean"
      pure (if scope_clean.is_bool true then [] else [legacy_scope_finding])
  else
    match Dict.get report "scope_review" with
    | .obj scope => pure (if in_scope scope then [] else [scope_finding "scope" scope])
    | _ => pure []

/-- Every substantive claim, omission and scope finding with a stable id. -/
def collect_review_findings (report : Dict) : Result (List Finding) := do
  let merged := Dict.contains report "passes"
  let claims ← entries (Dict.get report "claim_reviews")
  let claims ← (dicts claims).mapM (claim_findings rt merged)
  let omissions ← entries (Dict.get report "omission_reviews")
  let scope ← scope_findings rt merged report
  pure (claims.flatten ++ omission_findings rt merged omissions ++ scope)

/-! ## Rulings -/

/-- What the loop over the rulings has counted. -/
structure Rulings where
  seen : List String
  blocking : ℕ
  non_blocking : ℕ
  adjudicated : ℕ

/-- One ruling, the `index`-th, against the ids that are expected. -/
def check_ruling (expected : List String) (r : Rulings) (entry : Json × ℕ) :
    Check Error Json Rulings :=
  match entry.1 with
  | .obj item =>
    match Dict.get item "finding_id" with
    | .str finding_id => do
      let about : Dict := [("finding_id", .str finding_id)]
      Check.complain_if (decide (finding_id ∈ r.seen))
        (finding "adjudication_finding_duplicate" about)
      -- it is seen, whatever turns out to be wrong with it
      let r := { r with seen := finding_id :: r.seen }
      if finding_id ∉ expected then do
        Check.complain (finding "adjudication_finding_unknown" about)
        pure r
      else do
        let decision := Dict.get item "decision"
        let category := Dict.get item "category"
        let decided ← Check.lift (decision.in_strings DECISIONS)
        if decided = false then do
          Check.complain (finding "adjudication_decision_invalid" about)
          pure r
        else if blank (Dict.get item "reason") then do
          Check.complain (finding "adjudication_reason_missing" about)
          pure r
        else do
          let blocks := decision.eq (.str "blocking")
          let allowed_categories := if blocks then BLOCKING_CATEGORIES else NON_BLOCKING_CATEGORIES
          let allowed ← Check.lift (category.in_strings allowed_categories)
          if allowed = false then do
            Check.complain (finding "adjudication_category_invalid"
              (about ++ [("decision", decision)]))
            pure r
          else
            pure { r with
              adjudicated := r.adjudicated + 1
              blocking := if blocks then r.blocking + 1 else r.blocking
              non_blocking := if blocks then r.non_blocking else r.non_blocking + 1 }
    | _ => do
      Check.complain (finding "adjudication_finding_id_invalid" [("index", .int entry.2)])
      pure r
  | _ => do
    Check.complain (finding "adjudication_finding_not_object" [("index", .int entry.2)])
    pure r

/-- A list, or a complaint and the empty list. -/
def list_or_complain (value : Json) (kind : String) (about : Dict := []) :
    Check Error Json (List Json) :=
  match value with
  | .list items => pure items
  | _ => do
    Check.complain (finding kind about)
    pure []

/-- A field that has to agree with what it is about. -/
def check_hash (kind field : String) (value expected : Json) : Check Error Json Unit :=
  Check.complain_if (!value.eq expected) (finding kind [("field", .str field)])

/-- The checks of a given adjudication, against the report and the ids of its findings. -/
def check_adjudication (adjudication report : Dict) (expected : List String) :
    Check Error Json Rulings := do
  Check.complain_if (!(Dict.get adjudication "schema_version").eq
    (.int ADJUDICATION_SCHEMA_VERSION))
    (finding "adjudication_schema_invalid")
  check_hash "adjudication_hash_mismatch" "article_sha256" (Dict.get adjudication "article_sha256")
    (Dict.get report "article_sha256")
  check_hash "adjudication_hash_mismatch" "review_bundle_sha256"
    (Dict.get adjudication "review_bundle_sha256") (Dict.get report "review_bundle_sha256")
  check_hash "adjudication_hash_mismatch" "review_report_sha256"
    (Dict.get adjudication "review_report_sha256") (.str (review_report_sha256 rt report))
  let items ← list_or_complain (Dict.get adjudication "findings") "adjudication_findings_missing"
  let r ← items.zipIdx.foldlM (check_ruling expected) ⟨[], 0, 0, 0⟩
  -- every finding needs a ruling
  let missing := (expected.filter (· ∉ r.seen)).insertionSort (· ≤ ·)
  Check.complain_if (!missing.isEmpty)
    (finding "adjudication_findings_incomplete"
      [("finding_ids", .list (missing.map .str)), ("count", .int missing.length)])
  pure r

structure AdjudicationValidation where
  findings : List Json
  valid : Bool
  required : Bool
  total_findings : ℕ
  adjudicated_findings : ℕ
  unresolved_blocking_findings : ℕ
  non_blocking_findings : ℕ
  clean : Bool

/-- Validate complete Agent adjudication and count unresolved blockers. -/
def validate_adjudication (adjudication : Option Dict) (report : Dict) :
    Result AdjudicationValidation := do
  let found ← collect_review_findings rt report
  let expected := (found.map Finding.finding_id).dedup
  match adjudication with
  | none =>
    -- where nothing was found, nothing is required
    let errors := if expected.isEmpty then [] else [finding "adjudication_missing"]
    pure { findings := errors, valid := errors.isEmpty, required := !expected.isEmpty
           total_findings := expected.length, adjudicated_findings := 0
           unresolved_blocking_findings := 0, non_blocking_findings := 0
           clean := errors.isEmpty }
  | some adjudication =>
    let (r, errors) ← check_adjudication rt adjudication report expected
    pure { findings := errors, valid := errors.isEmpty, required := !expected.isEmpty
           total_findings := expected.length, adjudicated_findings := r.adjudicated
           unresolved_blocking_findings := r.blocking, non_blocking_findings := r.non_blocking
           clean := errors.isEmpty && decide (r.blocking = 0) }

end Memline.wiki
