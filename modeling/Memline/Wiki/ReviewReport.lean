/-
Judging the reviewer's report: single-pass, merged, and behind the publication gate.

A validator runs through a report that a model has written and collects what is wrong
with it. Nothing about the shape of the report is taken for granted: where the code
looks into a value of the wrong kind it raises, and so do these definitions.
-/
import Memline.Wiki.Adjudication

set_option autoImplicit false

namespace Memline.wiki

open Py

def CLAIM_VERDICTS : List String :=
  ["supported", "partially_supported", "contradicted", "unverifiable", "superseded_misused"]

def SCOPE_VERDICTS : List String := ["in_scope", "minor_drift", "major_drift", "unverifiable"]

def OVERALL_VERDICTS : List String := ["pass", "revise", "reject"]

def CONFIDENCE : List String := ["high", "medium", "low"]

def SEVERITIES : List String := ["info", "warning", "error", "critical"]

/-- Strictest wins when passes disagree. -/
def VERDICT_RANK : List (String × ℕ) :=
  [("supported", 0), ("unverifiable", 1), ("partially_supported", 2), ("superseded_misused", 3),
    ("contradicted", 4)]

def OVERALL_RANK : List (String × ℕ) := [("pass", 0), ("revise", 1), ("reject", 2)]

/-- `ranks.get(value, 0)`. -/
def rank (ranks : List (String × ℕ)) (value : Json) : Result ℕ :=
  match value with
  | .str s => .ok ((ranks.lookup s).getD 0)
  | value => if value.hashable then .ok 0 else .error .type_error

variable (rt : Runtime)

/-! ## Reading the bundle -/

/-- The claim packets by their id. -/
def packets_by_id (review_bundle : Dict) : Result (Map Json) := do
  let packets ← entries (Dict.get review_bundle "claim_packets")
  packets.foldlM (fun expected packet => do
    let claim_id ← packet.item "claim_id"
    expected.set claim_id packet) []

/-- `{c["resolved_ref"] for c in packet["citations"] if c["resolved_ref"]}`, added to a set. -/
def resolved_refs (packet : Json) (refs : List Json := []) : Result (List Json) := do
  let citations ← packet.item "citations"
  let citations ← citations.iter
  citations.foldlM (fun refs c => do
    let ref ← c.item "resolved_ref"
    if ref.truthy then Json.add refs ref else pure refs) refs

/-- The refs of the uncited evidence and of every packet. -/
def known_evidence (review_bundle : Dict) : Result (List Json) := do
  let uncited ← entries (Dict.get review_bundle "uncited_evidence")
  let refs ← uncited.foldlM (fun refs item => do
    let ref ← item.item "ref"
    Json.add refs ref) []
  let packets ← entries (Dict.get review_bundle "claim_packets")
  packets.foldlM (fun refs packet => resolved_refs packet refs) refs

/-- `bool((review_bundle.get("deterministic_report") or {}).get("clean"))`. -/
def deterministic_status (review_bundle : Dict) : Result Bool := do
  let clean ← ((Dict.get review_bundle "deterministic_report").or_else (.obj [])).get "clean"
  pure clean.truthy

/-- `any(ref not in known for ref in refs)`. -/
def any_outside (known : List Json) : List Json → Result Bool
  | [] => pure false
  | ref :: refs => do
    let found ← ref.in_set known
    if found then any_outside known refs else pure true

/-- Evidence refs that are no list, or not all known. -/
def unknown_evidence (refs : Json) (known : List Json) : Result Bool :=
  match refs with
  | .list refs => any_outside known refs
  | _ => pure true

/-! ## Omissions -/

/-- One quote has to be in the article. -/
def check_quote (article : Json) (index : ℕ) (quote : String) : Check Error Json Unit := do
  let found ← Check.lift (article.contains_str quote)
  Check.complain_if (!found) (finding "article_quote_not_in_article"
    [("index", .int index), ("detail", .str (String.ofList (quote.toList.take 80)))])

/-- The strings of a list of nothing else. -/
def all_strings (values : List Json) : Option (List String) :=
  values.mapM fun
    | .str s => some s
    | _ => none

/-- What an omission review quotes. Only one that asserts a leak has to quote. -/
def check_quotes (article : Json) (index : ℕ) (item : Dict) : Check Error Json Unit :=
  let quotes := Dict.get item "article_quotes"
  let asserts_a_leak := (Dict.get item "kind").eq (.str "sensitivity") &&
    (Dict.get item "severity").elem [.str "warning", .str "error", .str "critical"]
  -- whoever asserts a leak has to show it
  if asserts_a_leak && !quotes.truthy then
    Check.complain (finding "sensitivity_finding_without_quotes" [("index", .int index)])
  else
    match quotes with
    | .null => pure ()
    | .list values =>
      match all_strings values with
      | some quotes => quotes.forM (check_quote article index)
      | none => Check.complain (finding "article_quotes_not_strings" [("index", .int index)])
    | _ => Check.complain (finding "article_quotes_not_strings" [("index", .int index)])

def check_omission (known_refs : List Json) (article : Json) (entry : Json × ℕ) :
    Check Error Json Unit :=
  let about : Dict := [("index", .int entry.2)]
  match entry.1 with
  | .obj item => do
    let graded ← Check.lift ((Dict.get item "severity").in_strings SEVERITIES)
    Check.complain_if (!graded) (finding "omission_review_bad_severity" about)
    Check.complain_if (blank (Dict.get item "finding"))
      (finding "omission_review_finding_missing" about)
    let unknown ← Check.lift
      (unknown_evidence ((Dict.get item "evidence_refs").or_else (.list [])) known_refs)
    Check.complain_if unknown (finding "omission_review_unknown_evidence" about)
    check_quotes article entry.2 item
  | _ => Check.complain (finding "omission_review_not_object" about)

/-- `_validate_omission_reviews`: the records shared by single-pass and merged reports. -/
def validate_omission_reviews (report review_bundle : Dict) : Check Error Json (List Dict) := do
  let known_refs ← Check.lift (known_evidence review_bundle)
  let article := (Dict.get review_bundle "article_markdown").or_else (.str "")
  match Dict.get report "omission_reviews" with
  | .list omissions => do
    omissions.zipIdx.forM (check_omission known_refs article)
    pure (dicts omissions)
  | _ => do
    Check.complain (finding "omission_reviews_missing")
    pure []

/-! ## What both validators begin with -/

/-- The hash of the bundle, and the hashes of the report against it. -/
def check_hashes (report review_bundle : Dict) : Check Error Json Unit := do
  let expected_hash := content_hash rt review_bundle "review_bundle_sha256"
  Check.complain_if (!(Dict.get review_bundle "review_bundle_sha256").eq (.str expected_hash))
    (finding "review_bundle_hash_invalid")
  check_hash "review_hash_mismatch" "article_sha256" (Dict.get report "article_sha256")
    (Dict.get review_bundle "article_sha256")
  check_hash "review_hash_mismatch" "review_bundle_sha256" (Dict.get report "review_bundle_sha256")
    (Dict.get review_bundle "review_bundle_sha256")

/-- A claim review once and about a packet; then `check` looks into it. -/
def check_claim_review (expected : Map Json) (check : Json → Json → Dict → Check Error Json Unit)
    (seen : List Json) (item : Json) : Check Error Json (List Json) :=
  match item with
  | .obj item => do
    let claim_id := Dict.get item "claim_id"
    let again ← Check.lift (claim_id.in_set seen)
    Check.complain_if again (finding "claim_review_duplicate" [("claim_id", claim_id)])
    let seen := claim_id :: seen
    match expected.find claim_id with
    | none => do
      Check.complain (finding "claim_review_unknown" [("claim_id", claim_id)])
      pure seen
    | some packet => do
      check claim_id packet item
      pure seen
  | _ => do
    Check.complain (finding "claim_review_not_object")
    pure seen

/-- Every expected claim has been reviewed. -/
def check_complete (expected : Map Json) (seen : List Json) : Check Error Json Unit := do
  let missing ← Check.lift
    (Json.sorted_on id (expected.keys.filter fun claim_id => !claim_id.elem seen))
  Check.complain_if (!missing.isEmpty)
    (finding "claim_reviews_incomplete"
      [("claim_ids", .list missing), ("count", .int missing.length)])

/-- `dict(sorted(Counter(values).items()))`, where what is no string counts as invalid. -/
def counted (values : List Json) : Dict :=
  let names := values.map fun
    | .str s => s
    | _ => "<invalid>"
  (names.dedup.insertionSort (· ≤ ·)).map fun name => (name, .int (names.count name))

structure Validation where
  findings : List Json
  report_valid : Bool
  deterministic_clean : Bool
  semantic_clean : Bool
  omission_clean : Bool
  scope_clean : Bool
  /-- Of a single-pass report only. -/
  ready_for_agent_review : Option Bool
  claims_expected : ℕ
  claims_reviewed : ℕ
  claim_verdict_counts : Dict
  omission_severity_counts : Dict
  clean : Bool
  deriving DecidableEq

/-- The dictionary that is stored with a report. -/
def Validation.toDict (v : Validation) : Dict :=
  [("findings", .list v.findings), ("report_valid", .bool v.report_valid),
    ("deterministic_clean", .bool v.deterministic_clean),
    ("semantic_clean", .bool v.semantic_clean), ("omission_clean", .bool v.omission_clean),
    ("scope_clean", .bool v.scope_clean)] ++
  (v.ready_for_agent_review.toList.map fun b => ("ready_for_agent_review", .bool b)) ++
  [("claims_expected", .int v.claims_expected), ("claims_reviewed", .int v.claims_reviewed),
    ("claim_verdict_counts", .obj v.claim_verdict_counts),
    ("omission_severity_counts", .obj v.omission_severity_counts), ("clean", .bool v.clean),
    ("agent_review_required", .bool true)]

/-- What the checks hand to the summary: the claims expected and seen, their reviews,
and the omissions. -/
structure Reviewed where
  expected : Map Json
  reviews : List Json
  seen : List Json
  omissions : List Dict

/-- The summary both validators end with. -/
def summarize (report : Dict) (r : Reviewed) (findings : List Json) (deterministic scope : Bool)
    (single : Bool) : Validation :=
  let verdicts := (dicts r.reviews).map fun item => Dict.get item "verdict"
  let semantic := decide (verdicts.length = r.expected.length) &&
    verdicts.all fun v => v.eq (.str "supported")
  let omission := r.omissions.all fun item => (Dict.get item "severity").eq (.str "info")
  let report_valid := findings.isEmpty
  { findings, report_valid, deterministic_clean := deterministic, semantic_clean := semantic
    omission_clean := omission, scope_clean := scope
    ready_for_agent_review := if single then some report_valid else none
    claims_expected := r.expected.length
    claims_reviewed := (r.expected.keys.filter fun claim_id => claim_id.elem r.seen).length
    claim_verdict_counts := counted verdicts
    omission_severity_counts := counted (r.omissions.map fun item => Dict.get item "severity")
    clean := report_valid && deterministic && semantic && omission && scope &&
      (Dict.get report "overall_verdict").eq (.str "pass") }

/-! ## A single pass -/

/-- What one claim review says about its packet. -/
def check_claim (claim_id packet : Json) (item : Dict) : Check Error Json Unit := do
  let about : Dict := [("claim_id", claim_id)]
  let ruled ← Check.lift ((Dict.get item "verdict").in_strings CLAIM_VERDICTS)
  Check.complain_if (!ruled) (finding "claim_review_bad_verdict" about)
  let sure ← Check.lift ((Dict.get item "confidence").in_strings CONFIDENCE)
  Check.complain_if (!sure) (finding "claim_review_bad_confidence" about)
  Check.complain_if (blank (Dict.get item "reason")) (finding "claim_review_reason_missing" about)
  Check.complain_if (!(Dict.get item "suggested_rewrite").is_str)
    (finding "claim_review_rewrite_invalid" about)
  let allowed ← Check.lift (resolved_refs packet)
  let used := (Dict.get item "evidence_refs").or_else (.list [])
  let outside ← Check.lift (unknown_evidence used allowed)
  if outside then Check.complain (finding "claim_review_evidence_outside_packet" about)
  else
    Check.complain_if ((Dict.get item "verdict").eq (.str "supported") && !used.truthy)
      (finding "supported_claim_without_evidence" about)

/-- The scope review is a dictionary with a known verdict. -/
def check_scope (scope : Json) : Check Error Json Unit :=
  match scope with
  | .obj scope => do
    let known ← Check.lift ((Dict.get scope "verdict").in_strings SCOPE_VERDICTS)
    Check.complain_if (!known) (finding "scope_review_invalid")
  | _ => Check.complain (finding "scope_review_invalid")

def check_overall (report : Dict) : Check Error Json Unit := do
  let known ← Check.lift ((Dict.get report "overall_verdict").in_strings OVERALL_VERDICTS)
  Check.complain_if (!known) (finding "overall_verdict_invalid")

def check_review_report (report review_bundle : Dict) : Check Error Json Reviewed := do
  check_hashes rt report review_bundle
  Check.complain_if (blank (Dict.get report "summary")) (finding "review_summary_missing")
  let expected ← Check.lift (packets_by_id review_bundle)
  let reviews ← list_or_complain (Dict.get report "claim_reviews") "claim_reviews_missing"
  let seen ← reviews.foldlM (check_claim_review expected check_claim) []
  check_complete expected seen
  check_scope (Dict.get report "scope_review")
  check_overall report
  let omissions ← validate_omission_reviews report review_bundle
  pure { expected, reviews, seen, omissions }

/-- Validate reviewer coverage, hashes, enum values and evidence joins. -/
def validate_review_report (report review_bundle : Dict) : Result Validation := do
  let (r, findings) ← check_review_report rt report review_bundle
  let deterministic ← deterministic_status review_bundle
  let scope := match Dict.get report "scope_review" with
    | .obj scope => in_scope scope
    | _ => false
  pure (summarize report r findings deterministic scope true)

/-! ## Several passes, merged -/

/-- What the loop over the findings of a merged claim has seen. -/
structure PassFindings where
  passes : List ℤ
  verdicts : List String

/-- A finding comes from one of the passes, and is the only one from there. -/
def note_pass (passes : ℤ) (claim_id : Json) (s : PassFindings) (finding_pass : Json) :
    Check Error Json PassFindings :=
  let about : Dict := [("claim_id", claim_id)]
  match finding_pass with
  | .int n =>
    if n < 1 ∨ passes < n then do
      Check.complain (finding "merged_claim_finding_bad_pass" about)
      pure s
    else if n ∈ s.passes then do
      Check.complain (finding "merged_claim_finding_duplicate_pass" (about ++ [("pass", .int n)]))
      pure s
    else pure { s with passes := n :: s.passes }
  | _ => do
    Check.complain (finding "merged_claim_finding_bad_pass" about)
    pure s

/-- It has a verdict, and not "supported". -/
def note_verdict (claim_id : Json) (s : PassFindings) (finding_verdict : Json) :
    Check Error Json PassFindings := do
  let ruled ← Check.lift (finding_verdict.in_strings CLAIM_VERDICTS)
  match finding_verdict with
  | .str verdict =>
    if ruled = false ∨ verdict = "supported" then do
      Check.complain (finding "merged_claim_finding_bad_verdict" [("claim_id", claim_id)])
      pure s
    else pure { s with verdicts := s.verdicts ++ [verdict] }
  | _ => do
    Check.complain (finding "merged_claim_finding_bad_verdict" [("claim_id", claim_id)])
    pure s

/-- One finding of a merged claim. -/
def check_merged_finding (passes : ℤ) (claim_id : Json) (allowed : List Json) (s : PassFindings)
    (merged_finding : Json) : Check Error Json PassFindings :=
  let about : Dict := [("claim_id", claim_id)]
  match merged_finding with
  | .obj item => do
    let s ← note_pass passes claim_id s (Dict.get item "pass")
    let s ← note_verdict claim_id s (Dict.get item "verdict")
    let sure ← Check.lift ((Dict.get item "confidence").in_strings CONFIDENCE)
    Check.complain_if (!sure) (finding "claim_review_bad_confidence" about)
    Check.complain_if (blank (Dict.get item "reason")) (finding "claim_review_reason_missing" about)
    Check.complain_if (!(Dict.get item "suggested_rewrite").is_str)
      (finding "claim_review_rewrite_invalid" about)
    let outside ← Check.lift
      (unknown_evidence ((Dict.get item "evidence_refs").or_else (.list [])) allowed)
    Check.complain_if outside (finding "claim_review_evidence_outside_packet" about)
    pure s
  | _ => do
    Check.complain (finding "merged_claim_finding_not_object" about)
    pure s

/-- `max(verdicts, key=_VERDICT_RANK)`: the first of the strictest. -/
def strictest : List String → String
  | [] => "supported"
  | v :: vs => vs.foldl (fun best v =>
      if (VERDICT_RANK.lookup best).getD 0 < (VERDICT_RANK.lookup v).getD 0 then v else best) v

def check_merged_claim (passes : ℤ) (claim_id packet : Json) (item : Dict) :
    Check Error Json Unit := do
  let about : Dict := [("claim_id", claim_id)]
  let ruled ← Check.lift ((Dict.get item "verdict").in_strings CLAIM_VERDICTS)
  Check.complain_if (!ruled) (finding "claim_review_bad_verdict" about)
  let flagged_in : Option ℤ := match Dict.get item "flagged_in" with
    | .int n => some n
    | _ => none
  Check.complain_if (!(flagged_in.any fun n => decide (0 ≤ n ∧ n ≤ passes)))
    (finding "merged_claim_bad_flagged_in" about)
  Check.complain_if (!(Dict.get item "of_passes").eq (.int passes))
    (finding "merged_claim_bad_pass_total" about)
  let merged_findings ← list_or_complain (Dict.get item "findings") "merged_claim_findings_missing"
    about
  let allowed ← Check.lift (resolved_refs packet)
  let s ← merged_findings.foldlM (check_merged_finding passes claim_id allowed) ⟨[], []⟩
  Check.complain_if (flagged_in.any fun n => decide (n ≠ (merged_findings.length : ℤ)))
    (finding "merged_claim_flag_count_mismatch" about)
  Check.complain_if (!(Dict.get item "verdict").eq (.str (strictest s.verdicts)))
    (finding "merged_claim_verdict_mismatch" about)

/-- `isinstance(n, int) and n > 0`; a boolean is an integer. -/
def positive : Json → Bool
  | .int n => decide (0 < n)
  | .bool b => b
  | _ => false

/-- The three counters of flagged claims. -/
def check_flag_counts (report : Dict) (passes : ℤ) (reviews : List Json) :
    Check Error Json Unit := do
  let flagged := ((dicts reviews).map fun item => Dict.get item "flagged_in").filter positive
  Check.complain_if (!(Dict.get report "flagged_claims").eq (.int flagged.length))
    (finding "merged_flagged_claim_count_mismatch")
  let unanimous := (flagged.filter fun n => n.eq (.int passes)).length
  Check.complain_if (!(Dict.get report "unanimous_claims").eq (.int unanimous))
    (finding "merged_unanimous_claim_count_mismatch")
  let single := (flagged.filter fun n => n.eq (.int 1)).length
  Check.complain_if (!(Dict.get report "single_pass_claims").eq (.int single))
    (finding "merged_single_pass_claim_count_mismatch")

/-- `list(range(1, passes + 1))`. -/
def pass_numbers (passes : ℤ) : List Json := (List.range passes.toNat).map fun n : ℕ => .int (n + 1)

/-- The validations of all passes, in their order, or none. -/
def per_pass_of (aggregate : Dict) (passes : ℤ) : Check Error Json (List Json) :=
  match Dict.get aggregate "per_pass" with
  | .list items =>
    if (items.length : ℤ) ≠ passes then do
      Check.complain (finding "merged_per_pass_validation_incomplete")
      pure []
    else do
      let numbers := (dicts items).map fun item => Dict.get item "pass"
      Check.complain_if (!Json.eqList numbers (pass_numbers passes))
        (finding "merged_per_pass_numbers_invalid")
      pure items
  | _ => do
    Check.complain (finding "merged_per_pass_validation_incomplete")
    pure []

/-- The validations of the single passes, as the merged report keeps them. -/
def check_per_pass (aggregate : Dict) (passes : ℤ) : Check Error Json Unit := do
  let per_pass ← per_pass_of aggregate passes
  let invalid_passes := ((dicts per_pass).filter fun item =>
    !(Dict.get item "report_valid").is_bool true).map fun item => Dict.get item "pass"
  Check.complain_if (!(Dict.get aggregate "invalid_passes").eq (.list invalid_passes))
    (finding "merged_invalid_passes_mismatch")
  -- a report of no pass is not valid
  let aggregate_valid := !per_pass.isEmpty && invalid_passes.isEmpty
  Check.complain_if (!(Dict.get aggregate "report_valid").is_bool aggregate_valid)
    (finding "merged_report_valid_mismatch")
  Check.complain_if (!aggregate_valid)
    (finding "merged_review_contains_invalid_passes" [("passes", .list invalid_passes)])

/-- One scope review of a merged report. -/
def check_merged_scope (entry : Json × ℕ) : Check Error Json Unit :=
  let complaint := finding "merged_scope_review_invalid" [("pass", .int entry.2)]
  match entry.1 with
  | .obj item =>
    if !(Dict.get item "pass").eq (.int entry.2) then Check.complain complaint
    else do
      let known ← Check.lift ((Dict.get item "verdict").in_strings SCOPE_VERDICTS)
      Check.complain_if (!known || blank (Dict.get item "reason")) complaint
  | _ => Check.complain complaint

/-- New reports retain the scope review of each pass; older ones have none. -/
def check_merged_scopes (scope_reviews : Json) (passes : ℤ) : Check Error Json Unit :=
  match scope_reviews with
  | .null => pure ()
  | .list items =>
    if (items.length : ℤ) ≠ passes then Check.complain (finding "merged_scope_reviews_incomplete")
    else (items.zipIdx 1).forM check_merged_scope
  | _ => Check.complain (finding "merged_scope_reviews_incomplete")

def check_provenance (provenance : Json) (passes : ℤ) : Check Error Json Unit :=
  Check.complain_if
    (match provenance with
      | .list items => decide ((items.length : ℤ) ≠ passes)
      | _ => true)
    (finding "merged_review_provenance_incomplete")

/-- A count of at least one pass. -/
def check_passes (passes : Json) : Check Error Json ℤ :=
  match passes with
  | .int n =>
    if 1 ≤ n then pure n
    else do
      Check.complain (finding "merged_review_bad_pass_count")
      pure 0
  | _ => do
    Check.complain (finding "merged_review_bad_pass_count")
    pure 0

/-- The aggregated validation of a merged report, or an empty one. -/
def aggregate_of (report : Dict) : Check Error Json Dict :=
  match Dict.get report "validation" with
  | .obj aggregate => pure aggregate
  | _ => do
    Check.complain (finding "merged_validation_missing")
    pure []

def check_merged_report (report review_bundle : Dict) : Check Error Json (Reviewed × Dict) := do
  check_hashes rt report review_bundle
  let passes ← check_passes (Dict.get report "passes")
  let expected ← Check.lift (packets_by_id review_bundle)
  let reviews ← list_or_complain (Dict.get report "claim_reviews") "claim_reviews_missing"
  let seen ← reviews.foldlM (check_claim_review expected (check_merged_claim passes)) []
  check_complete expected seen
  check_flag_counts report passes reviews
  let omissions ← validate_omission_reviews report review_bundle
  let aggregate ← aggregate_of report
  check_per_pass aggregate passes
  Check.complain_if (!(Dict.get aggregate "claims_expected").eq (.int expected.length))
    (finding "merged_claims_expected_mismatch")
  let deterministic ← Check.lift (deterministic_status review_bundle)
  Check.complain_if (!(Dict.get aggregate "deterministic_clean").is_bool deterministic)
    (finding "merged_deterministic_status_mismatch")
  check_overall report
  check_provenance (Dict.get report "review_provenance") passes
  check_merged_scopes (Dict.get report "scope_reviews") passes
  pure ({ expected, reviews, seen, omissions }, aggregate)

/-- Validate the locally merged shape emitted by `merge_reviews`. -/
def validate_merged_review_report (report review_bundle : Dict) : Result Validation := do
  let ((r, aggregate), findings) ← check_merged_report rt report review_bundle
  let deterministic ← deterministic_status review_bundle
  let scope := (Dict.get aggregate "scope_clean").is_bool true
  pure (summarize report r findings deterministic scope false)

/-! ## The publication gate -/

/-- The validator of the report's own shape: a merged one counts its passes. -/
def validate_report (report review_bundle : Dict) : Result Validation :=
  if Dict.contains report "passes" then validate_merged_review_report rt report review_bundle
  else validate_review_report rt report review_bundle

structure ArtifactValidation where
  /-- What the validator of the report says, its own `clean` included. -/
  review : Validation
  reviewer_findings : ℕ
  valid_review_passes : Json
  adjudication : AdjudicationValidation
  clean : Bool

/-- Validate a review and apply the agent-owned materiality gate. -/
def validate_review_artifact (report review_bundle : Dict) (adjudication : Option Dict := none) :
    Result ArtifactValidation := do
  let merged := Dict.contains report "passes"
  let validation ← validate_report rt report review_bundle
  let adjudication_validation ← validate_adjudication rt adjudication report
  let valid_passes := if merged then (Dict.get report "passes").or_else (.int 0) else .int 1
  -- the passes of a report that is not valid do not count
  let valid_passes := if validation.report_valid then valid_passes else .int 0
  let found ← collect_review_findings rt report
  let too_few ← valid_passes.lt (.int 1)
  pure { review := validation, reviewer_findings := found.length
         valid_review_passes := valid_passes
         adjudication := adjudication_validation
         clean := validation.report_valid && validation.deterministic_clean && !too_few &&
           adjudication_validation.clean }

end Memline.wiki
