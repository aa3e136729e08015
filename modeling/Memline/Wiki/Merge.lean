/-
Folding several review passes, and a report they have been folded into before, into one.

The passes are numbered on from those of the prior report. Every field of the result
takes up the prior's: the claims one by one, the lists by appending.
-/
import Memline.Wiki.ReviewReport

set_option autoImplicit false

namespace Memline.wiki

open Py

variable (rt : Runtime)

/-! ## What the merge takes from the language -/

/-- `int(x)`. -/
def int_of (x : Json) : Result ℤ :=
  match x with
  | .bool b => .ok (if b then 1 else 0)
  | .int n => .ok n
  -- towards zero
  | .float (.finite q) => .ok (q.num.tdiv q.den)
  | .float .neg_zero => .ok 0
  | .float .nan => .error .value_error
  | .float _ => .error .overflow_error
  | .str s =>
    match rt.parse_int s with
    | some n => .ok n
    | none => .error .value_error
  | _ => .error .type_error

/-- `x + 1`. -/
def plus_one (x : Json) : Result Json :=
  match x with
  | .bool b => .ok (.int (if b then 2 else 1))
  | .int n => .ok (.int (n + 1))
  | .float x => .ok (.float (rt.float_succ x))
  | _ => .error .type_error

/-- `all(v.get(key) for v in values)`. -/
def all_of (key : String) : List Json → Result Bool
  | [] => pure true
  | v :: vs => do
    let x ← v.get key
    if x.truthy then all_of key vs else pure false

/-- `enumerate(reports, start=start)`. -/
def enumerate {α : Type} (start : ℤ) : List α → List (ℤ × α)
  | [] => []
  | x :: xs => (start, x) :: enumerate (start + 1) xs

/-- `max(values, key=rank)`: the first of the highest. -/
def max_by (ranks : List (String × ℕ)) : List Json → Result Json
  | [] => pure .null
  | v :: vs => do
    let r ← rank ranks v
    let best ← vs.foldlM (fun (best : Json × ℕ) v => do
      let r ← rank ranks v
      pure (if best.2 < r then (v, r) else best)) (v, r)
    pure best.1

/-- `max(values, default=0)`. -/
def max_of : List Json → Result Json
  | [] => pure (.int 0)
  | v :: vs => vs.foldlM (fun best v => do
      let less ← best.lt v
      pure (if less then v else best)) v

/-! ## Claims -/

/-- A claim of the prior report. -/
def keep_claim (claims : Map Dict) (item : Json) : Result (Map Dict) :=
  match item with
  | .obj fields => do
    let findings ← entries (Dict.get fields "findings")
    let claim_id ← item.item "claim_id"
    claims.set claim_id (Dict.set fields "findings" (.list findings))
  | _ => .error .type_error

/-- The claims of the prior report, counted out of all passes. -/
def prior_claims (prior : Dict) (total : ℤ) : Result (Map Dict) := do
  let items ← entries (Dict.get prior "claim_reviews")
  let claims ← items.foldlM keep_claim []
  pure (claims.map fun e => (e.1, Dict.set e.2 "of_passes" (.int total)))

def new_claim (total : ℤ) (claim_id : Json) : Dict :=
  [("claim_id", claim_id), ("verdict", .str "supported"), ("flagged_in", .int 0),
    ("of_passes", .int total), ("findings", .list [])]

/-- What one pass has to say against a claim. -/
def pass_finding (index : ℤ) (item : Dict) : Dict :=
  [("pass", .int (index + 1)), ("verdict", Dict.get item "verdict"),
    ("confidence", Dict.get item "confidence"), ("reason", Dict.get item "reason"),
    ("suggested_rewrite", Dict.get item "suggested_rewrite"),
    ("evidence_refs", Dict.get item "evidence_refs")]

/-- The stricter of the verdicts is kept. -/
def raise_verdict (entry item : Dict) : Result Dict := do
  let verdict := Dict.get item "verdict"
  let new ← rank VERDICT_RANK verdict
  let held ← (Json.obj entry).item "verdict"
  let old ← rank VERDICT_RANK held
  pure (if old < new then Dict.set entry "verdict" verdict else entry)

/-- What is not "supported" is kept as a finding. -/
def add_finding (index : ℤ) (entry item : Dict) : Result Dict :=
  if (Dict.get item "verdict").eq (.str "supported") then pure entry
  else do
    let flagged_in ← (Json.obj entry).item "flagged_in"
    let flagged_in ← plus_one rt flagged_in
    let entry := Dict.set entry "flagged_in" flagged_in
    match Dict.get entry "findings" with
    | .list findings =>
      pure (Dict.set entry "findings" (.list (findings ++ [.obj (pass_finding index item)])))
    | _ => .error .attribute_error

/-- A claim takes up the review of one pass. -/
def take_up (index : ℤ) (entry item : Dict) : Result Dict := do
  let entry ← raise_verdict entry item
  add_finding rt index entry item

/-- One claim review of pass `index`, counted from zero. -/
def merge_claim (total index : ℤ) (claims : Map Dict) (item : Json) : Result (Map Dict) :=
  match item with
  | .obj item =>
    let claim_id := Dict.get item "claim_id"
    -- an entry without an id is dropped
    if claim_id.truthy = false then pure claims
    else if claim_id.hashable = false then .error .type_error
    else do
      let entry ← take_up rt index ((claims.find claim_id).getD (new_claim total claim_id)) item
      pure (claims.put claim_id entry)
  | _ => pure claims

/-- The claim reviews of one pass. -/
def merge_pass (total : ℤ) (claims : Map Dict) (pass : ℤ × Dict) : Result (Map Dict) := do
  let items ← entries (Dict.get pass.2 "claim_reviews")
  items.foldlM (merge_claim rt total pass.1) claims

/-! ## The other reviews -/

/-- `{**item, "pass": index + 1}`. -/
def in_pass (index : ℤ) (item : Dict) : Dict := Dict.set item "pass" (.int (index + 1))

/-- The omission reviews of one pass. -/
def pass_omissions (pass : ℤ × Dict) : Result (List Json) := do
  let items ← entries (Dict.get pass.2 "omission_reviews")
  pure ((dicts items).map fun item => .obj (in_pass pass.1 item))

/-- What stands in for the scope reviews an older report has not kept. -/
def legacy_scopes (offset : ℤ) (clean : Bool) : List Json :=
  (pass_numbers offset).map fun n =>
    .obj [("pass", n), ("verdict", .str (if clean then "in_scope" else "unverifiable")),
      ("reason", .str "Scope detail was not retained by this legacy review pass.")]

/-- The scope reviews of the prior report. -/
def prior_scopes (prior : Dict) (offset : ℤ) : Result (List Json) := do
  let kept ← entries (Dict.get prior "scope_reviews")
  if prior ≠ [] ∧ kept.isEmpty ∧ offset ≠ 0 then do
    let scope_clean ← ((Dict.get prior "validation").or_else (.obj [])).get "scope_clean"
    pure (legacy_scopes offset (scope_clean.is_bool true))
  else pure kept

/-- The scope review of one pass, if it is one. -/
def pass_scope (pass : ℤ × Dict) : Option Json :=
  match Dict.get pass.2 "scope_review" with
  | .obj scope => some (.obj (in_pass pass.1 scope))
  | _ => none

/-! ## The validation -/

/-- `p["pass"]` of the passes that are not valid. -/
def invalid_prior : List Json → Result (List Json)
  | [] => pure []
  | p :: ps => do
    let valid ← p.get "report_valid"
    if valid.truthy then invalid_prior ps
    else do
      let number ← p.item "pass"
      let rest ← invalid_prior ps
      pure (number :: rest)

/-- The numbers of the new passes that are not valid. -/
def invalid_new : List (ℤ × Json) → Result (List Json)
  | [] => pure []
  | (index, v) :: vs => do
    let valid ← v.get "report_valid"
    let rest ← invalid_new vs
    pure (if valid.truthy then rest else .int (index + 1) :: rest)

/-- What the merged report keeps of the validation of one pass. -/
def kept_validation (pass : ℤ × Json) : Result Json := do
  let valid ← pass.2.get "report_valid"
  let findings ← pass.2.get "findings"
  let counts ← pass.2.get "claim_verdict_counts"
  pure (.obj [("pass", .int (pass.1 + 1)), ("report_valid", valid),
    ("findings", findings.or_else (.list [])), ("claim_verdict_counts", counts)])

/-- How many claims one validation expected. -/
def expected_claims (v : Json) : Result Json := do
  let expected ← v.get "claims_expected"
  pure (expected.or_else (.int 0))

/-- The validation of the merged report, of those of its passes. -/
def merge_validations (offset : ℤ) (validations prior_passes : List Json) : Result Dict := do
  let new_valid ← all_of "report_valid" validations
  -- the prior passes are looked at only if the new ones are all valid
  let report_valid ← if new_valid then all_of "report_valid" prior_passes else pure false
  let invalid ← invalid_prior prior_passes
  let invalid' ← invalid_new (enumerate offset validations)
  let deterministic_clean ← all_of "deterministic_clean" validations
  let scope_clean ← all_of "scope_clean" validations
  let expected ← validations.mapM expected_claims
  let claims_expected ← max_of expected
  let per_pass ← (enumerate offset validations).mapM kept_validation
  pure [("report_valid", .bool report_valid), ("invalid_passes", .list (invalid ++ invalid')),
    ("deterministic_clean", .bool deterministic_clean), ("scope_clean", .bool scope_clean),
    ("claims_expected", claims_expected), ("per_pass", .list (prior_passes ++ per_pass)),
    ("agent_review_required", .bool true)]

/-! ## The merged report -/

/-- `next((r.get(field) for r in reports if r.get(field)), prior.get(field))`. -/
def first_of (field : String) (reports : List Dict) (prior : Dict) : Json :=
  ((reports.map fun r => Dict.get r field).find? Json.truthy).getD (Dict.get prior field)

/-- The three counters of flagged claims. -/
structure Flags where
  flagged : ℕ
  unanimous : ℕ
  single : ℕ

def count_flags (claims : List Dict) (total : ℤ) : Result Flags := do
  let counts ← claims.mapM fun c => (Json.obj c).item "flagged_in"
  let flagged := counts.filter Json.truthy
  pure { flagged := flagged.length, unanimous := (flagged.filter fun n => n.eq (.int total)).length
         single := (flagged.filter fun n => n.eq (.int 1)).length }

/-- Fold explicitly requested passes into a union. -/
def merge_reviews (reports : List Dict) (prior : Option Dict := none) : Result Dict :=
  if reports = [] then .error .value_error
  else do
    let prior := prior.getD []
    let offset ← int_of rt ((Dict.get prior "passes").or_else (.int 0))
    let total := offset + reports.length
    -- the new passes are numbered on from those of the prior report
    let numbered := enumerate offset reports
    let claims ← prior_claims prior total
    let claims ← numbered.foldlM (merge_pass rt total) claims
    let claims := claims.map Prod.snd
    let omissions ← entries (Dict.get prior "omission_reviews")
    let omissions' ← numbered.mapM pass_omissions
    let scopes ← prior_scopes prior offset
    let overall ← max_by OVERALL_RANK ((reports.map fun r => Dict.get r "overall_verdict") ++
      if prior = [] then [] else [Dict.get prior "overall_verdict"])
    let validations := reports.map fun r => (Dict.get r "validation").or_else (.obj [])
    let prior_passes ← ((Dict.get prior "validation").or_else (.obj [])).get "per_pass"
    let prior_passes ← entries prior_passes
    let flags ← count_flags claims total
    let sorted ← Json.sorted_on (fun c => Dict.get c "claim_id") claims
    let validation ← merge_validations offset validations prior_passes
    let provenance ← entries (Dict.get prior "review_provenance")
    pure [("passes", .int total),
      ("article_sha256", first_of "article_sha256" reports prior),
      ("review_bundle_sha256", first_of "review_bundle_sha256" reports prior),
      ("overall_verdict", overall), ("claim_reviews", .list (sorted.map .obj)),
      ("omission_reviews", .list (omissions ++ omissions'.flatten)),
      ("scope_reviews", .list (scopes ++ numbered.filterMap pass_scope)),
      ("flagged_claims", .int flags.flagged), ("unanimous_claims", .int flags.unanimous),
      ("single_pass_claims", .int flags.single), ("validation", .obj validation),
      ("review_provenance",
        .list (provenance ++ reports.map fun r => Dict.get r "review_provenance"))]

end Memline.wiki
