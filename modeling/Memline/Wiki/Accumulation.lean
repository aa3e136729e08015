/-
Reviews that accumulate: merging further passes into a prior report, against merging all
of them at once.

Every field of the prior is taken up but one. The aggregated status of the scope is that
of the new passes alone, so a pass outside the scope is forgotten by the next clean one.
-/
import Memline.Wiki.Merged

set_option autoImplicit false

namespace Memline.wiki

open Py Check

variable {rt : Runtime}

/-- A pass has found the article within its scope. -/
def scope_clean (report : Dict) : Bool :=
  match Dict.get report "scope_review" with
  | .obj scope => in_scope scope
  | _ => false

/-- Valid passes can be read one by one. -/
theorem About.reads_all {review_bundle : Dict} {s : Subject} (ha : About rt review_bundle s)
    (hcompiled : Compiled review_bundle) {rs : List Dict}
    (h : ∀ r ∈ rs, ValidPass rt review_bundle r) :
    ∃ ps, List.Forall₂ (Reads rt review_bundle s) rs ps := by
  induction rs with
  | nil => exact ⟨[], .nil⟩
  | cons r rs ih =>
    obtain ⟨hr, hrs⟩ := List.forall_mem_cons.mp h
    obtain ⟨p, hp⟩ := ha.reads hcompiled hr
    obtain ⟨ps, hps⟩ := ih hrs
    exact ⟨p :: ps, .cons hp hps⟩

/-- Whether all scopes are clean is read from the passes. -/
theorem all_scope_clean {review_bundle : Dict} {s : Subject} {rs : List Dict} {ps : List Pass}
    (h : List.Forall₂ (Reads rt review_bundle s) rs ps) :
    (ps.all fun p => in_scope p.scope) = rs.all scope_clean := by
  induction h with
  | nil => rfl
  | cons hr _ ih => rw [List.all_cons, List.all_cons, ih, scope_clean, hr.scope]

/-- Only the status of the scope tells one merged report of the same passes from another. -/
theorem merged_inj {s : Subject} {ps : List Pass} {b c : Bool} :
    merged s b ps = merged s c ps ↔ b = c := by
  constructor
  · intro h
    have hvalidation := congrArg (fun d => Dict.get d "validation") h
    have hclean := congrArg (fun d => Dict.get d "scope_clean") (Json.obj.inj hvalidation)
    exact Json.bool.inj hclean
  · rintro rfl
    rfl

/-- **Merging step by step.** Merging into a prior report is merging all passes at once exactly when
the new passes tell whether all have been within the scope. -/
theorem incremental_merge_iff {review_bundle : Dict} (hcompiled : Compiled review_bundle)
    {rs rs' : List Dict} (hne : rs ≠ []) (hne' : rs' ≠ [])
    (hrs : ∀ r ∈ rs, ValidPass rt review_bundle r)
    (hrs' : ∀ r ∈ rs', ValidPass rt review_bundle r) :
    ∃ prior incremental batch, merge_reviews rt rs none = .ok prior ∧
      merge_reviews rt rs' (some prior) = .ok incremental ∧
      merge_reviews rt (rs ++ rs') none = .ok batch ∧
      (incremental = batch ↔
        (∃ r ∈ rs', scope_clean r = false) ∨ ∀ r ∈ rs, scope_clean r = true) := by
  obtain ⟨r, hr⟩ := List.exists_mem_of_ne_nil rs hne
  obtain ⟨s, ha⟩ := hcompiled.about (hrs r hr)
  obtain ⟨ps, hps⟩ := ha.reads_all hcompiled hrs
  obtain ⟨ps', hps'⟩ := ha.reads_all hcompiled hrs'
  have hpsne : ps ≠ [] := by
    rintro rfl
    exact hne (List.forall₂_nil_right_iff.mp hps)
  have hprior : merge_reviews rt rs none =
      .ok (merged s (ps.all fun p => in_scope p.scope) ([] ++ ps)) :=
    merge_reviews_eq ha hps hne (carries_nil s)
  -- the incremental merge and the batch differ in their scope alone
  have hincremental :
      merge_reviews rt rs' (some (merged s (ps.all fun p => in_scope p.scope) ps)) =
        .ok (merged s (ps'.all fun p => in_scope p.scope) (ps ++ ps')) :=
    merge_reviews_eq ha hps' hne' (carries_merged ha _ hps hpsne)
  have hbatch : merge_reviews rt (rs ++ rs') none =
      .ok (merged s ((ps ++ ps').all fun p => in_scope p.scope) ([] ++ (ps ++ ps'))) :=
    merge_reviews_eq ha (List.rel_append hps hps') (by simp [hne]) (carries_nil s)
  rw [List.nil_append] at hprior hbatch
  refine ⟨_, _, _, hprior, hincremental, hbatch, ?_⟩
  rw [merged_inj, List.all_append, all_scope_clean hps, all_scope_clean hps']
  -- an incremental merge takes the scope of its new reviews
  cases hnew : rs'.all scope_clean with
  | false =>
    rw [Bool.and_false, eq_self_iff_true, true_iff]
    rw [List.all_eq_false] at hnew
    obtain ⟨r, hr, hdirty⟩ := hnew
    exact .inl ⟨r, hr, Bool.not_eq_true _ ▸ hdirty⟩
  | true =>
    rw [List.all_eq_true] at hnew
    rw [Bool.and_true, eq_comm, List.all_eq_true]
    constructor
    · exact .inr
    · rintro (⟨r, hr, hdirty⟩ | h)
      · rw [hnew r hr] at hdirty
        cases hdirty
      · exact h

/-- A bundle of one claim, with evidence for it and evidence that is not cited. -/
def drift_bundle : Dict :=
  let packet : Dict := [("claim_id", .str "C1"),
    ("citations", .list [.obj [("resolved_ref", .str "mem:m-1")]])]
  let fields : Dict :=
    [("article_sha256", .str "a"), ("article_markdown", .str "The parser keeps a table."),
      ("claim_packets", .list [.obj packet]),
      ("uncited_evidence", .list [.obj [("ref", .str "mem:m-2")]]),
      ("deterministic_report", .obj [("clean", .bool true)])]
  fields ++ [("review_bundle_sha256", .str (content_hash .plain fields "review_bundle_sha256"))]

/-- What a pass says of the claim. -/
def drift_review (verdict : String) : Dict :=
  [("claim_id", .str "C1"), ("verdict", .str verdict), ("confidence", .str "high"),
    ("reason", .str "as the memory says"), ("suggested_rewrite", .str ""),
    ("evidence_refs", .list [.str "mem:m-1"])]

/-- What a pass misses in the article. -/
def drift_omission : Dict :=
  [("severity", .str "error"), ("kind", .str "fact"), ("finding", .str "the table is rebuilt"),
    ("evidence_refs", .list [.str "mem:m-2"])]

/-- The validation of a pass over it. -/
def drift_validation (verdict : String) (omissions : List Dict)
    (scope_verdict : String) : Validation where
  findings := []
  report_valid := true
  deterministic_clean := true
  semantic_clean := verdict = "supported"
  omission_clean := omissions = []
  scope_clean := scope_verdict = "in_scope"
  ready_for_agent_review := some true
  claims_expected := 1
  claims_reviewed := 1
  claim_verdict_counts := [(verdict, .int 1)]
  omission_severity_counts := if omissions = [] then [] else [("error", .int omissions.length)]
  clean := verdict = "supported" ∧ omissions = [] ∧ scope_verdict = "in_scope"

/-- A pass over it. -/
def drift_pass (verdict : String) (omissions : List Dict) (scope : Dict)
    (scope_verdict : String) : Dict :=
  [("article_sha256", .str "a"),
    ("review_bundle_sha256", Dict.get drift_bundle "review_bundle_sha256"),
    ("summary", .str "one claim"), ("claim_reviews", .list [.obj (drift_review verdict)]),
    ("omission_reviews", .list (omissions.map .obj)),
    ("scope_review", .obj (("verdict", .str scope_verdict) :: scope)),
    ("overall_verdict", .str "revise"),
    ("validation", .obj (drift_validation verdict omissions scope_verdict).toDict)]

theorem drift_compiled : Compiled drift_bundle := by
  refine ⟨⟨"a", by decide, rfl⟩, fun packets hpackets packet hmem id hid => ?_⟩
  cases hpackets
  rw [List.mem_singleton.mp hmem] at hid
  cases hid
  exact ⟨"C1", by decide, rfl⟩

/-- One pass outside the scope, and one within it that misses something. -/
def drifted : Dict := drift_pass "contradicted" [] [("reason", .str "another topic")] "major_drift"

def unmoved : Dict :=
  drift_pass "partially_supported" [drift_omission] [("reason", .str "on topic")] "in_scope"

theorem drifted_valid : ValidPass .plain drift_bundle drifted :=
  ⟨drift_validation "contradicted" [] "major_drift", by decide +kernel, rfl, rfl⟩

theorem unmoved_valid : ValidPass .plain drift_bundle unmoved :=
  ⟨drift_validation "partially_supported" [drift_omission] "in_scope", by decide +kernel, rfl, rfl⟩

/-- The drift of the first pass is gone from the report the second is merged into. -/
theorem drift_forgotten :
    Compiled drift_bundle ∧ ValidPass .plain drift_bundle drifted ∧
      ValidPass .plain drift_bundle unmoved ∧
      ∃ prior incremental batch, merge_reviews .plain [drifted] none = .ok prior ∧
        merge_reviews .plain [unmoved] (some prior) = .ok incremental ∧
        merge_reviews .plain ([drifted] ++ [unmoved]) none = .ok batch ∧ incremental ≠ batch := by
  refine ⟨drift_compiled, drifted_valid, unmoved_valid, ?_⟩
  have hrun : (do
      let prior ← merge_reviews .plain [drifted] none
      let incremental ← merge_reviews .plain [unmoved] (some prior)
      let batch ← merge_reviews .plain ([drifted] ++ [unmoved]) none
      pure (decide (incremental = batch))) = (.ok false : Result Bool) := by
    decide +kernel
  obtain ⟨prior, hprior, hrun⟩ := Except.bind_ok.mp hrun
  obtain ⟨incremental, hincremental, hrun⟩ := Except.bind_ok.mp hrun
  obtain ⟨batch, hbatch, hrun⟩ := Except.bind_ok.mp hrun
  exact ⟨prior, incremental, batch, hprior, hincremental, hbatch,
    of_decide_eq_false (Except.ok.inj hrun)⟩

/-- The pass outside the scope comes last, and its drift is told either way. -/
theorem drift_kept :
    ∃ prior incremental batch, merge_reviews .plain [unmoved] none = .ok prior ∧
      merge_reviews .plain [drifted] (some prior) = .ok incremental ∧
      merge_reviews .plain ([unmoved] ++ [drifted]) none = .ok batch ∧ incremental = batch := by
  obtain ⟨prior, incremental, batch, hprior, hincremental, hbatch, hiff⟩ :=
    incremental_merge_iff drift_compiled (List.cons_ne_nil unmoved []) (List.cons_ne_nil drifted [])
      (fun r hr => List.mem_singleton.mp hr ▸ unmoved_valid)
      (fun r hr => List.mem_singleton.mp hr ▸ drifted_valid)
  refine ⟨prior, incremental, batch, hprior, hincremental, hbatch, hiff.mpr (.inl ?_)⟩
  exact ⟨drifted, List.mem_singleton_self _, rfl⟩

end Memline.wiki
