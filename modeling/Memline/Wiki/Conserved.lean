/-
What the merge of several passes has found, against what the passes have found.

A merged report regroups claim reviews by claim and keeps omissions and scope reviews pass
by pass. Whatever the order, its findings are those of the passes, one for each review that
has something to say, and no two of them share an id.
-/
import Memline.Lib.Lists
import Memline.Wiki.MergedReport
import Memline.Wiki.Publication

set_option autoImplicit false

namespace Memline.wiki

open Py Check

variable {rt : Runtime} {review_bundle : Dict} {s : Subject} {rs : List Dict} {ps : List Pass}

/-! ## What one pass has to say -/

/-- The objects listed under a field of a report. -/
def objects (report : Dict) (field : String) : List Dict :=
  match Dict.get report field with
  | .list items => dicts items
  | _ => []

def supported (review : Dict) : Bool := (Dict.get review "verdict").eq (.str "supported")

/-- The finding that a claim review of pass `n` stands for. -/
def claim_complaint (n : ℤ) (review : Dict) : Dict :=
  [("source", .str "claim"), ("pass", .int n), ("claim_id", Dict.get review "claim_id"),
    ("reviewer_verdict", Dict.get review "verdict"), ("confidence", Dict.get review "confidence"),
    ("finding", Dict.get review "reason"),
    ("evidence_refs", (Dict.get review "evidence_refs").or_else (.list [])),
    ("suggested_rewrite", (Dict.get review "suggested_rewrite").or_else (.str ""))]

/-- The finding that an omission review of pass `n` stands for. -/
def omission_complaint (n : ℤ) (review : Dict) : Dict :=
  [("source", .str "omission"), ("pass", .int n), ("reviewer_severity", Dict.get review "severity"),
    ("reviewer_kind", Dict.get review "kind"), ("finding", Dict.get review "finding"),
    ("evidence_refs", (Dict.get review "evidence_refs").or_else (.list [])),
    ("article_quotes", (Dict.get review "article_quotes").or_else (.list [])),
    ("article_location", (Dict.get review "article_location").or_else (.str ""))]

/-- The finding that the scope review of pass `n` stands for. -/
def scope_complaint (n : ℤ) (review : Dict) : Dict :=
  [("source", .str "scope"), ("pass", .int n), ("reviewer_verdict", Dict.get review "verdict"),
    ("finding", Dict.get review "reason"), ("evidence_refs", .list [])]

/-- The scope review of a report, unless the article is in scope. -/
def out_of_scope (report : Dict) : List Dict :=
  match Dict.get report "scope_review" with
  | .obj scope => if in_scope scope then [] else [scope]
  | _ => []

/-- The claim reviews that do not say "supported". -/
def unsupported (report : Dict) : List Dict :=
  (objects report "claim_reviews").filter fun review => !supported review

/-- All that the report of pass `n` has to say. -/
def complaints (n : ℤ) (report : Dict) : List Dict :=
  (unsupported report).map (claim_complaint n) ++
    ((objects report "omission_reviews").map (omission_complaint n) ++
      (out_of_scope report).map (scope_complaint n))

/-! ## What the merged report has to say -/

/-- The findings of a merged claim. -/
def entry_findings (rt : Runtime) (id : String) (fs : Flagged) : List Finding :=
  fs.map fun e => merged_claim_finding rt (.str id) (pass_finding e.1 e.2)

/-- The scope reviews of all passes, numbered. -/
def scopes (start : ℤ) (ps : List Pass) : List Dict :=
  (enumerate start ps).map fun e => in_pass e.1 e.2.scope

theorem claim_findings_entry (total : ℤ) (id : String) (fs : Flagged) :
    claim_findings rt true (claim_entry total id fs) = .ok (entry_findings rt id fs) := by
  have hfindings : Dict.get (claim_entry total id fs) "findings" =
      .list (fs.map fun e => .obj (pass_finding e.1 e.2)) := rfl
  rw [claim_findings, if_pos rfl, hfindings, entries_list]
  change Except.ok _ = _
  rw [dicts_map, List.map_map]
  rfl

theorem claims_findings_entries (total : ℤ) (F : String → Flagged) (ids : List String) :
    (ids.map fun id => claim_entry total id (F id)).mapM (claim_findings rt true) =
      .ok (ids.map fun id => entry_findings rt id (F id)) := by
  induction ids with
  | nil => rfl
  | cons id ids ih =>
    rw [List.map_cons, List.mapM_cons, claim_findings_entry, ih]
    rfl

/-- The findings of the merge of passes, in the order of the merged report. -/
theorem collect_merged (s : Subject) (scope_clean : Bool) (ps : List Pass) :
    collect_review_findings rt (merged s scope_clean ps) =
      .ok ((s.ids.map fun id => entry_findings rt id (flags 0 ps id)).flatten ++
        omission_findings rt true (merged_omissions 0 ps) ++
          ((scopes 0 ps).filter fun item => !in_scope item).map (merged_scope_finding rt)) := by
  have hclaims := @claims_findings_entries rt ps.length (flags 0 ps) s.ids
  have hscopes : dicts (merged_scopes 0 ps) = scopes 0 ps := dicts_map (fun e : ℤ × Pass => _) _
  have hscope : scope_findings rt true (merged s scope_clean ps) =
      .ok (((scopes 0 ps).filter fun item => !in_scope item).map (merged_scope_finding rt)) := by
    rw [← hscopes]
    rfl
  unfold collect_review_findings
  refine Except.bind_ok.mpr ⟨_, entries_list _, ?_⟩
  rw [dicts_map]
  refine Except.bind_ok.mpr ⟨_, hclaims, ?_⟩
  exact Except.bind_ok.mpr ⟨_, entries_list _, Except.bind_ok.mpr ⟨_, hscope, rfl⟩⟩

/-! ## No two findings share an id -/

/-- Scope findings of the merge are told apart by the number of the pass. -/
theorem scope_finding_ids (ps : List Pass) :
    ((((scopes 0 ps).filter fun item => !in_scope item).map (merged_scope_finding rt)).map
        Finding.finding_id).Nodup ∧
      Begins 's' ((((scopes 0 ps).filter fun item => !in_scope item).map
        (merged_scope_finding rt)).map Finding.finding_id) := by
  have hid : ∀ (index : ℤ) (item : Dict),
      (merged_scope_finding rt (in_pass index item)).finding_id =
      "scope:pass:" ++ toString (index + 1) := by
    intro index item
    have hpass : Dict.get (in_pass index item) "pass" = .int (index + 1) := Dict.get_set_self _ _ _
    rw [merged_scope_finding, scope_finding, hpass]
    rfl
  constructor
  · have hpairs : (scopes 0 ps).Pairwise fun a b =>
        (merged_scope_finding rt a).finding_id ≠ (merged_scope_finding rt b).finding_id := by
      obtain ⟨hordered, hrange⟩ := enumerate_fst 0 ps
      rw [scopes, List.pairwise_map]
      refine (List.pairwise_map.mp hordered).imp_of_mem fun {a b} ha hb hlt heq => ?_
      have hlow := (hrange a.1 (List.mem_map_of_mem ha)).1
      have hlow' := (hrange b.1 (List.mem_map_of_mem hb)).1
      rw [hid, hid, String.append_right_inj, toString_pass (by omega),
        toString_pass (n := b.1 + 1) (by omega)] at heq
      have := toString_nat_inj heq
      omega
    rw [List.map_map, List.Nodup, List.pairwise_map]
    exact hpairs.sublist List.filter_sublist
  · intro id hmem
    rw [List.map_map] at hmem
    obtain ⟨item, -, rfl⟩ := List.mem_map.mp hmem
    simp [merged_scope_finding, scope_finding]

/-- The ids of the findings of the merge. -/
theorem merged_findings_nodup (ha : About rt review_bundle s)
    (h : List.Forall₂ (Reads rt review_bundle s) rs ps) (hne : ps ≠ []) :
    (((s.ids.map fun id => entry_findings rt id (flags 0 ps id)).flatten ++
      omission_findings rt true (merged_omissions 0 ps) ++
        ((scopes 0 ps).filter fun item => !in_scope item).map (merged_scope_finding rt)).map
          Finding.finding_id).Nodup := by
  let reviews : List (String × Dict) :=
    s.ids.map fun id => (id, claim_entry ps.length id (flags 0 ps id))
  have hfst : reviews.map Prod.fst = s.ids := by simp [reviews, Function.comp_def]
  have hsnd : reviews.map Prod.snd = s.ids.map fun id =>
      claim_entry ps.length id (flags 0 ps id) := by
    simp [reviews, Function.comp_def]
  have haccepted : ∀ x ∈ reviews, ∃ packet fs, MergedClaim ps.length packet fs x.2 := by
    intro x hx
    obtain ⟨id, hid, rfl⟩ := List.mem_map.mp hx
    obtain ⟨packet, hpacket⟩ := ha.packet id hid
    exact ⟨packet, check_merged_claim_clean.mp (claim_entry_accepted h hne hid hpacket)⟩
  have hnamed : ∀ x ∈ reviews, Dict.get x.2 "claim_id" = .str x.1 := by
    intro x hx
    obtain ⟨id, -, rfl⟩ := List.mem_map.mp hx
    rfl
  obtain ⟨found, hfound, hclaims, hbegin⟩ :=
    @merged_claim_ids rt _ reviews hnamed haccepted (hfst ▸ ha.distinct)
  rw [hsnd, claims_findings_entries, Except.ok.injEq] at hfound
  subst hfound
  obtain ⟨homissions, hbegin'⟩ := @omission_ids rt true (merged_omissions 0 ps)
  obtain ⟨hscopes, hbegin''⟩ := @scope_finding_ids rt ps
  rw [List.map_append, List.map_append]
  exact nodup_kinds hclaims homissions hscopes hbegin hbegin' hbegin''

/-! ## Each finding is a review of a pass -/

/-- The fields of what a claim finding of a merged report says. -/
def entry_fields (id : String) (e : ℤ × Dict) : Dict :=
  (merged_claim_finding .plain (.str id) (pass_finding e.1 e.2)).fields

/-- What one pass has against all claims, claim by claim. -/
theorem flagged_complaints {r : Dict} {p : Pass} (hr : Reads rt review_bundle s r p)
    (ha : About rt review_bundle s) (index : ℤ) :
    (s.ids.flatMap fun id => (flagged_by index p.reviews id).map (entry_fields id)).Perm
      ((unsupported r).map (claim_complaint (index + 1))) := by
  have hobjects : objects r "claim_reviews" = p.reviews.map Prod.snd := by
    rw [objects, hr.claim_reviews]
    exact dicts_map (fun x : String × Dict => x.2) p.reviews
  have hnodup : (p.reviews.map Prod.fst).Nodup := hr.ids.nodup_iff.mpr ha.distinct
  have hone : ∀ x ∈ p.reviews, (flagged_by index p.reviews x.1).map (entry_fields x.1) =
      if supported x.2 then [] else [claim_complaint (index + 1) x.2] := by
    intro x hx
    have hid := hr.claim_id x hx
    rw [flagged_by, Lists.lookup_of_mem hnodup hx]
    change List.map _ (if supported x.2 then [] else [(index, x.2)]) = _
    split
    · rfl
    · rw [claim_complaint, hid]
      rfl
  refine (hr.ids.symm.flatMap_right _).trans (List.Perm.of_eq ?_)
  rw [unsupported, hobjects, Pass.ids, List.flatMap_map, List.flatMap_congr hone]
  clear hone hnodup hobjects hr
  induction p.reviews with
  | nil => rfl
  | cons x reviews ih =>
    rw [List.flatMap_cons, ih, List.map_cons]
    by_cases hx : supported x.2 = true
    · rw [if_pos hx, List.filter_cons_of_neg (by simpa using hx)]
      rfl
    · rw [if_neg hx, List.filter_cons_of_pos (by simpa using hx)]
      rfl

/-- What all passes have against all claims. -/
theorem claim_complaints (ha : About rt review_bundle s)
    (h : List.Forall₂ (Reads rt review_bundle s) rs ps) (start : ℤ) :
    (s.ids.flatMap fun id => (flags start ps id).map (entry_fields id)).Perm
      ((enumerate (start + 1) rs).flatMap fun e =>
        (unsupported e.2).map (claim_complaint e.1)) := by
  induction h generalizing start with
  | nil => simp [flags, enumerate]
  | @cons r p rs ps hr _ ih =>
    have hsplit : ∀ id, (flags start (p :: ps) id).map (entry_fields id) =
        (flagged_by start p.reviews id).map (entry_fields id) ++
          (flags (start + 1) ps id).map (entry_fields id) := by
      intro id
      rw [← List.map_append]
      rfl
    simp only [hsplit]
    rw [enumerate, List.flatMap_cons]
    exact (List.flatMap_append_perm _ _ _).symm.trans
      ((flagged_complaints hr ha start).append (ih _))

/-- The fields of omission findings do not depend on their place in the list. -/
theorem omission_fields (items : List Dict) :
    (omission_findings rt true (items.map .obj)).map Finding.fields =
      items.map fun item => (omission_finding .plain true 0 item).fields := by
  have hfound : omission_findings rt true (items.map .obj) =
      (items.zipIdx 1).map fun e => omission_finding rt true e.2 e.1 := by
    rw [omission_findings, List.zipIdx_map, List.filterMap_map]
    exact congrFun List.filterMap_eq_map _
  rw [hfound, List.map_map]
  conv_rhs => rw [← List.zipIdx_map_fst 1 items, List.map_map]
  rfl

/-- The complaints about omissions are those of the passes. -/
theorem omission_complaints (h : List.Forall₂ (Reads rt review_bundle s) rs ps) (start : ℤ) :
    (omission_findings rt true (merged_omissions start ps)).map Finding.fields =
      (enumerate (start + 1) rs).flatMap fun e =>
        (objects e.2 "omission_reviews").map (omission_complaint e.1) := by
  have hfields : ∀ (index : ℤ) (item : Dict),
      (omission_finding .plain true 0 (in_pass index item)).fields =
        omission_complaint (index + 1) item := by
    intro index item
    have hget : ∀ field, field ≠ "pass" →
        Dict.get (in_pass index item) field = Dict.get item field :=
      fun field hne => Dict.get_set_ne item (.int (index + 1)) hne
    have hpass : Dict.get (in_pass index item) "pass" = .int (index + 1) := Dict.get_set_self _ _ _
    simp only [omission_finding, if_true, hpass]
    rw [hget _ (by decide), hget _ (by decide), hget _ (by decide), hget _ (by decide),
      hget _ (by decide), hget _ (by decide)]
    rfl
  rw [merged_omissions_eq, omission_fields, omitted, List.map_flatMap]
  simp only [List.map_map, Function.comp_def, hfields]
  induction h generalizing start with
  | nil => rfl
  | @cons r p rs ps hr _ ih =>
    have hobjects : objects r "omission_reviews" = p.omissions := by
      rw [objects, hr.omissions]
      exact dicts_of_objs p.omissions
    rw [enumerate, enumerate, List.flatMap_cons, List.flatMap_cons, ih, hobjects]

/-- The complaints about the scope are those of the passes. -/
theorem scope_complaints (h : List.Forall₂ (Reads rt review_bundle s) rs ps) (start : ℤ) :
    (((scopes start ps).filter fun item => !in_scope item).map (merged_scope_finding rt)).map
        Finding.fields =
      (enumerate (start + 1) rs).flatMap fun e => (out_of_scope e.2).map (scope_complaint e.1) := by
  induction h generalizing start with
  | nil => rfl
  | @cons r p rs ps hr _ ih =>
    have hget : ∀ field, field ≠ "pass" →
        Dict.get (in_pass start p.scope) field = Dict.get p.scope field :=
      fun field hne => Dict.get_set_ne p.scope (.int (start + 1)) hne
    have hscope : in_scope (in_pass start p.scope) = in_scope p.scope := by
      rw [in_scope, in_scope, hget _ (by decide)]
    have hfields : (merged_scope_finding rt (in_pass start p.scope)).fields =
        scope_complaint (start + 1) p.scope := by
      have hpass : Dict.get (in_pass start p.scope) "pass" = .int (start + 1) :=
        Dict.get_set_self _ _ _
      rw [merged_scope_finding, scope_finding, scope_complaint, hpass, hget "verdict" (by decide),
        hget "reason" (by decide)]
      rfl
    have hout : out_of_scope r = if in_scope p.scope then [] else [p.scope] := by
      rw [out_of_scope, hr.scope]
    rw [scopes, enumerate, List.map_cons, ← scopes, enumerate, List.flatMap_cons, ← ih, hout]
    by_cases hin : in_scope p.scope = true
    · rw [if_pos hin, List.filter_cons_of_neg (by simp [hscope, hin])]
      rfl
    · rw [if_neg hin, List.filter_cons_of_pos (by simpa [hscope] using hin), List.map_cons,
        List.map_cons, hfields]
      rfl

/-- The findings of the merge, as a list of what they say. -/
theorem merged_fields (ha : About rt review_bundle s)
    (h : List.Forall₂ (Reads rt review_bundle s) rs ps) :
    (((s.ids.map fun id => entry_findings rt id (flags 0 ps id)).flatten ++
      omission_findings rt true (merged_omissions 0 ps) ++
        ((scopes 0 ps).filter fun item => !in_scope item).map (merged_scope_finding rt)).map
          Finding.fields).Perm ((enumerate 1 rs).flatMap fun e => complaints e.1 e.2) := by
  have hclaims : ((s.ids.map fun id => entry_findings rt id (flags 0 ps id)).flatten).map
      Finding.fields = s.ids.flatMap fun id => (flags 0 ps id).map (entry_fields id) := by
    rw [List.map_flatten, List.map_map, ← List.flatMap_def]
    simp only [Function.comp_def, entry_findings, List.map_map]
    rfl
  rw [List.map_append, List.map_append, hclaims, omission_complaints h, scope_complaints h,
    List.append_assoc]
  refine ((claim_complaints ha h 0).append (List.flatMap_append_perm _ _ _)).trans ?_
  exact List.flatMap_append_perm _ _ _

/-- **No finding is lost.** Merging valid passes loses, duplicates and invents no finding: each is
there once, with the number of its pass. -/
theorem merge_conserves_findings (hcompiled : Compiled review_bundle) (hne : rs ≠ [])
    (hrs : ∀ r ∈ rs, ValidPass rt review_bundle r) :
    ∃ report found, merge_reviews rt rs none = .ok report ∧
      collect_review_findings rt report = .ok found ∧
      (found.map Finding.finding_id).Nodup ∧
      (found.map Finding.fields).Perm ((enumerate 1 rs).flatMap fun e => complaints e.1 e.2) := by
  obtain ⟨r, hr⟩ := List.exists_mem_of_ne_nil rs hne
  obtain ⟨s, ha⟩ := hcompiled.about (hrs r hr)
  obtain ⟨ps, hps⟩ := ha.reads_all hcompiled hrs
  have hpsne : ps ≠ [] := by
    rintro rfl
    exact hne (List.forall₂_nil_right_iff.mp hps)
  have hmerge : merge_reviews rt rs none =
      .ok (merged s (ps.all fun p => in_scope p.scope) ([] ++ ps)) :=
    merge_reviews_eq ha hps hne (carries_nil s)
  rw [List.nil_append] at hmerge
  exact ⟨_, _, hmerge, collect_merged s _ ps, merged_findings_nodup ha hps hpsne,
    merged_fields ha hps⟩

/-- A pass outside the scope that contradicts the claim, and one that misses something. -/
theorem drift_conserved :
    ∃ report found, merge_reviews .plain [drifted, unmoved] none = .ok report ∧
      collect_review_findings .plain report = .ok found ∧
      (found.map Finding.finding_id).Nodup ∧
      (found.map Finding.fields).Perm [claim_complaint 1 (drift_review "contradicted"),
        scope_complaint 1 [("verdict", .str "major_drift"), ("reason", .str "another topic")],
        claim_complaint 2 (drift_review "partially_supported"),
        omission_complaint 2 drift_omission] := by
  have hvalid : ∀ r ∈ [drifted, unmoved], ValidPass .plain drift_bundle r := by
    intro r hr
    rcases List.mem_cons.mp hr with rfl | hr
    · exact drifted_valid
    · exact List.mem_singleton.mp hr ▸ unmoved_valid
  obtain ⟨report, found, hreport, hfound, hnodup, hfields⟩ :=
    merge_conserves_findings drift_compiled (List.cons_ne_nil _ _) hvalid
  exact ⟨report, found, hreport, hfound, hnodup, hfields⟩

end Memline.wiki
