/-
What a valid review pass says.

All valid passes over one bundle review the same claims under the same hashes. That
much is their `Subject`; the rest of a pass is a `Pass`, and `Reads` says that a report
is such a pass.
-/
import Mathlib.Data.List.Dedup
import Memline.Wiki.Merge
import Memline.Wiki.Validated

set_option autoImplicit false

namespace Memline.wiki

open Py Check

variable {rt : Runtime}

/-- What the compiler of bundles writes: the hash of the article, and named claims. -/
structure Compiled (review_bundle : Dict) : Prop where
  article : ∃ sha, sha ≠ "" ∧ Dict.get review_bundle "article_sha256" = .str sha
  claims : ∀ packets, entries (Dict.get review_bundle "claim_packets") = .ok packets →
    ∀ packet ∈ packets, ∀ id, packet.item "claim_id" = .ok id → ∃ s, s ≠ "" ∧ id = .str s

/-- A pass that its validator has accepted, with its validation attached. -/
def ValidPass (rt : Runtime) (review_bundle report : Dict) : Prop :=
  ∃ v, validate_review_report rt report review_bundle = .ok v ∧ v.report_valid = true ∧
    Dict.get report "validation" = .obj v.toDict

/-! ## What passes share, and what they do not -/

/-- What all valid passes over a bundle have in common: the hashes, the status of the
bundle, its packets, and the ids of the claims in their order. -/
structure Subject where
  article : String
  bundle : String
  deterministic : Bool
  expected : Map Json
  ids : List String

/-- What the bundle says of a subject. -/
structure About (rt : Runtime) (review_bundle : Dict) (s : Subject) : Prop where
  article : Dict.get review_bundle "article_sha256" = .str s.article
  article_ne : s.article ≠ ""
  bundle : Dict.get review_bundle "review_bundle_sha256" = .str s.bundle
  bundle_ne : s.bundle ≠ ""
  hash : s.bundle = content_hash rt review_bundle "review_bundle_sha256"
  deterministic : deterministic_status review_bundle = .ok s.deterministic
  expected : packets_by_id review_bundle = .ok s.expected
  named : ∀ id ∈ s.ids, id ≠ ""
  distinct : s.ids.Nodup
  ordered : s.ids.Pairwise (· ≤ ·)
  complete : ∀ key ∈ s.expected.keys, ∃ id ∈ s.ids, key = .str id
  packet : ∀ id ∈ s.ids, ∃ packet, s.expected.find (.str id) = some packet

/-- One pass. -/
structure Pass where
  reviews : List (String × Dict)
  omissions : List Dict
  scope : Dict
  overall : String
  validation : Validation
  provenance : Json

def Pass.ids (p : Pass) : List String := p.reviews.map Prod.fst

/-- A report is a pass about the subject, and its validator had nothing to say. -/
structure Reads (rt : Runtime) (review_bundle : Dict) (s : Subject) (report : Dict) (p : Pass) :
    Prop where
  article : Dict.get report "article_sha256" = .str s.article
  bundle : Dict.get report "review_bundle_sha256" = .str s.bundle
  claim_reviews : Dict.get report "claim_reviews" = .list (p.reviews.map fun x => .obj x.2)
  claim_id : ∀ x ∈ p.reviews, Dict.get x.2 "claim_id" = .str x.1
  checked : ∀ x ∈ p.reviews, ∀ packet, s.expected.find (.str x.1) = some packet →
    Clean (check_claim (.str x.1) packet x.2) ()
  ids : p.ids.Perm s.ids
  omissions : Dict.get report "omission_reviews" = .list (p.omissions.map .obj)
  omitted : Clean (validate_omission_reviews report review_bundle) p.omissions
  scope : Dict.get report "scope_review" = .obj p.scope
  scope_verdict : (Dict.get p.scope "verdict").in_strings SCOPE_VERDICTS = .ok true
  overall : Dict.get report "overall_verdict" = .str p.overall
  overall_verdict : p.overall ∈ OVERALL_VERDICTS
  validation : Dict.get report "validation" = .obj p.validation.toDict
  findings : p.validation.findings = []
  report_valid : p.validation.report_valid = true
  deterministic_clean : p.validation.deterministic_clean = s.deterministic
  scope_clean : p.validation.scope_clean = in_scope p.scope
  claims_expected : p.validation.claims_expected = s.expected.length
  provenance : Dict.get report "review_provenance" = p.provenance

/-! ## Reading a valid pass -/

/-- A sort of nothing is nothing. -/
theorem sorted_on_eq_nil {α : Type} (key : α → Json) {xs : List α} :
    Json.sorted_on key xs = .ok [] ↔ xs = [] := by
  unfold Json.sorted_on
  constructor
  · intro h
    split at h
    · exact Except.ok.inj h
    · have hlength : ∀ {r : α → α → Prop} [DecidableRel r],
          (Except.ok (xs.insertionSort r) : Result (List α)) = .ok [] → xs = [] := by
        intro r _ heq
        rw [← List.length_eq_zero_iff, ← List.length_insertionSort r, Except.ok.inj heq]
        rfl
      split at h
      · exact hlength h
      · split at h
        · exact hlength h
        · cases h
  · rintro rfl
    rfl

/-- A clean check of completeness has seen every claim. -/
theorem check_complete_clean {expected : Map Json} {seen : List Json} {u : Unit} :
    Clean (check_complete expected seen) u ↔ ∀ key ∈ expected.keys, key.elem seen = true := by
  have hfilter : (expected.keys.filter fun claim_id => !claim_id.elem seen) = [] ↔
      ∀ key ∈ expected.keys, key.elem seen = true := by
    simp only [List.filter_eq_nil_iff, Bool.not_eq_true', Bool.not_eq_false]
  unfold check_complete
  rw [clean_bind, ← hfilter, ← sorted_on_eq_nil id]
  constructor
  · rintro ⟨missing, hmissing, h⟩
    rw [clean_lift] at hmissing
    rw [clean_complain_if, Bool.not_eq_false', List.isEmpty_iff] at h
    rw [hmissing, h]
  · intro h
    exact ⟨[], clean_lift.mpr h, clean_complain_if.mpr rfl⟩

/-- An overall verdict is accepted exactly when it is one. -/
theorem check_overall_clean {report : Dict} {u : Unit} :
    Clean (check_overall report) u ↔
      ∃ v ∈ OVERALL_VERDICTS, Dict.get report "overall_verdict" = .str v := by
  rw [check_overall, clean_lift_complain, in_strings_true]

/-- A scope review is accepted exactly when it has a verdict of scope. -/
theorem check_scope_clean {value : Json} {u : Unit} :
    Clean (check_scope value) u ↔
      ∃ scope, value = .obj scope ∧ (Dict.get scope "verdict").in_strings SCOPE_VERDICTS =
        .ok true := by
  unfold check_scope
  constructor
  · intro h
    cases value with
    | obj scope => exact ⟨scope, rfl, clean_lift_complain.mp h⟩
    | _ => exact absurd h (not_clean_complain _ _)
  · rintro ⟨scope, rfl, h⟩
    exact clean_lift_complain.mpr h

/-- The objects of a list of objects are all of it. -/
theorem dicts_of_objs (xs : List Dict) : dicts (xs.map .obj) = xs := by
  simpa using dicts_map (fun x : Dict => x) xs

/-- Values that are all objects. -/
theorem objs_of_dicts {items : List Json} (h : ∀ x ∈ items, ∃ item, x = .obj item) :
    (dicts items).map .obj = items := by
  induction items with
  | nil => rfl
  | cons x xs ih =>
    obtain ⟨item, rfl⟩ := h x List.mem_cons_self
    change Json.obj item :: (dicts xs).map .obj = Json.obj item :: xs
    rw [ih fun y hy => h y (List.mem_cons_of_mem _ hy)]

/-- A clean check of omissions has met objects only, each of them in order. -/
theorem validate_omission_reviews_clean {report review_bundle : Dict} {omissions : List Dict} :
    Clean (validate_omission_reviews report review_bundle) omissions ↔
      Dict.get report "omission_reviews" = .list (omissions.map .obj) ∧
      ∃ known, known_evidence review_bundle = .ok known ∧ ∀ e ∈ omissions.zipIdx,
        Clean (check_omission known ((Dict.get review_bundle "article_markdown").or_else (.str ""))
          (.obj e.1, e.2)) ⟨⟩ := by
  unfold validate_omission_reviews
  rw [clean_bind]
  simp only [clean_lift]
  constructor
  · rintro ⟨known, hknown, h⟩
    split at h
    · rename_i items hitems
      obtain ⟨⟨⟩, hall, h⟩ := clean_bind.mp h
      rw [clean_forM] at hall
      rw [clean_pure] at h
      -- an entry that is no object would be complained about
      have hobjs : ∀ e ∈ items.zipIdx, ∃ item, e.1 = .obj item := by
        intro e he
        have hclean := hall e he
        unfold check_omission at hclean
        split at hclean
        · exact ⟨_, ‹_›⟩
        · exact absurd hclean (not_clean_complain _ _)
      have hitem : (dicts items).map .obj = items := by
        refine objs_of_dicts fun x hx => ?_
        obtain ⟨n, hn, rfl⟩ := List.getElem_of_mem hx
        exact hobjs (items[n], n)
          (List.mk_mem_zipIdx_iff_getElem?.mpr (List.getElem?_eq_getElem hn))
      rw [← h, hitem]
      refine ⟨hitems, known, hknown, fun e he => ?_⟩
      refine hall (.obj e.1, e.2) ?_
      rw [← hitem, List.zipIdx_map]
      exact List.mem_map.mpr ⟨e, he, rfl⟩
    · exact absurd (clean_seq.mp h).1 (not_clean_complain _ _)
  · rintro ⟨hitems, known, hknown, hall⟩
    refine ⟨known, hknown, ?_⟩
    rw [hitems]
    refine clean_bind.mpr ⟨⟨⟩, ?_, ?_⟩
    · rw [clean_forM]
      intro e he
      rw [List.zipIdx_map] at he
      obtain ⟨e', he', rfl⟩ := List.mem_map.mp he
      exact hall e' he'
    · rw [clean_pure, dicts_of_objs]

/-- The fields of a stored validation. -/
theorem validation_fields (v : Validation) :
    Dict.get v.toDict "findings" = .list v.findings ∧
      Dict.get v.toDict "report_valid" = .bool v.report_valid ∧
      Dict.get v.toDict "deterministic_clean" = .bool v.deterministic_clean ∧
      Dict.get v.toDict "scope_clean" = .bool v.scope_clean ∧
      Dict.get v.toDict "claims_expected" = .int v.claims_expected ∧
      Dict.get v.toDict "claim_verdict_counts" = .obj v.claim_verdict_counts := by
  unfold Validation.toDict
  cases v.ready_for_agent_review with
  | none => exact ⟨rfl, rfl, rfl, rfl, rfl, rfl⟩
  | some b => exact ⟨rfl, rfl, rfl, rfl, rfl, rfl⟩

/-- The claims a valid pass has reviewed are the expected ones. -/
theorem Reviewed.Accepts.claims {review_bundle report : Dict} {r : Reviewed}
    (h : r.Accepts rt report review_bundle) (hcompiled : Compiled review_bundle) :
    ∃ reviews : List (String × Dict), r.reviews = reviews.map (fun x => .obj x.2) ∧
      (∀ x ∈ reviews, Dict.get x.2 "claim_id" = .str x.1 ∧
        ∃ packet, r.expected.find (.str x.1) = some packet ∧
          Clean (check_claim (.str x.1) packet x.2) ()) ∧
      (reviews.map Prod.fst).Nodup ∧
      ∀ key, key ∈ r.expected.keys ↔ ∃ id ∈ reviews.map Prod.fst, key = .str id := by
  have hids : StringIds review_bundle := fun packets hpackets packet hpacket id hid =>
    (hcompiled.claims packets hpackets packet hpacket id hid).imp fun _ => And.right
  have hkeys := hids.keys h.expected
  obtain ⟨reviews, hitems, hall, hnodup, hseen⟩ :=
    claim_reviews_clean hkeys (by exact h.seen) List.nodup_nil
  rw [List.append_nil] at hnodup hseen
  refine ⟨reviews, hitems, hall, List.nodup_reverse.mp hnodup, fun key => ⟨fun hkey => ?_, ?_⟩⟩
  · have helem := check_complete_clean.mp h.complete key hkey
    rw [hseen, Json.elem, List.any_eq_true] at helem
    obtain ⟨y, hy, heq⟩ := helem
    obtain ⟨id, hid, rfl⟩ := List.mem_map.mp hy
    exact ⟨id, List.mem_reverse.mp hid, Json.eq_str.mp heq⟩
  · rintro ⟨id, hid, rfl⟩
    obtain ⟨x, hx, rfl⟩ := List.mem_map.mp hid
    obtain ⟨-, packet, hfind, -⟩ := hall x hx
    obtain ⟨key, hkey, heq⟩ := Map.find_mem hfind
    rw [← Json.eq_str.mp heq]
    exact List.mem_map_of_mem hkey

theorem content_hash_ne (review_bundle : Dict) (field : String) :
    content_hash rt review_bundle field ≠ "" := rt.sha256_ne _

/-- A bundle with a valid pass over it is about some subject. -/
theorem Compiled.about {review_bundle report : Dict} (h : Compiled review_bundle)
    (hpass : ValidPass rt review_bundle report) : ∃ s, About rt review_bundle s := by
  obtain ⟨v, hv, hvalid, -⟩ := hpass
  obtain ⟨r, deterministic, haccepts, hdet, -⟩ := validate_review_report_valid hv hvalid
  obtain ⟨reviews, -, hall, hnodup, hkeys⟩ := haccepts.claims h
  obtain ⟨sha, hne, hsha⟩ := h.article
  have hperm := List.perm_insertionSort (· ≤ ·) (reviews.map Prod.fst)
  have hnamed := packets_by_id_keys haccepts.expected h.claims
  refine ⟨⟨sha, _, deterministic, r.expected, (reviews.map Prod.fst).insertionSort (· ≤ ·)⟩, hsha,
    hne, (check_hashes_clean.mp haccepts.hashes).1, content_hash_ne _ _, rfl, hdet,
    haccepts.expected,
    ?_, hperm.nodup_iff.mpr hnodup, List.pairwise_insertionSort _ _, ?_, ?_⟩
  · intro id hid
    rw [hperm.mem_iff] at hid
    obtain ⟨id', hne', heq⟩ := hnamed (.str id) ((hkeys _).mpr ⟨id, hid, rfl⟩)
    rw [Json.str.injEq] at heq
    exact heq ▸ hne'
  · intro key hkey
    obtain ⟨id, hid, heq⟩ := (hkeys key).mp hkey
    exact ⟨id, hperm.mem_iff.mpr hid, heq⟩
  · intro id hid
    rw [hperm.mem_iff] at hid
    obtain ⟨x, hx, rfl⟩ := List.mem_map.mp hid
    obtain ⟨-, packet, hfind, -⟩ := hall x hx
    exact ⟨packet, hfind⟩

/-- A valid pass over the bundle is a pass about its subject. -/
theorem About.reads {review_bundle report : Dict} {s : Subject} (ha : About rt review_bundle s)
    (h : Compiled review_bundle) (hpass : ValidPass rt review_bundle report) :
    ∃ p, Reads rt review_bundle s report p := by
  obtain ⟨v, hv, hvalid, hattached⟩ := hpass
  obtain ⟨r, deterministic, haccepts, hdet, hsummary⟩ := validate_review_report_valid hv hvalid
  obtain ⟨reviews, hitems, hall, hnodup, hkeys⟩ := haccepts.claims h
  obtain ⟨scope, hscope, hverdict⟩ := check_scope_clean.mp haccepts.scope
  obtain ⟨overall, hknown, hoverall⟩ := check_overall_clean.mp haccepts.overall
  obtain ⟨hhash, harticle, hbundle⟩ := check_hashes_clean.mp haccepts.hashes
  have hexpected : r.expected = s.expected :=
    Except.ok.inj (haccepts.expected.symm.trans ha.expected)
  have hstatus : deterministic = s.deterministic := Except.ok.inj (hdet.symm.trans ha.deterministic)
  refine ⟨⟨reviews, r.omissions, scope, overall, v, Dict.get report "review_provenance"⟩, ?_, ?_,
    ?_, fun x hx => (hall x hx).1, ?_, ?_,
    (validate_omission_reviews_clean.mp haccepts.omissions).1,
    haccepts.omissions, hscope, hverdict, hoverall, hknown, hattached, ?_, hvalid, ?_, ?_, ?_, rfl⟩
  · rw [ha.article, Json.eq_str] at harticle
    exact harticle
  · rw [ha.bundle, Json.eq_str] at hbundle
    exact hbundle
  · rw [haccepts.reviews, hitems]
  · intro x hx packet hpacket
    obtain ⟨-, packet', hfind, hcheck⟩ := hall x hx
    rw [← hexpected, hfind, Option.some.injEq] at hpacket
    exact hpacket ▸ hcheck
  · -- the ids reviewed and the ids of the bundle are the same, each once
    refine (List.perm_ext_iff_of_nodup hnodup ha.distinct).mpr fun id =>
      ⟨fun hid => ?_, fun hid => ?_⟩
    · have hkey := (hkeys (.str id)).mpr ⟨id, hid, rfl⟩
      rw [hexpected] at hkey
      obtain ⟨id', hid', heq⟩ := ha.complete _ hkey
      rw [Json.str.injEq] at heq
      exact heq ▸ hid'
    · obtain ⟨packet, hfind⟩ := ha.packet id hid
      obtain ⟨key, hkey, heq⟩ := Map.find_mem hfind
      have hin := List.mem_map_of_mem hkey (f := Prod.fst)
      rw [← Map.keys, ← hexpected, hkeys] at hin
      obtain ⟨id', hid', hk⟩ := hin
      have hkey' := Json.eq_str.mp heq
      rw [hkey', Json.str.injEq] at hk
      exact hk ▸ hid'
  · rw [hsummary]
    rfl
  · rw [hsummary, ← hstatus]
    rfl
  · rw [hsummary, hscope]
    rfl
  · rw [hsummary, ← hexpected]
    rfl

end Memline.wiki
