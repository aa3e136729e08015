/-
The types of the fields of a report that a validator accepts.

Whatever is met with a complaint makes a report invalid; so in a valid report each of the
fields that a validator looks at is of the type it should have. Empty values count as
missing where the code says `or []`, and truth values count as numbers where it compares.
-/
import Memline.Wiki.Totality

set_option autoImplicit false

namespace Memline.wiki

open Py Check

variable {rt : Runtime} {report review_bundle : Dict}

/-! ## Types of fields -/

/-- A list of strings, or nothing. -/
def RefsTyped (value : Json) : Prop :=
  value.truthy = false ∨ ∃ refs, value = .list refs ∧ Strings refs

/-- A list of objects that are typed each. -/
def ListTyped (Typed : Dict → Prop) (value : Json) : Prop :=
  ∃ items : List Dict, value = .list (items.map .obj) ∧ ∀ item ∈ items, Typed item

/-- What claim reviews and the findings of merged claims have in common. -/
structure StatementTyped (item : Dict) : Prop where
  verdict : (Dict.get item "verdict").is_str = true
  confidence : (Dict.get item "confidence").is_str = true
  reason : (Dict.get item "reason").is_str = true
  suggested_rewrite : (Dict.get item "suggested_rewrite").is_str = true
  evidence_refs : RefsTyped (Dict.get item "evidence_refs")

structure ReviewTyped (item : Dict) : Prop extends StatementTyped item where
  claim_id : (Dict.get item "claim_id").is_str = true

structure FindingTyped (item : Dict) : Prop extends StatementTyped item where
  pass : ∃ n, Dict.get item "pass" = .int n

structure MergedClaimTyped (item : Dict) : Prop where
  claim_id : (Dict.get item "claim_id").is_str = true
  verdict : (Dict.get item "verdict").is_str = true
  flagged_in : ∃ n, Dict.get item "flagged_in" = .int n
  of_passes : (Dict.get item "of_passes").is_num = true
  findings : ListTyped FindingTyped (Dict.get item "findings")

structure OmissionTyped (item : Dict) : Prop where
  severity : (Dict.get item "severity").is_str = true
  finding : (Dict.get item "finding").is_str = true
  evidence_refs : RefsTyped (Dict.get item "evidence_refs")
  article_quotes : Dict.get item "article_quotes" = .null ∨
    ∃ quotes, Dict.get item "article_quotes" = .list quotes ∧ Strings quotes

structure ScopeTyped (item : Dict) : Prop where
  pass : (Dict.get item "pass").is_num = true
  verdict : (Dict.get item "verdict").is_str = true
  reason : (Dict.get item "reason").is_str = true

/-- What single-pass and merged reports have in common. -/
structure ReportTyped (report : Dict) : Prop where
  article_sha256 : (Dict.get report "article_sha256").is_str = true
  review_bundle_sha256 : (Dict.get report "review_bundle_sha256").is_str = true
  overall_verdict : (Dict.get report "overall_verdict").is_str = true
  omission_reviews : ListTyped OmissionTyped (Dict.get report "omission_reviews")

/-- A report of one pass. The reason of its scope review is left untyped, as its validator does not
look at it. -/
structure SingleTyped (report : Dict) : Prop extends ReportTyped report where
  summary : (Dict.get report "summary").is_str = true
  claim_reviews : ListTyped ReviewTyped (Dict.get report "claim_reviews")
  scope_review : ∃ scope, Dict.get report "scope_review" = .obj scope ∧
    (Dict.get scope "verdict").is_str = true

/-- The aggregated validation of a merged report. -/
structure AggregateTyped (aggregate : Dict) : Prop where
  report_valid : ∃ b, Dict.get aggregate "report_valid" = .bool b
  deterministic_clean : ∃ b, Dict.get aggregate "deterministic_clean" = .bool b
  claims_expected : (Dict.get aggregate "claims_expected").is_num = true
  invalid_passes : ∃ numbers, Dict.get aggregate "invalid_passes" = .list numbers
  per_pass : ListTyped (fun item => (Dict.get item "pass").is_num = true ∧
    ∃ b, Dict.get item "report_valid" = .bool b) (Dict.get aggregate "per_pass")

structure UnionTyped (report : Dict) : Prop extends ReportTyped report where
  passes : ∃ n, Dict.get report "passes" = .int n
  claim_reviews : ListTyped MergedClaimTyped (Dict.get report "claim_reviews")
  flagged_claims : (Dict.get report "flagged_claims").is_num = true
  unanimous_claims : (Dict.get report "unanimous_claims").is_num = true
  single_pass_claims : (Dict.get report "single_pass_claims").is_num = true
  validation : ∃ aggregate, Dict.get report "validation" = .obj aggregate ∧ AggregateTyped aggregate
  review_provenance : ∃ items, Dict.get report "review_provenance" = .list items
  scope_reviews : Dict.get report "scope_reviews" = .null ∨
    ListTyped ScopeTyped (Dict.get report "scope_reviews")

/-! ## Small facts -/

theorem eq_int_is_num {x : Json} {n : ℤ} (h : x.eq (.int n) = true) : x.is_num = true := by
  cases x with
  | bool b => rfl
  | int m => rfl
  | float y => rfl
  | _ => simp [Json.eq, Json.num] at h

theorem in_strings_is_str {x : Json} {s : List String} (h : x.in_strings s = .ok true) :
    x.is_str = true := by
  obtain ⟨t, -, rfl⟩ := in_strings_true.mp h
  rfl

theorem not_blank_is_str {x : Json} (h : blank x = false) : x.is_str = true := by
  obtain ⟨s, rfl, -⟩ := not_blank h
  rfl

/-- References none of which is outside of known texts are texts. -/
theorem any_outside_strings {known refs : List Json} (hknown : Strings known)
    (h : any_outside known refs = .ok false) : Strings refs := by
  induction refs with
  | nil => exact fun ref href => absurd href List.not_mem_nil
  | cons ref refs ih =>
    unfold any_outside at h
    obtain ⟨found, hfound, h⟩ := Except.bind_ok.mp h
    cases found with
    | false => cases h
    | true =>
      refine List.forall_mem_cons.mpr ⟨?_, ih h⟩
      unfold Json.in_set at hfound
      split at hfound
      · obtain ⟨y, hy, heq⟩ := List.any_eq_true.mp (Except.ok.inj hfound)
        have hstr := hknown y hy
        cases y with
        | str s =>
          rw [Json.eq_str.mp heq]
          rfl
        | _ => cases hstr
      · cases hfound

/-- The evidence of an accepted item is a list of texts. -/
theorem unknown_evidence_typed {known : List Json} {item : Dict} (hknown : Strings known)
    (h : unknown_evidence ((Dict.get item "evidence_refs").or_else (.list [])) known = .ok false) :
    RefsTyped (Dict.get item "evidence_refs") := by
  by_cases htruthy : (Dict.get item "evidence_refs").truthy = true
  · rw [Json.or_else, if_pos htruthy] at h
    cases hvalue : Dict.get item "evidence_refs" with
    | list refs =>
      rw [hvalue] at h
      exact .inr ⟨refs, rfl, any_outside_strings hknown h⟩
    | _ =>
      rw [hvalue] at h
      cases h
  · exact .inl (Bool.not_eq_true _ |>.mp htruthy)

/-- A grounded item has the types of a statement. -/
theorem Grounded.typed {allowed : List Json} {item : Dict} (h : Grounded allowed item)
    (hallowed : Strings allowed) (hverdict : (Dict.get item "verdict").is_str = true) :
    StatementTyped item :=
  ⟨hverdict, in_strings_is_str h.confidence, not_blank_is_str h.reason, h.rewrite,
    unknown_evidence_typed hallowed h.evidence⟩

theorem all_strings_typed {values : List Json} {quotes : List String}
    (h : all_strings values = some quotes) : Strings values := by
  unfold all_strings at h
  induction values generalizing quotes with
  | nil => exact fun ref href => absurd href List.not_mem_nil
  | cons value values ih =>
    rw [List.mapM_cons] at h
    cases value with
    | str s =>
      obtain ⟨_, -, h⟩ := Option.bind_eq_some_iff.mp h
      obtain ⟨rest, hrest, -⟩ := Option.bind_eq_some_iff.mp h
      exact List.forall_mem_cons.mpr ⟨rfl, ih hrest⟩
    | _ => cases h

theorem check_omission_typed {known : List Json} {article : Json} {item : Dict} {n : ℕ} {u : Unit}
    (hknown : Strings known) (h : Clean (check_omission known article (.obj item, n)) u) :
    OmissionTyped item := by
  unfold check_omission at h
  simp only [clean_bind, clean_lift, clean_complain_if, Bool.not_eq_false'] at h
  obtain ⟨graded, hgraded, ⟨⟩, rfl, ⟨⟩, hfinding, unknown, hunknown, ⟨⟩, rfl, hquotes⟩ := h
  refine ⟨in_strings_is_str hgraded, not_blank_is_str hfinding,
    unknown_evidence_typed hknown hunknown, ?_⟩
  unfold check_quotes at hquotes
  simp only at hquotes
  split at hquotes
  · exact absurd hquotes (not_clean_complain _ _)
  · split at hquotes
    · exact .inl ‹_›
    · rename_i values hvalues
      split at hquotes
      · exact .inr ⟨values, hvalues, all_strings_typed ‹_›⟩
      · exact absurd hquotes (not_clean_complain _ _)
    · exact absurd hquotes (not_clean_complain _ _)

/-! ## Valid reports are typed -/

/-- What both validators have checked of a report without complaints. -/
theorem report_typed {omissions : List Dict} (h : WellFormedBundle review_bundle) {u : Unit}
    (hhashes : Clean (check_hashes rt report review_bundle) u)
    (hoverall : Clean (check_overall report) u)
    (homissions : Clean (validate_omission_reviews report review_bundle) omissions) :
    ReportTyped report := by
  obtain ⟨hbundle, harticle, hreport⟩ := check_hashes_clean.mp hhashes
  obtain ⟨v, -, hverdict⟩ := check_overall_clean.mp hoverall
  obtain ⟨hlist, known, hknown, hall⟩ := validate_omission_reviews_clean.mp homissions
  obtain ⟨sha, hsha⟩ := h.article_sha256
  have hstrings : Strings known := Except.ok.inj (h.known.1.symm.trans hknown) ▸ h.known.2
  refine ⟨?_, ?_, ?_, omissions, hlist, fun item hitem => ?_⟩
  · rw [hsha, Json.eq_str] at harticle
    rw [harticle]
    rfl
  · rw [hbundle, Json.eq_str] at hreport
    rw [hreport]
    rfl
  · rw [hverdict]
    rfl
  · obtain ⟨n, hn, rfl⟩ := List.getElem_of_mem hitem
    exact check_omission_typed hstrings
      (hall _ (List.mk_mem_zipIdx_iff_getElem?.mpr (List.getElem?_eq_getElem hn)))

/-- The refs of the packets that claims are looked up in. -/
theorem WellFormedBundle.allowed (h : WellFormedBundle review_bundle) {expected : Map Json}
    (hexpected : packets_by_id review_bundle = .ok expected) {claim_id packet : Json}
    {allowed : List Json} (hpacket : expected.find claim_id = some packet)
    (hallowed : resolved_refs packet = .ok allowed) : Strings allowed := by
  obtain ⟨expected', hexpected', -, hrefs⟩ := h.expected
  obtain rfl := Except.ok.inj (hexpected.symm.trans hexpected')
  obtain ⟨key, hmem, -⟩ := Map.find_mem hpacket
  obtain ⟨allowed', hallowed', hstrings⟩ := hrefs _ hmem
  exact Except.ok.inj (hallowed'.symm.trans hallowed) ▸ hstrings

/-- A clean run has found a summary. -/
theorem summary_clean {r : Reviewed} (h : Clean (check_review_report rt report review_bundle) r) :
    blank (Dict.get report "summary") = false := by
  unfold check_review_report at h
  obtain ⟨-, h⟩ := clean_seq.mp h
  exact clean_complain_if.mp (clean_seq.mp h).1

/-- A review that was found valid has the types of one, in every field that the validator looks
at. -/
theorem single_typed (h : WellFormedBundle review_bundle) {v : Validation}
    (hv : validate_review_report rt report review_bundle = .ok v) (hvalid : v.report_valid = true) :
    SingleTyped report := by
  unfold validate_review_report at hv
  obtain ⟨⟨r, findings⟩, hcheck, hv⟩ := Except.bind_ok.mp hv
  obtain ⟨deterministic, hdet, hv⟩ := Except.bind_ok.mp hv
  cases hv
  obtain rfl : findings = [] := List.isEmpty_iff.mp hvalid
  have haccepts := check_review_report_clean hcheck
  obtain ⟨expected, hexpected, hkeys, -⟩ := h.expected
  obtain rfl := Except.ok.inj (hexpected.symm.trans haccepts.expected)
  obtain ⟨reviews, hitems, hall, -, -⟩ :=
    claim_reviews_clean hkeys (by exact haccepts.seen) List.nodup_nil
  obtain ⟨scope, hscope, hverdict⟩ := check_scope_clean.mp haccepts.scope
  refine ⟨report_typed h haccepts.hashes haccepts.overall haccepts.omissions,
    not_blank_is_str (summary_clean hcheck), ?_, scope, hscope, in_strings_is_str hverdict⟩
  refine ⟨reviews.map Prod.snd, ?_, fun item hitem => ?_⟩
  · rw [haccepts.reviews, hitems, List.map_map]
    rfl
  · obtain ⟨x, hx, rfl⟩ := List.mem_map.mp hitem
    obtain ⟨hid, packet, hpacket, hclean⟩ := hall x hx
    obtain ⟨hruled, allowed, hallowed, hgrounded, -⟩ := check_claim_clean.mp hclean
    refine ⟨hgrounded.typed (h.allowed hexpected hpacket hallowed) (in_strings_is_str hruled), ?_⟩
    rw [hid]
    rfl

/-- A merged claim that was accepted has the types of one. -/
theorem merged_claim_typed {passes : ℤ} {packet : Json} {fs : List FromPass} {item : Dict}
    {id : String} (h : MergedClaim passes packet fs item) (hid : Dict.get item "claim_id" = .str id)
    (hstrings : ∀ allowed, resolved_refs packet = .ok allowed → Strings allowed) :
    MergedClaimTyped item := by
  obtain ⟨allowed, hallowed, hall⟩ := h.from_pass
  refine ⟨by rw [hid]; rfl, by rw [h.verdict]; rfl, ⟨_, h.flagged_in⟩,
    eq_int_is_num h.of_passes, ?_⟩
  refine ⟨fs.map FromPass.item, ?_, fun f hf => ?_⟩
  · rw [h.findings, List.map_map]
    rfl
  · obtain ⟨f, hmem, rfl⟩ := List.mem_map.mp hf
    have hfinding := hall f hmem
    have hverdict : (Dict.get f.item "verdict").is_str = true := by
      rw [hfinding.stated]
      rfl
    exact ⟨hfinding.toGrounded.typed (hstrings allowed hallowed) hverdict, _, hfinding.pass⟩

/-- Lists that are equal item by item have one length. -/
theorem eqList_length : ∀ {xs ys : List Json}, Json.eqList xs ys = true → xs.length = ys.length
  | [], [], _ => rfl
  | [], _ :: _, h => by simp [Json.eqList] at h
  | _ :: _, [], h => by simp [Json.eqList] at h
  | x :: xs, y :: ys, h => by
    rw [Json.eqList, Bool.and_eq_true] at h
    rw [List.length_cons, List.length_cons, eqList_length h.2]

/-- Values that equal pass numbers one by one are numbers. -/
theorem eqList_ints_num : ∀ {xs : List Json} {ns : List ℤ}, Json.eqList xs (ns.map .int) = true →
    ∀ x ∈ xs, x.is_num = true
  | [], _, _ => fun x hx => absurd hx List.not_mem_nil
  | _ :: _, [], h => by simp [Json.eqList] at h
  | x :: xs, n :: ns, h => by
    rw [List.map_cons, Json.eqList, Bool.and_eq_true] at h
    exact List.forall_mem_cons.mpr ⟨eq_int_is_num h.1, eqList_ints_num h.2⟩

/-- A list with as many objects as members has nothing but objects. -/
theorem dicts_length_eq {items : List Json} (h : (dicts items).length = items.length) :
    items = (dicts items).map .obj := by
  refine (objs_of_dicts fun x hx => ?_).symm
  have hsome := List.filterMap_length_eq_length.mp h x hx
  cases x with
  | obj item => exact ⟨item, rfl⟩
  | _ => cases hsome

/-- The records of the passes are objects with the number of their pass. -/
theorem per_pass_typed {aggregate : Dict} {passes : ℤ} {items : List Json}
    (h : Clean (per_pass_of aggregate passes) items) :
    Dict.get aggregate "per_pass" = .list items ∧
      ∃ ds : List Dict, items = ds.map .obj ∧ ∀ d ∈ ds, (Dict.get d "pass").is_num = true := by
  unfold per_pass_of at h
  split at h
  · rename_i values hvalues
    split at h
    · exact absurd (clean_seq.mp h).1 (not_clean_complain _ _)
    · rename_i hlength
      rw [not_not] at hlength
      obtain ⟨hnumbers, h⟩ := clean_seq.mp h
      obtain rfl := clean_pure.mp h
      rw [clean_complain_if, Bool.not_eq_false'] at hnumbers
      have hall := eqList_length hnumbers
      rw [List.length_map, pass_numbers, List.length_map, List.length_range] at hall
      refine ⟨hvalues, dicts values, dicts_length_eq (by omega), fun d hd => ?_⟩
      have hints : pass_numbers passes =
          ((List.range passes.toNat).map fun n : ℕ => (n : ℤ) + 1).map .int := by
        rw [pass_numbers, List.map_map]
        rfl
      rw [hints] at hnumbers
      exact eqList_ints_num hnumbers _ (List.mem_map_of_mem hd)
  · exact absurd (clean_seq.mp h).1 (not_clean_complain _ _)

theorem is_bool_eq {b : Bool} {x : Json} (h : x.is_bool b = true) : x = .bool b := by
  cases x with
  | bool c => rw [beq_iff_eq.mp h]
  | _ => cases h

theorem eq_list_is_list {x : Json} {ys : List Json} (h : x.eq (.list ys) = true) :
    ∃ xs, x = .list xs := by
  cases x with
  | list xs => exact ⟨xs, rfl⟩
  | float y => cases y <;> simp [Json.eq, Json.num] at h
  | _ => simp [Json.eq, Json.num] at h

/-- The aggregate of an accepted report has its types. -/
theorem aggregate_typed {aggregate : Dict} {passes : ℤ} {u : Unit} {n : ℤ} {status : Bool}
    (h : Clean (check_per_pass aggregate passes) u)
    (hexpected : (Dict.get aggregate "claims_expected").eq (.int n) = true)
    (hstatus : (Dict.get aggregate "deterministic_clean").is_bool status = true) :
    AggregateTyped aggregate := by
  unfold check_per_pass at h
  obtain ⟨per_pass, hkept, h⟩ := clean_bind.mp h
  obtain ⟨hinvalid, h⟩ := clean_seq.mp h
  obtain ⟨hreport, hvalid⟩ := clean_seq.mp h
  rw [clean_complain_if, Bool.not_eq_false'] at hinvalid hreport hvalid
  obtain ⟨hlist, ds, rfl, hnumbers⟩ := per_pass_typed hkept
  refine ⟨⟨_, is_bool_eq hreport⟩, ⟨status, is_bool_eq hstatus⟩, eq_int_is_num hexpected,
    eq_list_is_list hinvalid, ds, hlist, fun d hd => ⟨hnumbers d hd, true, ?_⟩⟩
  rw [Bool.and_eq_true, List.isEmpty_iff, List.map_eq_nil_iff, List.filter_eq_nil_iff,
    dicts_of_objs]
    at hvalid
  exact is_bool_eq (by simpa using hvalid.2 d hd)

/-- A merged report that was found valid has the types of one, in every field that the validator
looks at. -/
theorem union_typed (h : WellFormedBundle review_bundle) {v : Validation}
    (hv : validate_merged_review_report rt report review_bundle = .ok v)
    (hvalid : v.report_valid = true) : UnionTyped report := by
  obtain ⟨r, aggregate, passes, haccepts⟩ := validate_merged_valid.mp ⟨v, hv, hvalid⟩
  obtain ⟨expected, hexpected, hkeys, -⟩ := h.expected
  obtain rfl := Except.ok.inj (hexpected.symm.trans haccepts.expected)
  -- what has been checked without a complaint has the types the checks ask for
  obtain ⟨reviews, hitems, hall, -, -⟩ :=
    claim_reviews_clean hkeys (by exact haccepts.seen) List.nodup_nil
  obtain ⟨status, -, hstatus⟩ := haccepts.deterministic
  obtain ⟨hflagged, hcounts⟩ := clean_seq.mp haccepts.flags
  obtain ⟨hunanimous, hsingle⟩ := clean_seq.mp hcounts
  rw [clean_complain_if, Bool.not_eq_false'] at hflagged hunanimous hsingle
  refine ⟨report_typed h haccepts.hashes haccepts.overall haccepts.omissions,
    ⟨passes, (check_passes_clean.mp haccepts.count).1⟩,
    ⟨reviews.map Prod.snd, ?_, fun item hitem => ?_⟩,
    eq_int_is_num hflagged, eq_int_is_num hunanimous, eq_int_is_num hsingle,
    ⟨aggregate, haccepts.validation,
      aggregate_typed haccepts.per_pass haccepts.claims_expected hstatus⟩, ?_, ?_⟩
  · rw [haccepts.reviews, hitems, List.map_map]
    rfl
  · obtain ⟨x, hx, rfl⟩ := List.mem_map.mp hitem
    obtain ⟨hid, packet, hpacket, hclean⟩ := hall x hx
    obtain ⟨fs, hclaim⟩ := check_merged_claim_clean.mp hclean
    exact merged_claim_typed hclaim hid fun allowed => h.allowed hexpected hpacket
  · have hprovenance := haccepts.provenance
    unfold check_provenance at hprovenance
    rw [clean_complain_if] at hprovenance
    cases hvalue : Dict.get report "review_provenance" with
    | list items => exact ⟨items, rfl⟩
    | _ =>
      rw [hvalue] at hprovenance
      cases hprovenance
  · rcases check_merged_scopes_clean.mp haccepts.scopes with hnull | ⟨scopes, hscopes, -, hscope⟩
    · exact .inl hnull
    · refine .inr ⟨scopes, hscopes, fun item hitem => ?_⟩
      obtain ⟨n, hn, rfl⟩ := List.getElem_of_mem hitem
      have hone := hscope (scopes[n], 1 + n) (List.mk_mem_zipIdx_iff_le_and_getElem?_sub.mpr
        ⟨by omega, by simp [hn]⟩)
      exact ⟨eq_int_is_num hone.pass, in_strings_is_str hone.verdict, not_blank_is_str hone.reason⟩

/-! ## The whole -/

/-- **Validators are total** where they can be: they return a result, invalid where a type is wrong,
exactly when no list or object stands where they look a value up, and no other value where they run
through one. -/
theorem validators_total_iff (h : WellFormedBundle review_bundle) (report : Dict) :
    ((∃ v, validate_review_report rt report review_bundle = .ok v ∧
        (¬ SingleTyped report → v.report_valid = false)) ↔ SingleReadable review_bundle report) ∧
    ((∃ v, validate_merged_review_report rt report review_bundle = .ok v ∧
        (¬ UnionTyped report → v.report_valid = false)) ↔ UnionReadable review_bundle report) ∧
    ∀ adjudication, (∃ v, validate_review_artifact rt report review_bundle adjudication = .ok v ∧
        ((Dict.contains report "passes" = true ∧ ¬ UnionTyped report) ∨
          (Dict.contains report "passes" = false ∧ ¬ SingleTyped report) →
            v.review.report_valid = false)) ↔
      ReportReadable review_bundle report ∧ Collectable report ∧
        ∀ a, adjudication = some a → RulingsReadable (finding_ids rt report) a := by
  -- a report that is found valid has the types it should, so an ill-typed one is not
  have hsingle : ∀ v, validate_review_report rt report review_bundle = .ok v →
      ¬ SingleTyped report → v.report_valid = false := by
    intro v hv htyped
    by_contra hvalid
    exact htyped (single_typed h hv (Bool.not_eq_false _ |>.mp hvalid))
  have hunion : ∀ v, validate_merged_review_report rt report review_bundle = .ok v →
      ¬ UnionTyped report → v.report_valid = false := by
    intro v hv htyped
    by_contra hvalid
    exact htyped (union_typed h hv (Bool.not_eq_false _ |>.mp hvalid))
  refine ⟨?_, ?_, fun adjudication => ?_⟩
  · rw [← @validate_review_report_returns rt report _ h]
    exact ⟨fun ⟨v, hv, _⟩ => ⟨v, hv⟩, fun ⟨v, hv⟩ => ⟨v, hv, hsingle v hv⟩⟩
  · rw [← @validate_merged_review_report_returns rt report _ h]
    exact ⟨fun ⟨v, hv, _⟩ => ⟨v, hv⟩, fun ⟨v, hv⟩ => ⟨v, hv, hunion v hv⟩⟩
  · rw [← @validate_review_artifact_returns rt report _ h]
    refine ⟨fun ⟨v, hv, _⟩ => ⟨v, hv⟩, fun ⟨v, hv⟩ => ⟨v, hv, ?_⟩⟩
    unfold validate_review_artifact validate_report at hv
    obtain ⟨review, hreview, hv⟩ := Except.bind_ok.mp hv
    obtain ⟨ruled, -, hv⟩ := Except.bind_ok.mp hv
    obtain ⟨found, -, hv⟩ := Except.bind_ok.mp hv
    obtain ⟨too_few, -, hv⟩ := Except.bind_ok.mp hv
    cases hv
    rintro (⟨hmerged, htyped⟩ | ⟨hmerged, htyped⟩)
    · rw [hmerged, if_pos rfl] at hreview
      exact hunion review hreview htyped
    · rw [hmerged, if_neg (by simp)] at hreview
      exact hsingle review hreview htyped

theorem drift_bundle_well_formed : WellFormedBundle drift_bundle where
  claim_packets := by
    refine ⟨[[("claim_id", .str "C1"),
      ("citations", .list [.obj [("resolved_ref", .str "mem:m-1")]])]], rfl, ?_⟩
    rintro p (- | ⟨_, ⟨⟩⟩)
    refine ⟨⟨"C1", rfl⟩, [[("resolved_ref", .str "mem:m-1")]], rfl, ?_⟩
    rintro c (- | ⟨_, ⟨⟩⟩)
    exact .inr ⟨"mem:m-1", rfl⟩
  uncited_evidence := by
    refine ⟨[[("ref", .str "mem:m-2")]], rfl, ?_⟩
    rintro item (- | ⟨_, ⟨⟩⟩)
    exact ⟨"mem:m-2", rfl⟩
  article_sha256 := ⟨"a", rfl⟩
  article_markdown := ⟨_, rfl⟩
  deterministic_report := ⟨_, rfl⟩

/-- A report that gives its verdict as a list, and one whose claim reviews are a number. -/
theorem listed_verdict_raises :
    (¬ ∃ v, validate_review_report .plain [("overall_verdict", .list [.str "pass"])] drift_bundle =
      .ok v) ∧
    (¬ ∃ v, validate_merged_review_report .plain
      [("passes", .int 1), ("overall_verdict", .list [.str "pass"])] drift_bundle = .ok v) ∧
    ¬ ∃ v, validate_review_artifact .plain [("claim_reviews", .int 5)] drift_bundle none =
      .ok v := by
  refine ⟨?_, ?_, ?_⟩
  · rw [validate_review_report_returns drift_bundle_well_formed]
    exact fun h => absurd h.overall (by decide)
  · rw [validate_merged_review_report_returns drift_bundle_well_formed]
    exact fun h => absurd h.overall (by decide)
  · rw [validate_review_artifact_returns drift_bundle_well_formed]
    exact fun h => absurd h.2.1.claims (by decide)

/-- A report on the claim of the bundle, with fields of other types than they should have. -/
def mistyped : Dict :=
  [("summary", .int 3), ("overall_verdict", .bool true), ("scope_review", .list []),
    ("claim_reviews",
      .list [.obj [("claim_id", .str "C1"), ("verdict", .str "supported"), ("confidence", .int 1),
        ("reason", .list []), ("suggested_rewrite", .null),
        ("evidence_refs", .list [.str "mem:m-1", .int 2])]]),
    ("omission_reviews", .list [.obj [("severity", .null), ("finding", .bool false)], .int 5])]

/-- It is judged, not raised upon, and is found not valid. -/
theorem mistyped_report_judged :
    ∃ v, validate_review_artifact .plain mistyped drift_bundle none = .ok v ∧
      v.review.report_valid = false := by
  obtain ⟨-, -, hartifact⟩ := @validators_total_iff .plain _ drift_bundle_well_formed mistyped
  have hsingle : SingleReadable drift_bundle mistyped := by
    refine ⟨?_, fun scope h => (nomatch h), rfl, ?_⟩
    · rintro item (- | ⟨_, ⟨⟩⟩)
      refine ⟨rfl, fun packet hpacket => ?_⟩
      have hfound : (packet_of drift_bundle (.str "C1")).map evidence_of = some [.str "mem:m-1"] :=
        rfl
      have hallowed : evidence_of packet = [.str "mem:m-1"] := by
        change packet_of drift_bundle (.str "C1") = some packet at hpacket
        rw [hpacket] at hfound
        exact Option.some.inj hfound
      rw [hallowed]
      exact ⟨rfl, rfl, by decide⟩
    · rintro item (- | ⟨_, ⟨⟩⟩)
      exact ⟨rfl, by decide⟩
  have hcollect : Collectable mistyped := ⟨rfl, fun h => (nomatch h), rfl, fun h => (nomatch h)⟩
  obtain ⟨v, hv, hvalid⟩ := (hartifact none).mpr
    ⟨⟨fun h => (nomatch h), fun _ => hsingle⟩, hcollect, fun a h => (nomatch h)⟩
  have htyped : ¬ SingleTyped mistyped := fun h => absurd h.summary (by decide)
  exact ⟨v, hv, hvalid (.inr ⟨rfl, htyped⟩)⟩

end Memline.wiki
