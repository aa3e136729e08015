/-
Whether the merge of valid passes is a valid merged report.

Both validators ask for the same hashes, claims, evidence and omissions, so all of that
carries over. They differ in one field: the merged report has to give a reason for the
scope review of every pass, which the validator of a single pass does not ask for.
-/
import Memline.Wiki.Accumulation

set_option autoImplicit false

namespace Memline.wiki

open Py Check

variable {rt : Runtime} {review_bundle : Dict} {s : Subject} {rs : List Dict} {ps : List Pass}

/-- A pass gives a reason for its scope review. -/
def scope_reasoned (report : Dict) : Bool :=
  match Dict.get report "scope_review" with
  | .obj scope => !blank (Dict.get scope "reason")
  | _ => false

/-! ## Claims -/

/-- The loop over claim reviews is clean when each is about a claim of its own. -/
theorem claim_reviews_clean_of {expected : Map Json}
    {check : Json → Json → Dict → Check Error Json Unit} {ids : List String} {entry : String → Dict}
    (hid : ∀ id ∈ ids, Dict.get (entry id) "claim_id" = .str id)
    (hcheck : ∀ id ∈ ids, ∃ packet, expected.find (.str id) = some packet ∧
      Clean (check (.str id) packet (entry id)) ())
    {seen : List String} (hnodup : (ids.reverse ++ seen).Nodup) :
    Clean ((ids.map fun id => Json.obj (entry id)).foldlM (check_claim_review expected check)
      (seen.map .str)) ((ids.reverse ++ seen).map .str) := by
  induction ids generalizing seen with
  | nil => exact clean_nil.mpr rfl
  | cons id ids ih =>
    rw [List.reverse_cons, List.append_assoc, List.singleton_append] at hnodup ⊢
    obtain ⟨packet, hfind, hclean⟩ := hcheck id List.mem_cons_self
    have hfresh : id ∉ seen := (List.nodup_cons.mp (List.nodup_append.mp hnodup).2.1).1
    rw [List.map_cons, clean_cons]
    refine ⟨(id :: seen).map .str, ?_, ?_⟩
    · unfold check_claim_review
      simp only
      rw [hid id List.mem_cons_self, hfind]
      refine clean_bind.mpr ⟨false, ?_, clean_seq.mpr ⟨clean_complain_if.mpr rfl, ?_⟩⟩
      · have hnot : Json.elem (.str id) (seen.map .str) = false := by
          rw [Json.elem, List.any_eq_false]
          intro y hy
          obtain ⟨t, ht, rfl⟩ := List.mem_map.mp hy
          rw [Json.eq_str_str, decide_eq_true_eq]
          exact fun heq => hfresh (heq ▸ ht)
        rw [clean_lift, Json.in_set, if_pos (by rfl), hnot]
      · exact clean_seq.mpr ⟨hclean, clean_pure.mpr rfl⟩
    · exact ih (fun j hj => hid j (List.mem_cons_of_mem _ hj))
        (fun j hj => hcheck j (List.mem_cons_of_mem _ hj)) hnodup

/-! ## What passes have against a claim -/

theorem enumerate_fst (start : ℤ) {α : Type} (xs : List α) :
    ((enumerate start xs).map Prod.fst).Pairwise (· < ·) ∧
      ∀ n ∈ (enumerate start xs).map Prod.fst, start ≤ n ∧ n < start + xs.length := by
  induction xs generalizing start with
  | nil => exact ⟨.nil, by simp [enumerate]⟩
  | cons x xs ih =>
    obtain ⟨hpair, hrange⟩ := ih (start + 1)
    refine ⟨List.pairwise_cons.mpr ⟨fun n hn => ?_, hpair⟩,
      List.forall_mem_cons.mpr ⟨?_, fun n hn => ?_⟩⟩
    · have := hrange n hn
      omega
    · rw [List.length_cons]
      omega
    · have := hrange n hn
      rw [List.length_cons]
      omega

/-- A pass has at most one thing against a claim, under its own number. -/
theorem flags_fst (start : ℤ) (ps : List Pass) (id : String) :
    ((flags start ps id).map Prod.fst).Sublist ((enumerate start ps).map Prod.fst) := by
  induction ps generalizing start with
  | nil => exact .slnil
  | cons p ps ih =>
    change ((flagged_by start p.reviews id ++ flags (start + 1) ps id).map Prod.fst).Sublist
      (start :: (enumerate (start + 1) ps).map Prod.fst)
    have hone : flagged_by start p.reviews id = [] ∨
        ∃ item, flagged_by start p.reviews id = [(start, item)] := by
      unfold flagged_by
      split
      · unfold flag
        split
        · exact .inl rfl
        · exact .inr ⟨_, rfl⟩
      · exact .inl rfl
    rcases hone with hnil | ⟨item, hitem⟩
    · rw [hnil, List.nil_append]
      exact (ih (start + 1)).cons start
    · rw [hitem, List.singleton_append, List.map_cons]
      exact (ih (start + 1)).cons_cons start

/-- What is flagged is a review of the claim that does not say "supported". -/
theorem flags_review (h : List.Forall₂ (Reads rt review_bundle s) rs ps) {packet : Json}
    {id : String} (hpacket : s.expected.find (.str id) = some packet) (start : ℤ) :
    ∀ e ∈ flags start ps id, Clean (check_claim (.str id) packet e.2) () ∧
      (Dict.get e.2 "verdict").eq (.str "supported") = false := by
  induction h generalizing start with
  | nil => exact fun e he => absurd he List.not_mem_nil
  | @cons r p rs ps hr _ ih =>
    intro e he
    change e ∈ flagged_by start p.reviews id ++ flags (start + 1) ps id at he
    rcases List.mem_append.mp he with he | he
    · unfold flagged_by at he
      split at he
      · rename_i item hlookup
        unfold flag at he
        split at he
        · exact absurd he List.not_mem_nil
        · rename_i hverdict
          rw [List.mem_singleton.mp he]
          obtain ⟨before, after, heq, -⟩ := List.lookup_eq_some_iff.mp hlookup
          have hmem : (id, item) ∈ p.reviews := heq ▸ List.mem_append_right _ List.mem_cons_self
          exact ⟨hr.checked (id, item) hmem packet hpacket, Bool.not_eq_true _ ▸ hverdict⟩
      · exact absurd he List.not_mem_nil
    · exact ih (start + 1) e he

/-- The strictest verdict is among them, or `supported`. -/
theorem strictest_mem (vs : List String) : strictest vs ∈ "supported" :: vs := by
  cases vs with
  | nil => exact List.mem_singleton_self _
  | cons v vs =>
    have hfold : ∀ (ws : List String) (w : String), (ws.foldl (fun best v =>
        if (VERDICT_RANK.lookup best).getD 0 < (VERDICT_RANK.lookup v).getD 0 then v else best) w) ∈
          w :: ws := by
      intro ws
      induction ws with
      | nil => exact fun w => List.mem_singleton_self w
      | cons x ws ih =>
        intro w
        rw [List.foldl_cons]
        split
        · exact List.mem_cons_of_mem _ (ih x)
        · rcases List.mem_cons.mp (ih w) with h | h
          · rw [h]
            exact List.mem_cons_self
          · exact List.mem_cons_of_mem _ (List.mem_cons_of_mem _ h)
    exact List.mem_cons_of_mem _ (hfold vs v)

/-- The evidence of a packet can be read once a pass has reviewed its claim. -/
theorem resolved_refs_ok (h : List.Forall₂ (Reads rt review_bundle s) rs ps) (hne : ps ≠ [])
    {packet : Json} {id : String} (hid : id ∈ s.ids)
    (hpacket : s.expected.find (.str id) = some packet) :
    ∃ allowed, resolved_refs packet = .ok allowed := by
  cases h with
  | nil => exact absurd rfl hne
  | cons hr _ =>
    obtain ⟨x, hx, rfl⟩ := List.mem_map.mp (hr.ids.mem_iff.mpr hid)
    obtain ⟨-, allowed, hallowed, -⟩ := check_claim_clean.mp (hr.checked x hx packet hpacket)
    exact ⟨allowed, hallowed⟩

theorem enumerate_length {α : Type} (start : ℤ) (xs : List α) :
    (enumerate start xs).length = xs.length := by
  induction xs generalizing start with
  | nil => rfl
  | cons x xs ih => rw [enumerate, List.length_cons, ih, List.length_cons]

/-- A claim of the merged report is one that its validator accepts. -/
theorem claim_entry_accepted (h : List.Forall₂ (Reads rt review_bundle s) rs ps) (hne : ps ≠ [])
    {packet : Json} {id : String} (hid : id ∈ s.ids)
    (hpacket : s.expected.find (.str id) = some packet) :
    Clean (check_merged_claim ps.length (.str id) packet (claim_entry ps.length id (flags 0 ps id)))
      () := by
  obtain ⟨hpair, hrange⟩ := enumerate_fst 0 ps
  have hsublist := flags_fst 0 ps id
  have hreview := flags_review h hpacket 0
  let from_pass : ℤ × Dict → FromPass := fun e =>
    ⟨e.1 + 1, (Dict.get e.2 "verdict").text, pass_finding e.1 e.2⟩
  have hverdicts : ((flags 0 ps id).map from_pass).map FromPass.verdict =
      (flags 0 ps id).map fun e => (Dict.get e.2 "verdict").text := by
    rw [List.map_map]
    rfl
  have hfindings : (flags 0 ps id).map (fun e => Json.obj (pass_finding e.1 e.2)) =
      ((flags 0 ps id).map from_pass).map fun f => .obj f.item := by
    rw [List.map_map]
    rfl
  -- a flagged review states one of the verdicts
  have hstated : ∀ e ∈ flags 0 ps id, ∃ v ∈ CLAIM_VERDICTS,
      Dict.get e.2 "verdict" = .str v ∧ v ≠ "supported" := by
    intro e he
    obtain ⟨hclean, hne⟩ := hreview e he
    obtain ⟨v, hv, hverdict⟩ := in_strings_true.mp (check_claim_clean.mp hclean).1
    rw [hverdict, Json.eq_str_str, decide_eq_false_iff_not] at hne
    exact ⟨v, hv, hverdict, hne⟩
  have hruled : strictest ((flags 0 ps id).map fun e => (Dict.get e.2 "verdict").text) ∈
      CLAIM_VERDICTS := by
    rcases List.mem_cons.mp (strictest_mem _) with heq | hmem
    · rw [heq]
      decide
    · obtain ⟨e, he, heq⟩ := List.mem_map.mp hmem
      obtain ⟨v, hv, hverdict, -⟩ := hstated e he
      rw [← heq, hverdict]
      exact hv
  have hallowed : ∃ allowed, resolved_refs packet = .ok allowed ∧
      ∀ f ∈ (flags 0 ps id).map from_pass,
      MergedFinding ps.length allowed f.pass f.verdict f.item := by
    obtain ⟨allowed, hallowed⟩ := resolved_refs_ok h hne hid hpacket
    refine ⟨allowed, hallowed, fun f hf => ?_⟩
    obtain ⟨e, he, rfl⟩ := List.mem_map.mp hf
    obtain ⟨hclean, -⟩ := hreview e he
    obtain ⟨-, allowed', hallowed', hgrounded, -⟩ := check_claim_clean.mp hclean
    rw [hallowed, Except.ok.injEq] at hallowed'
    subst hallowed'
    obtain ⟨v, hv, hverdict, hnot⟩ := hstated e he
    have hindex := hrange e.1 (hsublist.subset (List.mem_map_of_mem he))
    have htext : (Dict.get e.2 "verdict").text = v := by rw [hverdict]; rfl
    have hpass : (from_pass e).pass = e.1 + 1 := rfl
    have hfrom : (from_pass e).verdict = v := htext
    refine ⟨⟨hgrounded.confidence, hgrounded.reason, hgrounded.rewrite, hgrounded.evidence⟩, rfl,
      ?_, ?_, ?_, ?_, ?_⟩
    · omega
    · omega
    · exact hverdict.trans (congrArg Json.str htext.symm)
    · rw [hfrom]
      exact hv
    · rw [hfrom]
      exact hnot
  refine check_merged_claim_clean.mpr ⟨(flags 0 ps id).map from_pass, ?_, ?_, ?_, ?_,
    hallowed, ?_, ?_, ?_⟩
  · rw [List.length_map]
    rfl
  · have := hsublist.length_le
    rw [List.length_map, List.length_map, enumerate_length] at this
    rw [List.length_map]
    omega
  · exact (Json.eq_int_int _ _).trans (decide_eq_true rfl)
  · rw [← hfindings]
    rfl
  · rw [List.map_map]
    have hdistinct : ((flags 0 ps id).map Prod.fst).Nodup :=
      (hpair.imp fun h => ne_of_lt h).sublist hsublist
    have hmap : (flags 0 ps id).map (FromPass.pass ∘ from_pass) =
        ((flags 0 ps id).map Prod.fst).map (· + 1) := by
      rw [List.map_map]
      rfl
    rw [hmap]
    exact hdistinct.map (add_left_injective 1)
  · rw [hverdicts]
    rfl
  · rw [hverdicts]
    exact hruled

/-! ## Omissions -/

/-- A quote is accepted exactly when it is in the article. -/
theorem check_quote_clean {article : Json} {n : ℕ} {quote : String} {u : Unit} :
    Clean (check_quote article n quote) u ↔ article.contains_str quote = .ok true := by
  rw [check_quote, clean_lift_complain]

/-- What an omission quotes does not depend on its place in the list. -/
theorem check_quotes_clean {article : Json} {m n : ℕ} {item item' : Dict} {u : Unit}
    (hquotes : Dict.get item' "article_quotes" = Dict.get item "article_quotes")
    (hkind : Dict.get item' "kind" = Dict.get item "kind")
    (hseverity : Dict.get item' "severity" = Dict.get item "severity")
    (h : Clean (check_quotes article m item) u) : Clean (check_quotes article n item') u := by
  unfold check_quotes at h ⊢
  rw [hquotes, hkind, hseverity]
  simp only at h ⊢
  split at h
  · exact absurd h (not_clean_complain _ _)
  · rename_i hleak
    rw [if_neg hleak]
    split at h
    · exact clean_pure.mpr rfl
    · split at h
      · rw [clean_forM] at h ⊢
        exact fun quote hquote => check_quote_clean.mpr (check_quote_clean.mp (h quote hquote))
      · exact absurd h (not_clean_complain _ _)
    · exact absurd h (not_clean_complain _ _)

/-- An omission that is accepted in its pass is accepted in the merge. -/
theorem check_omission_in_pass {known : List Json} {article : Json} {m n : ℕ} {index : ℤ}
    {item : Dict} {u : Unit} (h : Clean (check_omission known article (.obj item, m)) u) :
    Clean (check_omission known article (.obj (in_pass index item), n)) u := by
  have hget : ∀ field, field ≠ "pass" →
      Dict.get (in_pass index item) field = Dict.get item field :=
    fun field hne => Dict.get_set_ne item (.int (index + 1)) hne
  unfold check_omission at h ⊢
  simp only [clean_bind, clean_lift, clean_complain_if, Bool.not_eq_false'] at h ⊢
  obtain ⟨graded, hgraded, ⟨⟩, rfl, ⟨⟩, hfinding, unknown, hunknown, ⟨⟩, rfl, hquotes⟩ := h
  rw [hget _ (by decide), hget _ (by decide), hget _ (by decide)]
  exact ⟨true, hgraded, (), rfl, (), hfinding, false, hunknown, (), rfl,
    check_quotes_clean (hget _ (by decide)) (hget _ (by decide)) (hget _ (by decide)) hquotes⟩

/-- The omissions of all passes. -/
def omitted (start : ℤ) (ps : List Pass) : List Dict :=
  (enumerate start ps).flatMap fun e => e.2.omissions.map fun item => in_pass e.1 item

theorem merged_omissions_eq (start : ℤ) (ps : List Pass) :
    merged_omissions start ps = (omitted start ps).map .obj := by
  rw [merged_omissions, omitted, List.map_flatMap]
  simp only [List.map_map]
  rfl

theorem omitted_accepted (h : List.Forall₂ (Reads rt review_bundle s) rs ps) {known : List Json}
    (hknown : known_evidence review_bundle = .ok known) (start : ℤ) :
    ∀ item ∈ omitted start ps, ∀ n, Clean (check_omission known
      ((Dict.get review_bundle "article_markdown").or_else (.str "")) (.obj item, n)) () := by
  induction h generalizing start with
  | nil => exact fun item hitem => absurd hitem List.not_mem_nil
  | @cons r p rs ps hr _ ih =>
    intro item hitem n
    change item ∈ p.omissions.map (fun item => in_pass start item) ++
      omitted (start + 1) ps at hitem
    rcases List.mem_append.mp hitem with hitem | hitem
    · obtain ⟨item, hmem, rfl⟩ := List.mem_map.mp hitem
      obtain ⟨-, known', hknown', hall⟩ := validate_omission_reviews_clean.mp hr.omitted
      rw [hknown, Except.ok.injEq] at hknown'
      subst hknown'
      obtain ⟨m, hm, rfl⟩ := List.getElem_of_mem hmem
      exact check_omission_in_pass (hall (p.omissions[m], m)
        (List.mk_mem_zipIdx_iff_getElem?.mpr (List.getElem?_eq_getElem hm)))
    · exact ih (start + 1) item hitem n

/-! ## Counters and validations -/

/-- The counters of the merged report are those its validator counts. -/
theorem flag_counts_accepted (s : Subject) (scope_clean : Bool) (ps : List Pass) :
    Clean (check_flag_counts (merged s scope_clean ps) ps.length
      (s.ids.map fun id => .obj (claim_entry ps.length id (flags 0 ps id)))) () := by
  have hflagged : (dicts (s.ids.map fun id =>
      Json.obj (claim_entry ps.length id (flags 0 ps id)))).map
        (fun item => Dict.get item "flagged_in") = s.ids.map fun id =>
          .int (flags 0 ps id).length := by
    rw [dicts_map, List.map_map]
    rfl
  have hpositive : ∀ n : ℕ, positive (.int n) = decide (0 < n) := by
    intro n
    simp [positive]
  have hcount : ∀ P : Json → Bool, ((s.ids.map fun id =>
      Json.int (flags 0 ps id).length).filter P).length =
        s.ids.countP fun id => P (.int (flags 0 ps id).length) := by
    intro P
    rw [← List.countP_eq_length_filter, List.countP_map]
    rfl
  unfold check_flag_counts
  rw [hflagged]
  simp only [List.filter_filter, hcount, clean_seq, clean_complain_if, Bool.not_eq_false']
  refine ⟨(Json.eq_int_int _ _).trans (decide_eq_true ?_),
    (Json.eq_int_int _ _).trans (decide_eq_true ?_),
    (Json.eq_int_int _ _).trans (decide_eq_true ?_)⟩
  · exact congrArg _ (List.countP_congr fun id _ => by rw [hpositive])
  · refine congrArg _ (List.countP_congr fun id _ => ?_)
    simp only [hpositive, Json.eq_int_int, Bool.and_eq_true, decide_eq_true_eq]
    omega
  · refine congrArg _ (List.countP_congr fun id _ => ?_)
    simp only [hpositive, Json.eq_int_int, Bool.and_eq_true, decide_eq_true_eq]
    omega

theorem eqList_ints (ns : List ℤ) : Json.eqList (ns.map .int) (ns.map .int) = true := by
  induction ns with
  | nil => rfl
  | cons n ns ih =>
    rw [List.map_cons, Json.eqList, Json.eq_int_int, ih, decide_eq_true rfl]
    rfl

theorem enumerate_numbers (start : ℤ) {α : Type} (xs : List α) :
    (enumerate start xs).map (fun e => e.1 + 1) =
      (List.range xs.length).map fun n : ℕ => start + n + 1 := by
  induction xs generalizing start with
  | nil => rfl
  | cons x xs ih =>
    rw [enumerate, List.map_cons, ih, List.length_cons, List.range_succ_eq_map, List.map_cons,
      List.map_map]
    congr 1
    · simp
    · refine List.map_congr_left fun n _ => ?_
      simp only [Function.comp, Nat.succ_eq_add_one]
      omega

/-- The validations that are kept are complete, numbered and valid. -/
theorem per_pass_accepted (s : Subject) (scope_clean : Bool) (hne : ps ≠ []) :
    Clean (check_per_pass (merged_validation s scope_clean ps) ps.length) () := by
  have hdicts : dicts (per_pass 0 ps) = (enumerate 0 ps).map fun e =>
      [("pass", .int (e.1 + 1)), ("report_valid", .bool true), ("findings", .list []),
        ("claim_verdict_counts", .obj e.2.validation.claim_verdict_counts)] :=
    dicts_map (fun e : ℤ × Pass => _) _
  -- the entries are numbered from one, in the order of the passes
  have hnumbers : ((dicts (per_pass 0 ps)).map fun item => Dict.get item "pass") =
      pass_numbers ps.length := by
    have hints : pass_numbers ps.length =
        ((enumerate 0 ps).map fun e => e.1 + 1).map .int := by
      rw [enumerate_numbers, List.map_map, pass_numbers, Int.toNat_natCast]
      refine List.map_congr_left fun n _ => ?_
      simp
    rw [hdicts, hints, List.map_map, List.map_map]
    rfl
  have hequal : Json.eqList (pass_numbers ps.length) (pass_numbers ps.length) = true := by
    have hints : pass_numbers ps.length = ((List.range ps.length).map fun n : ℕ => (n : ℤ) + 1).map
        .int := by
      rw [List.map_map, pass_numbers, Int.toNat_natCast]
      rfl
    rw [hints]
    exact eqList_ints _
  have hkept :
      Clean (per_pass_of (merged_validation s scope_clean ps) ps.length) (per_pass 0 ps) := by
    have hlength : ((per_pass 0 ps).length : ℤ) = ps.length := by
      rw [per_pass, List.length_map, enumerate_length]
    unfold per_pass_of
    change Clean (if ((per_pass 0 ps).length : ℤ) ≠ ps.length then _ else _) _
    rw [if_neg (not_not.mpr hlength)]
    refine clean_seq.mpr ⟨?_, clean_pure.mpr rfl⟩
    rw [clean_complain_if, hnumbers, hequal]
    rfl
  have hinvalid : ((dicts (per_pass 0 ps)).filter fun item =>
      !(Dict.get item "report_valid").is_bool true) = [] := by
    rw [hdicts, List.filter_eq_nil_iff]
    intro item hitem
    obtain ⟨e, -, rfl⟩ := List.mem_map.mp hitem
    exact Bool.false_ne_true
  have hnonempty : (per_pass 0 ps).isEmpty = false := by
    cases ps with
    | nil => exact absurd rfl hne
    | cons p ps => rfl
  unfold check_per_pass
  refine clean_bind.mpr ⟨_, hkept, ?_⟩
  simp only [hinvalid, hnonempty, List.map_nil]
  exact clean_seq.mpr ⟨clean_complain_if.mpr rfl, clean_seq.mpr ⟨clean_complain_if.mpr rfl,
    clean_complain_if.mpr rfl⟩⟩

/-- The scope reviews of the merged report, of passes that all give a reason. -/
theorem merged_scopes_accepted (h : List.Forall₂ (Reads rt review_bundle s) rs ps) :
    Clean (check_merged_scopes (.list (merged_scopes 0 ps)) ps.length) () ↔
      ∀ r ∈ rs, scope_reasoned r = true := by
  -- putting in the number of the pass leaves the other fields
  have hget : ∀ (index : ℤ) (item : Dict) (field : String), field ≠ "pass" →
      Dict.get (in_pass index item) field = Dict.get item field :=
    fun index item field hfield => Dict.get_set_ne item (.int (index + 1)) hfield
  have hall :
      ∀ n : ℕ, (∀ e ∈ ((enumerate (n : ℤ) ps).map fun e => in_pass e.1 e.2.scope).zipIdx (n + 1),
        MergedScope e.2 e.1) ↔ ∀ r ∈ rs, scope_reasoned r = true := by
    induction h with
    | nil => simp [enumerate]
    | @cons r p rs ps hr _ ih =>
      intro n
      rw [enumerate, List.map_cons, List.zipIdx_cons, List.forall_mem_cons, List.forall_mem_cons]
      have hrest := ih (n + 1)
      rw [Nat.cast_add, Nat.cast_one] at hrest
      rw [hrest]
      -- a pass that has been read lacks nothing but, perhaps, the reason
      refine and_congr_left fun _ => ?_
      have hreasoned : scope_reasoned r = !blank (Dict.get p.scope "reason") := by
        rw [scope_reasoned, hr.scope]
      rw [hreasoned, Bool.not_eq_true']
      constructor
      · intro hscope
        have hreason := hscope.reason
        rwa [hget _ _ _ (by decide)] at hreason
      · intro hreason
        refine ⟨?_, ?_, ?_⟩
        · rw [in_pass, Dict.get_set_self, Json.eq_int_int]
          simp
        · rw [hget _ _ _ (by decide)]
          exact hr.scope_verdict
        · rwa [hget _ _ _ (by decide)]
  have hobjs : merged_scopes 0 ps =
      ((enumerate 0 ps).map fun e => in_pass e.1 e.2.scope).map fun item => .obj item := by
    rw [List.map_map]
    rfl
  rw [check_merged_scopes_clean, hobjs, ← hall 0]
  constructor
  · rintro (hnull | ⟨scopes, hscopes, -, hmerged⟩)
    · cases hnull
    · rw [Json.list.injEq] at hscopes
      have hsame := List.map_injective_iff.mpr (fun a b => Json.obj.inj) hscopes
      rw [← hsame] at hmerged
      exact hmerged
  · intro hmerged
    refine .inr ⟨_, rfl, ?_, hmerged⟩
    rw [List.length_map, enumerate_length]

/-! ## The whole report -/

/-- **Merges that can be published.** The merge of valid passes is a valid report exactly when each
of them gives a reason for its scope review, which the validator of one pass does not ask for. -/
theorem merged_valid_iff (hcompiled : Compiled review_bundle) (hne : rs ≠ [])
    (hrs : ∀ r ∈ rs, ValidPass rt review_bundle r) :
    ∃ report, merge_reviews rt rs none = .ok report ∧
      ((∃ v, validate_merged_review_report rt report review_bundle = .ok v ∧
        v.report_valid = true) ↔
        ∀ r ∈ rs, scope_reasoned r = true) := by
  obtain ⟨r, hr⟩ := List.exists_mem_of_ne_nil rs hne
  obtain ⟨s, ha⟩ := hcompiled.about (hrs r hr)
  obtain ⟨ps, hps⟩ := ha.reads_all hcompiled hrs
  have hpsne : ps ≠ [] := by
    rintro rfl
    exact hne (List.forall₂_nil_right_iff.mp hps)
  -- every pass is read, so that the merge is computed, on top of nothing
  have hmerge : merge_reviews rt rs none =
      .ok (merged s (ps.all fun p => in_scope p.scope) ([] ++ ps)) :=
    merge_reviews_eq ha hps hne (carries_nil s)
  rw [List.nil_append] at hmerge
  refine ⟨_, hmerge, ?_⟩
  rw [validate_merged_valid, ← merged_scopes_accepted hps]
  constructor
  · rintro ⟨r, aggregate, passes, haccepts⟩
    obtain ⟨hpasses, -⟩ := check_passes_clean.mp haccepts.count
    have hscopes := haccepts.scopes
    rw [← Json.int.inj hpasses] at hscopes
    exact hscopes
  · intro hscopes
    -- what else the validator checks holds of every merge
    have hreviews : ∀ id ∈ s.ids, ∃ packet, s.expected.find (.str id) = some packet ∧
        Clean (check_merged_claim ps.length (.str id) packet
          (claim_entry ps.length id (flags 0 ps id))) () := by
      intro id hid
      obtain ⟨packet, hpacket⟩ := ha.packet id hid
      exact ⟨packet, hpacket, claim_entry_accepted hps hpsne hid hpacket⟩
    have hseen := @claim_reviews_clean_of s.expected (check_merged_claim ps.length) s.ids
      (fun id => claim_entry ps.length id (flags 0 ps id)) (fun _ _ => rfl) hreviews []
      (by rw [List.append_nil]; exact List.nodup_reverse.mpr ha.distinct)
    have hcomplete : ∀ key ∈ s.expected.keys,
        key.elem ((s.ids.reverse ++ []).map Json.str) = true := by
      intro key hkey
      obtain ⟨id, hid, rfl⟩ := ha.complete key hkey
      rw [Json.elem, List.any_eq_true]
      exact ⟨.str id, List.mem_map_of_mem (by simpa using hid), Json.str_eq.mpr rfl⟩
    have homissions : Clean (validate_omission_reviews
        (merged s (ps.all fun p => in_scope p.scope) ps) review_bundle) (omitted 0 ps) := by
      cases hps with
      | nil => exact absurd rfl hne
      | cons hfirst hothers =>
        obtain ⟨-, known, hknown, -⟩ := validate_omission_reviews_clean.mp hfirst.omitted
        refine validate_omission_reviews_clean.mpr ⟨congrArg _ (merged_omissions_eq 0 _),
          known, hknown, fun e he => ?_⟩
        exact omitted_accepted (.cons hfirst hothers) hknown 0 e.1
          (List.fst_mem_of_mem_zipIdx he) e.2
    have hcount : (1 : ℤ) ≤ ps.length := by
      have := List.length_pos_iff.mpr hpsne
      omega
    -- check by check, in the order of the validator
    refine ⟨⟨s.expected, _, _, omitted 0 ps⟩, _, ps.length, ?_,
      check_passes_clean.mpr ⟨rfl, hcount⟩, ha.expected, rfl, hseen,
      check_complete_clean.mpr hcomplete, flag_counts_accepted s _ ps, homissions,
      rfl, per_pass_accepted s _ hpsne, (Json.eq_int_int _ _).trans (decide_eq_true rfl),
      ⟨s.deterministic, ha.deterministic, ?_⟩, ?_, ?_, hscopes⟩
    · exact check_hashes_clean.mpr ⟨ha.bundle.trans (congrArg _ ha.hash),
        ha.article ▸ Json.str_eq.mpr rfl, ha.bundle ▸ Json.str_eq.mpr rfl⟩
    · exact beq_self_eq_true _
    · exact check_overall_clean.mpr ⟨_, worst_mem _, rfl⟩
    · refine clean_complain_if.mpr (decide_eq_false (not_not.mpr ?_))
      rw [List.length_map]

/-- A pass that says of the scope only that it is kept. -/
def unreasoned : Dict := drift_pass "partially_supported" [drift_omission] [] "in_scope"

/-- It is valid, and the report merged from it is not. -/
theorem unreasoned_unpublishable :
    Compiled drift_bundle ∧ ValidPass .plain drift_bundle unreasoned ∧
      ∃ report v, merge_reviews .plain [unreasoned] none = .ok report ∧
        validate_merged_review_report .plain report drift_bundle = .ok v ∧
          v.report_valid = false := by
  refine ⟨drift_compiled, ⟨drift_validation "partially_supported" [drift_omission] "in_scope",
    by decide +kernel, rfl, rfl⟩, ?_⟩
  have hrun : (do
      let report ← merge_reviews .plain [unreasoned] none
      let v ← validate_merged_review_report .plain report drift_bundle
      pure v.report_valid) = (.ok false : Result Bool) := by
    decide +kernel
  obtain ⟨report, hreport, hrun⟩ := Except.bind_ok.mp hrun
  obtain ⟨v, hv, hrun⟩ := Except.bind_ok.mp hrun
  exact ⟨report, v, hreport, hv, Except.ok.inj hrun⟩

/-- The merge of both passes can be published. -/
theorem unmoved_publishable :
    ∃ report, merge_reviews .plain [unmoved, drifted] none = .ok report ∧
      ∃ v, validate_merged_review_report .plain report drift_bundle = .ok v ∧
        v.report_valid = true := by
  have hvalid : ∀ r ∈ [unmoved, drifted], ValidPass .plain drift_bundle r := by
    intro r hr
    rcases List.mem_cons.mp hr with rfl | hr
    · exact unmoved_valid
    · exact List.mem_singleton.mp hr ▸ drifted_valid
  obtain ⟨report, hreport, hiff⟩ := merged_valid_iff drift_compiled (List.cons_ne_nil _ _) hvalid
  refine ⟨report, hreport, hiff.mpr fun r hr => ?_⟩
  rcases List.mem_cons.mp hr with rfl | hr
  · decide +kernel
  · rw [List.mem_singleton.mp hr]
    decide +kernel

end Memline.wiki
