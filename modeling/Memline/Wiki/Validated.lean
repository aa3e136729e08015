/-
What a validator has checked when it has nothing to complain about.

A run without complaints is a clean `Check`, so the rules of clean checks read the checks
off the code, one lemma for each function.
-/
import Memline.Wiki.ReviewReport

set_option autoImplicit false

namespace Memline.wiki

open Py Check

variable {rt : Runtime}

/-! ## Small checks -/

/-- A value is among texts exactly when it is one of them. -/
theorem in_strings_true {x : Json} {s : List String} :
    x.in_strings s = .ok true ↔ ∃ t ∈ s, x = .str t := by
  have helem : x.elem (s.map .str) = true ↔ ∃ t ∈ s, x = .str t := by
    rw [Json.elem, List.any_eq_true]
    constructor
    · rintro ⟨y, hy, heq⟩
      obtain ⟨t, ht, rfl⟩ := List.mem_map.mp hy
      exact ⟨t, ht, Json.eq_str.mp heq⟩
    · rintro ⟨t, ht, rfl⟩
      exact ⟨.str t, List.mem_map_of_mem ht, by simp⟩
  rw [← helem]
  unfold Json.in_strings Json.in_set
  by_cases hx : x.hashable = true
  · rw [if_pos hx, Except.ok.injEq]
  · rw [if_neg hx]
    constructor
    · intro h
      cases h
    · intro h
      obtain ⟨t, -, rfl⟩ := helem.mp h
      exact absurd rfl hx

/-- What is not blank is a text with more than blanks. -/
theorem not_blank {x : Json} (h : blank x = false) : ∃ s, x = .str s ∧ Mem0.strip s ≠ "" := by
  cases x with
  | str s => exact ⟨s, rfl, by simpa [blank] using h⟩
  | _ => simp [blank] at h

/-- A hash is accepted exactly when it is the expected one. -/
theorem clean_check_hash {kind field : String} {value expected : Json} {u : Unit} :
    Clean (check_hash kind field value expected) u ↔ value.eq expected = true := by
  rw [check_hash, clean_complain_if, Bool.not_eq_false']

theorem clean_list_or_complain {value : Json} {kind : String} {about : Dict} {items : List Json} :
    Clean (list_or_complain value kind about) items ↔ value = .list items := by
  cases value with
  | list xs =>
    change Clean (pure xs) items ↔ _
    rw [clean_pure, Json.list.injEq]
  | _ =>
    refine ⟨fun h => ?_, fun h => (nomatch h)⟩
    exact absurd (clean_seq.mp h).1 (not_clean_complain _ _)


@[simp] theorem entries_list (xs : List Json) : entries (.list xs) = .ok xs := by
  cases xs with
  | nil => rfl
  | cons x xs => rfl

@[simp] theorem dicts_map {α : Type} (f : α → Dict) (xs : List α) :
    dicts (xs.map fun x => .obj (f x)) = xs.map f := by
  induction xs with
  | nil => rfl
  | cons x xs ih =>
    change f x :: dicts (xs.map fun x => .obj (f x)) = _
    rw [ih, List.map_cons]

/-- What both validators begin with, when there is nothing to complain about. -/
theorem check_hashes_clean {report bundle : Dict} {u : Unit} :
    Clean (check_hashes rt report bundle) u ↔
      Dict.get bundle "review_bundle_sha256" =
        .str (content_hash rt bundle "review_bundle_sha256") ∧
      (Dict.get report "article_sha256").eq (Dict.get bundle "article_sha256") = true ∧
      (Dict.get report "review_bundle_sha256").eq (Dict.get bundle "review_bundle_sha256") =
        true := by
  unfold check_hashes
  rw [clean_seq, clean_seq, clean_complain_if, clean_check_hash, clean_check_hash,
    Bool.not_eq_false', Json.eq_str]

/-! ## The packets of the bundle -/

/-- The ids of the claim packets are strings, as the compiler of bundles writes them. -/
def StringIds (review_bundle : Dict) : Prop :=
  ∀ packets, entries (Dict.get review_bundle "claim_packets") = .ok packets →
    ∀ packet ∈ packets, ∀ id, packet.item "claim_id" = .ok id → ∃ s, id = .str s

/-- What holds of every claim id holds of the keys of the packets. -/
theorem packets_by_id_keys {review_bundle : Dict} {expected : Map Json} {P : Json → Prop}
    (hexpected : packets_by_id review_bundle = .ok expected)
    (h : ∀ packets, entries (Dict.get review_bundle "claim_packets") = .ok packets →
      ∀ packet ∈ packets, ∀ id, packet.item "claim_id" = .ok id → P id) :
    ∀ key ∈ expected.keys, P key := by
  obtain ⟨packets, hpackets, hfold⟩ := Except.bind_ok.mp hexpected
  refine Except.foldlM_ok (P := fun m : Map Json => ∀ key ∈ m.keys, P key) hfold
    (by simp [Map.keys]) fun m packet hpacket m' hm hstep => ?_
  obtain ⟨id, hid, hset⟩ := Except.bind_ok.mp hstep
  unfold Map.set at hset
  split at hset
  · cases hset
    intro key hkey
    rcases Map.mem_keys_put hkey with hkey | rfl
    · exact hm key hkey
    · exact h packets hpackets packet hpacket _ hid
  · cases hset

/-- The keys of the packets are strings then. -/
theorem StringIds.keys {review_bundle : Dict} (h : StringIds review_bundle) {expected : Map Json}
    (hexpected : packets_by_id review_bundle = .ok expected) :
    ∀ key ∈ expected.keys, ∃ s, key = .str s := packets_by_id_keys hexpected h

/-! ## Claim reviews -/

/-- A clean loop over claim reviews has met each claim once, has a packet for it and has
looked into its review. -/
theorem claim_reviews_clean {expected : Map Json}
    {check : Json → Json → Dict → Check Error Json Unit}
    (hkeys : ∀ key ∈ expected.keys, ∃ s, key = .str s) {items seen : List Json} {ids : List String}
    (h : Clean (items.foldlM (check_claim_review expected check) (ids.map .str)) seen)
    (hids : ids.Nodup) :
    ∃ reviews : List (String × Dict), items = reviews.map (fun x => .obj x.2) ∧
      (∀ x ∈ reviews, Dict.get x.2 "claim_id" = .str x.1 ∧
        ∃ packet, expected.find (.str x.1) = some packet ∧ Clean (check (.str x.1) packet x.2) ()) ∧
      ((reviews.map Prod.fst).reverse ++ ids).Nodup ∧
      seen = ((reviews.map Prod.fst).reverse ++ ids).map .str := by
  -- the ids seen so far are those of the items read, the last one first
  induction items generalizing ids with
  | nil =>
    rw [clean_nil] at h
    subst h
    exact ⟨[], rfl, by simp, hids, rfl⟩
  | cons item items ih =>
    obtain ⟨u, hfirst, hrest⟩ := clean_cons.mp h
    unfold check_claim_review at hfirst
    cases item with
    | obj review =>
      simp only at hfirst
      obtain ⟨again, hagain, h₁⟩ := clean_bind.mp hfirst
      obtain ⟨hnew, h₂⟩ := clean_seq.mp h₁
      rw [clean_complain_if] at hnew
      rw [clean_lift, hnew] at hagain
      cases hfind : expected.find (Dict.get review "claim_id") with
      | none =>
        rw [hfind] at h₂
        exact absurd (clean_seq.mp h₂).1 (not_clean_complain _ _)
      | some packet =>
        rw [hfind] at h₂
        obtain ⟨hcheck, h₃⟩ := clean_seq.mp h₂
        rw [clean_pure] at h₃
        obtain ⟨key, hkey, heq⟩ := Map.find_mem hfind
        obtain ⟨id, rfl⟩ := hkeys key (List.mem_map_of_mem hkey)
        have hid := Json.str_eq.mp heq
        rw [hid] at hagain hfind hcheck h₃
        have hfresh : id ∉ ids := by
          intro hmem
          unfold Json.in_set at hagain
          rw [if_pos (by rfl), Except.ok.injEq, Json.elem, List.any_eq_false] at hagain
          exact hagain (.str id) (List.mem_map_of_mem hmem) (by simp)
        rw [← h₃, ← List.map_cons] at hrest
        obtain ⟨reviews, rfl, hall, hnodup, hseen⟩ := ih hrest (List.nodup_cons.mpr ⟨hfresh, hids⟩)
        refine ⟨(id, review) :: reviews, rfl, ?_, ?_, ?_⟩
        · intro x hx
          rcases List.mem_cons.mp hx with rfl | hx
          · exact ⟨hid, packet, hfind, hcheck⟩
          · exact hall x hx
        · simpa using hnodup
        · simpa using hseen
    | _ => exact absurd (clean_seq.mp hfirst).1 (not_clean_complain _ _)

/-! ## One claim review -/

/-- What both kinds of claim findings have to say. -/
structure Grounded (allowed : List Json) (item : Dict) : Prop where
  confidence : (Dict.get item "confidence").in_strings CONFIDENCE = .ok true
  reason : blank (Dict.get item "reason") = false
  rewrite : (Dict.get item "suggested_rewrite").is_str = true
  evidence : unknown_evidence ((Dict.get item "evidence_refs").or_else (.list [])) allowed =
      .ok false

/-- A condition that may raise is accepted exactly when it holds. -/
theorem clean_lift_complain {x : Result Bool} {k : Json} {u : Unit} :
    Clean (do let b ← lift x; complain_if (!b) k) u ↔ x = .ok true := by
  rw [clean_bind]
  constructor
  · rintro ⟨b, hb, h⟩
    rw [clean_lift] at hb
    rw [clean_complain_if, Bool.not_eq_false'] at h
    rw [hb, h]
  · rintro rfl
    exact ⟨true, rfl, rfl⟩

/-- What a claim must have for its review to be accepted, each condition of the source. -/
theorem check_claim_clean {claim_id packet : Json} {item : Dict} {u : Unit} :
    Clean (check_claim claim_id packet item) u ↔
      (Dict.get item "verdict").in_strings CLAIM_VERDICTS = .ok true ∧
      ∃ allowed, resolved_refs packet = .ok allowed ∧ Grounded allowed item ∧
        ((Dict.get item "verdict").eq (.str "supported") &&
          !((Dict.get item "evidence_refs").or_else (.list [])).truthy) = false := by
  unfold check_claim
  simp only [clean_bind, clean_lift, clean_complain_if, Bool.not_eq_false']
  constructor
  · rintro ⟨ruled, hruled, ⟨⟩, hr, sure, hsure, ⟨⟩, hs, ⟨⟩, hreason, ⟨⟩, hrewrite, allowed,
      hallowed, outside, houtside, h⟩
    subst hr hs
    split at h
    · exact absurd h (not_clean_complain _ _)
    · rename_i hout
      rw [Bool.not_eq_true] at hout
      subst hout
      rw [clean_complain_if] at h
      exact ⟨hruled, allowed, hallowed, ⟨hsure, hreason, hrewrite, houtside⟩, h⟩
  · rintro ⟨hruled, allowed, hallowed, ⟨hsure, hreason, hrewrite, houtside⟩, h⟩
    refine ⟨true, hruled, (), rfl, true, hsure, (), rfl, (), hreason, (), hrewrite,
      allowed, hallowed, false, houtside, ?_⟩
    rw [if_neg (by simp), clean_complain_if]
    exact h

/-! ## One finding of a merged claim -/

/-- A pass is noted exactly when it is a number of a pass that was not noted yet. -/
theorem note_pass_clean {passes : ℤ} {claim_id : Json} {s s' : PassFindings} {value : Json} :
    Clean (note_pass passes claim_id s value) s' ↔
      ∃ n, value = .int n ∧ 1 ≤ n ∧ n ≤ passes ∧ n ∉ s.passes ∧
        s' = { s with passes := n :: s.passes } := by
  unfold note_pass
  constructor
  · intro h
    cases value with
    | int n =>
      simp only at h
      split at h
      · exact absurd (clean_seq.mp h).1 (not_clean_complain _ _)
      · rename_i hrange
        split at h
        · exact absurd (clean_seq.mp h).1 (not_clean_complain _ _)
        · rw [clean_pure] at h
          exact ⟨n, rfl, by omega, by omega, ‹_›, h.symm⟩
    | _ => exact absurd (clean_seq.mp h).1 (not_clean_complain _ _)
  · rintro ⟨n, rfl, hlow, hhigh, hnew, rfl⟩
    simp only
    rw [if_neg (by omega), if_neg hnew]
    exact clean_pure.mpr rfl

/-- A verdict is noted exactly when it is one, and not `supported`. -/
theorem note_verdict_clean {claim_id : Json} {s s' : PassFindings} {value : Json} :
    Clean (note_verdict claim_id s value) s' ↔
      ∃ verdict ∈ CLAIM_VERDICTS, value = .str verdict ∧ verdict ≠ "supported" ∧
        s' = { s with verdicts := s.verdicts ++ [verdict] } := by
  unfold note_verdict
  rw [clean_bind]
  constructor
  · rintro ⟨ruled, hruled, h⟩
    rw [clean_lift] at hruled
    cases value with
    | str verdict =>
      simp only at h
      split at h
      · exact absurd (clean_seq.mp h).1 (not_clean_complain _ _)
      · rename_i hnot
        rw [not_or, Bool.not_eq_false] at hnot
        rw [hnot.1] at hruled
        obtain ⟨v, hv, heq⟩ := in_strings_true.mp hruled
        cases heq
        exact ⟨verdict, hv, rfl, hnot.2, (clean_pure.mp h).symm⟩
    | _ => exact absurd (clean_seq.mp h).1 (not_clean_complain _ _)
  · rintro ⟨verdict, hv, rfl, hne, rfl⟩
    refine ⟨true, clean_lift.mpr (in_strings_true.mpr ⟨verdict, hv, rfl⟩), ?_⟩
    simp only
    rw [if_neg (by simp [hne])]
    exact clean_pure.mpr rfl

/-- A finding that a pass numbered `n` has left on a merged claim. -/
structure MergedFinding (passes : ℤ) (allowed : List Json) (n : ℤ) (verdict : String)
    (item : Dict) :
    Prop extends Grounded allowed item where
  pass : Dict.get item "pass" = .int n
  low : 1 ≤ n
  high : n ≤ passes
  stated : Dict.get item "verdict" = .str verdict
  ruled : verdict ∈ CLAIM_VERDICTS
  flagged : verdict ≠ "supported"

/-- A finding of a merged claim is accepted exactly when it is one of a pass that was not noted
yet. -/
theorem check_merged_finding_clean {passes : ℤ} {claim_id : Json} {allowed : List Json}
    {s s' : PassFindings} {value : Json} :
    Clean (check_merged_finding passes claim_id allowed s value) s' ↔
      ∃ item n verdict, value = .obj item ∧ MergedFinding passes allowed n verdict item ∧
        n ∉ s.passes ∧ s' = ⟨n :: s.passes, s.verdicts ++ [verdict]⟩ := by
  unfold check_merged_finding
  constructor
  · intro h
    cases value with
    | obj item =>
      simp only [clean_bind, clean_lift, clean_complain_if, Bool.not_eq_false', clean_pure] at h
      obtain ⟨s₁, hpass, s₂, hverdict, sure, hsure, ⟨⟩, hs, ⟨⟩, hreason, ⟨⟩, hrewrite, outside,
        houtside, ⟨⟩, hout, rfl⟩ := h
      subst hs hout
      obtain ⟨n, hn, hlow, hhigh, hnew, rfl⟩ := note_pass_clean.mp hpass
      obtain ⟨verdict, hruled, hv, hflagged, rfl⟩ := note_verdict_clean.mp hverdict
      exact ⟨item, n, verdict, rfl,
        ⟨⟨hsure, hreason, hrewrite, houtside⟩, hn, hlow, hhigh, hv, hruled, hflagged⟩, hnew, rfl⟩
    | _ => exact absurd (clean_seq.mp h).1 (not_clean_complain _ _)
  · rintro ⟨item, n, verdict, rfl, h, hnew, rfl⟩
    simp only [clean_bind, clean_lift, clean_complain_if, Bool.not_eq_false', clean_pure]
    exact ⟨_, note_pass_clean.mpr ⟨n, h.pass, h.low, h.high, hnew, rfl⟩, _,
      note_verdict_clean.mpr ⟨verdict, h.ruled, h.stated, h.flagged, rfl⟩, true, h.confidence, (),
      rfl, (), h.reason, (), h.rewrite, false, h.evidence, (), rfl, rfl⟩

/-- One finding with its pass number and its verdict. -/
structure FromPass where
  pass : ℤ
  verdict : String
  item : Dict

/-- The loop over the findings of a merged claim is clean when each is a finding of a pass
of its own. -/
theorem merged_findings_clean {passes : ℤ} {claim_id : Json} {allowed : List Json}
    {s s' : PassFindings} {items : List Json} :
    Clean (items.foldlM (check_merged_finding passes claim_id allowed) s) s' ↔
      ∃ fs : List FromPass, items = fs.map (fun f => .obj f.item) ∧
        (∀ f ∈ fs, MergedFinding passes allowed f.pass f.verdict f.item) ∧
        (fs.map FromPass.pass).Nodup ∧ (∀ f ∈ fs, f.pass ∉ s.passes) ∧
        s' = ⟨(fs.map FromPass.pass).reverse ++ s.passes,
          s.verdicts ++ fs.map FromPass.verdict⟩ := by
  -- the passes seen so far stand before those of the findings that are left
  induction items generalizing s with
  | nil =>
    rw [clean_nil]
    constructor
    · rintro rfl
      exact ⟨[], rfl, by simp, List.nodup_nil, by simp, by simp⟩
    · rintro ⟨fs, hfs, -, -, -, rfl⟩
      obtain rfl : fs = [] := by simpa using hfs.symm
      simp
  | cons value items ih =>
    rw [clean_cons]
    constructor
    · rintro ⟨u, hfirst, hrest⟩
      obtain ⟨item, n, verdict, rfl, hitem, hnew, rfl⟩ := check_merged_finding_clean.mp hfirst
      obtain ⟨fs, rfl, hall, hnodup, hfresh, rfl⟩ := ih.mp hrest
      refine ⟨⟨n, verdict, item⟩ :: fs, rfl, ?_, ?_, ?_, by simp⟩
      · intro f hf
        rcases List.mem_cons.mp hf with rfl | hf
        · exact hitem
        · exact hall f hf
      · refine List.nodup_cons.mpr ⟨fun hmem => ?_, hnodup⟩
        obtain ⟨f, hf, heq⟩ := List.mem_map.mp hmem
        exact hfresh f hf (heq ▸ List.mem_cons_self)
      · intro f hf
        rcases List.mem_cons.mp hf with rfl | hf
        · exact hnew
        · exact fun hmem => hfresh f hf (List.mem_cons_of_mem _ hmem)
    · rintro ⟨fs, hfs, hall, hnodup, hfresh, rfl⟩
      cases fs with
      | nil => cases hfs
      | cons f fs =>
        obtain ⟨rfl, rfl⟩ := List.cons.inj hfs
        obtain ⟨hf, hnodup⟩ := List.nodup_cons.mp hnodup
        refine ⟨⟨f.pass :: s.passes, s.verdicts ++ [f.verdict]⟩, ?_, ?_⟩
        · exact check_merged_finding_clean.mpr ⟨f.item, f.pass, f.verdict, rfl,
            hall f List.mem_cons_self, hfresh f List.mem_cons_self, rfl⟩
        · refine ih.mpr ⟨fs, rfl, fun g hg => hall g (List.mem_cons_of_mem _ hg),
            hnodup, ?_, by simp⟩
          intro g hg hmem
          rcases List.mem_cons.mp hmem with heq | hmem
          · exact hf (heq ▸ List.mem_map_of_mem hg)
          · exact hfresh g (List.mem_cons_of_mem _ hg) hmem

/-- What a merged claim review has to say. -/
structure MergedClaim (passes : ℤ) (packet : Json) (fs : List FromPass) (item : Dict) : Prop where
  flagged_in : Dict.get item "flagged_in" = .int fs.length
  bounded : (fs.length : ℤ) ≤ passes
  of_passes : (Dict.get item "of_passes").eq (.int passes) = true
  findings : Dict.get item "findings" = .list (fs.map fun f => .obj f.item)
  from_pass : ∃ allowed, resolved_refs packet = .ok allowed ∧
    ∀ f ∈ fs, MergedFinding passes allowed f.pass f.verdict f.item
  distinct : (fs.map FromPass.pass).Nodup
  verdict : Dict.get item "verdict" = .str (strictest (fs.map FromPass.verdict))
  ruled : strictest (fs.map FromPass.verdict) ∈ CLAIM_VERDICTS

/-- A merged claim is accepted exactly when it is one. -/
theorem check_merged_claim_clean {passes : ℤ} {claim_id packet : Json} {item : Dict} {u : Unit} :
    Clean (check_merged_claim passes claim_id packet item) u ↔
      ∃ fs, MergedClaim passes packet fs item := by
  unfold check_merged_claim
  simp only [clean_bind, clean_lift, clean_complain_if, Bool.not_eq_false', clean_list_or_complain,
    merged_findings_clean]
  constructor
  · rintro ⟨ruled, hruled, ⟨⟩, hr, ⟨⟩, hflagged, ⟨⟩, hof, items, hitems, allowed, hallowed, s,
      ⟨fs, rfl, hall, hnodup, -, rfl⟩, ⟨⟩, hcount, hverdict⟩
    subst hr
    refine ⟨fs, ?_⟩
    have hv := Json.eq_str.mp hverdict
    simp only [List.nil_append] at hv
    -- the number of findings is an integer, and not merely equal to one
    cases hn : Dict.get item "flagged_in" with
    | int n =>
      rw [hn] at hflagged hcount
      simp only [Option.any_some, decide_eq_true_eq, decide_eq_false_iff_not, not_not,
        List.length_map] at hflagged hcount
      subst hcount
      refine ⟨by rw [hn], hflagged.2, hof, hitems, ⟨allowed, hallowed, hall⟩, hnodup, hv, ?_⟩
      obtain ⟨v, hv', heq⟩ := in_strings_true.mp hruled
      rw [hv] at heq
      cases heq
      exact hv'
    | _ =>
      rw [hn] at hflagged
      cases hflagged
  · rintro ⟨fs, h⟩
    obtain ⟨allowed, hallowed, hall⟩ := h.from_pass
    refine ⟨true, ?_, (), rfl, (), ?_, (), h.of_passes, _, h.findings, allowed, hallowed, _,
      ⟨fs, rfl, hall, h.distinct, by simp, rfl⟩, (), ?_, ?_⟩
    · exact in_strings_true.mpr ⟨_, h.ruled, h.verdict⟩
    · rw [h.flagged_in]
      simpa using h.bounded
    · rw [h.flagged_in]
      simp
    · rw [h.verdict]
      simp

/-! ## The rest of a merged report -/

/-- A scope review that a merged report keeps of pass `n`. -/
structure MergedScope (n : ℕ) (item : Dict) : Prop where
  pass : (Dict.get item "pass").eq (.int n) = true
  verdict : (Dict.get item "verdict").in_strings SCOPE_VERDICTS = .ok true
  reason : blank (Dict.get item "reason") = false

/-- A scope review of a merged report is accepted exactly when it is that of its pass. -/
theorem check_merged_scope_clean {entry : Json × ℕ} {u : PUnit} :
    Clean (check_merged_scope entry) u ↔
      ∃ item, entry.1 = .obj item ∧ MergedScope entry.2 item := by
  obtain ⟨value, n⟩ := entry
  unfold check_merged_scope
  constructor
  · intro h
    cases value with
    | obj item =>
      simp only at h
      split at h
      · exact absurd h (not_clean_complain _ _)
      · rename_i hpass
        rw [Bool.not_eq_true, Bool.not_eq_false'] at hpass
        obtain ⟨known, hknown, h⟩ := clean_bind.mp h
        rw [clean_lift] at hknown
        rw [clean_complain_if, Bool.or_eq_false_iff, Bool.not_eq_false'] at h
        exact ⟨item, rfl, hpass, by rw [hknown, h.1], h.2⟩
    | _ => exact absurd h (not_clean_complain _ _)
  · rintro ⟨item, rfl, hpass, hverdict, hreason⟩
    simp only
    rw [if_neg (by simp [hpass])]
    refine clean_bind.mpr ⟨true, clean_lift.mpr hverdict, ?_⟩
    rw [clean_complain_if, hreason]
    rfl

/-- The scope reviews are accepted exactly when there are none, or one of each pass. -/
theorem check_merged_scopes_clean {scope_reviews : Json} {passes : ℤ} {u : PUnit} :
    Clean (check_merged_scopes scope_reviews passes) u ↔
      scope_reviews = .null ∨ ∃ scopes : List Dict,
        scope_reviews = .list (scopes.map fun item => .obj item) ∧ (scopes.length : ℤ) = passes ∧
          ∀ e ∈ scopes.zipIdx 1, MergedScope e.2 e.1 := by
  unfold check_merged_scopes
  constructor
  · intro h
    cases scope_reviews with
    | null => exact .inl rfl
    | list items =>
      simp only at h
      split at h
      · exact absurd h (not_clean_complain _ _)
      · rename_i hlength
        rw [not_not] at hlength
        rw [clean_forM] at h
        have hall : ∀ e ∈ items.zipIdx 1, ∃ item, e.1 = .obj item ∧ MergedScope e.2 item :=
          fun e he => check_merged_scope_clean.mp (h e he)
        -- entries that are all objects are the entries of a list of objects, at the same
        -- places
        have hdicts : ∀ (xs : List Json) (n : ℕ),
            (∀ e ∈ xs.zipIdx n, ∃ item, e.1 = .obj item ∧ MergedScope e.2 item) →
              ∃ scopes : List Dict, xs = scopes.map (fun item => .obj item) ∧
                ∀ e ∈ scopes.zipIdx n, MergedScope e.2 e.1 := by
          intro xs
          induction xs with
          | nil => exact fun _ _ => ⟨[], rfl, by simp⟩
          | cons x xs ih =>
            intro n hxs
            rw [List.zipIdx_cons] at hxs
            obtain ⟨item, hitem, hscope⟩ := hxs _ List.mem_cons_self
            obtain ⟨scopes, rfl, hscopes⟩ := ih (n + 1) fun e he =>
              hxs e (List.mem_cons_of_mem _ he)
            refine ⟨item :: scopes, ?_, ?_⟩
            · rw [List.map_cons, ← hitem]
            · rw [List.zipIdx_cons]
              exact List.forall_mem_cons.mpr ⟨hscope, hscopes⟩
        obtain ⟨scopes, rfl, hscopes⟩ := hdicts items 1 hall
        exact .inr ⟨scopes, rfl, by simpa using hlength, hscopes⟩
    | _ => exact absurd h (not_clean_complain _ _)
  · rintro (rfl | ⟨scopes, rfl, hlength, hall⟩)
    · exact clean_pure.mpr rfl
    · simp only
      rw [if_neg (by simpa using hlength), clean_forM]
      intro e he
      rw [List.zipIdx_map] at he
      obtain ⟨e', he', rfl⟩ := List.mem_map.mp he
      exact check_merged_scope_clean.mpr ⟨e'.1, rfl, hall e' he'⟩

/-- The number of passes is accepted exactly when it is one. -/
theorem check_passes_clean {value : Json} {passes : ℤ} :
    Clean (check_passes value) passes ↔ value = .int passes ∧ 1 ≤ passes := by
  unfold check_passes
  constructor
  · intro h
    cases value with
    | int n =>
      simp only at h
      split at h
      · rw [clean_pure] at h
        exact ⟨congrArg _ h, h ▸ ‹_›⟩
      · exact absurd (clean_seq.mp h).1 (not_clean_complain _ _)
    | _ => exact absurd (clean_seq.mp h).1 (not_clean_complain _ _)
  · rintro ⟨rfl, hpasses⟩
    simp only
    rw [if_pos hpasses]
    exact clean_pure.mpr rfl

/-- The aggregate is the validation of the report. -/
theorem aggregate_of_clean {report aggregate : Dict} :
    Clean (aggregate_of report) aggregate ↔ Dict.get report "validation" = .obj aggregate := by
  unfold aggregate_of
  constructor
  · intro h
    split at h
    · rename_i heq
      rw [heq, clean_pure.mp h]
    · exact absurd (clean_seq.mp h).1 (not_clean_complain _ _)
  · intro h
    rw [h]
    exact clean_pure.mpr rfl

/-! ## The whole of a single-pass report -/

/-- What a single-pass report without complaints has gone through. -/
structure Reviewed.Accepts (rt : Runtime) (report review_bundle : Dict) (r : Reviewed) : Prop where
  hashes : Clean (check_hashes rt report review_bundle) ()
  expected : packets_by_id review_bundle = .ok r.expected
  reviews : Dict.get report "claim_reviews" = .list r.reviews
  seen : Clean (r.reviews.foldlM (check_claim_review r.expected check_claim) []) r.seen
  complete : Clean (check_complete r.expected r.seen) ()
  scope : Clean (check_scope (Dict.get report "scope_review")) ()
  overall : Clean (check_overall report) ()
  omissions : Clean (validate_omission_reviews report review_bundle) r.omissions

/-- What the validator of one review has accepted. -/
theorem check_review_report_clean {report review_bundle : Dict} {r : Reviewed}
    (h : Clean (check_review_report rt report review_bundle) r) :
    r.Accepts rt report review_bundle := by
  unfold check_review_report at h
  obtain ⟨hhashes, h⟩ := clean_seq.mp h
  obtain ⟨-, h⟩ := clean_seq.mp h
  obtain ⟨expected, hexpected, h⟩ := clean_bind.mp h
  obtain ⟨items, hitems, h⟩ := clean_bind.mp h
  obtain ⟨seen, hseen, h⟩ := clean_bind.mp h
  obtain ⟨hcomplete, h⟩ := clean_seq.mp h
  obtain ⟨hscope, h⟩ := clean_seq.mp h
  obtain ⟨hoverall, h⟩ := clean_seq.mp h
  obtain ⟨omissions, homissions, h⟩ := clean_bind.mp h
  rw [clean_pure] at h
  subst h
  exact ⟨hhashes, clean_lift.mp hexpected, clean_list_or_complain.mp hitems, hseen,
    hcomplete, hscope, hoverall, homissions⟩

/-- A valid single-pass report has been accepted, and its validation is the summary. -/
theorem validate_review_report_valid {report review_bundle : Dict} {v : Validation}
    (h : validate_review_report rt report review_bundle = .ok v) (hvalid : v.report_valid = true) :
    ∃ (r : Reviewed) (deterministic : Bool), r.Accepts rt report review_bundle ∧
      deterministic_status review_bundle = .ok deterministic ∧
      v = summarize report r [] deterministic (match Dict.get report "scope_review" with
        | .obj scope => in_scope scope
        | _ => false) true := by
  unfold validate_review_report at h
  obtain ⟨⟨r, findings⟩, hcheck, h⟩ := Except.bind_ok.mp h
  obtain ⟨deterministic, hdet, h⟩ := Except.bind_ok.mp h
  cases h
  obtain rfl : findings = [] := List.isEmpty_iff.mp hvalid
  exact ⟨r, deterministic, check_review_report_clean hcheck, hdet, rfl⟩

/-! ## The whole of a merged report -/

/-- What a merged report without complaints has gone through. -/
structure Reviewed.AcceptsMerged (rt : Runtime) (report review_bundle aggregate : Dict) (passes : ℤ)
    (r : Reviewed) : Prop where
  hashes : Clean (check_hashes rt report review_bundle) ()
  count : Clean (check_passes (Dict.get report "passes")) passes
  expected : packets_by_id review_bundle = .ok r.expected
  reviews : Dict.get report "claim_reviews" = .list r.reviews
  seen :
      Clean (r.reviews.foldlM (check_claim_review r.expected (check_merged_claim passes)) []) r.seen
  complete : Clean (check_complete r.expected r.seen) ()
  flags : Clean (check_flag_counts report passes r.reviews) ()
  omissions : Clean (validate_omission_reviews report review_bundle) r.omissions
  validation : Dict.get report "validation" = .obj aggregate
  per_pass : Clean (check_per_pass aggregate passes) ()
  claims_expected : (Dict.get aggregate "claims_expected").eq (.int r.expected.length) = true
  deterministic : ∃ status, deterministic_status review_bundle = .ok status ∧
    (Dict.get aggregate "deterministic_clean").is_bool status = true
  overall : Clean (check_overall report) ()
  provenance : Clean (check_provenance (Dict.get report "review_provenance") passes) ()
  scopes : Clean (check_merged_scopes (Dict.get report "scope_reviews") passes) ()

/-- What the validator of merged reviews accepts, and nothing else. -/
theorem check_merged_report_clean {report review_bundle aggregate : Dict} {r : Reviewed} :
    Clean (check_merged_report rt report review_bundle) (r, aggregate) ↔
      ∃ passes, r.AcceptsMerged rt report review_bundle aggregate passes := by
  unfold check_merged_report
  constructor
  · intro h
    -- check by check, in the order of the source
    obtain ⟨hhashes, h⟩ := clean_seq.mp h
    obtain ⟨passes, hpasses, h⟩ := clean_bind.mp h
    obtain ⟨expected, hexpected, h⟩ := clean_bind.mp h
    obtain ⟨items, hitems, h⟩ := clean_bind.mp h
    obtain ⟨seen, hseen, h⟩ := clean_bind.mp h
    obtain ⟨hcomplete, h⟩ := clean_seq.mp h
    obtain ⟨hflags, h⟩ := clean_seq.mp h
    obtain ⟨omissions, homissions, h⟩ := clean_bind.mp h
    obtain ⟨found, haggregate, h⟩ := clean_bind.mp h
    obtain ⟨hper_pass, h⟩ := clean_seq.mp h
    obtain ⟨hclaims, h⟩ := clean_seq.mp h
    obtain ⟨status, hstatus, h⟩ := clean_bind.mp h
    obtain ⟨hdet, h⟩ := clean_seq.mp h
    obtain ⟨hoverall, h⟩ := clean_seq.mp h
    obtain ⟨hprovenance, h⟩ := clean_seq.mp h
    obtain ⟨hscopes, h⟩ := clean_seq.mp h
    rw [clean_pure, Prod.mk.injEq] at h
    obtain ⟨rfl, rfl⟩ := h
    rw [clean_complain_if, Bool.not_eq_false'] at hclaims hdet
    exact ⟨passes, hhashes, hpasses, clean_lift.mp hexpected,
      clean_list_or_complain.mp hitems, hseen, hcomplete, hflags, homissions,
      aggregate_of_clean.mp haggregate, hper_pass, hclaims,
      ⟨status, clean_lift.mp hstatus, hdet⟩, hoverall, hprovenance, hscopes⟩
  · rintro ⟨passes, h⟩
    obtain ⟨status, hstatus, hdet⟩ := h.deterministic
    refine clean_seq.mpr ⟨h.hashes, clean_bind.mpr ⟨passes, h.count, ?_⟩⟩
    refine clean_bind.mpr ⟨_, clean_lift.mpr h.expected, ?_⟩
    refine clean_bind.mpr ⟨_, clean_list_or_complain.mpr h.reviews, clean_bind.mpr ⟨_, h.seen, ?_⟩⟩
    refine clean_seq.mpr ⟨h.complete, clean_seq.mpr ⟨h.flags, ?_⟩⟩
    refine clean_bind.mpr ⟨_, h.omissions,
      clean_bind.mpr ⟨_, aggregate_of_clean.mpr h.validation, ?_⟩⟩
    refine clean_seq.mpr ⟨h.per_pass, clean_seq.mpr ⟨?_, ?_⟩⟩
    · rw [clean_complain_if, h.claims_expected]
      rfl
    refine clean_bind.mpr ⟨status, clean_lift.mpr hstatus, clean_seq.mpr ⟨?_, ?_⟩⟩
    · rw [clean_complain_if, hdet]
      rfl
    exact clean_seq.mpr ⟨h.overall, clean_seq.mpr ⟨h.provenance, clean_seq.mpr ⟨h.scopes,
      clean_pure.mpr rfl⟩⟩⟩

/-- A merged report is valid when its checks are clean. -/
theorem validate_merged_valid {report review_bundle : Dict} :
    (∃ v, validate_merged_review_report rt report review_bundle = .ok v ∧ v.report_valid = true) ↔
      ∃ r aggregate passes, Reviewed.AcceptsMerged rt report review_bundle aggregate passes r := by
  constructor
  · rintro ⟨v, h, hvalid⟩
    unfold validate_merged_review_report at h
    obtain ⟨⟨⟨r, aggregate⟩, findings⟩, hcheck, h⟩ := Except.bind_ok.mp h
    obtain ⟨status, -, h⟩ := Except.bind_ok.mp h
    cases h
    obtain rfl : findings = [] := List.isEmpty_iff.mp hvalid
    obtain ⟨passes, haccepts⟩ := check_merged_report_clean.mp hcheck
    exact ⟨r, aggregate, passes, haccepts⟩
  · rintro ⟨r, aggregate, passes, h⟩
    obtain ⟨status, hstatus, -⟩ := h.deterministic
    have hcheck : check_merged_report rt report review_bundle = .ok ((r, aggregate), []) :=
      check_merged_report_clean.mpr ⟨passes, h⟩
    unfold validate_merged_review_report
    exact ⟨_, Except.bind_ok.mpr ⟨_, hcheck, Except.bind_ok.mpr ⟨status, hstatus, rfl⟩⟩, rfl⟩

/-- The status of the bundle in the validation of a merged report. -/
theorem validate_merged_deterministic {report review_bundle : Dict} {v : Validation} {status : Bool}
    (h : validate_merged_review_report rt report review_bundle = .ok v)
    (hstatus : deterministic_status review_bundle = .ok status) :
    v.deterministic_clean = status := by
  unfold validate_merged_review_report at h
  obtain ⟨⟨⟨r, aggregate⟩, findings⟩, -, h⟩ := Except.bind_ok.mp h
  obtain ⟨status', hstatus', h⟩ := Except.bind_ok.mp h
  rw [hstatus, Except.ok.injEq] at hstatus'
  cases h
  exact hstatus'.symm

end Memline.wiki
