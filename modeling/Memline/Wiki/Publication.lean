/-
What a clean publication gate guarantees.

A run of a validator without complaints is a clean `Check`, so the rules of clean checks
read the checks off the code. For the rulings the loop gives one ruling per expected id;
that the ids are those of different findings comes from the validator of the report,
which has refused duplicate claim reviews and duplicate passes.
-/
import Mathlib.Data.List.Dedup
import Memline.Lib.Lists
import Memline.Wiki.Validated

set_option autoImplicit false

namespace Memline.wiki

open Py Check

variable {rt : Runtime}

/-! ## Rulings -/

/-- A ruling on the finding of that id, complete. -/
structure Rules (finding_id : String) (ruling : Dict) : Prop where
  finding_id : Dict.get ruling "finding_id" = .str finding_id
  decided : (Dict.get ruling "decision" = .str "blocking" ∧
      ∃ c ∈ BLOCKING_CATEGORIES, Dict.get ruling "category" = .str c) ∨
    (Dict.get ruling "decision" = .str "non_blocking" ∧
      ∃ c ∈ NON_BLOCKING_CATEGORIES, Dict.get ruling "category" = .str c)
  reasoned : ∃ text, Dict.get ruling "reason" = .str text ∧ Mem0.strip text ≠ ""

/-- The decision of a ruling is to block. -/
def blocks (ruling : Dict) : Bool := (Dict.get ruling "decision").eq (.str "blocking")

/-- The step lemma: a clean turn has met a complete ruling on a new, expected id. -/
theorem check_ruling_clean {expected : List String} {r r' : Rulings} {entry : Json × ℕ}
    (h : Clean (check_ruling expected r entry) r') :
    ∃ ruling finding_id, entry.1 = .obj ruling ∧ Rules finding_id ruling ∧ finding_id ∉ r.seen ∧
      finding_id ∈ expected ∧ r'.seen = finding_id :: r.seen ∧
      r'.blocking = r.blocking + if blocks ruling then 1 else 0 := by
  obtain ⟨value, index⟩ := entry
  unfold check_ruling at h
  -- down the checks in their order: what is complained about would not be clean
  cases value with
  | obj ruling =>
    simp only at h
    cases hid : Dict.get ruling "finding_id" with
    | str finding_id =>
      rw [hid] at h
      simp only at h
      obtain ⟨hnew, h⟩ := clean_seq.mp h
      rw [clean_complain_if, decide_eq_false_iff_not] at hnew
      split at h
      · exact absurd (clean_seq.mp h).1 (not_clean_complain _ _)
      rename_i hexpected
      rw [not_not] at hexpected
      obtain ⟨decided, hdecided, h⟩ := clean_bind.mp h
      rw [clean_lift] at hdecided
      split at h
      · exact absurd (clean_seq.mp h).1 (not_clean_complain _ _)
      rename_i hknown
      rw [Bool.not_eq_false] at hknown
      subst hknown
      split at h
      · exact absurd (clean_seq.mp h).1 (not_clean_complain _ _)
      rename_i hreason
      obtain ⟨allowed, hallowed, h⟩ := clean_bind.mp h
      rw [clean_lift] at hallowed
      split at h
      · exact absurd (clean_seq.mp h).1 (not_clean_complain _ _)
      rename_i hcategory
      rw [Bool.not_eq_false] at hcategory
      subst hcategory
      rw [clean_pure] at h
      subst h
      refine ⟨ruling, finding_id, rfl, ⟨hid, ?_, not_blank (by simpa using hreason)⟩, hnew,
        hexpected, rfl, ?_⟩
      · -- the categories that were allowed are those of the decision
        obtain ⟨d, hd, hdecision⟩ := in_strings_true.mp hdecided
        rw [in_strings_true] at hallowed
        rw [hdecision] at hallowed ⊢
        rcases List.mem_cons.mp hd with rfl | hd
        · exact .inl ⟨rfl, hallowed⟩
        · obtain rfl := List.mem_singleton.mp hd
          exact .inr ⟨rfl, hallowed⟩
      · rw [blocks]
        split
        · rfl
        · rfl
    | _ =>
      rw [hid] at h
      exact absurd (clean_seq.mp h).1 (not_clean_complain _ _)
  | _ => exact absurd (clean_seq.mp h).1 (not_clean_complain _ _)

/-- The run lemma: a clean loop has met one ruling for each of some new, expected ids. -/
theorem check_rulings_clean {expected : List String} {items : List Json} {n : ℕ} {r r' : Rulings}
    (h : Clean ((items.zipIdx n).foldlM (check_ruling expected) r) r') (hr : r.seen.Nodup) :
    ∃ rulings : List (String × Dict), items = rulings.map (fun x => .obj x.2) ∧
      (∀ x ∈ rulings, Rules x.1 x.2 ∧ x.1 ∈ expected) ∧ r'.seen.Nodup ∧
      r'.seen = (rulings.map Prod.fst).reverse ++ r.seen ∧
      r'.blocking = r.blocking + rulings.countP fun x => blocks x.2 := by
  induction items generalizing n r with
  | nil =>
    rw [List.zipIdx_nil, clean_nil] at h
    subst h
    exact ⟨[], rfl, by simp, hr, rfl, rfl⟩
  | cons item items ih =>
    rw [List.zipIdx_cons, clean_cons] at h
    obtain ⟨u, hfirst, hrest⟩ := h
    obtain ⟨ruling, id, hitem, hrules, hnew, hexpected, hseen, hblocking⟩ :=
      check_ruling_clean hfirst
    have hu : u.seen.Nodup := by
      rw [hseen]
      exact List.nodup_cons.mpr ⟨hnew, hr⟩
    obtain ⟨rulings, rfl, hall, hnodup, hseen', hblocking'⟩ := ih hrest hu
    refine ⟨(id, ruling) :: rulings, ?_, ?_, hnodup, ?_, ?_⟩
    · rw [List.map_cons, ← hitem]
    · intro x hx
      rcases List.mem_cons.mp hx with rfl | hx
      · exact ⟨hrules, hexpected⟩
      · exact hall x hx
    · rw [hseen', hseen, List.map_cons, List.reverse_cons, List.append_assoc, List.singleton_append]
    · rw [hblocking', hblocking, List.countP_cons]
      dsimp only
      omega

/-- The adjudication rules on each of the ids once, and clears it. -/
def Settles (adjudication : Dict) (ids : List String) : Prop :=
  ∃ rulings : List (String × Dict),
    Dict.get adjudication "findings" = .list (rulings.map fun x => .obj x.2) ∧
    (rulings.map Prod.fst).Perm ids ∧
    ∀ x ∈ rulings, Rules x.1 x.2 ∧ Dict.get x.2 "decision" = .str "non_blocking"

/-- The hashes of an adjudication are those of the report. -/
structure Answers (rt : Runtime) (adjudication report : Dict) : Prop where
  article : (Dict.get adjudication "article_sha256").eq (Dict.get report "article_sha256") = true
  bundle : (Dict.get adjudication "review_bundle_sha256").eq
    (Dict.get report "review_bundle_sha256") = true
  report : Dict.get adjudication "review_report_sha256" = .str (review_report_sha256 rt report)

/-- A clean adjudication without a blocking ruling settles every expected id. -/
theorem check_adjudication_clean {adjudication report : Dict} {expected : List String} {r : Rulings}
    (h : Clean (check_adjudication rt adjudication report expected) r) (hnodup : expected.Nodup)
    (hblocking : r.blocking = 0) :
    Settles adjudication expected ∧ Answers rt adjudication report := by
  unfold check_adjudication at h
  obtain ⟨-, h⟩ := clean_seq.mp h
  obtain ⟨harticle, h⟩ := clean_seq.mp h
  obtain ⟨hbundle, h⟩ := clean_seq.mp h
  obtain ⟨hreport, h⟩ := clean_seq.mp h
  obtain ⟨items, hitems, h⟩ := clean_bind.mp h
  obtain ⟨r₁, hloop, h⟩ := clean_bind.mp h
  obtain ⟨hmissing, h⟩ := clean_seq.mp h
  rw [clean_pure] at h
  subst h
  rw [clean_check_hash] at harticle hbundle hreport
  rw [clean_list_or_complain] at hitems
  obtain ⟨rulings, rfl, hall, hseen, hids, hcount⟩ := check_rulings_clean hloop List.nodup_nil
  rw [List.append_nil] at hids
  refine ⟨⟨rulings, hitems, ?_, fun x hx => ⟨(hall x hx).1, ?_⟩⟩, harticle, hbundle,
    Json.eq_str.mp hreport⟩
  · rw [clean_complain_if, Bool.not_eq_false', List.isEmpty_iff, ← List.length_eq_zero_iff,
      List.length_insertionSort, List.length_eq_zero_iff, List.filter_eq_nil_iff] at hmissing
    rw [hids] at hseen
    -- no finding is missing a ruling, none is ruled on twice, and no other is ruled on
    refine (List.perm_ext_iff_of_nodup (List.nodup_reverse.mp hseen) hnodup).mpr fun id => ?_
    constructor
    · intro hid
      obtain ⟨x, hx, rfl⟩ := List.mem_map.mp hid
      exact (hall x hx).2
    · intro hid
      have hin := hmissing id hid
      rw [decide_eq_true_eq, not_not, hids, List.mem_reverse] at hin
      exact hin
  · -- no ruling blocks, so this one does not
    rcases (hall x hx).1.decided with ⟨hdecision, -⟩ | ⟨hdecision, -⟩
    · rw [hblocking, Nat.zero_add, eq_comm, List.countP_eq_zero] at hcount
      have hnot := hcount x hx
      rw [blocks, hdecision] at hnot
      exact absurd (by simp) hnot
    · exact hdecision

/-! ## The ids of findings -/

/-- A pass number as a natural number. -/
theorem toString_pass {n : ℤ} (h : 0 ≤ n) : toString n = toString n.toNat := by
  obtain ⟨k, rfl⟩ := Int.eq_ofNat_of_zero_le h
  rfl

/-- What follows the last colon, and what precedes it. -/
theorem append_colon_inj {a b x y : String} (hx : ':' ∉ x.toList) (hy : ':' ∉ y.toList)
    (h : a ++ ":" ++ x = b ++ ":" ++ y) : a = b ∧ x = y := by
  have hlist := congrArg (fun s => s.toList.reverse) h
  have hcolon : (":" : String).toList.reverse = [':'] := rfl
  simp only [String.toList_append, List.reverse_append, hcolon, List.singleton_append] at hlist
  obtain ⟨hxy, hab⟩ :=
    Lists.append_sep_inj (mt List.mem_reverse.mp hx) (mt List.mem_reverse.mp hy) hlist
  exact ⟨String.toList_injective (List.reverse_injective hab),
    String.toList_injective (List.reverse_injective hxy)⟩

/-- Values that equal different pass numbers print differently. -/
theorem fmt_pass_inj {x y : Json} {m n : ℤ} (hm : 1 ≤ m) (hn : 1 ≤ n) (hx : x.eq (.int m) = true)
    (hy : y.eq (.int n) = true) (h : fmt rt x = fmt rt y) : m = n := by
  -- what equals a pass number is the integer, true for the first pass, or a float of its
  -- value
  have hcases : ∀ {z : Json} {k : ℤ}, 1 ≤ k → z.eq (.int k) = true →
      z = .int k ∨ (z = .bool true ∧ k = 1) ∨ ∃ d, z = .float d ∧ z.num = some (k : ℚ) := by
    intro z k hk hz
    cases z with
    | int j =>
      rw [Json.eq_int_int, decide_eq_true_eq] at hz
      exact .inl (congrArg _ hz)
    | bool b =>
      cases b with
      | true =>
        simp only [Json.eq, Json.num, if_true, decide_eq_true_eq] at hz
        exact .inr (.inl ⟨rfl, by exact_mod_cast hz.symm⟩)
      | false =>
        simp only [Json.eq, Json.num, decide_eq_true_eq] at hz
        have hzero : (0 : ℤ) = k := by exact_mod_cast hz
        omega
    | float d =>
      refine .inr (.inr ⟨d, rfl, ?_⟩)
      cases d with
      | finite q => simpa [Json.eq, Json.num] using hz
      | neg_zero => simpa [Json.eq, Json.num] using hz
      | _ => simp [Json.eq, Json.num] at hz
    | _ => simp [Json.eq, Json.num] at hz
  -- of these three no two are printed alike
  have hint : ∀ {j : ℤ}, 1 ≤ j → toString j ≠ "True" := by
    intro j hj heq
    rw [toString_pass (by omega)] at heq
    refine notMem_toString_nat (c := 'T') (by decide) j.toNat ?_
    rw [heq]
    decide
  rcases hcases hm hx with rfl | ⟨rfl, rfl⟩ | ⟨d, rfl, hd⟩
  · rcases hcases hn hy with rfl | ⟨rfl, rfl⟩ | ⟨d', rfl, -⟩
    · change toString m = toString n at h
      rw [toString_pass (by omega), toString_pass (n := n) (by omega)] at h
      have := toString_nat_inj h
      omega
    · exact absurd h (hint hm)
    · exact absurd h.symm (rt.float_ne_int d' m)
  · rcases hcases hn hy with rfl | ⟨rfl, rfl⟩ | ⟨d', rfl, -⟩
    · exact absurd h.symm (hint hn)
    · rfl
    · exact absurd h.symm (rt.float_ne_true d')
  · rcases hcases hn hy with rfl | ⟨rfl, rfl⟩ | ⟨d', rfl, hd'⟩
    · exact absurd h (rt.float_ne_int d n)
    · exact absurd h (rt.float_ne_true d)
    · rw [rt.float_injective h, hd'] at hd
      have := Option.some.inj hd
      exact_mod_cast this.symm

/-! ## The findings of a valid report -/

/-- Where the ids of a kind of findings begin. -/
def Begins (c : Char) (ids : List String) : Prop := ∀ id ∈ ids, id.toList.head? = some c

/-- Ids of three kinds are different when they are within each kind. -/
theorem nodup_kinds {as bs cs : List String} (ha : as.Nodup) (hb : bs.Nodup) (hc : cs.Nodup)
    (ha' : Begins 'c' as) (hb' : Begins 'o' bs) (hc' : Begins 's' cs) :
    (as ++ bs ++ cs).Nodup := by
  have hne : ∀ {c d : Char} {xs ys : List String}, c ≠ d → Begins c xs → Begins d ys →
      ∀ x ∈ xs, ∀ y ∈ ys, x ≠ y := by
    rintro c d xs ys hcd hxs hys x hx y hy rfl
    exact hcd (Option.some.inj ((hxs x hx).symm.trans (hys x hy)))
  rw [List.nodup_append, List.nodup_append]
  refine ⟨⟨ha, hb, hne (by decide) ha' hb'⟩, hc, fun x hx y hy => ?_⟩
  rcases List.mem_append.mp hx with hx | hx
  · exact hne (by decide) ha' hc' x hx y hy
  · exact hne (by decide) hb' hc' x hx y hy

/-- Omissions are told apart by their index. -/
theorem omission_ids (merged : Bool) (items : List Json) :
    ((omission_findings rt merged items).map Finding.finding_id).Nodup ∧
      Begins 'o' ((omission_findings rt merged items).map Finding.finding_id) := by
  -- the number of the item is what stands behind the last colon
  have hindex : ∀ (i j : ℕ) (a b : Dict),
      (omission_finding rt merged i a).finding_id = (omission_finding rt merged j b).finding_id →
        i = j := by
    intro i j a b h
    have hcolon := notMem_toString_nat (c := ':') (by decide)
    cases merged with
    | false =>
      have h' : "omission:item" ++ ":" ++ toString i = "omission:item" ++ ":" ++ toString j := h
      exact toString_nat_inj (append_colon_inj (hcolon i) (hcolon j) h').2
    | true =>
      have h' : ("omission:pass:" ++ fmt rt (Dict.get a "pass") ++ ":item") ++ ":" ++ toString i =
          ("omission:pass:" ++ fmt rt (Dict.get b "pass") ++ ":item") ++ ":" ++ toString j := by
        have hsplit : (":item:" : String) = ":item" ++ ":" := rfl
        simpa only [omission_finding, if_true, hsplit, String.append_assoc] using h
      exact toString_nat_inj (append_colon_inj (hcolon i) (hcolon j) h').2
  constructor
  · have hsnd : (items.zipIdx 1).Pairwise fun a b => a.2 ≠ b.2 := by
      rw [← List.pairwise_map (f := Prod.snd) (R := (· ≠ ·)), List.zipIdx_map_snd]
      exact List.nodup_range'
    rw [List.Nodup, List.pairwise_map, omission_findings, List.pairwise_filterMap]
    refine hsnd.imp fun {a b} hab x hx y hy heq => hab ?_
    obtain ⟨v, i⟩ := a
    obtain ⟨u, j⟩ := b
    cases v with
    | obj v =>
      cases u with
      | obj u =>
        cases hx
        cases hy
        exact hindex i j v u heq
      | _ => cases hy
    | _ => cases hx
  · intro id hid
    obtain ⟨x, hx, rfl⟩ := List.mem_map.mp hid
    obtain ⟨⟨v, i⟩, -, hv⟩ := List.mem_filterMap.mp hx
    cases v with
    | obj v =>
      cases hv
      cases merged with
      | false => simp [omission_finding]
      | true => simp [omission_finding]
    | _ => cases hv

/-- Single-pass claim findings are told apart by the claim. -/
theorem claim_ids {reviews : List (String × Dict)}
    (hid : ∀ x ∈ reviews, Dict.get x.2 "claim_id" = .str x.1)
    (hnodup : (reviews.map Prod.fst).Nodup) :
    ∃ found, (reviews.map Prod.snd).mapM (claim_findings rt false) = .ok found ∧
      (found.flatten.map Finding.finding_id).Nodup ∧
      Begins 'c' (found.flatten.map Finding.finding_id) := by
  let block : Dict → List Finding := fun claim =>
    if (Dict.get claim "verdict").eq (.str "supported") then [] else [claim_finding rt claim]
  have hblock : ∀ claim : Dict, claim_findings rt false claim = .ok (block claim) := by
    intro claim
    simp only [claim_findings, block]
    rw [if_neg (by simp)]
    split
    · rfl
    · rfl
  -- a claim has at most one finding, under its own id
  have hname : ∀ x ∈ reviews, ∀ f ∈ block x.2, f.finding_id = "claim:" ++ x.1 := by
    intro x hx f hf
    simp only [block] at hf
    split at hf
    · simp at hf
    · rw [List.mem_singleton.mp hf, claim_finding, hid x hx]
      rfl
  refine ⟨_, Except.mapM_ok fun claim _ => hblock claim, ?_, ?_⟩
  · rw [List.map_map, List.map_flatten, List.map_map, List.nodup_flatten]
    constructor
    · intro ids hids
      obtain ⟨x, -, rfl⟩ := List.mem_map.mp hids
      simp only [Function.comp, block]
      split
      · simp
      · simp
    · rw [List.pairwise_map]
      refine List.Pairwise.imp_of_mem (fun {x y} hx hy hne => ?_) (List.pairwise_map.mp hnodup)
      rw [List.disjoint_left]
      intro id hidx hidy
      obtain ⟨f, hf, rfl⟩ := List.mem_map.mp hidx
      obtain ⟨g, hg, heq⟩ := List.mem_map.mp hidy
      rw [hname x hx f hf, hname y hy g hg] at heq
      exact hne (String.append_right_inj "claim:" |>.mp heq).symm
  · intro id hmem
    obtain ⟨f, hf, rfl⟩ := List.mem_map.mp hmem
    obtain ⟨l, hl, hfl⟩ := List.mem_flatten.mp hf
    rw [List.map_map] at hl
    obtain ⟨x, hx, rfl⟩ := List.mem_map.mp hl
    rw [hname x hx f hfl]
    simp

/-- Merged claim findings are told apart by the claim and the pass. -/
theorem merged_claim_ids {passes : ℤ} {reviews : List (String × Dict)}
    (hid : ∀ x ∈ reviews, Dict.get x.2 "claim_id" = .str x.1)
    (hclaim : ∀ x ∈ reviews, ∃ packet fs, MergedClaim passes packet fs x.2)
    (hnodup : (reviews.map Prod.fst).Nodup) :
    ∃ found, (reviews.map Prod.snd).mapM (claim_findings rt true) = .ok found ∧
      (found.flatten.map Finding.finding_id).Nodup ∧
      Begins 'c' (found.flatten.map Finding.finding_id) := by
  let block : Dict → List Finding := fun claim =>
    (dicts (items_of (Dict.get claim "findings"))).map
      (merged_claim_finding rt (Dict.get claim "claim_id"))
  have hids : ∀ x ∈ reviews, claim_findings rt true x.2 = .ok (block x.2) ∧
      ∃ passes : List ℤ, passes.Nodup ∧ (∀ n ∈ passes, 1 ≤ n) ∧
        (block x.2).map Finding.finding_id =
          passes.map fun n => ("claim:" ++ x.1 ++ ":pass") ++ ":" ++ toString n := by
    intro x hx
    obtain ⟨packet, fs, h⟩ := hclaim x hx
    obtain ⟨allowed, -, hall⟩ := h.from_pass
    have hfound : block x.2 = (fs.map FromPass.item).map (merged_claim_finding rt (.str x.1)) := by
      simp only [block, items_of, h.findings, hid x hx, dicts_map]
    refine ⟨?_, fs.map FromPass.pass, h.distinct, ?_, ?_⟩
    · rw [hfound, claim_findings, if_pos rfl, h.findings, entries_list, hid x hx]
      change Except.ok _ = _
      rw [dicts_map]
    · intro n hn
      obtain ⟨f, hf, rfl⟩ := List.mem_map.mp hn
      exact (hall f hf).low
    · rw [hfound, List.map_map, List.map_map, List.map_map]
      refine List.map_congr_left fun f hf => ?_
      have hsplit : (":pass:" : String) = ":pass" ++ ":" := rfl
      simp only [Function.comp, merged_claim_finding, (hall f hf).pass, hsplit, String.append_assoc]
      rfl
  have hcolon := notMem_toString_nat (c := ':') (by decide)
  -- there is no colon in a number, so that an id is cut at its last colon
  have hinj : ∀ {a b : String} {m n : ℤ}, 1 ≤ m → 1 ≤ n →
      a ++ ":" ++ toString m = b ++ ":" ++ toString n → a = b ∧ m = n := by
    intro a b m n hm hn h
    rw [toString_pass (by omega), toString_pass (n := n) (by omega)] at h
    obtain ⟨hab, hmn⟩ := append_colon_inj (hcolon _) (hcolon _) h
    have := toString_nat_inj hmn
    exact ⟨hab, by omega⟩
  refine ⟨(reviews.map Prod.snd).map block, ?_, ?_, ?_⟩
  · refine Except.mapM_ok fun claim hmem => ?_
    obtain ⟨x, hx, rfl⟩ := List.mem_map.mp hmem
    exact (hids x hx).1
  · -- within a claim the passes differ, between two claims their ids
    rw [List.map_flatten, List.map_map, List.map_map, List.nodup_flatten]
    constructor
    · intro ids hmem
      obtain ⟨x, hx, rfl⟩ := List.mem_map.mp hmem
      obtain ⟨-, ns, hns, hlow, heq⟩ := hids x hx
      simp only [Function.comp]
      rw [heq]
      refine List.Nodup.map_on (fun m hm n hn h => ?_) hns
      exact (hinj (hlow m hm) (hlow n hn) h).2
    · rw [List.pairwise_map]
      refine List.Pairwise.imp_of_mem (fun {x y} hx hy hne => ?_) (List.pairwise_map.mp hnodup)
      obtain ⟨-, ms, -, hlow, heq⟩ := hids x hx
      obtain ⟨-, ns, -, hlow', heq'⟩ := hids y hy
      simp only [Function.comp, List.disjoint_left]
      rw [heq, heq']
      intro id hidx hidy
      obtain ⟨m, hm, rfl⟩ := List.mem_map.mp hidx
      obtain ⟨n, hn, hmn⟩ := List.mem_map.mp hidy
      have h := (hinj (hlow' n hn) (hlow m hm) hmn).1
      rw [String.append_left_inj, String.append_right_inj] at h
      exact hne h.symm
  · intro id hmem
    rw [List.map_flatten, List.map_map, List.map_map] at hmem
    obtain ⟨l, hl, hidl⟩ := List.mem_flatten.mp hmem
    obtain ⟨x, hx, rfl⟩ := List.mem_map.mp hl
    obtain ⟨-, ns, -, -, heq⟩ := hids x hx
    simp only [Function.comp] at hidl
    rw [heq] at hidl
    obtain ⟨n, -, rfl⟩ := List.mem_map.mp hidl
    simp

/-- Scope findings of a merged report are told apart by the pass. -/
theorem merged_scope_ids {report : Dict} {passes : ℤ} {u : Unit}
    (h : Clean (check_merged_scopes (Dict.get report "scope_reviews") passes) u)
    (haggregate : ∃ aggregate, Dict.get report "validation" = .obj aggregate) :
    ∃ found, scope_findings rt true report = .ok found ∧ (found.map Finding.finding_id).Nodup ∧
      Begins 's' (found.map Finding.finding_id) := by
  -- a report of one pass has no list of scopes, and at most the one finding of old
  rcases check_merged_scopes_clean.mp h with hnull | ⟨scopes, hlist, -, hall⟩
  · obtain ⟨aggregate, haggregate⟩ := haggregate
    have hget : ∃ clean, ((Dict.get report "validation").or_else (.obj [])).get "scope_clean" =
        .ok clean := by
      rw [haggregate, Json.or_else]
      split
      · exact ⟨_, rfl⟩
      · exact ⟨_, rfl⟩
    obtain ⟨clean, hclean⟩ := hget
    have hfound : scope_findings rt true report =
        .ok (if clean.is_bool true then [] else [legacy_scope_finding]) := by
      rw [scope_findings, if_pos rfl, hnull]
      simp only [hclean]
      rfl
    refine ⟨_, hfound, ?_, ?_⟩
    · split
      · simp
      · simp
    · split
      · simp [Begins]
      · simp [Begins, legacy_scope_finding]
  · have hfound : scope_findings rt true report =
        .ok ((scopes.filter fun item => !in_scope item).map (merged_scope_finding rt)) := by
      have hdicts : dicts (scopes.map fun item => .obj item) = scopes := by
        simpa using dicts_map (fun item : Dict => item) scopes
      rw [scope_findings, if_pos rfl, hlist]
      change Except.ok _ = _
      rw [hdicts]
    refine ⟨_, hfound, ?_, ?_⟩
    · -- the scopes are numbered by their passes, one each
      have hsnd : (scopes.zipIdx 1).Pairwise fun a b => a.2 ≠ b.2 := by
        rw [← List.pairwise_map (f := Prod.snd) (R := (· ≠ ·)), List.zipIdx_map_snd]
        exact List.nodup_range'
      have hpair : scopes.Pairwise fun a b =>
          (merged_scope_finding rt a).finding_id ≠ (merged_scope_finding rt b).finding_id := by
        rw [← List.zipIdx_map_fst 1 scopes, List.pairwise_map]
        refine hsnd.imp_of_mem fun {a b} ha hb hne heq => hne ?_
        have hone : ∀ e ∈ scopes.zipIdx 1, (1 : ℤ) ≤ e.2 := by
          intro e he
          have := List.le_snd_of_mem_zipIdx he
          exact_mod_cast this
        have hprint := String.append_right_inj "scope:pass:" |>.mp heq
        have := fmt_pass_inj (hone a ha) (hone b hb) (hall a ha).pass (hall b hb).pass hprint
        exact_mod_cast this
      rw [List.Nodup, List.map_map, List.pairwise_map]
      exact hpair.sublist List.filter_sublist
    · intro id hid
      rw [List.map_map] at hid
      obtain ⟨item, -, rfl⟩ := List.mem_map.mp hid
      simp [merged_scope_finding, scope_finding]

/-- The scope finding of a single pass, if any. -/
theorem scope_ids (report : Dict) :
    ∃ found, scope_findings rt false report = .ok found ∧ (found.map Finding.finding_id).Nodup ∧
      Begins 's' (found.map Finding.finding_id) := by
  rw [scope_findings, if_neg (by simp)]
  split
  · rename_i scope _
    refine ⟨_, rfl, ?_, ?_⟩
    · split
      · simp
      · simp
    · split
      · simp [Begins]
      · simp [Begins, scope_finding]
  · exact ⟨[], rfl, List.nodup_nil, by simp [Begins]⟩

/-- Findings with pairwise different ids, however many reviews stand behind them. -/
theorem found_ids {report : Dict} {reviews : List (String × Dict)} {found : List Finding}
    (hreviews : Dict.get report "claim_reviews" = .list (reviews.map fun x => .obj x.2))
    (hclaims : ∃ claims, (reviews.map Prod.snd).mapM
        (claim_findings rt (Dict.contains report "passes")) = .ok claims ∧
      (claims.flatten.map Finding.finding_id).Nodup ∧
      Begins 'c' (claims.flatten.map Finding.finding_id))
    (hscope : ∃ scope, scope_findings rt (Dict.contains report "passes") report = .ok scope ∧
      (scope.map Finding.finding_id).Nodup ∧ Begins 's' (scope.map Finding.finding_id))
    (hfound : collect_review_findings rt report = .ok found) :
    (found.map Finding.finding_id).Nodup := by
  obtain ⟨claims, hclaims, hcnodup, hc⟩ := hclaims
  obtain ⟨scope, hscope, hsnodup, hs⟩ := hscope
  unfold collect_review_findings at hfound
  rw [hreviews, entries_list] at hfound
  obtain ⟨items, hitems, hfound⟩ := Except.bind_ok.mp hfound
  obtain rfl := Except.ok.inj hitems
  obtain ⟨claims', hclaims', hfound⟩ := Except.bind_ok.mp hfound
  rw [dicts_map, hclaims, Except.ok.injEq] at hclaims'
  subst hclaims'
  obtain ⟨omissions, -, hfound⟩ := Except.bind_ok.mp hfound
  obtain ⟨scope', hscope', hfound⟩ := Except.bind_ok.mp hfound
  rw [hscope, Except.ok.injEq] at hscope'
  subst hscope'
  cases hfound
  obtain ⟨honodup, ho⟩ :
      ((omission_findings rt (Dict.contains report "passes") omissions).map
        Finding.finding_id).Nodup ∧
        Begins 'o' ((omission_findings rt _ omissions).map Finding.finding_id) :=
    omission_ids (Dict.contains report "passes") omissions
  rw [List.map_append, List.map_append]
  exact nodup_kinds hcnodup honodup hsnodup hc ho hs

/-- The ids of the findings of a valid single-pass report. -/
theorem review_report_ids {report bundle : Dict} {r : Reviewed} {found : List Finding}
    (h : r.Accepts rt report bundle) (hsingle : Dict.contains report "passes" = false)
    (hids : StringIds bundle) (hfound : collect_review_findings rt report = .ok found) :
    (found.map Finding.finding_id).Nodup := by
  obtain ⟨reviews, hitems, hall, hnodup, -⟩ :=
    claim_reviews_clean (hids.keys h.expected) (by exact h.seen) List.nodup_nil
  rw [List.append_nil, List.nodup_reverse] at hnodup
  refine found_ids (h.reviews.trans (congrArg _ hitems)) ?_ ?_ hfound
  · rw [hsingle]
    exact claim_ids (fun x hx => (hall x hx).1) hnodup
  · rw [hsingle]
    exact scope_ids report

/-- The ids of the findings of a valid merged report. -/
theorem merged_report_ids {report bundle aggregate : Dict} {passes : ℤ} {r : Reviewed}
    {found : List Finding} (h : r.AcceptsMerged rt report bundle aggregate passes)
    (hmerged : Dict.contains report "passes" = true) (hids : StringIds bundle)
    (hfound : collect_review_findings rt report = .ok found) :
    (found.map Finding.finding_id).Nodup := by
  obtain ⟨reviews, hitems, hall, hnodup, -⟩ :=
    claim_reviews_clean (hids.keys h.expected) (by exact h.seen) List.nodup_nil
  rw [List.append_nil, List.nodup_reverse] at hnodup
  have hclaim : ∀ x ∈ reviews, ∃ packet fs, MergedClaim passes packet fs x.2 := by
    intro x hx
    obtain ⟨-, packet, -, hcheck⟩ := hall x hx
    exact ⟨packet, check_merged_claim_clean.mp hcheck⟩
  refine found_ids (h.reviews.trans (congrArg _ hitems)) ?_ ?_ hfound
  · rw [hmerged]
    exact merged_claim_ids (fun x hx => (hall x hx).1) hclaim hnodup
  · rw [hmerged]
    exact merged_scope_ids h.scopes ⟨aggregate, h.validation⟩

/-! ## The gate -/

/-- What a valid report has gone through. -/
theorem valid_report {report bundle : Dict} {v : Validation}
    (h : validate_report rt report bundle = .ok v) (hvalid : v.report_valid = true) :
    deterministic_status bundle = .ok v.deterministic_clean ∧
      (∃ u, Clean (check_hashes rt report bundle) u) ∧
      ∀ found, collect_review_findings rt report = .ok found → StringIds bundle →
        (found.map Finding.finding_id).Nodup := by
  unfold validate_report at h
  cases hpasses : Dict.contains report "passes" with
  | true =>
    rw [hpasses, if_pos rfl] at h
    obtain ⟨r, aggregate, passes, haccepts⟩ := validate_merged_valid.mp ⟨v, h, hvalid⟩
    obtain ⟨status, hstatus, -⟩ := haccepts.deterministic
    refine ⟨?_, ⟨(), haccepts.hashes⟩,
      fun found hfound hids => merged_report_ids haccepts hpasses hids hfound⟩
    rw [hstatus, validate_merged_deterministic h hstatus]
  | false =>
    rw [hpasses, if_neg (by simp)] at h
    obtain ⟨r, deterministic, haccepts, hdet, rfl⟩ := validate_review_report_valid h hvalid
    exact ⟨hdet, ⟨(), haccepts.hashes⟩,
      fun found hfound hids => review_report_ids haccepts hpasses hids hfound⟩

/-- The hashes an adjudication gives are those of the article, the bundle and the report. -/
structure Names (rt : Runtime) (adjudication report bundle : Dict) : Prop where
  article : (Dict.get adjudication "article_sha256").eq (Dict.get report "article_sha256") = true ∧
    (Dict.get report "article_sha256").eq (Dict.get bundle "article_sha256") = true
  /-- A bundle that gives the hash of its article. -/
  of_article : ∀ text, Dict.get bundle "article_sha256" = .str (sha256_text rt text) →
    Dict.get adjudication "article_sha256" = .str (sha256_text rt text)
  of_bundle : Dict.get adjudication "review_bundle_sha256" =
    .str (content_hash rt bundle "review_bundle_sha256")
  of_report : Dict.get adjudication "review_report_sha256" = .str (review_report_sha256 rt report)
  /-- Another bundle or report of the same hash is the same text. -/
  only_bundle : ∀ other : Dict, Dict.get adjudication "review_bundle_sha256" =
      .str (content_hash rt other "review_bundle_sha256") →
    canonical_json rt (.obj (Dict.without other "review_bundle_sha256")) =
      canonical_json rt (.obj (Dict.without bundle "review_bundle_sha256"))
  only_report : ∀ other : Dict,
    Dict.get adjudication "review_report_sha256" = .str (review_report_sha256 rt other) →
      canonical_json rt (.obj other) = canonical_json rt (.obj report)

/-- An adjudication that answers a report names it, when hashes tell their contents apart. -/
theorem Answers.names {adjudication report bundle : Dict} {u : Unit}
    (h : Answers rt adjudication report) (hhashes : Clean (check_hashes rt report bundle) u)
    (hsha : Function.Injective rt.sha256) : Names rt adjudication report bundle := by
  obtain ⟨hbundle, harticle, hreport⟩ := check_hashes_clean.mp hhashes
  have hof : Dict.get adjudication "review_bundle_sha256" =
      .str (content_hash rt bundle "review_bundle_sha256") := by
    have hanswer := h.bundle
    rw [hbundle, Json.eq_str] at hreport
    rwa [hreport, Json.eq_str] at hanswer
  refine ⟨⟨h.article, harticle⟩, ?_, hof, h.report, ?_, ?_⟩
  · intro text htext
    have hanswer := h.article
    rw [htext, Json.eq_str] at harticle
    rwa [harticle, Json.eq_str] at hanswer
  · intro other hother
    rw [hof, Json.str.injEq] at hother
    exact (hsha hother).symm
  · intro other hother
    rw [h.report, Json.str.injEq] at hother
    exact (hsha hother).symm

/-- **The publication gate.** A gate that says "clean" has a valid report of a clean bundle, and
every finding of the report has exactly one ruling, complete and non-blocking. -/
theorem publication_gate_sound {report bundle : Dict} {adjudication : Option Dict}
    {v : ArtifactValidation} (hsha : Function.Injective rt.sha256)
    (h : validate_review_artifact rt report bundle adjudication = .ok v) (hclean : v.clean = true) :
    (∃ review, validate_report rt report bundle = .ok review ∧ review.report_valid = true) ∧
      deterministic_status bundle = .ok true ∧
      ∃ found, collect_review_findings rt report = .ok found ∧
        -- findings do not share an id, so a ruling on the id is a ruling on the finding
        (StringIds bundle → (found.map Finding.finding_id).Nodup) ∧
        (adjudication = none → found = []) ∧
        ∀ a, adjudication = some a →
          Settles a (found.map Finding.finding_id).dedup ∧ Names rt a report bundle := by
  unfold validate_review_artifact at h
  obtain ⟨review, hreview, h⟩ := Except.bind_ok.mp h
  obtain ⟨ruled, hruled, h⟩ := Except.bind_ok.mp h
  obtain ⟨found, hfound, h⟩ := Except.bind_ok.mp h
  obtain ⟨too_few, -, h⟩ := Except.bind_ok.mp h
  cases h
  simp only [Bool.and_eq_true] at hclean
  -- clean: the report is valid, the deterministic checks passed and no ruling is left open
  obtain ⟨⟨⟨hvalid, hdet⟩, -⟩, hruled_clean⟩ := hclean
  obtain ⟨hstatus, ⟨u, hhashes⟩, hnodup⟩ := valid_report hreview hvalid
  refine ⟨⟨review, hreview, hvalid⟩, by rw [hstatus, hdet], found, hfound, hnodup found hfound, ?_⟩
  unfold validate_adjudication at hruled
  obtain ⟨found', hfound', hruled⟩ := Except.bind_ok.mp hruled
  rw [hfound, Except.ok.injEq] at hfound'
  subst hfound'
  constructor
  -- without rulings it is clean only if nothing was found
  · rintro rfl
    obtain rfl := Except.ok.inj hruled
    simp only at hruled_clean
    split at hruled_clean
    · rename_i hempty
      rwa [List.isEmpty_iff, List.dedup_eq_nil, List.map_eq_nil_iff] at hempty
    · cases hruled_clean
  · rintro a rfl
    obtain ⟨⟨r, errors⟩, hcheck, hruled⟩ := Except.bind_ok.mp hruled
    cases hruled
    rw [Bool.and_eq_true, List.isEmpty_iff, decide_eq_true_eq] at hruled_clean
    obtain ⟨rfl, hblocking⟩ := hruled_clean
    obtain ⟨hsettles, hanswers⟩ := check_adjudication_clean hcheck (List.nodup_dedup _) hblocking
    exact ⟨hsettles, hanswers.names hhashes hsha⟩

/-- A bundle of one claim. -/
def settled_bundle : Dict :=
  let fields : Dict :=
    [("article_sha256", .str "a"), ("article_markdown", .str "text"),
      ("claim_packets", .list [.obj [("claim_id", .str "C1"), ("citations", .list [])]]),
      ("uncited_evidence", .list []), ("deterministic_report", .obj [("clean", .bool true)])]
  fields ++ [("review_bundle_sha256", .str (content_hash .plain fields "review_bundle_sha256"))]

/-- The reviewer could not verify the claim. -/
def settled_report : Dict :=
  [("article_sha256", .str "a"),
    ("review_bundle_sha256", Dict.get settled_bundle "review_bundle_sha256"),
    ("summary", .str "One claim has no source."),
    ("claim_reviews", .list [.obj [("claim_id", .str "C1"), ("verdict", .str "unverifiable"),
      ("confidence", .str "low"), ("reason", .str "no source"), ("suggested_rewrite", .str "")]]),
    ("omission_reviews", .list []), ("scope_review", .obj [("verdict", .str "in_scope")]),
    ("overall_verdict", .str "revise")]

/-- The agent lets it pass. -/
def settled_adjudication : Dict :=
  [("schema_version", .int 1), ("article_sha256", .str "a"),
    ("review_bundle_sha256", Dict.get settled_bundle "review_bundle_sha256"),
    ("review_report_sha256", .str (review_report_sha256 .plain settled_report)),
    ("findings", .list [.obj [("finding_id", .str "claim:C1"), ("decision", .str "non_blocking"),
      ("category", .str "non_material"), ("reason", .str "common knowledge")]])]

/-- One finding, settled by its adjudication. -/
theorem one_finding_settled :
    ∃ v, validate_review_artifact .plain settled_report settled_bundle (some settled_adjudication) =
        .ok v ∧ v.clean = true ∧
      ∃ found, collect_review_findings .plain settled_report = .ok found ∧
        Settles settled_adjudication (found.map Finding.finding_id).dedup ∧
        Names .plain settled_adjudication settled_report settled_bundle := by
  have hrun : (validate_review_artifact .plain settled_report settled_bundle
      (some settled_adjudication)).toOption.any ArtifactValidation.clean = true := by
    decide +kernel
  cases hv : validate_review_artifact .plain settled_report settled_bundle
      (some settled_adjudication) with
  | error e =>
    rw [hv] at hrun
    cases hrun
  | ok v =>
    rw [hv] at hrun
    obtain ⟨-, -, found, hfound, -, -, hall⟩ :=
      publication_gate_sound Runtime.plain_injective hv hrun
    obtain ⟨hsettles, hnames⟩ := hall settled_adjudication rfl
    exact ⟨v, rfl, hrun, found, hfound, hsettles, hnames⟩

end Memline.wiki
