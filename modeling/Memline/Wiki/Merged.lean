/-
What the merge of valid passes is, written down.

`merged s clean ps` is the merged report of the passes `ps` about the subject `s`, with
`clean` for the aggregated status of the scope. Merging further passes into it goes on
from there; with no passes at all it stands for the absence of a prior report.
-/
import Memline.Wiki.Passes

set_option autoImplicit false

namespace Memline.wiki

open Py Check

variable {rt : Runtime}

/-! ## Claims -/

/-- What passes have against a claim: the number of the pass, from zero, and its review. -/
abbrev Flagged : Type := List (ℤ × Dict)

/-- A review, unless it says "supported". -/
def flag (index : ℤ) (item : Dict) : Flagged :=
  if (Dict.get item "verdict").eq (.str "supported") then [] else [(index, item)]

/-- What one pass has against the claim. -/
def flagged_by (index : ℤ) (reviews : List (String × Dict)) (id : String) : Flagged :=
  match reviews.lookup id with
  | some item => flag index item
  | none => []

/-- What all passes have against the claim. -/
def flags (start : ℤ) (ps : List Pass) (id : String) : Flagged :=
  (enumerate start ps).flatMap fun e => flagged_by e.1 e.2.reviews id

/-- The strictest of the verdicts. -/
def verdict_of (fs : Flagged) : String := strictest (fs.map fun e => (Dict.get e.2 "verdict").text)

/-- A claim of a merged report, with a verdict. -/
def claim_fields (total : ℤ) (id verdict : String) (fs : Flagged) : Dict :=
  [("claim_id", .str id), ("verdict", .str verdict), ("flagged_in", .int fs.length),
    ("of_passes", .int total), ("findings", .list (fs.map fun e => .obj (pass_finding e.1 e.2)))]

/-- A claim of a merged report. -/
def claim_entry (total : ℤ) (id : String) (fs : Flagged) : Dict :=
  claim_fields total id (verdict_of fs) fs

/-- The claims while the passes are folded in. -/
def table (total : ℤ) (order : List String) (F : String → Flagged) : Map Dict :=
  order.map fun id => (.str id, claim_entry total id (F id))

/-- Numbering two lists, the second from where the first ends. -/
theorem enumerate_append {α : Type} (start : ℤ) (xs ys : List α) :
    enumerate start (xs ++ ys) = enumerate start xs ++ enumerate (start + xs.length) ys := by
  induction xs generalizing start with
  | nil => simp [enumerate]
  | cons x xs ih =>
    simp only [List.cons_append, enumerate, ih, List.length_cons]
    congr 3
    omega

theorem flags_append (start : ℤ) (ps qs : List Pass) (id : String) :
    flags start (ps ++ qs) id = flags start ps id ++ flags (start + ps.length) qs id := by
  rw [flags, enumerate_append, List.flatMap_append, ← flags, ← flags]

/-- How strict a verdict is. -/
def grade (verdict : String) : ℕ := (VERDICT_RANK.lookup verdict).getD 0

/-- Every verdict but `supported` is graded above it. -/
theorem grade_pos {v : String} (h : v ∈ CLAIM_VERDICTS) (hne : v ≠ "supported") : 0 < grade v := by
  have hall : ∀ w ∈ CLAIM_VERDICTS, w = "supported" ∨ 0 < grade w := by decide
  exact (hall v h).resolve_left hne

/-- The strictest verdict, once there is one more. -/
theorem strictest_append {vs : List String} {v : String} (h : 0 < grade v) :
    strictest (vs ++ [v]) = if grade (strictest vs) < grade v then v else strictest vs := by
  cases vs with
  | nil =>
    have hzero : grade (strictest []) = 0 := by decide
    rw [hzero, if_pos h]
    rfl
  | cons w ws =>
    change (ws ++ [v]).foldl _ w = _
    rw [List.foldl_append]
    rfl

/-- A review with one of the verdicts. -/
def Ruled (item : Dict) : Prop := ∃ v ∈ CLAIM_VERDICTS, Dict.get item "verdict" = .str v

theorem raise_verdict_fields {item : Dict} {v : String}
    (hverdict : Dict.get item "verdict" = .str v) (total : ℤ) (id w : String) (fs : Flagged) :
    raise_verdict (claim_fields total id w fs) item =
      .ok (claim_fields total id (if grade w < grade v then v else w) fs) := by
  unfold raise_verdict
  rw [hverdict]
  change (Except.ok (if grade w < grade v then _ else _) : Result Dict) = _
  split
  · rfl
  · rfl

theorem add_finding_fields (item : Dict) (total index : ℤ) (id w : String) (fs : Flagged) :
    add_finding rt index (claim_fields total id w fs) item =
      .ok (claim_fields total id w (fs ++ flag index item)) := by
  unfold add_finding flag
  split
  · rw [List.append_nil]
    rfl
  · rw [claim_fields, claim_fields, List.length_append, List.map_append]
    rfl

/-- The step lemma for one claim. -/
theorem take_up_entry {item : Dict} (h : Ruled item) (total index : ℤ) (id : String)
    (fs : Flagged) :
    take_up rt index (claim_entry total id fs) item =
      .ok (claim_entry total id (fs ++ flag index item)) := by
  obtain ⟨v, hv, hverdict⟩ := h
  have hstrictest : (if grade (verdict_of fs) < grade v then v else verdict_of fs) =
      verdict_of (fs ++ flag index item) := by
    unfold flag
    rw [hverdict, Json.eq_str_str]
    by_cases hsupported : v = "supported"
    · have hzero : ¬ grade (verdict_of fs) < grade v := by
        rw [hsupported, show grade "supported" = 0 by decide]
        omega
      rw [if_neg hzero, decide_eq_true hsupported, if_pos rfl, List.append_nil]
    · have hlast : verdict_of (fs ++ [(index, item)]) =
          strictest ((fs.map fun e => (Dict.get e.2 "verdict").text) ++ [v]) := by
        rw [verdict_of, List.map_append, List.map_singleton, hverdict]
        rfl
      rw [decide_eq_false hsupported, if_neg Bool.false_ne_true, hlast,
        strictest_append (grade_pos hv hsupported)]
      rfl
  unfold take_up
  rw [claim_entry, raise_verdict_fields hverdict, hstrictest]
  exact add_finding_fields item total index id _ fs

/-! ## The table of claims -/

theorem find_table (total : ℤ) (order : List String) (F : String → Flagged) (id : String) :
    (table total order F).find (.str id) =
      if id ∈ order then some (claim_entry total id (F id)) else none := by
  induction order with
  | nil => rfl
  | cons a order ih =>
    change (if Json.eq (.str a) (.str id) then _ else Map.find (table total order F) _) = _
    rw [ih, Json.eq_str_str]
    by_cases h : a = id
    · subst h
      simp
    · simp only [h, decide_false, Bool.false_eq_true, if_false, List.mem_cons, Ne.symm h, false_or]

/-- What an entry is replaced with, or appended. -/
theorem put_table (total : ℤ) {order : List String} (F G : String → Flagged) {id : String}
    (hnodup : order.Nodup) (hG : ∀ j ∈ order, j ≠ id → G j = F j) :
    (table total order F).put (.str id) (claim_entry total id (G id)) =
      table total (if id ∈ order then order else order ++ [id]) G := by
  induction order with
  | nil => rfl
  | cons a order ih =>
    obtain ⟨ha, hnodup⟩ := List.nodup_cons.mp hnodup
    change (if Json.eq (.str a) (.str id) then _ else _ :: Map.put (table total order F) _ _) = _
    rw [Json.eq_str_str]
    by_cases h : a = id
    · subst h
      have hrest : table total order F = table total order G :=
        List.map_congr_left fun j hj => by
          rw [hG j (List.mem_cons_of_mem _ hj) fun hja => ha (hja ▸ hj)]
      rw [decide_eq_true rfl, if_pos rfl, if_pos List.mem_cons_self]
      change _ :: table total order F = _
      rw [hrest]
      rfl
    · have hrest := ih hnodup fun j hj hne => hG j (List.mem_cons_of_mem _ hj) hne
      rw [decide_eq_false h, if_neg (by simp), hrest]
      have hiff : id ∈ a :: order ↔ id ∈ order := by simp [Ne.symm h]
      have hhead := hG a List.mem_cons_self h
      by_cases hid : id ∈ order
      · rw [if_pos hid, if_pos (hiff.mpr hid), table, table, List.map_cons, hhead]
      · rw [if_neg hid, if_neg (mt hiff.mp hid), table, table, List.cons_append,
          List.map_cons, hhead]

/-! ## Folding the passes in -/

/-- The reviews of a pass name their claims and rule on them. -/
def Reviews (reviews : List (String × Dict)) : Prop :=
  ∀ x ∈ reviews, x.1 ≠ "" ∧ Dict.get x.2 "claim_id" = .str x.1 ∧ Ruled x.2

/-- One review. -/
theorem merge_claim_table {order : List String} {F : String → Flagged} (hnodup : order.Nodup)
    (hfresh : ∀ j, j ∉ order → F j = []) (total index : ℤ) {id : String} {item : Dict}
    (hne : id ≠ "") (hid : Dict.get item "claim_id" = .str id) (hruled : Ruled item) :
    merge_claim rt total index (table total order F) (.obj item) =
      .ok (table total (if id ∈ order then order else order ++ [id])
        fun j => F j ++ if j = id then flag index item else []) := by
  have hentry : (if id ∈ order then some (claim_entry total id (F id)) else none).getD
      (new_claim total (.str id)) = claim_entry total id (F id) := by
    by_cases hin : id ∈ order
    · rw [if_pos hin, Option.getD_some]
    · rw [if_neg hin, hfresh id hin]
      rfl
  have htruthy : (Json.str id).truthy = true := by simp [Json.truthy, hne]
  unfold merge_claim
  simp only [hid, htruthy]
  rw [if_neg (by simp), if_neg (by simp [Json.hashable]), find_table, hentry, take_up_entry hruled]
  change Except.ok _ = _
  have hput := put_table total F (fun j => F j ++ if j = id then flag index item else []) hnodup
    fun j _ (hj : j ≠ id) => by simp [hj]
  simp only [if_true] at hput
  rw [hput]

/-- The reviews of one pass. -/
theorem merge_claims_table {reviews : List (String × Dict)} (hreviews : Reviews reviews)
    (hdistinct : (reviews.map Prod.fst).Nodup) {order : List String} {F : String → Flagged}
    (hnodup : order.Nodup) (hfresh : ∀ j, j ∉ order → F j = []) (total index : ℤ) :
    ∃ order' : List String, (reviews.map fun x => Json.obj x.2).foldlM (merge_claim rt total index)
        (table total order F) = .ok (table total order' fun j =>
          F j ++ flagged_by index reviews j) ∧
      order'.Nodup ∧ ∀ j, j ∈ order' ↔ j ∈ order ∨ j ∈ reviews.map Prod.fst := by
  -- one claim after the other: what is flagged for an id stays, and each id is ruled on
  -- once in a pass
  induction reviews generalizing order F with
  | nil =>
    refine ⟨order, ?_, hnodup, by simp⟩
    have hF : (fun j => F j ++ flagged_by index [] j) = F := funext fun j => List.append_nil _
    rw [hF]
    rfl
  | cons x reviews ih =>
    obtain ⟨id, item⟩ := x
    obtain ⟨hne, hid, hruled⟩ := hreviews _ List.mem_cons_self
    obtain ⟨hnot, hdistinct⟩ := List.nodup_cons.mp hdistinct
    have hmem : ∀ j, (j ∈ if id ∈ order then order else order ++ [id]) ↔ j ∈ order ∨ j = id := by
      intro j
      by_cases hin : id ∈ order
      · rw [if_pos hin]
        exact ⟨.inl, fun h => h.elim (fun h => h) fun h => h ▸ hin⟩
      · rw [if_neg hin, List.mem_append, List.mem_singleton]
    have hnodup' : (if id ∈ order then order else order ++ [id]).Nodup := by
      by_cases hin : id ∈ order
      · rwa [if_pos hin]
      · rw [if_neg hin]
        exact List.nodup_append.mpr ⟨hnodup, List.nodup_singleton _, by
          rintro a ha b hb rfl
          exact hin (List.mem_singleton.mp hb ▸ ha)⟩
    have hfresh' : ∀ j, (j ∉ if id ∈ order then order else order ++ [id]) →
        (F j ++ if j = id then flag index item else []) = [] := by
      intro j hj
      rw [hmem, not_or] at hj
      rw [hfresh j hj.1, if_neg hj.2]
      rfl
    obtain ⟨order', hrun, hnodup'', hmem'⟩ :=
      ih (fun y hy => hreviews y (List.mem_cons_of_mem _ hy)) hdistinct hnodup' hfresh'
    refine ⟨order', ?_, hnodup'', fun j => ?_⟩
    · have hF : ∀ j, (F j ++ if j = id then flag index item else []) ++ flagged_by index reviews j =
          F j ++ flagged_by index ((id, item) :: reviews) j := by
        intro j
        rw [List.append_assoc]
        congr 1
        unfold flagged_by
        by_cases hj : j = id
        · subst hj
          -- the ids of a pass are distinct, so there is nothing more about this one
          have hnone : reviews.lookup j = none := by
            rw [List.lookup_eq_none_iff]
            intro y hy
            simpa using fun heq : j = y.1 => hnot (List.mem_map.mpr ⟨y, hy, heq.symm⟩)
          rw [if_pos rfl, hnone, List.append_nil]
          simp
        · have hne' : (j == id) = false := by simpa using hj
          rw [if_neg hj, List.nil_append]
          simp [List.lookup_cons, hne']
      rw [List.map_cons, List.foldlM_cons,
        merge_claim_table hnodup hfresh total index hne hid hruled]
      change List.foldlM _ _ _ = _
      rw [hrun]
      simp only [hF]
    · rw [hmem', hmem, List.map_cons, List.mem_cons, or_assoc]

/-- The reviews of a valid pass. -/
theorem Reads.reviews {review_bundle report : Dict} {s : Subject} {p : Pass}
    (h : Reads rt review_bundle s report p) (ha : About rt review_bundle s) :
    Reviews p.reviews := by
  intro x hx
  have hid : x.1 ∈ s.ids := h.ids.mem_iff.mp (List.mem_map_of_mem hx)
  obtain ⟨packet, hpacket⟩ := ha.packet x.1 hid
  obtain ⟨hverdict, -⟩ := check_claim_clean.mp (h.checked x hx packet hpacket)
  exact ⟨ha.named x.1 hid, h.claim_id x hx, in_strings_true.mp hverdict⟩

/-- The run lemma: the claims of any number of passes. -/
theorem merge_passes_table {review_bundle : Dict} {s : Subject} (ha : About rt review_bundle s)
    {rs : List Dict} {ps : List Pass} (h : List.Forall₂ (Reads rt review_bundle s) rs ps)
    {order : List String} {F : String → Flagged} (hnodup : order.Nodup)
    (hfresh : ∀ j, j ∉ order → F j = []) (total start : ℤ) :
    ∃ order', (enumerate start rs).foldlM (merge_pass rt total) (table total order F) =
        .ok (table total order' fun j => F j ++ flags start ps j) ∧
      order'.Nodup ∧ ∀ j, j ∈ order' ↔ j ∈ order ∨ (ps ≠ [] ∧ j ∈ s.ids) := by
  -- each pass adds what it flags under its own number; the claims are in the table after
  -- the first
  induction h generalizing order F start with
  | nil =>
    refine ⟨order, ?_, hnodup, by simp⟩
    have hF : (fun j => F j ++ flags start [] j) = F := funext fun j => List.append_nil _
    rw [hF]
    rfl
  | @cons r p rs ps hr hrs ih =>
    have hdistinct : (p.reviews.map Prod.fst).Nodup := hr.ids.nodup_iff.mpr ha.distinct
    obtain ⟨order₁, hpass, hnodup₁, hmem₁⟩ :=
      @merge_claims_table rt _ (hr.reviews ha) hdistinct _ _ hnodup hfresh total start
    have hfresh₁ : ∀ j, j ∉ order₁ → F j ++ flagged_by start p.reviews j = [] := by
      intro j hj
      rw [hmem₁, not_or] at hj
      have hnone : p.reviews.lookup j = none := by
        rw [List.lookup_eq_none_iff]
        intro y hy
        simpa using fun heq : j = y.1 => hj.2 (List.mem_map.mpr ⟨y, hy, heq.symm⟩)
      rw [hfresh j hj.1, flagged_by, hnone]
      rfl
    obtain ⟨order₂, hrest, hnodup₂, hmem₂⟩ := ih hnodup₁ hfresh₁ (start + 1)
    refine ⟨order₂, ?_, hnodup₂, fun j => ?_⟩
    · have hmerge : merge_pass rt total (table total order F) (start, r) =
          .ok (table total order₁ fun j => F j ++ flagged_by start p.reviews j) := by
        unfold merge_pass
        rw [hr.claim_reviews, entries_list]
        exact hpass
      have hF : ∀ j, (F j ++ flagged_by start p.reviews j) ++ flags (start + 1) ps j =
          F j ++ flags start (p :: ps) j := by
        intro j
        rw [List.append_assoc]
        rfl
      rw [enumerate, List.foldlM_cons, hmerge]
      change List.foldlM _ _ _ = _
      rw [hrest]
      simp only [hF]
    · have hids : j ∈ p.reviews.map Prod.fst ↔ j ∈ s.ids := hr.ids.mem_iff
      rw [hmem₂, hmem₁, hids]
      constructor
      · rintro ((h | h) | ⟨-, h⟩)
        · exact .inl h
        · exact .inr ⟨by simp, h⟩
        · exact .inr ⟨by simp, h⟩
      · rintro (h | ⟨-, h⟩)
        · exact .inl (.inl h)
        · exact .inl (.inr h)

/-- The claims of a merged report, read back. -/
theorem keep_claims_table (total₀ : ℤ) (F : String → Flagged) {order ids : List String}
    (h : (order ++ ids).Nodup) :
    (ids.map fun id => Json.obj (claim_entry total₀ id (F id))).foldlM keep_claim
      (table total₀ order F) = .ok (table total₀ (order ++ ids) F) := by
  induction ids generalizing order with
  | nil =>
    rw [List.append_nil]
    rfl
  | cons id ids ih =>
    obtain ⟨hnodup, -, hdisjoint⟩ := List.nodup_append.mp h
    have hnot : id ∉ order := fun hid => hdisjoint id hid id List.mem_cons_self rfl
    have hkeep : keep_claim (table total₀ order F) (.obj (claim_entry total₀ id (F id))) =
        .ok (table total₀ (order ++ [id]) F) := by
      have hput := put_table total₀ F F hnodup fun j _ (_ : j ≠ id) => rfl
      rw [if_neg hnot] at hput
      rw [← hput]
      unfold keep_claim
      change (entries (.list _) >>= _) = _
      rw [entries_list]
      rfl
    rw [List.append_cons] at h ⊢
    rw [List.map_cons, List.foldlM_cons, hkeep]
    exact ih h

/-- They are counted out of all passes from now on. -/
theorem prior_claims_table {prior : Dict} {total₀ : ℤ} {F : String → Flagged} {ids : List String}
    (h : entries (Dict.get prior "claim_reviews") =
      .ok (ids.map fun id => .obj (claim_entry total₀ id (F id)))) (hnodup : ids.Nodup)
      (total : ℤ) :
    prior_claims prior total = .ok (table total ids F) := by
  have hkeep := keep_claims_table total₀ F (show (([] : List String) ++ ids).Nodup from hnodup)
  unfold prior_claims
  rw [h]
  change ((_ : Result (Map Dict)) >>= _) = _
  rw [show ([] : Map Dict) = table total₀ [] F from rfl, hkeep, List.nil_append]
  change Except.ok ((table total₀ ids F).map _) = _
  rw [table, table, List.map_map]
  rfl

/-! ## The merged report -/

def merged_omissions (start : ℤ) (ps : List Pass) : List Json :=
  (enumerate start ps).flatMap fun e => e.2.omissions.map fun item => .obj (in_pass e.1 item)

def merged_scopes (start : ℤ) (ps : List Pass) : List Json :=
  (enumerate start ps).map fun e => .obj (in_pass e.1 e.2.scope)

/-- The worst of the overall verdicts. -/
def worst (overall : List String) : String :=
  if "reject" ∈ overall then "reject" else if "revise" ∈ overall then "revise" else "pass"

/-- What is kept of the validation of a pass. -/
def pass_validation (index : ℤ) (p : Pass) : Json :=
  .obj [("pass", .int (index + 1)), ("report_valid", .bool true), ("findings", .list []),
    ("claim_verdict_counts", .obj p.validation.claim_verdict_counts)]

def per_pass (start : ℤ) (ps : List Pass) : List Json :=
  (enumerate start ps).map fun e => pass_validation e.1 e.2

/-- How many claims as many passes as that have something against. -/
def flag_count (s : Subject) (ps : List Pass) (P : ℕ → Bool) : ℕ :=
  s.ids.countP fun id => P (flags 0 ps id).length

def merged_validation (s : Subject) (scope_clean : Bool) (ps : List Pass) : Dict :=
  [("report_valid", .bool true), ("invalid_passes", .list []),
    ("deterministic_clean", .bool s.deterministic), ("scope_clean", .bool scope_clean),
    ("claims_expected", .int s.expected.length), ("per_pass", .list (per_pass 0 ps)),
    ("agent_review_required", .bool true)]

def merged (s : Subject) (scope_clean : Bool) (ps : List Pass) : Dict :=
  [("passes", .int ps.length), ("article_sha256", .str s.article),
    ("review_bundle_sha256", .str s.bundle),
    ("overall_verdict", .str (worst (ps.map Pass.overall))),
    ("claim_reviews", .list (s.ids.map fun id => .obj (claim_entry ps.length id (flags 0 ps id)))),
    ("omission_reviews", .list (merged_omissions 0 ps)),
    ("scope_reviews", .list (merged_scopes 0 ps)),
    ("flagged_claims", .int (flag_count s ps fun n => decide (0 < n))),
    ("unanimous_claims", .int (flag_count s ps fun n => decide (0 < n ∧ n = ps.length))),
    ("single_pass_claims", .int (flag_count s ps fun n => decide (n = 1))),
    ("validation", .obj (merged_validation s scope_clean ps)),
    ("review_provenance", .list (ps.map Pass.provenance))]

/-- A prior report, or the empty one, that stands for these passes. -/
structure Carries (rt : Runtime) (s : Subject) (prior : Dict) (ps : List Pass) : Prop where
  passes : int_of rt ((Dict.get prior "passes").or_else (.int 0)) = .ok ps.length
  claims : ∃ order : List String,
    (∀ total, prior_claims prior total = .ok (table total order (flags 0 ps))) ∧
    order.Nodup ∧ (∀ j, j ∉ order → flags 0 ps j = []) ∧ ∀ j, j ∈ order ↔ ps ≠ [] ∧ j ∈ s.ids
  omissions : entries (Dict.get prior "omission_reviews") = .ok (merged_omissions 0 ps)
  scopes : prior_scopes prior ps.length = .ok (merged_scopes 0 ps)
  overall : (if prior = [] then [] else [Dict.get prior "overall_verdict"]) =
    if ps = [] then [] else [.str (worst (ps.map Pass.overall))]
  per_pass : ∃ kept, ((Dict.get prior "validation").or_else (.obj [])).get "per_pass" = .ok kept ∧
    entries kept = .ok (per_pass 0 ps)
  provenance : entries (Dict.get prior "review_provenance") = .ok (ps.map Pass.provenance)

theorem carries_nil (s : Subject) : Carries rt s [] [] :=
  ⟨rfl, ⟨[], fun _ => rfl, List.nodup_nil, fun _ _ => rfl, by simp⟩, rfl, rfl, rfl,
    ⟨_, rfl, rfl⟩, rfl⟩

/-- Passes have nothing against claims that are not of the subject. -/
theorem flags_fresh {review_bundle : Dict} {s : Subject} {rs : List Dict} {ps : List Pass}
    (h : List.Forall₂ (Reads rt review_bundle s) rs ps) {j : String} (hj : j ∉ s.ids) (start : ℤ) :
    flags start ps j = [] := by
  induction h generalizing start with
  | nil => rfl
  | @cons r p rs ps hr _ ih =>
    have hnone : p.reviews.lookup j = none := by
      rw [List.lookup_eq_none_iff]
      intro x hx
      simpa using fun heq : j = x.1 =>
        hj (hr.ids.mem_iff.mp (List.mem_map.mpr ⟨x, hx, heq.symm⟩))
    change flagged_by start p.reviews j ++ flags (start + 1) ps j = []
    rw [ih, flagged_by, hnone]
    rfl

/-- The merged report carries what its passes hold. -/
theorem carries_merged {review_bundle : Dict} {s : Subject} (ha : About rt review_bundle s)
    (scope_clean : Bool) {rs : List Dict} {ps : List Pass}
    (hreads : List.Forall₂ (Reads rt review_bundle s) rs ps) (h : ps ≠ []) :
    Carries rt s (merged s scope_clean ps) ps := by
  have hlength : (ps.length : ℤ) ≠ 0 := by
    have := List.length_pos_iff.mpr h
    omega
  refine ⟨?_, ⟨s.ids, fun total => ?_, ha.distinct,
    fun j hj => flags_fresh hreads hj 0, fun j => ?_⟩, entries_list _, ?_, ?_, ?_, entries_list _⟩
  · change int_of rt ((Json.int ps.length).or_else (.int 0)) = _
    have htruthy : (Json.int ps.length).truthy = true := by simpa [Json.truthy] using h
    rw [Json.or_else, if_pos htruthy]
    rfl
  · have hclaims : entries (Dict.get (merged s scope_clean ps) "claim_reviews") =
        .ok (s.ids.map fun id => .obj (claim_entry ps.length id (flags 0 ps id))) := entries_list _
    exact prior_claims_table hclaims ha.distinct total
  · exact ⟨fun hj => ⟨h, hj⟩, And.right⟩
  · have hkept : (merged_scopes 0 ps).isEmpty = false := by
      cases ps with
      | nil => exact absurd rfl h
      | cons p ps => rfl
    unfold prior_scopes
    change (entries (.list (merged_scopes 0 ps)) >>= _) = _
    rw [entries_list]
    change (if _ ∧ (merged_scopes 0 ps).isEmpty = true ∧ _ then _ else _) = _
    rw [hkept, if_neg (by simp)]
    rfl
  · rw [if_neg h]
    rfl
  · exact ⟨.list (per_pass 0 ps), rfl, entries_list _⟩

/-! ## Merging valid passes -/

theorem merged_omissions_append (ps qs : List Pass) :
    merged_omissions 0 (ps ++ qs) = merged_omissions 0 ps ++ merged_omissions ps.length qs := by
  rw [merged_omissions, enumerate_append, List.flatMap_append, zero_add]
  rfl

theorem merged_scopes_append (ps qs : List Pass) :
    merged_scopes 0 (ps ++ qs) = merged_scopes 0 ps ++ merged_scopes ps.length qs := by
  rw [merged_scopes, enumerate_append, List.map_append, zero_add]
  rfl

theorem per_pass_append (ps qs : List Pass) :
    per_pass 0 (ps ++ qs) = per_pass 0 ps ++ per_pass ps.length qs := by
  rw [per_pass, enumerate_append, List.map_append, zero_add]
  rfl

section Readings

variable {review_bundle : Dict} {s : Subject} {rs : List Dict} {ps : List Pass}

/-- The omissions are read from the passes, in their order. -/
theorem pass_omissions_ok (h : List.Forall₂ (Reads rt review_bundle s) rs ps) (start : ℤ) :
    ∃ found, (enumerate start rs).mapM pass_omissions = .ok found ∧
      found.flatten = merged_omissions start ps := by
  induction h generalizing start with
  | nil => exact ⟨[], rfl, rfl⟩
  | @cons r p rs ps hr _ ih =>
    obtain ⟨found, hfound, heq⟩ := ih (start + 1)
    have hpass : pass_omissions (start, r) =
        .ok (p.omissions.map fun item => .obj (in_pass start item)) := by
      unfold pass_omissions
      rw [hr.omissions, entries_list]
      change Except.ok _ = _
      rw [dicts_of_objs]
    refine ⟨(p.omissions.map fun item => .obj (in_pass start item)) :: found, ?_, ?_⟩
    · rw [enumerate, List.mapM_cons, hpass, hfound]
      rfl
    · rw [List.flatten_cons, heq]
      rfl

/-- The scope reviews are read from the passes, in their order. -/
theorem pass_scopes_eq (h : List.Forall₂ (Reads rt review_bundle s) rs ps) (start : ℤ) :
    (enumerate start rs).filterMap pass_scope = merged_scopes start ps := by
  induction h generalizing start with
  | nil => rfl
  | @cons r p rs ps hr _ ih =>
    have hpass : pass_scope (start, r) = some (.obj (in_pass start p.scope)) := by
      unfold pass_scope
      rw [hr.scope]
    rw [enumerate, List.filterMap_cons, hpass, ih]
    rfl

/-- The validations as the merge sees them. -/
theorem validations_eq (h : List.Forall₂ (Reads rt review_bundle s) rs ps) :
    (rs.map fun r => (Dict.get r "validation").or_else (.obj [])) =
      ps.map fun p => .obj p.validation.toDict := by
  induction h with
  | nil => rfl
  | @cons r p rs ps hr _ ih =>
    have htruthy : (Json.obj p.validation.toDict).truthy = true := rfl
    rw [List.map_cons, ih, hr.validation, Json.or_else, if_pos htruthy, List.map_cons]

/-- A flag that all validations carry. -/
theorem all_of_validations {key : String} {f : Pass → Bool}
    (h : ∀ p ∈ ps, Dict.get p.validation.toDict key = .bool (f p)) :
    all_of key (ps.map fun p => .obj p.validation.toDict) = .ok (ps.all f) := by
  induction ps with
  | nil => rfl
  | cons p ps ih =>
    have hrest := ih fun q hq => h q (List.mem_cons_of_mem _ hq)
    rw [List.map_cons, all_of]
    change (if (Dict.get p.validation.toDict key).truthy then _ else _) = _
    rw [h p List.mem_cons_self, hrest, List.all_cons]
    cases f p with
    | true => rfl
    | false => rfl

/-- What an accepted pass carries is in the validation. -/
theorem validated (h : List.Forall₂ (Reads rt review_bundle s) rs ps) :
    ∀ p ∈ ps, p.validation.findings = [] ∧ p.validation.report_valid = true ∧
      p.validation.deterministic_clean = s.deterministic ∧
      p.validation.scope_clean = in_scope p.scope ∧
      p.validation.claims_expected = s.expected.length := by
  induction h with
  | nil => simp
  | @cons r p rs ps hr _ ih =>
    intro q hq
    rcases List.mem_cons.mp hq with rfl | hq
    · exact ⟨hr.findings, hr.report_valid, hr.deterministic_clean, hr.scope_clean,
        hr.claims_expected⟩
    · exact ih q hq

theorem invalid_new_eq (h : ∀ p ∈ ps, p.validation.report_valid = true) (start : ℤ) :
    invalid_new (enumerate start (ps.map fun p => .obj p.validation.toDict)) = .ok [] := by
  induction ps generalizing start with
  | nil => rfl
  | cons p ps ih =>
    have hrest := ih (fun q hq => h q (List.mem_cons_of_mem _ hq)) (start + 1)
    have hvalid : (Json.obj p.validation.toDict).get "report_valid" = .ok (.bool true) := by
      rw [← h p List.mem_cons_self]
      exact congrArg _ (validation_fields p.validation).2.1
    rw [List.map_cons, enumerate, invalid_new, hvalid, hrest]
    rfl

/-- No pass that was merged is listed as invalid. -/
theorem invalid_prior_per_pass (start : ℤ) : invalid_prior (per_pass start ps) = .ok [] := by
  induction ps generalizing start with
  | nil => rfl
  | cons p ps ih =>
    change invalid_prior (per_pass (start + 1) ps) = _
    exact ih (start + 1)

theorem all_of_per_pass (start : ℤ) : all_of "report_valid" (per_pass start ps) = .ok true := by
  induction ps generalizing start with
  | nil => rfl
  | cons p ps ih =>
    change all_of "report_valid" (per_pass (start + 1) ps) = _
    exact ih (start + 1)

/-- A validation without findings is kept as the record of its pass. -/
theorem kept_validations_eq (h : ∀ p ∈ ps, p.validation.findings = [] ∧
    p.validation.report_valid = true) (start : ℤ) :
    (enumerate start (ps.map fun p => Json.obj p.validation.toDict)).mapM kept_validation =
      .ok (per_pass start ps) := by
  induction ps generalizing start with
  | nil => rfl
  | cons p ps ih =>
    obtain ⟨hfindings, hvalid⟩ := h p List.mem_cons_self
    obtain ⟨hf, hv, -, -, -, hc⟩ := validation_fields p.validation
    rw [hfindings] at hf
    rw [hvalid] at hv
    have hkept : kept_validation (start, .obj p.validation.toDict) =
        .ok (pass_validation start p) := by
      unfold kept_validation
      change Except.ok (Json.obj [("pass", _), ("report_valid", Dict.get _ _),
        ("findings", (Dict.get _ _).or_else _), ("claim_verdict_counts", Dict.get _ _)]) = _
      rw [hf, hv, hc]
      rfl
    rw [List.map_cons, enumerate, List.mapM_cons, hkept,
      ih (fun q hq => h q (List.mem_cons_of_mem _ hq)) (start + 1)]
    rfl

/-- All passes have expected the same number of claims. -/
theorem max_expected (hne : ps ≠ [])
    (h : ∀ p ∈ ps, p.validation.claims_expected = s.expected.length) :
    ((ps.map fun p => Json.obj p.validation.toDict).mapM expected_claims >>= max_of) =
      .ok (.int s.expected.length) := by
  have hone : ∀ p ∈ ps, expected_claims (.obj p.validation.toDict) =
      .ok (.int s.expected.length) := by
    intro p hp
    unfold expected_claims
    change Except.ok ((Dict.get p.validation.toDict "claims_expected").or_else (.int 0)) = _
    rw [(validation_fields p.validation).2.2.2.2.1, h p hp, Json.or_else]
    split
    · rfl
    · rename_i hzero
      have hlength : (s.expected.length : ℤ) = 0 := by simpa [Json.truthy] using hzero
      rw [hlength]
  have hall : (ps.map fun p => Json.obj p.validation.toDict).mapM expected_claims =
      .ok ((ps.map fun p => Json.obj p.validation.toDict).map fun _ => .int s.expected.length) :=
    Except.mapM_ok fun v hv => by
      obtain ⟨p, hp, rfl⟩ := List.mem_map.mp hv
      exact hone p hp
  rw [hall]
  change max_of _ = _
  cases ps with
  | nil => exact absurd rfl hne
  | cons p ps =>
    rw [List.map_cons, List.map_cons, max_of]
    clear hall hone h hne
    induction ps with
    | nil => rfl
    | cons q ps ih =>
      rw [List.map_cons, List.map_cons, List.foldlM_cons]
      -- all passes are of the same bundle, so the first number is not exceeded
      have hlt : (Json.int s.expected.length).lt (.int s.expected.length) = .ok false := by
        simp [Json.lt, Json.is_num, Json.num_lt, Json.place, Json.num]
      rw [hlt]
      exact ih

/-- The validation of the merged report. -/
theorem merge_validations_eq (h : List.Forall₂ (Reads rt review_bundle s) rs ps) (hne : ps ≠ [])
    (qs : List Pass) :
    merge_validations qs.length (ps.map fun p => .obj p.validation.toDict) (per_pass 0 qs) =
      .ok (merged_validation s (ps.all fun p => in_scope p.scope) (qs ++ ps)) := by
  have hv := validated h
  have hfields := fun p : Pass => validation_fields p.validation
  have hreport : all_of "report_valid" (ps.map fun p => .obj p.validation.toDict) = .ok true := by
    rw [all_of_validations (f := fun _ => true) fun p hp => by rw [(hfields p).2.1, (hv p hp).2.1]]
    simp
  have hdet : all_of "deterministic_clean" (ps.map fun p => .obj p.validation.toDict) =
      .ok s.deterministic := by
    rw [all_of_validations (f := fun _ => s.deterministic) fun p hp => by
      rw [(hfields p).2.2.1, (hv p hp).2.2.1]]
    cases ps with
    | nil => exact absurd rfl hne
    | cons p ps => cases s.deterministic <;> simp
  have hscope : all_of "scope_clean" (ps.map fun p => .obj p.validation.toDict) =
      .ok (ps.all fun p => in_scope p.scope) :=
    all_of_validations fun p hp => by rw [(hfields p).2.2.2.1, (hv p hp).2.2.2.1]
  have hexpected := max_expected hne fun p hp => (hv p hp).2.2.2.2
  have hinvalid := invalid_new_eq (fun p hp => (hv p hp).2.1) qs.length
  have hkept := kept_validations_eq (fun p hp => ⟨(hv p hp).1, (hv p hp).2.1⟩) qs.length
  obtain ⟨expected, hexp, hmax⟩ := Except.bind_ok.mp hexpected
  unfold merge_validations
  rw [hreport, all_of_per_pass, invalid_prior_per_pass, hinvalid, hdet, hscope, hexp, hkept]
  change (max_of expected >>= fun _ => _) = _
  rw [hmax, merged_validation, per_pass_append]
  rfl

end Readings

/-- How bad an overall verdict is. -/
def badness (verdict : String) : ℕ := (OVERALL_RANK.lookup verdict).getD 0

theorem worst_append {us : List String} {v : String} (h : v ∈ OVERALL_VERDICTS) :
    (if badness (worst us) < badness v then v else worst us) = worst (us ++ [v]) := by
  have hv : v = "pass" ∨ v = "revise" ∨ v = "reject" := by simpa [OVERALL_VERDICTS] using h
  unfold worst
  by_cases hreject : "reject" ∈ us
  · rw [if_pos hreject, if_pos (List.mem_append_left _ hreject)]
    rcases hv with rfl | rfl | rfl
    · decide
    · decide
    · decide
  · by_cases hrevise : "revise" ∈ us
    · rw [if_neg hreject, if_pos hrevise]
      rcases hv with rfl | rfl | rfl
      · rw [if_neg (by decide), if_neg (by simpa using hreject), if_pos (by simp [hrevise])]
      · rw [if_neg (by decide), if_neg (by simpa using hreject), if_pos (by simp)]
      · rw [if_pos (by decide), if_pos (by simp)]
    · rw [if_neg hreject, if_neg hrevise]
      rcases hv with rfl | rfl | rfl
      · rw [if_neg (by decide), if_neg (by simpa using hreject), if_neg (by simpa using hrevise)]
      · rw [if_pos (by decide), if_neg (by simpa using hreject), if_pos (by simp)]
      · rw [if_pos (by decide), if_pos (by simp)]

/-- The first of the worst verdicts is the worst verdict. -/
theorem max_by_worst {vs : List String} (h : ∀ v ∈ vs, v ∈ OVERALL_VERDICTS) (hne : vs ≠ []) :
    max_by OVERALL_RANK (vs.map .str) = .ok (.str (worst vs)) := by
  let step : Json × ℕ → Json → Result (Json × ℕ) := fun best v => do
    let r ← rank OVERALL_RANK v
    pure (if best.2 < r then (v, r) else best)
  -- the best so far is the worst of those read, and changes only for one that is strictly
  -- worse
  have hfold : ∀ (us : List String) (ws : List String), (∀ w ∈ ws, w ∈ OVERALL_VERDICTS) →
      (ws.map Json.str).foldlM step (.str (worst us), badness (worst us)) =
        .ok (.str (worst (us ++ ws)), badness (worst (us ++ ws))) := by
    intro us ws hws
    induction ws generalizing us with
    | nil =>
      rw [List.append_nil]
      rfl
    | cons w ws ih =>
      obtain ⟨hw, hws⟩ := List.forall_mem_cons.mp hws
      have hstep : step (.str (worst us), badness (worst us)) (.str w) =
          .ok (.str (worst (us ++ [w])), badness (worst (us ++ [w]))) := by
        change Except.ok (if badness (worst us) < badness w then _ else _) = _
        rw [← worst_append hw]
        split
        · rfl
        · rfl
      have hrest := ih (us ++ [w]) hws
      rw [List.append_assoc, List.singleton_append] at hrest
      rw [List.map_cons, List.foldlM_cons, hstep]
      exact hrest
  cases vs with
  | nil => exact absurd rfl hne
  | cons v vs =>
    obtain ⟨hv, hvs⟩ := List.forall_mem_cons.mp h
    have hone : worst [v] = v := by
      rw [← List.nil_append [v], ← worst_append hv]
      have hcases : v = "pass" ∨ v = "revise" ∨ v = "reject" := by simpa [OVERALL_VERDICTS] using hv
      rcases hcases with rfl | rfl | rfl
      · decide
      · decide
      · decide
    have hall := hfold [v] vs hvs
    rw [hone] at hall
    change ((vs.map Json.str).foldlM step (.str v, badness v) >>= fun best => pure best.1) = _
    rw [hall]
    rfl

/-- The worst of a prior verdict counts for all it stands for. -/
theorem worst_of_worst (us vs : List String) : worst (vs ++ [worst us]) = worst (us ++ vs) := by
  unfold worst
  by_cases hreject : "reject" ∈ us
  · rw [if_pos hreject, if_pos (by simp), if_pos (by simp [hreject])]
  · by_cases hrevise : "revise" ∈ us
    · rw [if_neg hreject, if_pos hrevise]
      simp [hreject, hrevise]
    · rw [if_neg hreject, if_neg hrevise]
      simp [hreject, hrevise]

/-- The counters of the merged report. -/
theorem count_flags_table {order : List String} (total : ℤ) (F : String → Flagged) :
    count_flags ((table total order F).map Prod.snd) total =
      .ok ⟨order.countP fun id => decide (0 < (F id).length),
        order.countP fun id => decide (0 < (F id).length ∧ ((F id).length : ℤ) = total),
        order.countP fun id => decide ((F id).length = 1)⟩ := by
  -- each entry says how many passes have flagged it
  have hcounts : ((table total order F).map Prod.snd).mapM
      (fun c => (Json.obj c).item "flagged_in") = .ok (order.map fun id => .int (F id).length) := by
    rw [table, List.map_map]
    induction order with
    | nil => rfl
    | cons id order ih =>
      rw [List.map_cons, List.mapM_cons, ih]
      rfl
  have hcount : ∀ P : Json → Bool, ((order.map fun id => Json.int (F id).length).filter P).length =
      order.countP fun id => P (.int (F id).length) := by
    intro P
    rw [← List.countP_eq_length_filter, List.countP_map]
    rfl
  unfold count_flags
  rw [hcounts]
  change Except.ok (Flags.mk _ _ _) = _
  rw [List.filter_filter, List.filter_filter, hcount, hcount, hcount]
  have htruthy : ∀ n : ℕ, (Json.int n).truthy = decide (0 < n) := by
    intro n
    simp [Json.truthy, Nat.pos_iff_ne_zero]
  congr 2
  · exact List.countP_congr fun id _ => by rw [htruthy]
  · refine List.countP_congr fun id _ => ?_
    simp only [htruthy, Json.eq_int_int, Bool.and_eq_true, decide_eq_true_eq]
    omega
  · refine List.countP_congr fun id _ => ?_
    simp only [htruthy, Json.eq_int_int, Bool.and_eq_true, decide_eq_true_eq]
    omega

/-- The claims of the merged report, in the order of their ids. -/
theorem sorted_table {order ids : List String} (hperm : order.Perm ids)
    (hsorted : ids.Pairwise (· ≤ ·)) (total : ℤ) (F : String → Flagged) :
    Json.sorted_on (fun c => Dict.get c "claim_id") ((table total order F).map Prod.snd) =
      .ok (ids.map fun id => claim_entry total id (F id)) := by
  have hvalues : (table total order F).map Prod.snd =
      order.map fun id => claim_entry total id (F id) := by
    rw [table, List.map_map]
    rfl
  unfold Json.sorted_on
  rw [hvalues]
  by_cases hshort : (order.map fun id => claim_entry total id (F id)).length ≤ 1
  · have hsame : order = ids := by
      rw [List.length_map] at hshort
      match order, hshort with
      | [], _ => exact (List.nil_perm.mp hperm).symm
      | [id], _ => exact List.singleton_perm.mp hperm
    rw [if_pos hshort, hsame]
  · have hkeys : ((order.map fun id => claim_entry total id (F id)).all
        fun c => (Dict.get c "claim_id").is_str) = true := by
      rw [List.all_map, List.all_eq_true]
      exact fun _ _ => rfl
    have hmap := List.map_insertionSort (· ≤ ·)
      (fun a b : Dict => (Dict.get a "claim_id").text ≤ (Dict.get b "claim_id").text)
      (fun id => claim_entry total id (F id)) order fun _ _ _ _ => Iff.rfl
    have hsort : order.insertionSort (· ≤ ·) = ids :=
      ((List.perm_insertionSort _ _).trans hperm).eq_of_pairwise'
        (List.pairwise_insertionSort _ _) hsorted
    rw [if_neg hshort, if_pos hkeys, ← hmap, hsort]

section Readings

variable {review_bundle : Dict} {s : Subject} {rs : List Dict} {ps : List Pass}

/-- The overall verdicts of the passes are verdicts. -/
theorem overalls_eq (h : List.Forall₂ (Reads rt review_bundle s) rs ps) :
    (rs.map fun r => Dict.get r "overall_verdict") = (ps.map Pass.overall).map .str ∧
      ∀ v ∈ ps.map Pass.overall, v ∈ OVERALL_VERDICTS := by
  induction h with
  | nil => exact ⟨rfl, by simp⟩
  | @cons r p rs ps hr _ ih =>
    refine ⟨?_, ?_⟩
    · rw [List.map_cons, hr.overall, ih.1]
      rfl
    · rw [List.map_cons, List.forall_mem_cons]
      exact ⟨hr.overall_verdict, ih.2⟩

theorem provenances_eq (h : List.Forall₂ (Reads rt review_bundle s) rs ps) :
    (rs.map fun r => Dict.get r "review_provenance") = ps.map Pass.provenance := by
  induction h with
  | nil => rfl
  | cons hr _ ih => rw [List.map_cons, List.map_cons, hr.provenance, ih]

/-- A hash is taken from the first of the passes. -/
theorem first_of_eq (h : List.Forall₂ (Reads rt review_bundle s) rs ps) (hne : rs ≠ [])
    {field text : String} (htext : text ≠ "")
    (hget : ∀ r p, Reads rt review_bundle s r p → Dict.get r field = .str text) (prior : Dict) :
    first_of field rs prior = .str text := by
  cases h with
  | nil => exact absurd rfl hne
  | cons hr _ =>
    have htruthy : (Json.str text).truthy = true := by simp [Json.truthy, htext]
    rw [first_of, List.map_cons, hget _ _ hr, List.find?_cons_of_pos htruthy]
    rfl

theorem worst_mem (vs : List String) : worst vs ∈ OVERALL_VERDICTS := by
  unfold worst
  split
  · decide
  · split
    · decide
    · decide

/-- The overall verdict, with that of the prior report. -/
theorem overall_eq (h : List.Forall₂ (Reads rt review_bundle s) rs ps) (hne : ps ≠ [])
    {prior : Dict} {qs : List Pass} (hprior : Carries rt s prior qs) :
    max_by OVERALL_RANK ((rs.map fun r => Dict.get r "overall_verdict") ++
      if prior = [] then [] else [Dict.get prior "overall_verdict"]) =
        .ok (.str (worst ((qs ++ ps).map Pass.overall))) := by
  obtain ⟨hvalues, hknown⟩ := overalls_eq h
  have hps : ps.map Pass.overall ≠ [] := by simpa using hne
  rw [hvalues, hprior.overall, List.map_append]
  by_cases hqs : qs = []
  · rw [if_pos hqs, List.append_nil, hqs, max_by_worst hknown hps]
    rfl
  · have hmap : (ps.map Pass.overall).map Json.str ++ [.str (worst (qs.map Pass.overall))] =
        (ps.map Pass.overall ++ [worst (qs.map Pass.overall)]).map .str := by
      rw [List.map_append]
      rfl
    have hall : ∀ v ∈ ps.map Pass.overall ++ [worst (qs.map Pass.overall)],
        v ∈ OVERALL_VERDICTS := by
      intro v hv
      rcases List.mem_append.mp hv with hv | hv
      · exact hknown v hv
      · exact List.mem_singleton.mp hv ▸ worst_mem _
    rw [if_neg hqs, hmap, max_by_worst hall (by simp), worst_of_worst]

end Readings

/-- Merging valid passes into what stands for `qs` gives what stands for all of them. -/
theorem merge_reviews_eq {review_bundle : Dict} {s : Subject} {rs : List Dict} {ps qs : List Pass}
    {prior : Option Dict} (ha : About rt review_bundle s)
    (h : List.Forall₂ (Reads rt review_bundle s) rs ps) (hne : rs ≠ [])
    (hprior : Carries rt s (prior.getD []) qs) :
    merge_reviews rt rs prior = .ok (merged s (ps.all fun p => in_scope p.scope) (qs ++ ps)) := by
  have hlength : rs.length = ps.length := h.length_eq
  have hps : ps ≠ [] := fun hnil => hne (List.length_eq_zero_iff.mp (by rw [hlength, hnil]; rfl))
  -- the new passes are numbered on from the prior ones
  have htotal : (qs.length : ℤ) + rs.length = (qs ++ ps).length := by
    rw [hlength, List.length_append]
    omega
  obtain ⟨order, hclaims, hnodup, hfresh, hmem⟩ := hprior.claims
  obtain ⟨order', hrun, hnodup', hmem'⟩ :=
    merge_passes_table ha h hnodup hfresh ((qs ++ ps).length) qs.length
  have hflags : ∀ j, flags 0 qs j ++ flags qs.length ps j = flags 0 (qs ++ ps) j := by
    intro j
    rw [flags_append, zero_add]
  simp only [hflags] at hrun
  have hperm : order'.Perm s.ids := by
    refine (List.perm_ext_iff_of_nodup hnodup' ha.distinct).mpr fun j => ?_
    rw [hmem', hmem]
    exact ⟨fun hj => hj.elim And.right And.right, fun hj => .inr ⟨hps, hj⟩⟩
  have hsorted := sorted_table hperm ha.ordered ((qs ++ ps).length) (flags 0 (qs ++ ps))
  have hcounts := @count_flags_table order' ((qs ++ ps).length) (flags 0 (qs ++ ps))
  simp only [← htotal] at hrun hsorted hcounts
  obtain ⟨found, hfound, homissions⟩ := pass_omissions_ok h qs.length
  obtain ⟨kept, hkept, hper_pass⟩ := hprior.per_pass
  have hvalidation := merge_validations_eq h hps qs
  -- one step for each part that is read of the prior report or of the passes
  unfold merge_reviews
  rw [if_neg hne]
  refine Except.bind_ok.mpr ⟨_, hprior.passes, ?_⟩
  refine Except.bind_ok.mpr ⟨_, hclaims _, ?_⟩
  refine Except.bind_ok.mpr ⟨_, hrun, ?_⟩
  refine Except.bind_ok.mpr ⟨_, hprior.omissions, ?_⟩
  refine Except.bind_ok.mpr ⟨_, hfound, ?_⟩
  refine Except.bind_ok.mpr ⟨_, hprior.scopes, ?_⟩
  refine Except.bind_ok.mpr ⟨_, overall_eq h hps hprior, ?_⟩
  refine Except.bind_ok.mpr ⟨_, hkept, ?_⟩
  refine Except.bind_ok.mpr ⟨_, hper_pass, ?_⟩
  refine Except.bind_ok.mpr ⟨_, hcounts, ?_⟩
  refine Except.bind_ok.mpr ⟨_, hsorted, ?_⟩
  refine Except.bind_ok.mpr ⟨_, by rw [validations_eq h]; exact hvalidation, ?_⟩
  refine Except.bind_ok.mpr ⟨_, hprior.provenance, ?_⟩
  have harticle := first_of_eq h hne ha.article_ne (fun _ _ hr => hr.article) (prior.getD [])
  have hbundle := first_of_eq h hne ha.bundle_ne (fun _ _ hr => hr.bundle) (prior.getD [])
  change Except.ok _ = Except.ok _
  rw [harticle, hbundle, homissions, pass_scopes_eq h, provenances_eq h, htotal, List.map_map,
    ← List.map_append, ← merged_omissions_append, ← merged_scopes_append, hperm.countP_eq,
    hperm.countP_eq, hperm.countP_eq]
  simp only [Nat.cast_inj]
  rfl

end Memline.wiki
