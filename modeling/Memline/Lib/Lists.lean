/-
Cutting lists into pieces, and picking from them.

`slices n l` is the list of `l[i:i+n]` for `i` in steps of `n`. A list that is picked from
another one in order is what a filter of that list keeps.
-/
import Mathlib.Data.List.Nodup
import Mathlib.Data.List.Range
import Mathlib.Data.List.Infix
import Mathlib.Data.Finset.Card

set_option autoImplicit false

namespace Lists

variable {α : Type*}

/-! ## Characters -/

/-- What is said of the characters of a text is decided on the text, not on all characters that
there are. -/
instance (priority := 2000) decidable_chars (p : Char → Prop) [DecidablePred p]
    (l : List Char) : Decidable (∀ c ∈ l, p c) :=
  List.decidableBAll p l

instance (priority := 2000) decidable_some_char (p : Char → Prop) [DecidablePred p]
    (l : List Char) : Decidable (∃ c ∈ l, p c) :=
  List.decidableBEx p l

/-! ## Slices -/

/-- The pieces `l[0:n]`, `l[n:2*n]` and so on. -/
def slices (n : ℕ) (l : List α) : List (List α) :=
  (List.range ((l.length + n - 1) / n)).map fun i => (l.drop (i * n)).take n

/-- The first `k` pieces are a beginning of the list. -/
theorem flatten_windows (n : ℕ) (l : List α) (k : ℕ) :
    ((List.range k).map fun i => (l.drop (i * n)).take n).flatten = l.take (k * n) := by
  induction k with
  | zero => simp
  | succ k ih =>
    rw [List.range_succ, List.map_append, List.flatten_append, ih, Nat.succ_mul, List.take_add]
    simp

/-- A list cut into slices is those slices put together. -/
theorem flatten_slices {n : ℕ} (hn : 0 < n) (l : List α) : (slices n l).flatten = l := by
  rw [slices, flatten_windows]
  apply List.take_of_length_le
  have hdiv := Nat.div_add_mod (l.length + n - 1) n
  have hmod := Nat.mod_lt (l.length + n - 1) hn
  rw [Nat.mul_comm] at hdiv
  omega

theorem length_le_of_mem_slices {n : ℕ} {l s : List α} (h : s ∈ slices n l) : s.length ≤ n := by
  obtain ⟨i, -, rfl⟩ := List.mem_map.mp h
  exact List.length_take_le n _

theorem ne_nil_of_mem_slices {n : ℕ} (hn : 0 < n) {l s : List α} (h : s ∈ slices n l) : s ≠ [] := by
  obtain ⟨i, hi, rfl⟩ := List.mem_map.mp h
  have hlt := List.mem_range.mp hi
  -- the piece begins inside the list
  have hbegins : i * n < l.length := by
    have hle : (i + 1) * n ≤ l.length + n - 1 :=
      (Nat.mul_le_mul_right n hlt).trans (Nat.div_mul_le_self _ _)
    rw [Nat.succ_mul] at hle
    omega
  intro hnil
  have hlength := congrArg List.length hnil
  rw [List.length_take, List.length_drop, List.length_nil] at hlength
  omega

/-! ## Picking in order -/

/-- What is picked in order, by what is picked. -/
theorem eq_filter_of_sublist {l l' : List α} (h : l.Sublist l') (hnodup : l'.Nodup) (p : α → Bool)
    (hp : ∀ x ∈ l', x ∈ l ↔ p x = true) : l = l'.filter p := by
  induction h with
  | slnil => rfl
  | @cons l l' a h ih =>
    rw [List.nodup_cons] at hnodup
    have hnot : ¬ p a = true := by
      intro hpa
      exact hnodup.1 (h.subset ((hp a List.mem_cons_self).mpr hpa))
    rw [List.filter_cons_of_neg hnot]
    exact ih hnodup.2 fun x hx => hp x (List.mem_cons_of_mem a hx)
  | @cons_cons l l' a h ih =>
    rw [List.nodup_cons] at hnodup
    rw [List.filter_cons_of_pos ((hp a List.mem_cons_self).mp List.mem_cons_self)]
    refine congrArg (a :: ·) (ih hnodup.2 fun x hx => ?_)
    have hne : x ≠ a := by
      rintro rfl
      exact hnodup.1 hx
    rw [← hp x (List.mem_cons_of_mem a hx), List.mem_cons, or_iff_right hne]

/-! ## The first so many of a kind -/

/-- How many others stand ahead of the `k`-th element that satisfies `p`. -/
def ahead (p : α → Bool) : ℕ → List α → ℕ
  | 0, _ => 0
  | _, [] => 0
  | k + 1, x :: l => if p x then ahead p k l else ahead p (k + 1) l + 1

/-- A beginning of the list has `k` of them when it reaches the `k`-th. -/
theorem le_countP_take_iff {p : α → Bool} {k n : ℕ} {l : List α} (hk : k ≤ l.countP p) :
    k ≤ (l.take n).countP p ↔ ahead p k l + k ≤ n := by
  induction l generalizing k n with
  | nil =>
    have hzero : k = 0 := Nat.le_zero.mp hk
    simp [hzero, ahead]
  | cons x l ih =>
    cases k with
    | zero => simp [ahead]
    | succ k =>
      cases n with
      | zero => simp
      | succ n =>
        rw [List.take_succ_cons]
        by_cases hx : p x = true
        · rw [List.countP_cons_of_pos hx] at hk ⊢
          have hrest := ih (k := k) (n := n) (by omega)
          rw [ahead, if_pos hx]
          omega
        · rw [List.countP_cons_of_neg hx] at hk ⊢
          have hrest := ih (k := k + 1) (n := n) hk
          rw [ahead, if_neg hx]
          omega

/-- Filtering a beginning of the list finds the first `k` that satisfy `p`, or all of them,
exactly when it reaches the last of those. -/
theorem take_filter_take_iff {p : α → Bool} (k n : ℕ) (l : List α) :
    ((l.take n).filter p).take k = (l.filter p).take k ↔
      ahead p (min k (l.countP p)) l + min k (l.countP p) ≤ n := by
  rw [← le_countP_take_iff (Nat.min_le_right k _)]
  obtain ⟨rest, hrest⟩ : (l.take n).filter p <+: l.filter p := (List.take_prefix n l).filter p
  have hcount : (l.take n).countP p ≤ l.countP p := List.Sublist.countP_le (List.take_sublist n l)
  rw [List.countP_eq_length_filter, List.countP_eq_length_filter] at hcount ⊢
  constructor
  · intro heq
    have hlength := congrArg List.length heq
    rw [List.length_take, List.length_take] at hlength
    omega
  · intro hle
    rw [← hrest, List.take_append]
    by_cases hk : k ≤ ((l.take n).filter p).length
    · rw [Nat.sub_eq_zero_of_le hk, List.take_zero, List.append_nil]
    · -- fewer than `k` are found, so these are all there are
      have hlength := congrArg List.length hrest
      rw [List.length_append] at hlength
      have hnil : rest = [] := List.eq_nil_of_length_eq_zero (by omega)
      rw [hnil, List.take_nil, List.append_nil]

/-- A beginning that the others cannot fill. -/
theorem exists_mem_take {p : α → Bool} {n : ℕ} {l : List α} (hn : l.countP (fun x => !p x) < n)
    (h : ∃ x ∈ l, p x = true) : ∃ x ∈ l.take n, p x = true := by
  by_contra hnone
  push Not at hnone
  have hall : (l.take n).countP (fun x => !p x) = (l.take n).length := by
    rw [List.countP_eq_length]
    intro x hx
    simpa using hnone x hx
  have hle : (l.take n).countP (fun x => !p x) ≤ l.countP fun x => !p x :=
    List.Sublist.countP_le (List.take_sublist n l)
  rw [hall, List.length_take] at hle
  -- nothing was cut off
  have htake : l.take n = l := List.take_of_length_le (by omega)
  obtain ⟨x, hx, hpx⟩ := h
  exact hnone x (htake.symm ▸ hx) hpx

/-- What is not both fails the second only, or the first. -/
theorem countP_not_and (p q : α → Bool) (l : List α) :
    l.countP (fun x => !(p x && q x)) =
      l.countP (fun x => p x && !q x) + l.countP fun x => !p x := by
  induction l with
  | nil => rfl
  | cons x l ih =>
    rw [List.countP_cons, List.countP_cons, List.countP_cons, ih]
    by_cases hp : p x = true
    · by_cases hq : q x = true
      · simp [hp, hq]
      · simp only [hp, hq]
        simp
        omega
    · simp only [hp]
      simp
      omega

/-! ## Windows of a sorted list -/

/-- An element of a list sorted by a key is in a window when as many come before it as the
window leaves out, and fewer than it reaches. -/
theorem mem_window_iff {ι : Type*} [LinearOrder ι] (key : α → ι) {l : List α}
    (h : l.Pairwise fun a b => key a < key b) {x : α} (hx : x ∈ l) (a b : ℕ) :
    x ∈ (l.take b).drop a ↔
      a ≤ l.countP (fun y => key y < key x) ∧ l.countP (fun y => key y < key x) < b := by
  -- the keys rise, so the place of an element is the number of smaller ones
  induction l generalizing a b with
  | nil => exact absurd hx List.not_mem_nil
  | cons y l ih =>
    rw [List.pairwise_cons] at h
    have hsub : ∀ m n, x ∈ (l.take n).drop m → x ∈ l :=
      fun m n hmem => List.mem_of_mem_take (List.mem_of_mem_drop hmem)
    by_cases hxy : x = y
    · subst hxy
      have hnot : x ∉ l := fun hmem => lt_irrefl _ (h.1 x hmem)
      have hzero : (x :: l).countP (fun y => key y < key x) = 0 := by
        rw [List.countP_eq_zero]
        intro z hz
        rcases List.mem_cons.mp hz with rfl | hz
        · simp
        · simpa using (h.1 z hz).le
      rw [hzero]
      cases b with
      | zero => simp
      | succ b =>
        cases a with
        | zero => simp
        | succ a =>
          rw [List.take_succ_cons, List.drop_succ_cons]
          exact iff_of_false (fun hmem => hnot (hsub a b hmem)) (by omega)
    · have hmem : x ∈ l := (List.mem_cons.mp hx).resolve_left hxy
      have hcount : (y :: l).countP (fun z => key z < key x) =
          l.countP (fun z => key z < key x) + 1 :=
        List.countP_cons_of_pos (by simpa using h.1 x hmem)
      rw [hcount]
      cases b with
      | zero => simp
      | succ b =>
        rw [List.take_succ_cons]
        cases a with
        | zero =>
          have := ih h.2 hmem 0 b
          rw [List.drop_zero] at this ⊢
          rw [List.mem_cons, or_iff_right hxy, this]
          omega
        | succ a =>
          rw [List.drop_succ_cons, ih h.2 hmem a b]
          omega

/-! ## One list in two cuts -/

/-- What lies between the ends of the wider cut is in its middle. -/
theorem infix_of_cuts {a t b u l v : List α} (h : a ++ t ++ b = u ++ l ++ v)
    (hfirst : a.length ≤ u.length) (hlast : b.length ≤ v.length) : l <:+: t := by
  obtain ⟨u', rfl⟩ : a <+: u :=
    List.prefix_of_prefix_length_le ⟨t ++ b, by rw [← List.append_assoc, h]⟩ ⟨l ++ v,
      by rw [List.append_assoc]⟩ hfirst
  obtain ⟨v', rfl⟩ : b <:+ v :=
    List.suffix_of_suffix_length_le ⟨a ++ t, h⟩ ⟨a ++ u' ++ l, rfl⟩ hlast
  refine ⟨u', v', ?_⟩
  simp only [List.append_assoc] at h
  have hcancel := List.append_cancel_left h
  rw [← List.append_assoc, ← List.append_assoc] at hcancel
  exact (List.append_cancel_right hcancel).symm

/-! ## Repetitions -/

theorem nodup_eraseDups [DecidableEq α] (l : List α) : l.eraseDups.Nodup := by
  induction hn : l.length using Nat.strong_induction_on generalizing l with
  | _ n ih =>
    cases l with
    | nil => exact List.nodup_nil
    | cons a l =>
      rw [List.eraseDups_cons, List.nodup_cons]
      have hlt : (l.filter fun b => !b == a).length < n := by
        have hle := List.length_filter_le (fun b => !b == a) l
        rw [← hn, List.length_cons]
        omega
      refine ⟨?_, ih _ hlt _ rfl⟩
      intro hmem
      have ha := (List.mem_filter.mp (List.mem_eraseDups.mp hmem)).2
      simp at ha

/-- One member of a kind. -/
def Only (p : α → Bool) (l : List α) (x : α) : Prop := ∀ y, (y ∈ l ∧ p y = true) ↔ y = x

/-- A filter finds one element alone when that is the only one and there once. -/
theorem filter_eq_singleton_iff [DecidableEq α] {p : α → Bool} {l : List α} {x : α} :
    l.filter p = [x] ↔ Only p l x ∧ l.count x = 1 := by
  constructor
  · intro h
    have hmem : ∀ y, (y ∈ l ∧ p y = true) ↔ y = x := by
      intro y
      rw [← List.mem_filter, h, List.mem_singleton]
    have hx := ((hmem x).mpr rfl).2
    refine ⟨hmem, ?_⟩
    rw [← List.count_filter hx, h, List.count_singleton_self]
  · rintro ⟨honly, hcount⟩
    have hall : ∀ y ∈ l.filter p, y = x := fun y hy => (honly y).mp (List.mem_filter.mp hy)
    have hx := ((honly x).mpr rfl).2
    have hrep := List.eq_replicate_of_mem hall
    have hlen : (l.filter p).length = 1 := by
      rw [← hcount, ← List.count_filter hx]
      exact (List.count_eq_length.mpr fun y hy => (hall y hy).symm).symm
    rw [hrep, hlen]
    rfl

/-- A value is there twice exactly when two members have it. -/
theorem two_le_count_map {β : Type*} [DecidableEq α] [DecidableEq β] {l : List α} (hl : l.Nodup)
    (f : α → β) (y : β) : 2 ≤ (l.map f).count y ↔ ∃ a ∈ l, ∃ b ∈ l, a ≠ b ∧ f a = y ∧ f b = y := by
  have hcount : (l.map f).count y = (l.filter fun a => f a = y).toFinset.card := by
    rw [List.toFinset_card_of_nodup (hl.filter _), List.count, List.countP_map,
      List.countP_eq_length_filter]
    congr 1
  rw [hcount, Nat.succ_le_iff, Finset.one_lt_card]
  simp only [List.mem_toFinset, List.mem_filter, decide_eq_true_eq]
  constructor
  · rintro ⟨a, ⟨ha, hfa⟩, b, ⟨hb, hfb⟩, hne⟩
    exact ⟨a, ha, b, hb, hne, hfa, hfb⟩
  · rintro ⟨a, ha, b, hb, hne, hfa, hfb⟩
    exact ⟨a, ⟨ha, hfa⟩, b, ⟨hb, hfb⟩, hne⟩

/-! ## Separators and keys -/

/-- The first separator of a list splits it in one way only. -/
theorem append_sep_inj {c : α} {x x' z z' : List α} (hx : c ∉ x)
    (hx' : c ∉ x') (h : x ++ c :: z = x' ++ c :: z') : x = x' ∧ z = z' := by
  induction x generalizing x' with
  | nil =>
    cases x' with
    | nil => exact ⟨rfl, (List.cons.inj h).2⟩
    | cons d x' => exact absurd ((List.cons.inj h).1 ▸ List.mem_cons_self) hx'
  | cons d x ih =>
    cases x' with
    | nil => exact absurd ((List.cons.inj h).1 ▸ List.mem_cons_self) hx
    | cons d' x' =>
      obtain ⟨rfl, htail⟩ := List.cons.inj h
      obtain ⟨rfl, rfl⟩ := ih (fun hc => hx (List.mem_cons_of_mem _ hc))
        (fun hc => hx' (List.mem_cons_of_mem _ hc)) htail
      exact ⟨rfl, rfl⟩

/-- Where keys are not repeated, each entry is the one that its key looks up. -/
theorem lookup_of_mem {β : Type*} [BEq α] [LawfulBEq α] {l : List (α × β)}
    (h : (l.map Prod.fst).Nodup) {x : α × β} (hx : x ∈ l) : l.lookup x.1 = some x.2 := by
  obtain ⟨before, after, rfl⟩ := List.append_of_mem hx
  refine List.lookup_eq_some_iff.mpr ⟨before, after, rfl, fun y hy => ?_⟩
  rw [List.map_append, List.nodup_append] at h
  simpa using (h.2.2 y.1 (List.mem_map_of_mem hy) x.1 (by simp)).symm

/-! ## What is still open

Each entry of a list opens something, and closes what was opened at its own rank or above. -/

section unclosed

variable (rank : α → ℕ)

/-- What is open at the end of a list. -/
def unclosed (l : List α) : List α :=
  l.foldl (fun up e => up.filter (fun x => rank x < rank e) ++ [e]) []

/-- What is unclosed after one more element: those of a lower rank, and the element itself. -/
theorem unclosed_concat (l : List α) (e : α) :
    unclosed rank (l ++ [e]) = (unclosed rank l).filter (fun x => rank x < rank e) ++ [e] := by
  rw [unclosed, List.foldl_append]
  rfl

/-- Open is what no later entry has closed. -/
theorem mem_unclosed_iff {l : List α} {x : α} :
    x ∈ unclosed rank l ↔ ∃ before after, l = before ++ x :: after ∧
      ∀ y ∈ after, rank x < rank y := by
  induction l using List.reverseRecOn with
  | nil => simp [unclosed]
  | append_singleton l e ih =>
    rw [unclosed_concat, List.mem_append, List.mem_filter, List.mem_singleton, ih,
      decide_eq_true_eq]
    constructor
    · rintro (⟨⟨before, after, rfl, hafter⟩, he⟩ | rfl)
      · refine ⟨before, after ++ [e], by simp, fun y hy => ?_⟩
        rcases List.mem_append.mp hy with hy | hy
        · exact hafter y hy
        · rwa [List.mem_singleton.mp hy]
      · exact ⟨l, [], rfl, nofun⟩
    · rintro ⟨before, after, heq, hafter⟩
      rcases List.eq_nil_or_concat after with rfl | ⟨after, y, rfl⟩
      · exact .inr (List.append_singleton_inj.mp heq).2.symm
      · rw [List.concat_eq_append] at heq hafter
        rw [← List.cons_append, ← List.append_assoc] at heq
        obtain ⟨hl, he⟩ := List.append_singleton_inj.mp heq
        refine .inl ⟨⟨before, after, hl, fun z hz => hafter z (List.mem_append_left _ hz)⟩, ?_⟩
        rw [he]
        exact hafter y (List.mem_append_right _ (List.mem_singleton_self y))

/-- In a list that a key numbers, open is what no entry of a higher number has closed. -/
theorem mem_unclosed_iff_of_increasing {key : α → ℕ} {l : List α}
    (h : l.Pairwise fun x y => key x < key y) {x : α} :
    x ∈ unclosed rank l ↔ x ∈ l ∧ ∀ y ∈ l, key x < key y → rank x < rank y := by
  rw [mem_unclosed_iff]
  constructor
  · rintro ⟨before, after, rfl, hafter⟩
    refine ⟨by simp, fun y hy hlt => ?_⟩
    obtain ⟨-, -, hbefore⟩ := List.pairwise_append.mp h
    rcases List.mem_append.mp hy with hy | hy
    · exact absurd (hbefore y hy x List.mem_cons_self) (by omega)
    · rcases List.mem_cons.mp hy with rfl | hy
      · omega
      · exact hafter y hy
  · rintro ⟨hx, hall⟩
    obtain ⟨before, after, rfl⟩ := List.append_of_mem hx
    obtain ⟨-, hrest, -⟩ := List.pairwise_append.mp h
    exact ⟨before, after, rfl,
      fun y hy => hall y (by simp [hy]) ((List.pairwise_cons.mp hrest).1 y hy)⟩

/-- What is open stands in the order of the ranks. -/
theorem unclosed_pairwise (l : List α) : (unclosed rank l).Pairwise fun x y => rank x < rank y := by
  induction l using List.reverseRecOn with
  | nil => exact .nil
  | append_singleton l e ih =>
    rw [unclosed_concat, List.pairwise_append]
    refine ⟨ih.filter _, List.pairwise_singleton _ _, fun x hx y hy => ?_⟩
    rw [List.mem_singleton.mp hy]
    exact of_decide_eq_true (List.mem_filter.mp hx).2

end unclosed

end Lists
