/-
Occurrences of a pattern in a list.

`around` cuts a list at the first occurrence of a pattern. Where the first occurrence is does
not depend on what follows it; for a pattern whose first element comes nowhere else in it,
no second occurrence overlaps the first, so that it is enough that the pattern does not occur
in what lies before.
-/
import Mathlib.Data.List.Infix
import Mathlib.Tactic.Common

set_option autoImplicit false

namespace Lists

variable {α : Type*}

/-- A pattern whose first element comes nowhere else in it. -/
def Solid (pat : List α) : Prop := ∃ c rest, pat = c :: rest ∧ c ∉ rest

theorem Solid.ne_nil {pat : List α} (h : Solid pat) : pat ≠ [] := by
  obtain ⟨c, rest, rfl, -⟩ := h
  exact List.cons_ne_nil c rest

/-- An occurrence does not go over an element that is not in the pattern. -/
theorem prefix_append_cons_iff {pat a b : List α} {c : α} (hc : c ∉ pat) :
    pat <+: a ++ c :: b ↔ pat <+: a := by
  constructor
  · intro h
    rcases List.prefix_or_prefix_of_prefix h (List.prefix_append a (c :: b)) with h' | ⟨w, rfl⟩
    · exact h'
    · have hw : w <+: c :: b := (List.prefix_append_right_inj a).mp h
      cases w with
      | nil => rw [List.append_nil]
      | cons d w =>
        have hd : d = c := (List.cons_prefix_cons.mp hw).1
        subst hd
        exact absurd (List.mem_append_right _ List.mem_cons_self) hc
  · exact fun h => h.trans (List.prefix_append _ _)

/-- What the separator is not in lies on one side of it. -/
theorem infix_append_cons_iff {pat a b : List α} {c : α} (hpat : pat ≠ []) (hc : c ∉ pat) :
    pat <:+: a ++ c :: b ↔ pat <:+: a ∨ pat <:+: b := by
  induction a with
  | nil =>
    rw [List.nil_append, List.infix_cons_iff, List.infix_nil]
    have hnot : ¬ pat <+: c :: b := by
      intro h
      cases pat with
      | nil => exact hpat rfl
      | cons d pat => exact hc ((List.cons_prefix_cons.mp h).1 ▸ List.mem_cons_self)
    simp only [hnot, hpat, false_or]
  | cons d a ih =>
    rw [List.cons_append, List.infix_cons_iff, ih, List.infix_cons_iff, ← List.cons_append,
      prefix_append_cons_iff hc, or_assoc]

/-- An occurrence begins with the first element of the pattern. -/
theorem infix_append_of_notMem {c : α} {rest a s : List α} (hc : c ∉ a)
    (h : c :: rest <:+: a ++ s) : c :: rest <:+: s := by
  induction a with
  | nil => exact h
  | cons d a ih =>
    rw [List.mem_cons, not_or] at hc
    rcases List.infix_cons_iff.mp h with h | h
    · exact absurd (List.cons_prefix_cons.mp h).1 hc.1
    · exact ih hc.2 h

/-- And it ends with the last one. -/
theorem append_infix_of_notMem {c : α} {start a s : List α} (hc : c ∉ a)
    (h : start ++ [c] <:+: s ++ a) : start ++ [c] <:+: s := by
  rw [← List.reverse_infix, List.reverse_append, List.reverse_append] at h
  rw [← List.reverse_infix, List.reverse_append]
  exact infix_append_of_notMem (by simpa using hc) h

/-- A member of a list is within the list put together. -/
theorem infix_intercalate {sep l : List α} {ls : List (List α)} (h : l ∈ ls) :
    l <:+: sep.intercalate ls := by
  induction ls with
  | nil => cases h
  | cons l' ls ih =>
    cases ls with
    | nil =>
      rw [List.mem_singleton.mp h, List.intercalate_singleton]
    | cons l'' ls =>
      rw [List.intercalate_cons_cons]
      rcases List.mem_cons.mp h with rfl | h
      · rw [List.append_assoc]
        exact (List.prefix_append _ _).isInfix
      · exact (ih h).trans (List.suffix_append _ _).isInfix

variable [DecidableEq α]

omit [DecidableEq α] in
/-- What the separator is not in is within the list put together only where it is within a
member. -/
theorem infix_intercalate_iff {pat : List α} {c : α} (hpat : pat ≠ []) (hc : c ∉ pat)
    (ls : List (List α)) : pat <:+: [c].intercalate ls ↔ ∃ l ∈ ls, pat <:+: l := by
  induction ls with
  | nil => simp [hpat]
  | cons l ls ih =>
    cases ls with
    | nil => simp
    | cons l' ls =>
      rw [List.intercalate_cons_cons, List.append_assoc, List.singleton_append,
        infix_append_cons_iff hpat hc, ih, List.exists_mem_cons_iff]
      simp only [List.exists_mem_cons_iff]

/-- What lies before the first occurrence of a pattern, and what lies behind it. -/
def around (pat : List α) : List α → Option (List α × List α)
  | [] => if pat = [] then some ([], []) else none
  | c :: l =>
    if pat <+: c :: l then some ([], (c :: l).drop pat.length)
    else (around pat l).map fun w => (c :: w.1, w.2)

/-- A pattern that stands in front is found there. -/
theorem around_of_start {pat l : List α} (h : pat <+: l) :
    around pat l = some ([], l.drop pat.length) := by
  cases l with
  | nil =>
    rw [List.prefix_nil.mp h]
    simp [around]
  | cons c l => rw [around, if_pos h]

/-- A pattern that does not stand in front is found behind the first element, if at all. -/
theorem around_cons {pat l : List α} {c : α} (h : ¬ pat <+: c :: l) :
    around pat (c :: l) = (around pat l).map fun w => (c :: w.1, w.2) := by
  rw [around, if_neg h]

/-- No occurrence is found when there is none. -/
theorem around_eq_none_iff {pat l : List α} : around pat l = none ↔ ¬ pat <:+: l := by
  induction l with
  | nil =>
    rw [around, List.infix_nil]
    by_cases h : pat = []
    · simp [h]
    · simp [h]
  | cons c l ih =>
    rw [List.infix_cons_iff]
    by_cases h : pat <+: c :: l
    · rw [around_of_start h]
      simp [h]
    · rw [around_cons h, Option.map_eq_none_iff, ih]
      simp [h]

/-- The list around its first occurrence. -/
theorem eq_of_around {pat l u v : List α} (h : around pat l = some (u, v)) : l = u ++ pat ++ v := by
  induction l generalizing u with
  | nil =>
    rw [around] at h
    by_cases hpat : pat = []
    · rw [if_pos hpat] at h
      cases h
      simp [hpat]
    · rw [if_neg hpat] at h
      cases h
  | cons c l ih =>
    by_cases hpre : pat <+: c :: l
    · rw [around_of_start hpre] at h
      cases h
      exact (List.prefix_iff_eq_append.mp hpre).symm
    · rw [around_cons hpre] at h
      obtain ⟨⟨u', v'⟩, hw, heq⟩ := Option.map_eq_some_iff.mp h
      cases heq
      rw [List.cons_append, List.cons_append, ← ih hw]

/-- An occurrence with none in what lies before it and all but its own last element. -/
theorem around_of_first {pat u : List α} (v : List α) (hpat : pat ≠ [])
    (h : ¬ pat <:+: u ++ pat.dropLast) : around pat (u ++ pat ++ v) = some (u, v) := by
  induction u with
  | nil =>
    rw [List.nil_append, around_of_start (List.prefix_append pat v), List.drop_left]
  | cons c u ih =>
    have hpre : ¬ pat <+: c :: (u ++ pat ++ v) := by
      intro hpre
      refine h (List.IsPrefix.isInfix ?_)
      have hlen := List.length_pos_of_ne_nil hpat
      -- the pattern would lie in what is known to be free of it, by its length
      have hends : c :: u ++ pat.dropLast <+: c :: (u ++ pat ++ v) := by
        have hcut := List.prefix_append ((c :: u) ++ pat.dropLast) (pat.getLast hpat :: v)
        rwa [List.append_assoc, List.append_cons, List.dropLast_append_getLast hpat,
          ← List.append_assoc] at hcut
      refine List.prefix_of_prefix_length_le hpre hends ?_
      simp only [List.length_append, List.length_cons, List.length_dropLast]
      omega
    have hrest : ¬ pat <:+: u ++ pat.dropLast :=
      fun hin => h (hin.trans (List.suffix_cons c _).isInfix)
    rw [List.cons_append, List.cons_append, around_cons hpre, ih hrest]
    rfl

/-- What lies before the first occurrence has none. -/
theorem not_infix_of_around {pat l u v : List α} (hpat : pat ≠ [])
    (h : around pat l = some (u, v)) : ¬ pat <:+: u := by
  induction l generalizing u with
  | nil =>
    rw [around, if_neg hpat] at h
    cases h
  | cons c l ih =>
    by_cases hpre : pat <+: c :: l
    · rw [around_of_start hpre] at h
      cases h
      rwa [List.infix_nil]
    · have hl := eq_of_around h
      rw [around_cons hpre] at h
      obtain ⟨⟨u', v'⟩, hw, heq⟩ := Option.map_eq_some_iff.mp h
      cases heq
      rw [List.infix_cons_iff]
      rintro (hbefore | hbefore)
      · refine hpre (hbefore.trans ?_)
        rw [hl, List.append_assoc]
        exact List.prefix_append _ _
      · exact ih hw hbefore

/-- The first occurrence of a solid pattern, whatever follows it. -/
theorem around_append {pat u : List α} (hsolid : Solid pat) (hu : ¬ pat <:+: u) (v : List α) :
    around pat (u ++ pat ++ v) = some (u, v) := by
  induction u with
  | nil =>
    rw [List.nil_append, around_of_start (List.prefix_append _ _), List.drop_left]
  | cons c u ih =>
    rw [List.infix_cons_iff, not_or] at hu
    have hnot : ¬ pat <+: c :: (u ++ pat ++ v) := by
      intro hpre
      have hself : (c :: u) <+: c :: (u ++ pat ++ v) := by
        rw [List.append_assoc]
        exact List.prefix_append (c :: u) (pat ++ v)
      rcases List.prefix_or_prefix_of_prefix hpre hself with h | ⟨w, hw⟩
      · exact hu.1 h
      · -- the pattern would go over into its own first element
        obtain ⟨s, hs⟩ := hpre
        have hws : w ++ s = pat ++ v := by
          refine (List.append_right_inj (c :: u)).mp ?_
          rw [← List.append_assoc, hw, hs, List.append_assoc]
          rfl
        have hwpre : w <+: pat ++ v := ⟨s, hws⟩
        obtain ⟨d, rest, rfl, hd⟩ := hsolid
        cases w with
        | nil =>
          rw [List.append_nil] at hw
          exact hu.1 (hw ▸ List.prefix_rfl)
        | cons e w =>
          have he : e = d := (List.cons_prefix_cons.mp hwpre).1
          injection hw with _ hrest
          refine hd ?_
          rw [← hrest, he]
          exact List.mem_append_right _ List.mem_cons_self
    rw [List.cons_append, List.cons_append, around_cons hnot, ih hu.2]
    rfl

/-- Where a solid pattern occurs first. -/
theorem around_eq_some_iff {pat l u v : List α} (hsolid : Solid pat) :
    around pat l = some (u, v) ↔ l = u ++ pat ++ v ∧ ¬ pat <:+: u := by
  constructor
  · exact fun h => ⟨eq_of_around h, not_infix_of_around hsolid.ne_nil h⟩
  · rintro ⟨rfl, hu⟩
    exact around_append hsolid hu v

end Lists
