/-
How many of a family are at a place, while its members move one at a time.

`Counted f p n` says that exactly `n` members `i` have `p (f i)`; the family may be infinite, as
long as few of it are there. A move of one member adds one, takes one away or changes nothing,
and a change of all of them at once that nobody notices changes nothing.
-/
import Mathlib.Data.Set.Card

set_option autoImplicit false

namespace Census

variable {ι α : Type*}

/-- Those who are where `p` says. -/
def At (f : ι → α) (p : α → Bool) : Set ι := {i | p (f i) = true}

/-- Exactly `n` of them are there. -/
structure Counted (f : ι → α) (p : α → Bool) (n : ℕ) : Prop where
  finite : (At f p).Finite
  card : (At f p).ncard = n

/-- Nobody is counted where the property holds of no place. -/
theorem Counted.zero {f : ι → α} {p : α → Bool} (h : ∀ i, p (f i) = false) : Counted f p 0 := by
  have hempty : At f p = ∅ := Set.eq_empty_of_forall_notMem fun i hi => by simp [At, h i] at hi
  refine ⟨?_, ?_⟩
  · rw [hempty]
    exact Set.finite_empty
  · rw [hempty]
    exact Set.ncard_empty ι

/-- Where nobody is counted, nobody is. -/
theorem Counted.none {f : ι → α} {p : α → Bool} (h : Counted f p 0) (i : ι) : p (f i) = false := by
  have hempty : At f p = ∅ := (Set.ncard_eq_zero h.finite).mp h.card
  have hi : i ∉ At f p := by
    rw [hempty]
    exact Set.notMem_empty i
  simpa [At] using hi

/-- Where somebody is counted, somebody is. -/
theorem Counted.some {f : ι → α} {p : α → Bool} {n : ℕ} (h : Counted f p n) (hn : n ≠ 0) :
    ∃ i, p (f i) = true := by
  have hcard : (At f p).ncard ≠ 0 := by rwa [h.card]
  exact Set.nonempty_of_ncard_ne_zero hcard

/-- Whoever is there is counted. -/
theorem Counted.ne_zero {f : ι → α} {p : α → Bool} {n : ℕ} (h : Counted f p n) {i : ι}
    (hi : p (f i) = true) : n ≠ 0 := by
  rintro rfl
  simp [h.none i] at hi

/-- One place is one member's. -/
theorem Counted.one {f : ι → α} {p : α → Bool} (h : Counted f p 1) {i j : ι} (hi : p (f i) = true)
    (hj : p (f j) = true) : i = j := by
  obtain ⟨k, hk⟩ := Set.ncard_eq_one.mp h.card
  have hik : i ∈ At f p := hi
  have hjk : j ∈ At f p := hj
  rw [hk, Set.mem_singleton_iff] at hik hjk
  rw [hik, hjk]

/-! ## Moves -/

section

variable [DecidableEq ι] {f : ι → α} {p : α → Bool} {n : ℕ} {i : ι} {a : α}

/-- A place that changes without changing what is counted of it leaves the count as it was. -/
theorem Counted.stay (h : Counted f p n) (ha : p a = p (f i)) :
    Counted (Function.update f i a) p n := by
  have hat : At (Function.update f i a) p = At f p := by
    ext j
    by_cases hj : j = i
    · subst hj
      simp [At, ha]
    · simp [At, hj]
  exact ⟨hat ▸ h.finite, by rw [hat, h.card]⟩

/-- A place that takes up the property is one more. -/
theorem Counted.enter (h : Counted f p n) (hi : p (f i) = false) (ha : p a = true) :
    Counted (Function.update f i a) p (n + 1) := by
  have hat : At (Function.update f i a) p = insert i (At f p) := by
    ext j
    by_cases hj : j = i
    · subst hj
      simp [At, ha]
    · simp [At, hj]
  have hout : i ∉ At f p := by simp [At, hi]
  refine ⟨hat ▸ h.finite.insert i, ?_⟩
  rw [hat, Set.ncard_insert_of_notMem hout h.finite, h.card]

/-- A place that gives the property up is one less; it was counted, so there was one to lose. -/
theorem Counted.leave (h : Counted f p (n + 1)) (hi : p (f i) = true) (ha : p a = false) :
    Counted (Function.update f i a) p n := by
  have hat : At (Function.update f i a) p = At f p \ {i} := by
    ext j
    by_cases hj : j = i
    · subst hj
      simp [At, ha]
    · simp [At, hj]
  have hin : i ∈ At f p := hi
  refine ⟨hat ▸ h.finite.sdiff, ?_⟩
  rw [hat, Set.ncard_sdiff_singleton_of_mem hin, h.card, Nat.add_sub_cancel]

end

/-- A change that nobody notices. -/
theorem Counted.map {f : ι → α} {p : α → Bool} {n : ℕ} {g : α → α} (h : Counted f p n)
    (hg : ∀ a, p (g a) = p a) : Counted (fun i => g (f i)) p n := by
  have hat : At (fun i => g (f i)) p = At f p := by
    ext j
    simp [At, hg]
  exact ⟨hat ▸ h.finite, by rw [hat, h.card]⟩

end Census
