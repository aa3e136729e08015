/-
Counting the marked calls of a log.

Two rules bound how often something happens in a run. The rule of the single chance is
about the state: a marked call needs a chance that it uses up and that no call gives
back. The other one is about the programs: what holds of the calls of every single
program holds of the log they share. `origin` goes the other way, from a state to the
call that made it so.
-/
import Memline.Lib.Effect
import Mathlib.Algebra.BigOperators.Group.Finset.Piecewise
import Mathlib.Algebra.Order.BigOperators.Group.Finset

set_option autoImplicit false

namespace Effect

variable {I : Interface} {σ : Type}

namespace Answered

variable {h : Handler I σ}

/-- The rule of the single chance `C`. A marked call needs a chance and uses it up, and no
call gives it back: there is at most one marked call, and none without the chance. -/
theorem once {J C : σ → Prop} {p : Event I → Bool} {s s' : σ} {es : List (Event I)}
    (hs : Answered h s es s') (h0 : J s)
    (hcall : ∀ e ∈ es, ∀ t, J t → e.2 = (h e.1 t).1 → J (h e.1 t).2 ∧
      (C (h e.1 t).2 → C t) ∧ (p e = true → C t ∧ ¬ C (h e.1 t).2)) :
    es.countP p ≤ 1 ∧ (¬ C s → es.countP p = 0) := by
  induction hs with
  | nil s => simp
  | @cons c s s' es _ ih =>
    obtain ⟨hJ, hkeeps, huses⟩ := hcall _ List.mem_cons_self s h0 rfl
    obtain ⟨hone, hnone⟩ := ih hJ fun e he => hcall e (List.mem_cons_of_mem _ he)
    rw [List.countP_cons]
    by_cases hp : p ⟨c, (h c s).1⟩ = true
    · obtain ⟨hchance, hspent⟩ := huses hp
      have hrest := hnone hspent
      exact ⟨by rw [if_pos hp]; omega, fun hno => absurd hchance hno⟩
    · rw [if_neg hp]
      exact ⟨by omega, fun hno => hnone fun hnext => hno (hkeeps hnext)⟩

/-- What holds at the end and not at the start was brought about by some call. -/
theorem origin {Q : σ → Prop} {s s' : σ} {es : List (Event I)} (hs : Answered h s es s')
    (h0 : ¬ Q s) (h1 : Q s') :
    ∃ es₁ e es₂ t, es = es₁ ++ e :: es₂ ∧ Answered h s es₁ t ∧ e.2 = (h e.1 t).1 ∧ ¬ Q t ∧
      Q (h e.1 t).2 := by
  induction hs with
  | nil s => exact absurd h1 h0
  | @cons c s s' es hs ih =>
    by_cases hc : Q (h c s).2
    · exact ⟨[], _, es, s, rfl, .nil s, rfl, h0, hc⟩
    · obtain ⟨es₁, e, es₂, t, rfl, ht, he, hno, hyes⟩ := ih hc h1
      exact ⟨_ :: es₁, e, es₂, t, rfl, .cons ht, he, hno, hyes⟩

end Answered

namespace Conf

variable {ι : Type} [DecidableEq ι]

/-- The marked calls of one program. -/
theorem countP_own (p : Event I → Bool) (i : ι) (log : List (ι × Event I)) :
    (own i log).countP p = log.countP fun e => decide (e.1 = i) && p e.2 := by
  induction log with
  | nil => rfl
  | cons e log ih =>
    obtain ⟨j, e⟩ := e
    rw [List.countP_cons, ← ih]
    by_cases hji : j = i
    · subst hji
      rw [own_cons_self, List.countP_cons, decide_eq_true rfl, Bool.true_and]
    · rw [own_cons_ne hji, decide_eq_false hji, Bool.false_and]
      simp

/-- The calls of a log are those of its programs together. -/
theorem countP_own_sum (p : Event I → Bool) (log : List (ι × Event I)) (S : Finset ι)
    (hS : ∀ e ∈ log, e.1 ∈ S) :
    log.countP (fun e => p e.2) = ∑ i ∈ S, (own i log).countP p := by
  induction log with
  | nil => simp
  | cons e log ih =>
    obtain ⟨j, e⟩ := e
    have hj : j ∈ S := hS _ List.mem_cons_self
    have hown : ∀ i, (own i ((j, e) :: log)).countP p =
        (own i log).countP p + if j = i then (if p e then 1 else 0) else 0 := by
      intro i
      by_cases hji : j = i
      · subst hji
        rw [own_cons_self, List.countP_cons, if_pos rfl]
      · rw [own_cons_ne hji, if_neg hji, Nat.add_zero]
    rw [List.countP_cons, ih fun e he => hS e (List.mem_cons_of_mem _ he)]
    simp only [hown, Finset.sum_add_distrib, Finset.sum_ite_eq, if_pos hj]

/-- When every program makes at most as many calls of one sort as of another one, so
do all together. -/
theorem countP_le_of_own {p q : Event I → Bool} {log : List (ι × Event I)}
    (h : ∀ i, (own i log).countP q ≤ (own i log).countP p) :
    log.countP (fun e => q e.2) ≤ log.countP (fun e => p e.2) := by
  have hS : ∀ e ∈ log, e.1 ∈ (log.map Prod.fst).toFinset := by
    intro e he
    exact List.mem_toFinset.mpr (List.mem_map.mpr ⟨e, he, rfl⟩)
  rw [countP_own_sum q log _ hS, countP_own_sum p log _ hS]
  exact Finset.sum_le_sum fun i _ => h i

end Conf

/-- Two marked elements of a list with at most one are the same. -/
theorem eq_of_countP_le_one {α : Type*} {p : α → Bool} {l : List α} (h : l.countP p ≤ 1) {a b : α}
    (ha : a ∈ l) (hb : b ∈ l) (hpa : p a = true) (hpb : p b = true) : a = b := by
  induction l with
  | nil => simp at ha
  | cons c l ih =>
    have hpos : ∀ x ∈ l, p x = true → 0 < l.countP p := fun x hx hpx =>
      List.countP_pos_iff.mpr ⟨x, hx, hpx⟩
    rw [List.countP_cons] at h
    rcases List.mem_cons.mp ha with rfl | ha'
    · rcases List.mem_cons.mp hb with rfl | hb'
      · rfl
      · have := hpos b hb' hpb
        rw [if_pos hpa] at h
        omega
    · rcases List.mem_cons.mp hb with rfl | hb'
      · have := hpos a ha' hpa
        rw [if_pos hpb] at h
        omega
      · exact ih (by omega) ha' hb'
end Effect
