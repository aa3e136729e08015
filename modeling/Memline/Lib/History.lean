/-
Runs of a state machine whose steps may be refused.

`step s a` is the state after `a`, or none where `a` is not possible in `s`; `run`
threads a state through a list of actions, and `Each` says something of every state the
run passes together with the action taken there. Besides the rule of invariants, which
may speak about the actions so far, there is `run_until`: what holds at one point of a
run holds at its end, unless some later step broke it.
-/
import Mathlib.Data.List.Induction
import Mathlib.Data.Option.Basic

set_option autoImplicit false

namespace History

variable {σ α : Type*} {step : σ → α → Option σ}

def run (step : σ → α → Option σ) : σ → List α → Option σ
  | s, [] => some s
  | s, a :: acts => (step s a).bind fun t => run step t acts

@[simp] theorem run_nil (s : σ) : run step s [] = some s := rfl

/-- A run of several actions is a step and a run of the others. -/
theorem run_cons (s : σ) (a : α) (acts : List α) :
    run step s (a :: acts) = (step s a).bind fun t => run step t acts := rfl

theorem run_one {s t : σ} {a : α} (h : step s a = some t) : run step s [a] = some t := by
  rw [run_cons, h]
  rfl

theorem run_append (s : σ) (acts acts' : List α) :
    run step s (acts ++ acts') = (run step s acts).bind fun t => run step t acts' := by
  induction acts generalizing s with
  | nil => rfl
  | cons a acts ih =>
    rw [List.cons_append, run_cons, run_cons, Option.bind_assoc]
    exact congrArg _ (funext ih)

/-- What a run went through where it was cut in two. -/
theorem run_append_inv {s t : σ} {acts acts' : List α} (h : run step s (acts ++ acts') = some t) :
    ∃ u, run step s acts = some u ∧ run step u acts' = some t := by
  rw [run_append] at h
  exact Option.bind_eq_some_iff.mp h

/-- A run that goes through has a first step, from whose end the rest goes through. -/
theorem run_cons_inv {s t : σ} {a : α} {acts : List α} (h : run step s (a :: acts) = some t) :
    ∃ u, step s a = some u ∧ run step u acts = some t :=
  Option.bind_eq_some_iff.mp h

/-! ## Every step of a run -/

/-- Each action of the run is taken in a state where `ok` allows it. -/
def Each (step : σ → α → Option σ) (ok : σ → α → Prop) : σ → List α → Prop
  | _, [] => True
  | s, a :: acts => ok s a ∧ ∀ t ∈ step s a, Each step ok t acts

instance Each.decidable {ok : σ → α → Prop} [∀ s a, Decidable (ok s a)] :
    ∀ (s : σ) (acts : List α), Decidable (Each step ok s acts)
  | _, [] => isTrue trivial
  | s, a :: acts =>
    have : ∀ t, Decidable (Each step ok t acts) := fun t => Each.decidable t acts
    match h : step s a with
    | none => decidable_of_iff (ok s a) ⟨fun hok => ⟨hok, by simp [h]⟩, And.left⟩
    | some t => decidable_of_iff (ok s a ∧ Each step ok t acts) (by simp [Each, h])

/-- A condition on each step of a run is one on each step of its two parts. -/
theorem each_append {ok : σ → α → Prop} {s t : σ} {acts acts' : List α}
    (hrun : run step s acts = some t) (h : Each step ok s (acts ++ acts')) :
    Each step ok s acts ∧ Each step ok t acts' := by
  induction acts generalizing s with
  | nil =>
    injection hrun with hrun
    subst hrun
    exact ⟨trivial, h⟩
  | cons a acts ih =>
    obtain ⟨u, hu, hrest⟩ := run_cons_inv hrun
    obtain ⟨hok, hnext⟩ := h
    obtain ⟨hfirst, hsecond⟩ := ih hrest (hnext u hu)
    refine ⟨⟨hok, fun v hv => ?_⟩, hsecond⟩
    obtain rfl : u = v := Option.some.inj (hu.symm.trans hv)
    exact hfirst

/-- Two conditions on the steps of a run are one. -/
theorem Each.and {ok ok' : σ → α → Prop} {s : σ} {acts : List α} (h : Each step ok s acts)
    (h' : Each step ok' s acts) : Each step (fun s a => ok s a ∧ ok' s a) s acts := by
  induction acts generalizing s with
  | nil => trivial
  | cons a acts ih => exact ⟨⟨h.1, h'.1⟩, fun t ht => ih (h.2 t ht) (h'.2 t ht)⟩

/-! ## Invariants -/

/-- The rule for an invariant that only steps allowed by `ok` keep. -/
theorem run_invariant_of_each {ok : σ → α → Prop} {s₀ : σ} {J : List α → σ → Prop}
    (hstart : J [] s₀)
    (hstep : ∀ pre a s t, run step s₀ pre = some s → ok s a → J pre s → step s a = some t →
      J (pre ++ [a]) t)
    {acts : List α} {s : σ} (h : run step s₀ acts = some s) (hok : Each step ok s₀ acts) :
    J acts s := by
  induction acts using List.reverseRecOn generalizing s with
  | nil =>
    injection h with h
    rwa [← h]
  | append_singleton pre a ih =>
    obtain ⟨t, ht, hrest⟩ := run_append_inv h
    obtain ⟨u, hu, hdone⟩ := run_cons_inv hrest
    injection hdone with hdone
    subst hdone
    obtain ⟨hpre, hlast⟩ := each_append ht hok
    exact hstep pre a t u ht hlast.1 (ih ht hpre) hu

theorem each_true (s : σ) (acts : List α) : Each step (fun _ _ => True) s acts := by
  induction acts generalizing s with
  | nil => trivial
  | cons a acts ih => exact ⟨trivial, fun t _ => ih t⟩

/-- What holds at the start and survives every step, given what came before it. -/
theorem run_invariant {s₀ : σ} {J : List α → σ → Prop} (hstart : J [] s₀)
    (hstep : ∀ pre a s t, run step s₀ pre = some s → J pre s → step s a = some t → J (pre ++ [a]) t)
    {acts : List α} {s : σ} (h : run step s₀ acts = some s) : J acts s :=
  run_invariant_of_each hstart (fun pre a s t hrun _ => hstep pre a s t hrun) h (each_true s₀ acts)

/-- The rule for an invariant of the states alone. -/
theorem run_keeps {J : σ → Prop} (hstep : ∀ s a t, J s → step s a = some t → J t)
    {acts : List α} {s t : σ} (hs : J s) (h : run step s acts = some t) : J t :=
  run_invariant (J := fun _ => J) hs (fun _ a s t _ hJ hst => hstep s a t hJ hst) h

/-- What holds at one point of a run holds at its end, or a later step broke it. -/
theorem run_until {P : σ → Prop} {B : σ → α → Prop}
    (hstep : ∀ s a t, P s → step s a = some t → P t ∨ B s a) {acts : List α} {s t : σ} (hs : P s)
    (h : run step s acts = some t) :
    P t ∨ ∃ pre a post u, acts = pre ++ a :: post ∧ run step s pre = some u ∧ B u a := by
  induction acts generalizing s with
  | nil =>
    injection h with h
    exact .inl (h ▸ hs)
  | cons a acts ih =>
    obtain ⟨u, hu, hrest⟩ := run_cons_inv h
    rcases hstep s a u hs hu with hP | hB
    · rcases ih hP hrest with hP | ⟨pre, b, post, v, rfl, hv, hB⟩
      · exact .inl hP
      · refine .inr ⟨a :: pre, b, post, v, rfl, ?_, hB⟩
        rw [run_cons, hu]
        exact hv
    · exact .inr ⟨[], a, acts, s, rfl, rfl, hB⟩

end History
