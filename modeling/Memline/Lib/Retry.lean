/-
Trying candidates one after the other until one of them will do.

An attempt either settles the whole or leaves a mark, and the attempts after it see the marks left
so far. A trace of such a loop is a list of failed attempts, each with a trace of its own, and then
one of three things: the attempt that settled it, an attempt that has not come to its end, or what
is done when all are spent.
-/
import Memline.Lib.Effect

set_option autoImplicit false

namespace Effect

variable {I : Interface} {α γ φ : Type}

namespace Prog

variable (one : α → List φ → Prog I (γ ⊕ φ)) (spent : List φ → Prog I γ)

/-- What follows an attempt. -/
def settle (rest : List φ → Prog I γ) (marks : List φ) : γ ⊕ φ → Prog I γ
  | .inl c => pure c
  | .inr mark => rest (marks ++ [mark])

/-- The candidates in turn. -/
def tried : List α → List φ → Prog I γ
  | [], marks => spent marks
  | a :: candidates, marks => do
    let outcome ← one a marks
    settle (tried candidates) marks outcome

end Prog

open Prog

/-- An attempt that settled nothing. -/
structure Attempt (I : Interface) (α φ : Type) where
  candidate : α
  mark : φ
  calls : List (Event I)

/-- The attempts failed one after the other, the first of them after these marks. -/
def Failing (one : α → List φ → Prog I (γ ⊕ φ)) : List φ → List (Attempt I α φ) → Prop
  | _, [] => True
  | marks, t :: ts => Trace (one t.candidate marks) t.calls (.ret (.inr t.mark)) ∧
      Failing one (marks ++ [t.mark]) ts

variable {one : α → List φ → Prog I (γ ⊕ φ)} {spent : List φ → Prog I γ}

/-- How the loop stands after the failed attempts: `rest` are the candidates left, `fs` the calls
since. -/
inductive Stands (one : α → List φ → Prog I (γ ⊕ φ)) (spent : List φ → Prog I γ) (marks : List φ) :
    List α → List (Event I) → Prog I γ → Prop where
  | settled {a : α} {rest : List α} {fs : List (Event I)} {c : γ}
      (h : Trace (one a marks) fs (.ret (.inl c))) :
      Stands one spent marks (a :: rest) fs (.ret c)
  | trying {a : α} {rest : List α} {fs : List (Event I)} {p : Prog I (γ ⊕ φ)}
      (h : Trace (one a marks) fs p) (hp : ¬ p.Returned) :
      Stands one spent marks (a :: rest) fs (p >>= settle (tried one spent rest) marks)
  | spent {fs : List (Event I)} {q : Prog I γ} (h : Trace (spent marks) fs q) :
      Stands one spent marks [] fs q

/-- Every trace of the loop is a number of failed attempts and where the loop stands after them. -/
theorem Trace.of_tried {candidates : List α} {marks : List φ} {es : List (Event I)} {q : Prog I γ}
    (h : Trace (tried one spent candidates marks) es q) :
    ∃ ts rest fs, candidates = ts.map Attempt.candidate ++ rest ∧
      es = ts.flatMap Attempt.calls ++ fs ∧
      Failing one marks ts ∧ Stands one spent (marks ++ ts.map Attempt.mark) rest fs q := by
  induction candidates generalizing marks es with
  | nil =>
    rw [tried] at h
    exact ⟨[], [], es, rfl, rfl, trivial, .spent (by simpa using h)⟩
  | cons a candidates ih =>
    rcases h.bind_inv with ⟨p, hp, rfl, hret⟩ | ⟨outcome, es₁, es₂, rfl, h₁, h₂⟩
    -- the attempt is under way, or has raised
    · exact ⟨[], a :: candidates, es, rfl, rfl, trivial, by simpa using .trying hp hret⟩
    · cases outcome with
      -- it has settled the whole, and no call follows
      | inl c =>
        obtain ⟨rfl, rfl⟩ : es₂ = [] ∧ q = .ret c := h₂.of_done trivial
        refine ⟨[], a :: candidates, es₁, rfl, by simp, trivial, ?_⟩
        simpa using Stands.settled h₁
      -- it has left its mark, and the candidates after it see that
      | inr mark =>
        obtain ⟨ts, rest, fs, rfl, rfl, hts, hstands⟩ := ih h₂
        refine ⟨⟨a, mark, es₁⟩ :: ts, rest, fs, rfl, by simp, ⟨h₁, hts⟩, ?_⟩
        simpa using hstands

/-- The loop has ended: settled, by what an attempt raised, or with every candidate spent. -/
theorem Stands.done {marks : List φ} {rest : List α} {fs : List (Event I)} {q : Prog I γ}
    (h : Stands one spent marks rest fs q) (hq : q.Done) :
    (∃ a rest' c, rest = a :: rest' ∧ q = .ret c ∧ Trace (one a marks) fs (.ret (.inl c))) ∨
      (∃ a rest' e, rest = a :: rest' ∧ q = .raise e ∧ Trace (one a marks) fs (.raise e)) ∨
      (rest = [] ∧ Trace (spent marks) fs q) := by
  cases h with
  | settled h => exact .inl ⟨_, _, _, rfl, rfl, h⟩
  | @trying a rest fs p h hp =>
    cases p with
    | ret c => exact absurd trivial hp
    | raise e => exact .inr (.inl ⟨a, rest, e, rfl, rfl, h⟩)
    -- the loop would not have ended
    | call c k => exact hq.elim
  | spent h => exact .inr (.inr ⟨rfl, h⟩)

/-- The calls of a run are a trace, and its answers are the handler's. -/
theorem Prog.calls_trace {σ : Type} (h : Handler I σ) (p : Prog I α) (s : σ) :
    (∃ q, Trace p (p.calls h s) q ∧ q.Done ∧ (∀ a, q = .ret a → (p.run h s).1 = .ok a) ∧
      ∀ e, q = .raise e → (p.run h s).1 = .error e) ∧ Answered h s (p.calls h s) (p.run h s).2 := by
  induction p generalizing s with
  | ret a => exact ⟨⟨.ret a, .nil _, trivial, by simp, by simp⟩, .nil _⟩
  | raise e => exact ⟨⟨.raise e, .nil _, trivial, by simp, by simp⟩, .nil _⟩
  | call c k ih =>
    obtain ⟨⟨q, htrace, hq⟩, hanswered⟩ := ih (h c s).1 (h c s).2
    exact ⟨⟨q, .cons htrace, hq⟩, .cons hanswered⟩

end Effect
