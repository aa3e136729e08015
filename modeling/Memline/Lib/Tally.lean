/-
Assertions about what one program has done so far.

A tally reads the calls of a program off as they are answered and keeps a value of them.
`wp` is the weakest precondition of a program for such values: from it, the value is as
`holds` says after every call, and as the postcondition says when the program ends, for
any answers that are as `expects` says. Who gives the answers does not matter, so what
is shown of a program here is true of its calls in every interleaving.
-/
import Memline.Lib.Effect

set_option autoImplicit false

namespace Effect

structure Tally (I : Interface) (τ : Type) where
  next : τ → Event I → τ
  /-- Which answers may be relied on. -/
  expects : τ → Event I → Prop
  /-- What is to hold after every call. -/
  holds : τ → Prop

namespace Tally

variable {I : Interface} {α β τ : Type} (T : Tally I τ)

def wp : Prog I α → (Except I.Error α → τ → Prop) → τ → Prop
  | .ret a, Q, t => T.holds t ∧ Q (.ok a) t
  | .raise e, Q, t => T.holds t ∧ Q (.error e) t
  | .call c k, Q, t => T.holds t ∧ ∀ r, T.expects t ⟨c, r⟩ → wp (k r) Q (T.next t ⟨c, r⟩)

/-- The answers were as expected. -/
def Expected : τ → List (Event I) → Prop
  | _, [] => True
  | t, e :: es => T.expects t e ∧ Expected (T.next t e) es

variable {T}

/-- A program that only returns meets what holds of its result. -/
theorem wp_pure {Q : Except I.Error α → τ → Prop} {t : τ} (a : α) (ht : T.holds t)
    (hQ : Q (.ok a) t) : T.wp (pure a) Q t := ⟨ht, hQ⟩

/-- A program that only raises meets what holds of the error. -/
theorem wp_throw {Q : Except I.Error α → τ → Prop} {t : τ} (e : I.Error) (ht : T.holds t)
    (hQ : Q (.error e) t) : T.wp (throw e) Q t := ⟨ht, hQ⟩

/-- What a program is safe from holds at its start. -/
theorem wp_holds {p : Prog I α} {Q : Except I.Error α → τ → Prop} {t : τ} (h : T.wp p Q t) :
    T.holds t := by
  cases p with
  | _ => exact h.1

theorem wp_mono {p : Prog I α} {Q Q' : Except I.Error α → τ → Prop} {t : τ} (h : T.wp p Q t)
    (hQ : ∀ r t, T.holds t → Q r t → Q' r t) : T.wp p Q' t := by
  induction p generalizing t with
  | ret a => exact ⟨h.1, hQ _ _ h.1 h.2⟩
  | raise e => exact ⟨h.1, hQ _ _ h.1 h.2⟩
  | call c k ih => exact ⟨h.1, fun r hr => ih r (h.2 r hr)⟩

/-- Sequencing: the first part is to end where the second one may start. -/
theorem wp_bind {p : Prog I α} {f : α → Prog I β} {Q : Except I.Error β → τ → Prop}
    {R : α → τ → Prop} {t : τ}
    (hp : T.wp p (fun r t => match r with
      | .ok a => R a t
      | .error e => Q (.error e) t) t)
    (hf : ∀ a t, T.holds t → R a t → T.wp (f a) Q t) : T.wp (p >>= f) Q t := by
  induction p generalizing t with
  | ret a => exact hf a t hp.1 hp.2
  | raise e => exact ⟨hp.1, hp.2⟩
  | call c k ih => exact ⟨hp.1, fun r hr => ih r (hp.2 r hr)⟩

/-- Handling: what is raised is to be where the handler may start. -/
theorem wp_tryCatch {p : Prog I α} {f : I.Error → Prog I α} {Q : Except I.Error α → τ → Prop}
    {R : I.Error → τ → Prop} {t : τ}
    (hp : T.wp p (fun r t => match r with
      | .ok a => Q (.ok a) t
      | .error e => R e t) t)
    (hf : ∀ e t, T.holds t → R e t → T.wp (f e) Q t) :
    T.wp (@MonadExcept.tryCatch I.Error (Prog I) _ α p f) Q t := by
  change T.wp (p.tryCatch f) Q t
  induction p generalizing t with
  | ret a => exact ⟨hp.1, hp.2⟩
  | raise e => exact hf e t hp.1 hp.2
  | call c k ih => exact ⟨hp.1, fun r hr => ih r (hp.2 r hr)⟩

/-- One call, by its answer. -/
theorem wp_perform {c : I.Call} {Q : Except I.Error (I.Answer c) → τ → Prop} {t : τ}
    (ht : T.holds t)
    (hc : ∀ r, T.expects t ⟨c, r⟩ → T.holds (T.next t ⟨c, r⟩) ∧ Q r (T.next t ⟨c, r⟩)) :
    T.wp (Prog.perform c) Q t := by
  refine ⟨ht, fun r hr => ?_⟩
  cases r with
  | ok a => exact hc _ hr
  | error e => exact hc _ hr

/-- One call that does not change the value. -/
theorem wp_perform_same {c : I.Call} {Q : Except I.Error (I.Answer c) → τ → Prop} {t : τ}
    (ht : T.holds t) (hc : ∀ r, T.next t ⟨c, r⟩ = t) (hQ : ∀ r, T.expects t ⟨c, r⟩ → Q r t) :
    T.wp (Prog.perform c) Q t := by
  refine wp_perform ht fun r hr => ?_
  rw [hc r]
  exact ⟨ht, hQ r hr⟩

/-- Calls that do not change the value leave it as it is. -/
theorem wp_of_uses {ok : I.Call → Prop} {p : Prog I α} (hp : p.Uses ok) {t : τ}
    (ht : T.holds t) (hok : ∀ c r, ok c → T.next t ⟨c, r⟩ = t) : T.wp p (fun _ t' => t' = t) t := by
  induction hp with
  | ret a => exact ⟨ht, rfl⟩
  | raise e => exact ⟨ht, rfl⟩
  | call hc _ ih => exact ⟨ht, fun r _ => by rw [hok _ r hc]; exact ih r⟩

/-- Nothing is asked of the end. -/
def safe (T : Tally I τ) (p : Prog I α) (t : τ) : Prop := T.wp p (fun _ _ => True) t

theorem safe_pure {t : τ} (a : α) (ht : T.holds t) : T.safe (pure a) t := ⟨ht, trivial⟩

theorem safe_throw {t : τ} (e : I.Error) (ht : T.holds t) : T.safe (throw e : Prog I α) t :=
  ⟨ht, trivial⟩

theorem safe_of_wp {p : Prog I α} {Q : Except I.Error α → τ → Prop} {t : τ} (h : T.wp p Q t) :
    T.safe p t := wp_mono h fun _ _ _ _ => trivial

/-- Sequencing after a first part of which only the value it leaves is known. -/
theorem wp_bind_of {p : Prog I α} {f : α → Prog I β} {Q : Except I.Error β → τ → Prop}
    {P : τ → Prop} {t : τ} (hp : T.wp p (fun _ t => P t) t)
    (he : ∀ e t, T.holds t → P t → Q (.error e) t)
    (hf : ∀ a t, T.holds t → P t → T.wp (f a) Q t) : T.wp (p >>= f) Q t := by
  refine wp_bind (R := fun _ t => P t) (wp_mono hp fun r t ht hP => ?_) hf
  cases r with
  | ok a => exact hP
  | error e => exact he e t ht hP

theorem safe_bind {p : Prog I α} {f : α → Prog I β} {t : τ} (hp : T.safe p t)
    (hf : ∀ a t, T.holds t → T.safe (f a) t) : T.safe (p >>= f) t :=
  wp_bind_of (P := fun _ => True) hp (fun _ _ _ _ => trivial) fun a t ht _ => hf a t ht

/-- A guarded program is safe when its handler is. -/
theorem safe_tryCatch {p : Prog I α} {f : I.Error → Prog I α} {t : τ} (hp : T.safe p t)
    (hf : ∀ e t, T.holds t → T.safe (f e) t) :
    T.safe (@MonadExcept.tryCatch I.Error (Prog I) _ α p f) t := by
  refine wp_tryCatch (R := fun _ _ => True) (wp_mono hp fun r t _ _ => ?_) fun e t ht _ => hf e t ht
  cases r with
  | _ => trivial

/-- Soundness: along every trace with the expected answers the value is as it should be. -/
theorem wp_trace {p q : Prog I α} {es : List (Event I)} {Q : Except I.Error α → τ → Prop} {t : τ}
    (h : Trace p es q) (hwp : T.wp p Q t) (hes : T.Expected t es) :
    T.wp q Q (es.foldl T.next t) := by
  induction h generalizing t with
  | nil _ => exact hwp
  | cons _ ih => exact ih (hwp.2 _ hes.1) hes.2

/-- Answers are as expected when each one is, after those before it. -/
theorem expected_of_split {t : τ} {es : List (Event I)}
    (h : ∀ es₁ e es₂, es = es₁ ++ e :: es₂ → T.expects (es₁.foldl T.next t) e) :
    T.Expected t es := by
  induction es generalizing t with
  | nil => trivial
  | cons e es ih =>
    refine ⟨h [] e es rfl, ih fun es₁ e' es₂ hes => ?_⟩
    exact h (e :: es₁) e' es₂ (by rw [hes]; rfl)

/-- A program whose calls all keep the value as it should be. -/
theorem safe_of_uses {ok : I.Call → Prop} {p : Prog I α} (hp : p.Uses ok) {t : τ}
    (ht : T.holds t) (hok : ∀ c r t, ok c → T.holds t → T.holds (T.next t ⟨c, r⟩)) :
    T.safe p t := by
  induction hp generalizing t with
  | ret a => exact ⟨ht, trivial⟩
  | raise e => exact ⟨ht, trivial⟩
  | call hc _ ih => exact ⟨ht, fun r _ => ih r (hok _ r t hc ht)⟩

/-! ## Counting -/

/-- The number of marked calls, which is not to exceed a bound. -/
def counting (marked : Event I → Bool) (bound : ℕ) : Tally I ℕ where
  next t e := if marked e then t + 1 else t
  expects _ _ := True
  holds t := t ≤ bound

/-- The counter after some events is what it was and the marked ones among them. -/
theorem counting_foldl (marked : Event I → Bool) (bound t : ℕ) (es : List (Event I)) :
    es.foldl (counting marked bound).next t = t + es.countP marked := by
  induction es generalizing t with
  | nil => rfl
  | cons e es ih =>
    rw [List.foldl_cons, ih, List.countP_cons]
    change (if marked e = true then t + 1 else t) + _ = _
    split
    · omega
    · omega

/-- Whatever a program has called, the marked calls are within its bound. -/
theorem countP_le {marked : Event I → Bool} {bound : ℕ} {p q : Prog I α} {es : List (Event I)}
    (h : Trace p es q) (hp : (counting marked bound).safe p 0) : es.countP marked ≤ bound := by
  have hend := wp_holds (wp_trace h hp (expected_of_split fun _ _ _ _ => trivial))
  rw [counting_foldl, Nat.zero_add] at hend
  exact hend

/-! ## Recording -/

/-- All calls so far, of which a property is to hold as long as the answers are as expected. -/
def recording (expected : Event I → Prop)
    (P : List (Event I) → Prop) : Tally I (List (Event I)) where
  next es e := es ++ [e]
  expects _ := expected
  holds := P

/-- The record after some events is what it was and those events. -/
theorem recording_foldl {expected : Event I → Prop} {P : List (Event I) → Prop}
    (es fs : List (Event I)) : fs.foldl (recording expected P).next es = es ++ fs := by
  induction fs generalizing es with
  | nil => exact (List.append_nil es).symm
  | cons f fs ih =>
    rw [List.foldl_cons, ih]
    exact List.append_assoc es [f] fs

/-- What is proved of a recording holds of whatever a trace has recorded. -/
theorem recording_trace {expected : Event I → Prop} {P : List (Event I) → Prop} {p q : Prog I α}
    {es : List (Event I)} {Q : Except I.Error α → List (Event I) → Prop} (h : Trace p es q)
    (hp : (recording expected P).wp p Q []) (hes : ∀ e ∈ es, expected e) :
    (recording expected P).wp q Q es := by
  have hend := wp_trace h hp (expected_of_split fun es₁ e es₂ heq => hes e (by simp [heq]))
  rwa [recording_foldl] at hend

/-! ## What comes before -/

/-- Every call comes after what it needs. -/
def Preceded (need : List (Event I) → Event I → Prop) (es : List (Event I)) : Prop :=
  ∀ es₁ e es₂, es = es₁ ++ e :: es₂ → need es₁ e

variable {need : List (Event I) → Event I → Prop}

/-- Nothing has happened, so nothing lacks what it needs before it. -/
theorem preceded_nil : Preceded need [] := fun _ _ _ hes => by simp at hes

/-- An event may follow when what it needs has happened. -/
theorem Preceded.concat {es : List (Event I)} {e : Event I} (h : Preceded need es)
    (he : need es e) : Preceded need (es ++ [e]) := by
  intro es₁ e' es₂ hes
  rcases List.append_eq_append_iff.mp hes with ⟨as, rfl, has⟩ | ⟨as, rfl, has⟩
  · cases as with
    | nil =>
      obtain ⟨rfl, -⟩ := List.cons.inj has
      rwa [List.append_nil]
    | cons a as => simp at has
  · cases as with
    | nil =>
      obtain ⟨rfl, -⟩ := List.cons.inj has
      rwa [List.append_nil] at he
    | cons a as =>
      obtain ⟨rfl, -⟩ := List.cons.inj has
      exact h es₁ e' as rfl

/-- All calls so far, each after what it needs. -/
def preceding (need : List (Event I) → Event I → Prop) : Tally I (List (Event I)) where
  next es e := es ++ [e]
  expects _ _ := True
  holds := Preceded need

/-- The record of what precedes after some events. -/
theorem preceding_foldl (es fs : List (Event I)) :
    fs.foldl (preceding need).next es = es ++ fs := by
  induction fs generalizing es with
  | nil => exact (List.append_nil es).symm
  | cons f fs ih =>
    rw [List.foldl_cons, ih]
    exact List.append_assoc es [f] fs

/-- In every trace of such a program each event has what it needs before it. -/
theorem preceded_of_trace {p q : Prog I α} {es : List (Event I)} {Q : Except I.Error α →
    List (Event I) → Prop} (h : Trace p es q) (hp : (preceding need).wp p Q []) :
    Preceded need es := by
  have hend := wp_holds (wp_trace h hp (expected_of_split fun _ _ _ _ => trivial))
  rw [preceding_foldl] at hend
  exact hend

end Tally

/-! ## The last of a kind -/

section last

variable {ε β : Type} {f : ε → Option β}

/-- What the last entry comes to of which `f` makes something. -/
def last_of (f : ε → Option β) (es : List ε) : Option β := es.reverse.findSome? f

/-- The last of two stretches is the last of the second, or of the first if the second has none. -/
theorem last_of_append (es fs : List ε) :
    last_of f (es ++ fs) = (last_of f fs).or (last_of f es) := by
  rw [last_of, List.reverse_append, List.findSome?_append, last_of, last_of]

/-- The last of a stretch that ends with a given event. -/
theorem last_of_concat (es : List ε) (e : ε) :
    last_of f (es ++ [e]) = (f e).or (last_of f es) := by
  rw [last_of, List.reverse_concat, List.findSome?_cons, last_of]
  cases f e with
  | none => rfl
  | some b => rfl

theorem last_of_eq_none {es : List ε} : last_of f es = none ↔ ∀ e ∈ es, f e = none := by
  rw [last_of, List.findSome?_eq_none_iff]
  simp only [List.mem_reverse]

/-- The last of a stretch that begins with a given event. -/
theorem last_of_cons (e : ε) (es : List ε) :
    last_of f (e :: es) = (last_of f es).or (f e) := by
  rw [← List.singleton_append, last_of_append]
  congr 1
  exact (last_of_concat [] e).trans (Option.or_none)

theorem last_of_eq_some {es : List ε} {b : β} (h : last_of f es = some b) :
    ∃ es₁ e es₂, es = es₁ ++ e :: es₂ ∧ f e = some b ∧ ∀ e' ∈ es₂, f e' = none := by
  obtain ⟨later, e, earlier, hes, he, hnone⟩ := List.findSome?_eq_some_iff.mp h
  refine ⟨earlier.reverse, e, later.reverse, ?_, he,
    fun e' he' => hnone e' (List.mem_reverse.mp he')⟩
  rw [← List.reverse_reverse es, hes, List.reverse_append, List.reverse_cons, List.append_assoc,
    List.singleton_append]

end last

end Effect
