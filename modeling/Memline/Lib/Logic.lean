/-
Program logics, and how to get one for a program whose calls are programs themselves.

A call of one interface may be carried out by a program over another one. `translate`
replaces every call of a program so; it commutes with sequencing and with handling.

`Logic` names the rules that a proof about a program needs, and not what is asserted:
the assertions of a tally are a logic, and a logic for the interface below is one for the
interface above. What is shown of a program for every logic is then available wherever
its calls end up.
-/
import Memline.Lib.Tally

set_option autoImplicit false

namespace Effect

/-! ## Calls that are programs -/

namespace Prog

variable {I : Interface} {α β γ : Type}

/-- Go on from the result of a program, whatever it is. -/
def either : Prog I β → (Except I.Error β → Prog I α) → Prog I α
  | ret b, k => k (.ok b)
  | raise e, k => k (.error e)
  | call c h, k => call c fun r => (h r).either k

/-- Going on behind both outcomes of a program is going on in each. -/
theorem either_bind (p : Prog I β) (k : Except I.Error β → Prog I α) (g : α → Prog I γ) :
    (p.either k >>= g) = p.either fun r => k r >>= g := by
  induction p with
  | ret b => rfl
  | raise e => rfl
  | call c h ih => exact congrArg (call c) (funext ih)

/-- Guarding both outcomes of a program is guarding each. -/
theorem either_tryCatch (p : Prog I β) (k : Except I.Error β → Prog I α) (g : I.Error → Prog I α) :
    (p.either k).tryCatch g = p.either fun r => (k r).tryCatch g := by
  induction p with
  | ret b => rfl
  | raise e => rfl
  | call c h ih => exact congrArg (call c) (funext ih)

/-- Nothing left to do but end so. -/
def ended : Except I.Error α → Prog I α
  | .ok a => ret a
  | .error e => raise e

/-- Going on with an outcome as it is changes nothing. -/
theorem either_ended (p : Prog I α) : p.either ended = p := by
  induction p with
  | ret a => rfl
  | raise e => rfl
  | call c h ih => exact congrArg (call c) (funext ih)

variable {J : Interface} {C : Type} {A : C → Type}

/-- The program with each call carried out by `f`. -/
def translate (f : (c : C) → Prog J (A c)) : Prog ⟨C, A, J.Error⟩ α → Prog J α
  | ret a => ret a
  | raise e => raise e
  | call c k => (f c).either fun r => (k r).translate f

variable {f : (c : C) → Prog J (A c)}

/-- Translating a sequence translates both of its parts. -/
theorem translate_bind (p : Prog ⟨C, A, J.Error⟩ α) (g : α → Prog ⟨C, A, J.Error⟩ β) :
    (p >>= g).translate f = p.translate f >>= fun a => (g a).translate f := by
  induction p with
  | ret a => rfl
  | raise e => rfl
  | call c k ih =>
    have hk : (fun r => (k r >>= g).translate f) =
        fun r => (k r).translate f >>= fun a => (g a).translate f := funext ih
    simp only [call_bind, translate, hk, either_bind]

/-- Translating a guarded program translates it and its handler. -/
theorem translate_tryCatch (p : Prog ⟨C, A, J.Error⟩ α)
    (g : J.Error → Prog ⟨C, A, J.Error⟩ α) :
    (p.tryCatch g).translate f = (p.translate f).tryCatch fun e => (g e).translate f := by
  induction p with
  | ret a => rfl
  | raise e => rfl
  | call c k ih =>
    have hk : (fun r => ((k r).tryCatch g).translate f) =
        fun r => ((k r).translate f).tryCatch fun e => (g e).translate f := funext ih
    simp only [tryCatch, translate, hk, either_tryCatch]

theorem translate_perform (c : C) :
    (perform (I := ⟨C, A, J.Error⟩) c).translate f = f c := by
  refine Eq.trans (congrArg (f c).either (funext fun r => ?_)) (either_ended (f c))
  cases r with
  | ok a => rfl
  | error e => rfl

/-- The calls of a program and of what follows its outcomes. -/
theorem uses_either {ok : J.Call → Prop} {p : Prog J β} {k : Except J.Error β → Prog J α}
    (hp : p.Uses ok) (hk : ∀ r, (k r).Uses ok) : (p.either k).Uses ok := by
  induction hp with
  | ret b => exact hk (.ok b)
  | raise e => exact hk (.error e)
  | call hc _ ih => exact .call hc ih

/-- Which calls the program makes once its calls are carried out. -/
theorem translate_uses {ok : C → Prop} {ok' : J.Call → Prop} {p : Prog ⟨C, A, J.Error⟩ α}
    (hp : p.Uses ok) (hf : ∀ c, ok c → (f c).Uses ok') : (p.translate f).Uses ok' := by
  induction hp with
  | ret a => exact .ret a
  | raise e => exact Uses.raise (I := J) e
  | call hc _ ih => exact uses_either (hf _ hc) ih

end Prog

/-! ## Logics -/

/-- A precondition for every program and what is to hold where it returns and where it
raises, with the rules that make it one. -/
structure Logic (I : Interface) (τ : Type) where
  wp : {α : Type} → Prog I α → (α → τ → Prop) → (I.Error → τ → Prop) → τ → Prop
  /-- What holds after every call. -/
  valid : τ → Prop
  wp_ret : ∀ {α : Type} {Q : α → τ → Prop} {E : I.Error → τ → Prop} {t : τ} (a : α), valid t →
    Q a t → wp (.ret a) Q E t
  wp_raise : ∀ {α : Type} {Q : α → τ → Prop} {E : I.Error → τ → Prop} {t : τ} (e : I.Error),
    valid t → E e t → wp (.raise e) Q E t
  wp_bind : ∀ {α β : Type} {p : Prog I α} {f : α → Prog I β} {Q : β → τ → Prop}
    {E : I.Error → τ → Prop} {R : α → τ → Prop} {t : τ}, wp p R E t →
    (∀ a t, valid t → R a t → wp (f a) Q E t) → wp (p >>= f) Q E t
  wp_tryCatch : ∀ {α : Type} {p : Prog I α} {f : I.Error → Prog I α} {Q : α → τ → Prop}
    {E R : I.Error → τ → Prop} {t : τ}, wp p Q R t →
    (∀ e t, valid t → R e t → wp (f e) Q E t) → wp (p.tryCatch f) Q E t
  wp_mono : ∀ {α : Type} {p : Prog I α} {Q Q' : α → τ → Prop} {E E' : I.Error → τ → Prop} {t : τ},
    wp p Q E t → (∀ a t, Q a t → Q' a t) → (∀ e t, E e t → E' e t) → wp p Q' E' t

namespace Logic

variable {I : Interface} {α β τ : Type} {L : Logic I τ} {P P' E E' : τ → Prop}
  {R R' : α → τ → Prop}

/-- From `P`, the program returns in `R` or raises in `E`. -/
def Spec (L : Logic I τ) (P : τ → Prop) (p : Prog I α) (R : α → τ → Prop) (E : τ → Prop) : Prop :=
  ∀ t, L.valid t → P t → L.wp p R (fun _ => E) t

/-- The rule of consequence. -/
theorem Spec.mono {p : Prog I α} (h : L.Spec P p R E) (hP : ∀ t, P' t → P t)
    (hR : ∀ a t, R a t → R' a t) (hE : ∀ t, E t → E' t) : L.Spec P' p R' E' :=
  fun t ht hpre => L.wp_mono (h t ht (hP t hpre)) hR fun _ => hE

theorem Spec.of_pre {p : Prog I α} (h : L.Spec P p R E) (hP : ∀ t, P' t → P t) :
    L.Spec P' p R E := h.mono hP (fun _ _ h => h) fun _ h => h

/-- A program that has ended: both of its outcomes are looked at. -/
theorem spec_ended {r : Except I.Error α} (hok : ∀ a, r = .ok a → ∀ t, P t → R a t)
    (herror : ∀ t, P t → E t) : L.Spec P (Prog.ended r) R E := by
  intro t ht hpre
  cases r with
  | ok a => exact L.wp_ret a ht (hok a rfl t hpre)
  | error e => exact L.wp_raise e ht (herror t hpre)

/-- What a precondition says beside the value is available. -/
theorem Spec.of_fact {φ : Prop} {p : Prog I α} (h : φ → L.Spec P p R E) :
    L.Spec (fun t => P t ∧ φ) p R E := fun t ht hpre => h hpre.2 t ht hpre.1

/-- A program that only returns: what is asked of its result follows from the precondition. -/
theorem spec_pure (a : α) (hR : ∀ t, P t → R a t) : L.Spec P (pure a) R E :=
  fun t ht hpre => L.wp_ret a ht (hR t hpre)

/-- A program that only raises: what is asked of the raise follows from the precondition. -/
theorem spec_throw (e : I.Error) (hE : ∀ t, P t → E t) : L.Spec P (throw e : Prog I α) R E :=
  fun t ht hpre => L.wp_raise e ht (hE t hpre)

/-- The rule of composition: what the first part leaves is what the second one starts from. -/
theorem spec_bind {p : Prog I β} {f : β → Prog I α} {S : β → τ → Prop} (hp : L.Spec P p S E)
    (hf : ∀ b, L.Spec (S b) (f b) R E) : L.Spec P (p >>= f) R E :=
  fun t ht hpre => L.wp_bind (hp t ht hpre) fun b t' ht' hb => hf b t' ht' hb

/-- A guarded program: the handler starts from what the program leaves when it raises. -/
theorem spec_tryCatch {p : Prog I α} {f : I.Error → Prog I α} {S : τ → Prop}
    (hp : L.Spec P p R S) (hf : ∀ e, L.Spec S (f e) R E) :
    L.Spec P (@MonadExcept.tryCatch I.Error (Prog I) _ α p f) R E :=
  fun t ht hpre => L.wp_tryCatch (hp t ht hpre) fun e t' ht' he => hf e t' ht' he

/-- A loop keeps what every turn keeps. -/
theorem spec_foldlM {f : α → β → Prog I α} {xs : List β}
    (hf : ∀ a, ∀ x ∈ xs, L.Spec (R a) (f a x) R E) (a : α) : L.Spec (R a) (xs.foldlM f a) R E := by
  induction xs generalizing a with
  | nil => exact spec_pure a fun _ h => h
  | cons x xs ih =>
    rw [List.foldlM_cons]
    refine spec_bind (hf a x List.mem_cons_self) fun b => ih (fun b y hy => ?_) b
    exact hf b y (List.mem_cons_of_mem _ hy)

/-- The logic of the interface above, when its calls are carried out by `f`. -/
def via {J : Interface} {C : Type} {A : C → Type} (L : Logic J τ) (f : (c : C) → Prog J (A c)) :
    Logic ⟨C, A, J.Error⟩ τ where
  wp p Q E t := L.wp (p.translate f) Q E t
  valid := L.valid
  wp_ret a ht hQ := L.wp_ret a ht hQ
  wp_raise e ht hE := L.wp_raise e ht hE
  wp_bind hp hf := by
    rw [Prog.translate_bind]
    exact L.wp_bind hp hf
  wp_tryCatch hp hf := by
    rw [Prog.translate_tryCatch]
    exact L.wp_tryCatch hp hf
  wp_mono hp hQ hE := L.wp_mono hp hQ hE

/-- A call is as good as the program that carries it out. -/
theorem spec_via {J : Interface} {C : Type} {A : C → Type} {L : Logic J τ}
    {f : (c : C) → Prog J (A c)} {c : C} {R : A c → τ → Prop} (h : L.Spec P (f c) R E) :
    (L.via f).Spec P (Prog.perform (I := ⟨C, A, J.Error⟩) c) R E := by
  intro t ht hpre
  change L.wp ((Prog.perform (I := ⟨C, A, J.Error⟩) c).translate f) _ _ t
  rw [Prog.translate_perform]
  exact h t ht hpre

end Logic

/-- The assertions of a tally are a logic. -/
def Tally.logic {I : Interface} {τ : Type} (T : Tally I τ) : Logic I τ where
  wp p Q E t := T.wp p (fun r t => match r with
    | .ok a => Q a t
    | .error e => E e t) t
  valid := T.holds
  wp_ret a ht hQ := Tally.wp_pure a ht hQ
  wp_raise e ht hE := Tally.wp_throw e ht hE
  wp_bind hp hf := Tally.wp_bind hp hf
  wp_tryCatch hp hf := Tally.wp_tryCatch hp hf
  wp_mono hp hQ hE := Tally.wp_mono hp fun r t _ hr => by
    cases r with
    | ok a => exact hQ a t hr
    | error e => exact hE e t hr

/-- One call of a tally, by its answer. -/
theorem Tally.spec_perform {I : Interface} {τ : Type} {T : Tally I τ} {c : I.Call}
    {P E : τ → Prop} {R : I.Answer c → τ → Prop}
    (hok : ∀ t a, P t → T.holds t → T.expects t ⟨c, .ok a⟩ →
      T.holds (T.next t ⟨c, .ok a⟩) ∧ R a (T.next t ⟨c, .ok a⟩))
    (herror : ∀ t e, P t → T.holds t → T.expects t ⟨c, .error e⟩ →
      T.holds (T.next t ⟨c, .error e⟩) ∧ E (T.next t ⟨c, .error e⟩)) :
    T.logic.Spec P (Prog.perform c) R E := by
  intro t ht hpre
  refine Tally.wp_perform ht fun r hr => ?_
  cases r with
  | ok a => exact hok t a hpre ht hr
  | error e => exact herror t e hpre ht hr

/-- A call that comes after what it needs. -/
theorem Tally.spec_preceding {I : Interface} {need : List (Event I) → Event I → Prop} {c : I.Call}
    {P E : List (Event I) → Prop} {R : I.Answer c → List (Event I) → Prop}
    (hneed : ∀ es r, P es → need es ⟨c, r⟩) (hok : ∀ es a, P es → R a (es ++ [⟨c, .ok a⟩]))
    (herror : ∀ es e, P es → E (es ++ [⟨c, .error e⟩])) :
    (Tally.preceding need).logic.Spec P (Prog.perform c) R E :=
  Tally.spec_perform (fun es a hP hes _ => ⟨Preceded.concat hes (hneed es _ hP), hok es a hP⟩)
    fun es e hP hes _ => ⟨Preceded.concat hes (hneed es _ hP), herror es e hP⟩

/-! ## Watching a run -/

/-- The state a handler has reached, and the calls it has answered on the way. -/
def Handler.watched {I : Interface} {σ : Type}
    (h : Handler I σ) : Tally I (σ × List (Event I)) where
  next t e := ((h e.1 t.1).2, t.2 ++ [e])
  expects t e := e.2 = (h e.1 t.1).1
  holds _ := True

namespace Handler

variable {I : Interface} {α σ : Type} {h : Handler I σ} {P E : σ × List (Event I) → Prop}

/-- A single call: the world and the calls after either outcome. -/
theorem spec_perform {c : I.Call} {R : I.Answer c → σ × List (Event I) → Prop}
    (hok : ∀ s es a s', P (s, es) → h c s = (.ok a, s') → R a (s', es ++ [⟨c, .ok a⟩]))
    (herror : ∀ s es e s', P (s, es) → h c s = (.error e, s') → E (s', es ++ [⟨c, .error e⟩])) :
    h.watched.logic.Spec P (Prog.perform c) R E := by
  refine Tally.spec_perform (fun t a hP _ ha => ⟨trivial, ?_⟩) fun t e hP _ he => ⟨trivial, ?_⟩
  · exact hok t.1 t.2 a _ hP (Prod.ext ha.symm rfl)
  · exact herror t.1 t.2 e _ hP (Prod.ext he.symm rfl)

/-- Soundness: what is asserted of a program is true of its run. -/
theorem run_of_wp {p : Prog I α} {Q : Except I.Error α → σ × List (Event I) → Prop} {s : σ}
    {es : List (Event I)} (hp : h.watched.wp p Q (s, es)) :
    Q (p.run h s).1 ((p.run h s).2, es ++ p.calls h s) := by
  induction p generalizing s es with
  | ret a =>
    rw [Prog.calls, List.append_nil]
    exact hp.2
  | raise e =>
    rw [Prog.calls, List.append_nil]
    exact hp.2
  | call c k ih =>
    have hrest := ih _ (hp.2 (h c s).1 rfl)
    rwa [List.append_assoc] at hrest

/-- From a specification over the world and the calls to a run and its calls. -/
theorem run_of_spec {p : Prog I α} {R : α → σ × List (Event I) → Prop}
    (hp : h.watched.logic.Spec P p R E) {s : σ} (hs : P (s, [])) :
    (∀ a, (p.run h s).1 = .ok a → R a ((p.run h s).2, p.calls h s)) ∧
      ∀ e, (p.run h s).1 = .error e → E ((p.run h s).2, p.calls h s) := by
  have hrun := run_of_wp (hp (s, []) trivial hs)
  refine ⟨fun a ha => ?_, fun e he => ?_⟩
  · rw [ha] at hrun
    exact hrun
  · rw [he] at hrun
    exact hrun

end Handler

end Effect
