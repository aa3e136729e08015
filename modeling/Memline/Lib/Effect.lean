/-
Programs as trees of calls, and what it means to run them alone or together.

A program is a value, a raised error, or one call followed by a continuation on
the call's answer. Nothing here says what a call does: a *handler* does, as a
function on some state. The same program therefore has three readings that
cannot drift apart:

* `Prog.run` answers every call in order, with nothing in between;
* `Trace` relates a program to what is left of it after some answered calls,
  whoever answered them;
* `Conf.exec` lets a schedule pick, call by call, which of several programs
  moves next on one shared state.

The third is reduced to the second by `Conf.exec_trace`: each program follows a
trace of its own, and all answers together are the handler's, in the order of
the log. A fact about the traces of one program is then available in every
interleaving it takes part in.
-/
import Mathlib.Logic.Function.Basic
import Mathlib.Data.List.Basic

set_option autoImplicit false

namespace Effect

/-- What a program may ask for, what each call answers, and what may be raised. -/
structure Interface where
  Call : Type
  Answer : Call → Type
  Error : Type

/-- A program over an interface. The continuation sees a failed call, so that
`try` around a call is ordinary case analysis. -/
inductive Prog (I : Interface) (α : Type) : Type where
  | ret (a : α) : Prog I α
  | raise (e : I.Error) : Prog I α
  | call (c : I.Call) (k : Except I.Error (I.Answer c) → Prog I α) : Prog I α

/-- One call together with the answer it got. -/
abbrev Event (I : Interface) : Type := (c : I.Call) × Except I.Error (I.Answer c)

/-- How a state answers calls. -/
abbrev Handler (I : Interface) (σ : Type) : Type :=
  (c : I.Call) → σ → Except I.Error (I.Answer c) × σ

variable {I : Interface} {α β σ : Type}

/-- The same answers, except where a fault strikes: the call then fails and
leaves the state as it was. -/
def Handler.failing (h : Handler I σ) (fault : I.Call → σ → Option I.Error) : Handler I σ :=
  fun c s => match fault c s with
    | some e => (.error e, s)
    | none => h c s

namespace Prog

/-! ## The monad -/

def bind : Prog I α → (α → Prog I β) → Prog I β
  | ret a, f => f a
  | raise e, _ => raise e
  | call c k, f => call c (fun r => (k r).bind f)

def tryCatch : Prog I α → (I.Error → Prog I α) → Prog I α
  | ret a, _ => ret a
  | raise e, f => f e
  | call c k, f => call c (fun r => (k r).tryCatch f)

instance : Monad (Prog I) where
  pure := ret
  bind := bind

instance : MonadExceptOf I.Error (Prog I) where
  throw := raise
  tryCatch := tryCatch

/-- A call whose failure is not handled here. -/
def perform (c : I.Call) : Prog I (I.Answer c) :=
  call c fun
    | .ok a => ret a
    | .error e => raise e

@[simp] theorem pure_eq (a : α) : (pure a : Prog I α) = ret a := rfl

@[simp] theorem throw_eq (e : I.Error) : (throw e : Prog I α) = raise e := rfl

@[simp] theorem ret_bind (a : α) (f : α → Prog I β) : (ret a >>= f) = f a := rfl

@[simp] theorem raise_bind (e : I.Error) (f : α → Prog I β) :
    ((raise e : Prog I α) >>= f) = raise e := rfl

@[simp] theorem call_bind (c : I.Call) (k : Except I.Error (I.Answer c) → Prog I α)
    (f : α → Prog I β) : (call c k >>= f) = call c (fun r => k r >>= f) := rfl

theorem bind_assoc {γ : Type} (p : Prog I α) (f : α → Prog I β) (g : β → Prog I γ) :
    (p >>= f) >>= g = p >>= fun a => f a >>= g := by
  induction p with
  | ret a => rfl
  | raise e => rfl
  | call c k ih =>
    have hk : (fun r => (k r >>= f) >>= g) = fun r => k r >>= fun a => f a >>= g :=
      funext ih
    simp only [call_bind, hk]

/-- A program that has nothing left to call. -/
def Done : Prog I α → Prop
  | call _ _ => False
  | _ => True

/-- A program that has returned. -/
def Returned : Prog I α → Prop
  | ret _ => True
  | _ => False

theorem Returned.done {p : Prog I α} (h : p.Returned) : p.Done := by
  cases p with
  | call c k => exact h.elim
  | _ => trivial

/-- A returned program without a result is `pure ()`. -/
theorem Returned.eq_ret {p : Prog I Unit} (h : p.Returned) : p = .ret () := by
  cases p with
  | ret a => rfl
  | _ => exact h.elim

/-- What has not returned does not return by going on. -/
theorem not_returned_bind {p : Prog I α} (h : ¬ p.Returned) (f : α → Prog I β) :
    ¬ (p >>= f).Returned := by
  cases p with
  | ret a => exact absurd trivial h
  | _ => exact id

/-! ## Which calls a program may make -/

/-- Every call of the program, after any answers to the earlier ones, is `ok`. -/
inductive Uses (ok : I.Call → Prop) : Prog I α → Prop where
  | ret (a : α) : Uses ok (.ret a)
  | raise (e : I.Error) : Uses ok (.raise e)
  | call {c : I.Call} {k : Except I.Error (I.Answer c) → Prog I α} (hc : ok c)
      (hk : ∀ r, Uses ok (k r)) : Uses ok (.call c k)

section uses

variable {ok : I.Call → Prop}

theorem uses_pure (a : α) : (pure a : Prog I α).Uses ok := .ret a

theorem uses_throw (e : I.Error) : (throw e : Prog I α).Uses ok := .raise e

/-- What is required of the calls of a sequence is required of both parts. -/
theorem uses_bind {p : Prog I α} {f : α → Prog I β} (hp : p.Uses ok)
    (hf : ∀ a, (f a).Uses ok) : (p >>= f).Uses ok := by
  induction hp with
  | ret a => exact hf a
  | raise e => exact .raise e
  | call hc _ ih => exact .call hc ih

theorem uses_perform {c : I.Call} (hc : ok c) : (perform c).Uses ok := by
  refine .call hc fun r => ?_
  cases r with
  | ok a => exact .ret a
  | error e => exact .raise e

/-- What is required of a guarded program is required of it and of its handler. -/
theorem uses_tryCatch {p : Prog I α} {f : I.Error → Prog I α} (hp : p.Uses ok)
    (hf : ∀ e, (f e).Uses ok) :
    (@MonadExcept.tryCatch I.Error (Prog I) _ α p f).Uses ok := by
  change (tryCatch p f).Uses ok
  induction hp with
  | ret a => exact .ret a
  | raise e => exact hf e
  | call hc _ ih => exact .call hc ih

/-- The calls of a loop that threads a state are those of its rounds. -/
theorem uses_foldlM {f : β → α → Prog I β} {xs : List α}
    (hf : ∀ b, ∀ x ∈ xs, (f b x).Uses ok) (b : β) : (xs.foldlM f b).Uses ok := by
  induction xs generalizing b with
  | nil => exact .ret b
  | cons x xs ih =>
    rw [List.foldlM_cons]
    refine uses_bind (hf b x List.mem_cons_self) (ih ?_)
    exact fun b y hy => hf b y (List.mem_cons_of_mem _ hy)

theorem uses_forM {f : α → Prog I PUnit} {xs : List α} (hf : ∀ x ∈ xs, (f x).Uses ok) :
    (forM xs f).Uses ok := by
  induction xs with
  | nil => exact .ret ()
  | cons x xs ih =>
    rw [List.forM_cons]
    exact uses_bind (hf x List.mem_cons_self) fun _ =>
      ih fun y hy => hf y (List.mem_cons_of_mem _ hy)

theorem Uses.mono {ok' : I.Call → Prop} {p : Prog I α} (h : p.Uses ok)
    (hok : ∀ c, ok c → ok' c) : p.Uses ok' := by
  induction h with
  | ret a => exact .ret a
  | raise e => exact .raise e
  | call hc _ ih => exact .call (hok _ hc) ih

/-- What the head of a call may be. -/
theorem Uses.of_call {c : I.Call} {k : Except I.Error (I.Answer c) → Prog I α}
    (h : (Prog.call c k).Uses ok) : ok c ∧ ∀ r, (k r).Uses ok := by
  cases h with
  | call hc hk => exact ⟨hc, hk⟩

end uses

/-! ## Running alone -/

/-- Run a program with every call answered at once. A raised error keeps the
state its calls have reached. -/
def run (h : Handler I σ) : Prog I α → σ → Except I.Error α × σ
  | ret a, s => (.ok a, s)
  | raise e, s => (.error e, s)
  | call c k, s => (k (h c s).1).run h (h c s).2

@[simp] theorem run_ret (h : Handler I σ) (a : α) (s : σ) :
    (ret a : Prog I α).run h s = (.ok a, s) := rfl

@[simp] theorem run_raise (h : Handler I σ) (e : I.Error) (s : σ) :
    (raise e : Prog I α).run h s = (.error e, s) := rfl

@[simp] theorem run_call (h : Handler I σ) (c : I.Call)
    (k : Except I.Error (I.Answer c) → Prog I α) (s : σ) :
    (call c k).run h s = (k (h c s).1).run h (h c s).2 := rfl

/-- The calls a run makes, with their answers. -/
def calls (h : Handler I σ) : Prog I α → σ → List (Event I)
  | ret _, _ => []
  | raise _, _ => []
  | call c k, s => ⟨c, (h c s).1⟩ :: (k (h c s).1).calls h (h c s).2

@[simp] theorem run_perform (h : Handler I σ) (c : I.Call) (s : σ) :
    (perform c : Prog I (I.Answer c)).run h s = h c s := by
  unfold perform
  rw [run_call]
  rcases h c s with ⟨e | a, s'⟩
  · rfl
  · rfl

/-- Running a sequence is running its first part, and its second from where the
first one stopped unless that raised. -/
theorem run_bind (h : Handler I σ) (p : Prog I α) (f : α → Prog I β) (s : σ) :
    (p >>= f).run h s
      = match p.run h s with
        | (.ok a, s') => (f a).run h s'
        | (.error e, s') => (.error e, s') := by
  induction p generalizing s with
  | ret a => rfl
  | raise e => rfl
  | call c k ih => exact ih (h c s).1 (h c s).2

/-- The form of `run_bind` for a first part that is known to return. -/
theorem run_bind_ok {h : Handler I σ} {p : Prog I α} {f : α → Prog I β} {s s' : σ} {a : α}
    (hp : p.run h s = (.ok a, s')) : (p >>= f).run h s = (f a).run h s' := by
  rw [run_bind, hp]

/-- The form of `run_bind` for a first part that is known to raise. -/
theorem run_bind_error {h : Handler I σ} {p : Prog I α} {f : α → Prog I β} {s s' : σ}
    {e : I.Error} (hp : p.run h s = (.error e, s')) :
    (p >>= f).run h s = (.error e, s') := by
  rw [run_bind, hp]

/-- Using only the result of a program leaves the same state. -/
theorem run_map (p : Prog I α) (f : α → β) (h : Handler I σ) (s : σ) :
    ((p >>= fun a => pure (f a)).run h s).2 = (p.run h s).2 := by
  rw [run_bind]
  split
  · rename_i a s' heq
    rw [heq]
    rfl
  · rename_i e s' heq
    rw [heq]

/-- Running a handled program is running it, and its handler from where it raised. -/
theorem run_tryCatch (h : Handler I σ) (p : Prog I α) (f : I.Error → Prog I α) (s : σ) :
    (@MonadExcept.tryCatch I.Error (Prog I) _ α p f).run h s
      = match p.run h s with
        | (.ok a, s') => (.ok a, s')
        | (.error e, s') => (f e).run h s' := by
  change (tryCatch p f).run h s = _
  induction p generalizing s with
  | ret a => rfl
  | raise e => rfl
  | call c k ih => exact ih (h c s).1 (h c s).2

/-- The form of `run_tryCatch` for a program that is known to return. -/
theorem run_tryCatch_ok {h : Handler I σ} {p : Prog I α} {f : I.Error → Prog I α} {s s' : σ} {a : α}
    (hp : p.run h s = (.ok a, s')) :
    (@MonadExcept.tryCatch I.Error (Prog I) _ α p f).run h s = (.ok a, s') := by
  rw [run_tryCatch, hp]

/-- Running the program keeps a property of states. -/
def Keeps (h : Handler I σ) (P : σ → Prop) (p : Prog I α) : Prop := ∀ s, P s → P (p.run h s).2

section keeps

variable {h : Handler I σ} {P : σ → Prop}

/-- A program that only returns keeps everything. -/
theorem keeps_pure (a : α) : Keeps h P (pure a : Prog I α) := fun _ hs => hs

/-- A sequence keeps what both of its parts keep. -/
theorem keeps_bind {p : Prog I α} {f : α → Prog I β} (hp : p.Keeps h P)
    (hf : ∀ a, (f a).Keeps h P) : (p >>= f).Keeps h P := by
  intro s hs
  have hs' := hp s hs
  rw [run_bind]
  split
  · rename_i a s' heq
    rw [heq] at hs'
    exact hf a s' hs'
  · rename_i e s' heq
    rw [heq] at hs'
    exact hs'

end keeps

/-- A property of states that the calls of a program keep holds where it stops. -/
theorem Uses.run {h : Handler I σ} {ok : I.Call → Prop} {P : σ → Prop} {p : Prog I α}
    (hp : p.Uses ok) (hcall : ∀ c s, ok c → P s → P (h c s).2) {s : σ} (hs : P s) :
    P (p.run h s).2 := by
  induction hp generalizing s with
  | ret a => exact hs
  | raise e => exact hs
  | @call c k hc _ ih => exact ih _ (hcall c s hc hs)

/-- A program keeps what each of the calls it makes keeps: the rule by which invariants of calls
become invariants of programs. -/
theorem Uses.keeps {h : Handler I σ} {ok : I.Call → Prop} {P : σ → Prop} {p : Prog I α}
    (hp : p.Uses ok) (hcall : ∀ c s, ok c → P s → P (h c s).2) : p.Keeps h P :=
  fun _ hs => hp.run hcall hs

/-- The program returns from every state. -/
def Total (h : Handler I σ) (p : Prog I α) : Prop := ∀ s, ∃ a s', p.run h s = (.ok a, s')

/-- Where the program raises, it has kept a property of states. -/
def RaisesKeeping (h : Handler I σ) (P : σ → Prop) (p : Prog I α) : Prop :=
  ∀ s, P s → ∀ e s', p.run h s = (.error e, s') → P s'

section raising

variable {h : Handler I σ} {P : σ → Prop}

theorem total_pure (a : α) : Total h (pure a : Prog I α) := fun s => ⟨a, s, rfl⟩

/-- A sequence of programs that never raise never raises. -/
theorem total_bind {p : Prog I α} {f : α → Prog I β} (hp : p.Total h) (hf : ∀ a, (f a).Total h) :
    (p >>= f).Total h := by
  intro s
  obtain ⟨a, s₁, hrun⟩ := hp s
  obtain ⟨b, s₂, hrun₂⟩ := hf a s₁
  exact ⟨b, s₂, (run_bind_ok hrun).trans hrun₂⟩

theorem total_perform {c : I.Call} (hc : ∀ s, ∃ a s', h c s = (.ok a, s')) :
    (perform c : Prog I (I.Answer c)).Total h := by
  intro s
  rw [run_perform]
  exact hc s

/-- A guarded program never raises when its handler does not. -/
theorem total_tryCatch {p : Prog I α} {f : I.Error → Prog I α} (hf : ∀ e, (f e).Total h) :
    (@MonadExcept.tryCatch I.Error (Prog I) _ α p f).Total h := by
  intro s
  rw [run_tryCatch]
  split
  · exact ⟨_, _, rfl⟩
  · exact hf _ _

/-- What is kept in any case is kept when the program raises. -/
theorem Keeps.raises {p : Prog I α} (hp : p.Keeps h P) : p.RaisesKeeping h P := by
  intro s hs e s' hrun
  have hend := hp s hs
  rwa [hrun] at hend

/-- What never raises keeps everything when it raises. -/
theorem raises_total {p : Prog I α} (hp : p.Total h) : p.RaisesKeeping h P := by
  intro s _ e s' hrun
  obtain ⟨a, s₁, hok⟩ := hp s
  rw [hok] at hrun
  cases hrun

/-- The first part keeps the property, so only the second one matters. -/
theorem raises_bind {p : Prog I α} {f : α → Prog I β} (hp : p.Keeps h P)
    (hf : ∀ a, (f a).RaisesKeeping h P) : (p >>= f).RaisesKeeping h P := by
  intro s hs e s' hrun
  have hend := hp s hs
  rw [run_bind] at hrun
  split at hrun
  · rename_i a s₁ heq
    rw [heq] at hend
    exact hf a s₁ hend e s' hrun
  · rename_i e₁ s₁ heq
    rw [heq] at hend
    cases hrun
    exact hend

/-- The second part does not raise, so only the first one matters. -/
theorem raises_bind_total {p : Prog I α} {f : α → Prog I β} (hp : p.RaisesKeeping h P)
    (hf : ∀ a, (f a).Total h) : (p >>= f).RaisesKeeping h P := by
  intro s hs e s' hrun
  rw [run_bind] at hrun
  split at hrun
  · rename_i a s₁ heq
    obtain ⟨b, s₂, hok⟩ := hf a s₁
    rw [hok] at hrun
    cases hrun
  · rename_i e₁ s₁ heq
    cases hrun
    exact hp s hs _ _ heq

end raising

/-- Handlers that agree on the calls of a program run it alike. -/
theorem Uses.run_congr {h h' : Handler I σ} {ok : I.Call → Prop} {p : Prog I α} (hp : p.Uses ok)
    (hcall : ∀ c s, ok c → h c s = h' c s) (s : σ) : p.run h s = p.run h' s := by
  induction hp generalizing s with
  | ret a => rfl
  | raise e => rfl
  | @call c k hc _ ih =>
    rw [run_call, run_call, hcall c s hc]
    exact ih _ _

end Prog

/-! ## Traces -/

/-- `Trace p es q`: answering the calls of `p` as `es` says leaves `q`. -/
inductive Trace : Prog I α → List (Event I) → Prog I α → Prop where
  | nil (p : Prog I α) : Trace p [] p
  | cons {c : I.Call} {k : Except I.Error (I.Answer c) → Prog I α}
      {r : Except I.Error (I.Answer c)} {es : List (Event I)} {q : Prog I α}
      (h : Trace (k r) es q) : Trace (.call c k) (⟨c, r⟩ :: es) q

namespace Trace

/-- A trace of several calls passes through an intermediate program. -/
theorem split {p r : Prog I α} {es fs : List (Event I)} (h : Trace p (es ++ fs) r) :
    ∃ q, Trace p es q ∧ Trace q fs r := by
  induction es generalizing p with
  | nil => exact ⟨p, .nil p, h⟩
  | cons e es ih =>
    cases h with
    | cons h =>
      obtain ⟨q, hq, hr⟩ := ih h
      exact ⟨q, .cons hq, hr⟩

/-- A finished program makes no calls. -/
theorem of_done {p q : Prog I α} {es : List (Event I)} (h : Trace p es q) (hp : p.Done) :
    es = [] ∧ q = p := by
  cases h with
  | nil => exact ⟨rfl, rfl⟩
  | cons _ => exact hp.elim

/-- A trace of a sequence that stops inside the first part, or passes its value
on to the second. -/
theorem bind_inv {p : Prog I α} {f : α → Prog I β} {es : List (Event I)} {q : Prog I β}
    (h : Trace (p >>= f) es q) :
    (∃ p', Trace p es p' ∧ q = (p' >>= f) ∧ ¬ p'.Returned) ∨
      ∃ a es₁ es₂, es = es₁ ++ es₂ ∧ Trace p es₁ (.ret a) ∧ Trace (f a) es₂ q := by
  induction p generalizing es with
  | ret a => exact .inr ⟨a, [], es, rfl, .nil _, h⟩
  | raise e =>
    obtain ⟨rfl, rfl⟩ := h.of_done trivial
    exact .inl ⟨.raise e, .nil _, rfl, id⟩
  | call c k ih =>
    cases h with
    | nil => exact .inl ⟨.call c k, .nil _, rfl, id⟩
    | cons h =>
      rcases ih _ h with ⟨p', hp', rfl, hret⟩ | ⟨a, es₁, es₂, rfl, h₁, h₂⟩
      · exact .inl ⟨p', .cons hp', rfl, hret⟩
      · exact .inr ⟨a, _ :: es₁, es₂, rfl, .cons h₁, h₂⟩

/-- The calls on a trace are calls the program may make. -/
theorem uses {p q : Prog I α} {es : List (Event I)} {ok : I.Call → Prop} (h : Trace p es q)
    (hp : p.Uses ok) : (∀ e ∈ es, ok e.1) ∧ q.Uses ok := by
  induction h with
  | nil _ => exact ⟨by simp, hp⟩
  | cons _ ih =>
    obtain ⟨hes, hq⟩ := ih (hp.of_call.2 _)
    refine ⟨fun e he => ?_, hq⟩
    rcases List.mem_cons.mp he with rfl | he
    · exact hp.of_call.1
    · exact hes e he

/-- A trace of a sequence whose first part only makes `ok` calls: it stops inside
that part, or the first part returned and the rest is a trace of the second. -/
theorem bind_uses {p : Prog I α} {f : α → Prog I β} {es : List (Event I)} {q : Prog I β}
    {ok : I.Call → Prop} (h : Trace (p >>= f) es q) (hp : p.Uses ok) :
    ((∀ e ∈ es, ok e.1) ∧ ¬ q.Returned) ∨
      ∃ a es₁ es₂, es = es₁ ++ es₂ ∧ Trace p es₁ (.ret a) ∧ (∀ e ∈ es₁, ok e.1) ∧
        Trace (f a) es₂ q := by
  rcases h.bind_inv with ⟨p', hp', rfl, hret⟩ | ⟨a, es₁, es₂, rfl, h₁, h₂⟩
  · exact .inl ⟨(hp'.uses hp).1, Prog.not_returned_bind hret f⟩
  · exact .inr ⟨a, es₁, es₂, rfl, h₁, (h₁.uses hp).1, h₂⟩

/-- A sequence that starts with one call: nothing has happened, the call failed,
or it was answered and the rest went on from the answer. -/
theorem perform_bind {c : I.Call} {f : I.Answer c → Prog I β} {es : List (Event I)}
    {q : Prog I β} (h : Trace (Prog.perform c >>= f) es q) :
    (es = [] ∧ ¬ q.Done) ∨ (∃ e, es = [⟨c, .error e⟩] ∧ q = .raise e) ∨
      ∃ a es', es = ⟨c, .ok a⟩ :: es' ∧ Trace (f a) es' q := by
  cases h with
  | nil => exact .inl ⟨rfl, fun hdone => hdone⟩
  | @cons _ _ r es' _ h =>
    cases r with
    | ok a => exact .inr (.inr ⟨a, es', rfl, h⟩)
    | error e =>
      obtain ⟨rfl, rfl⟩ := h.of_done trivial
      exact .inr (.inl ⟨e, rfl, rfl⟩)

/-- A sequence that returned ran both its parts. -/
theorem bind_ret {p : Prog I α} {f : α → Prog I β} {es : List (Event I)} {b : β}
    (h : Trace (p >>= f) es (.ret b)) :
    ∃ a es₁ es₂, es = es₁ ++ es₂ ∧ Trace p es₁ (.ret a) ∧ Trace (f a) es₂ (.ret b) := by
  rcases h.bind_inv with ⟨p', hp', hq, hret⟩ | h
  · exact absurd (hq ▸ trivial) (Prog.not_returned_bind hret f)
  · exact h

/-- One call that returned. -/
theorem perform_ret {c : I.Call} {es : List (Event I)} {a : I.Answer c}
    (h : Trace (Prog.perform c) es (.ret a)) : es = [⟨c, .ok a⟩] := by
  cases h with
  | @cons _ _ r _ _ h =>
    cases r with
    | ok a' =>
      obtain ⟨rfl, heq⟩ := h.of_done trivial
      injection heq with heq
      rw [heq]
    | error e =>
      obtain ⟨-, heq⟩ := h.of_done trivial
      cases heq

/-- A returned value returns at once. -/
theorem ret_ret {a b : α} {es : List (Event I)} (h : Trace (.ret a : Prog I α) es (.ret b)) :
    es = [] ∧ b = a := by
  obtain ⟨hes, hb⟩ := h.of_done trivial
  injection hb with hb
  exact ⟨hes, hb⟩

/-- A raised error does not return. -/
theorem raise_ret {e : I.Error} {b : α} {es : List (Event I)}
    (h : Trace (.raise e : Prog I α) es (.ret b)) : False := by
  obtain ⟨-, hb⟩ := h.of_done trivial
  cases hb

/-- A trace of a handled program that stops inside it, or goes on in its handler. -/
theorem tryCatch_inv {p : Prog I α} {f : I.Error → Prog I α} {es : List (Event I)} {q : Prog I α}
    (h : Trace (@MonadExcept.tryCatch I.Error (Prog I) _ α p f) es q) :
    (∃ p', Trace p es p' ∧ (∀ a, q = .ret a → p' = .ret a)) ∨
      ∃ e es₁ es₂, es = es₁ ++ es₂ ∧ Trace p es₁ (.raise e) ∧ Trace (f e) es₂ q := by
  change Trace (Prog.tryCatch p f) es q at h
  induction p generalizing es with
  | ret b =>
    obtain ⟨rfl, rfl⟩ := h.of_done trivial
    exact .inl ⟨.ret b, .nil _, fun _ h => h⟩
  | raise e => exact .inr ⟨e, [], es, rfl, .nil _, h⟩
  | call c k ih =>
    cases h with
    | nil => exact .inl ⟨.call c k, .nil _, fun a ha => by cases ha⟩
    | cons h =>
      rcases ih _ h with ⟨p', hp', hret⟩ | ⟨e, es₁, es₂, rfl, h₁, h₂⟩
      · exact .inl ⟨p', .cons hp', hret⟩
      · exact .inr ⟨e, _ :: es₁, es₂, rfl, .cons h₁, h₂⟩

/-- A handled program that returned did so by itself, or its handler did. -/
theorem tryCatch_ret {p : Prog I α} {f : I.Error → Prog I α} {es : List (Event I)} {a : α}
    (h : Trace (@MonadExcept.tryCatch I.Error (Prog I) _ α p f) es (.ret a)) :
    Trace p es (.ret a) ∨
      ∃ e es₁ es₂, es = es₁ ++ es₂ ∧ Trace p es₁ (.raise e) ∧ Trace (f e) es₂ (.ret a) := by
  refine h.tryCatch_inv.imp_left ?_
  rintro ⟨p', hp', hret⟩
  rwa [hret a rfl] at hp'

/-- What every turn of a loop keeps holds of what the loop returns. -/
theorem foldlM_ret {f : β → α → Prog I β} {P : β → Prop} {xs : List α} {b b' : β}
    {es : List (Event I)} (h : Trace (xs.foldlM f b) es (.ret b')) (hb : P b)
    (hf : ∀ b, ∀ x ∈ xs, ∀ es b', P b → Trace (f b x) es (.ret b') → P b') : P b' := by
  induction xs generalizing b es with
  | nil =>
    obtain ⟨-, rfl⟩ := ret_ret h
    exact hb
  | cons x xs ih =>
    rw [List.foldlM_cons] at h
    obtain ⟨b₁, es₁, es₂, -, h₁, h₂⟩ := bind_ret h
    refine ih h₂ (hf b x List.mem_cons_self es₁ b₁ hb h₁) ?_
    exact fun b y hy => hf b y (List.mem_cons_of_mem _ hy)

end Trace

/-- A sequence makes `ok` calls when its second part does, after whatever the first
part may return. -/
theorem Prog.uses_bind_ret {p : Prog I α} {f : α → Prog I β} {ok : I.Call → Prop}
    (hp : p.Uses ok) (hf : ∀ a es, Trace p es (.ret a) → (f a).Uses ok) :
    (p >>= f).Uses ok := by
  induction hp with
  | ret a => exact hf a [] (.nil _)
  | raise e => exact .raise e
  | @call c k hc _ ih =>
    exact .call hc fun r => ih r fun a es h => hf a (⟨c, r⟩ :: es) (.cons h)

/-- The calls of `es`, answered by the handler one after the other from `s`, end
in `s'`. -/
inductive Answered (h : Handler I σ) : σ → List (Event I) → σ → Prop where
  | nil (s : σ) : Answered h s [] s
  | cons {c : I.Call} {s s' : σ} {es : List (Event I)}
      (hs : Answered h (h c s).2 es s') : Answered h s (⟨c, (h c s).1⟩ :: es) s'

namespace Answered

variable {h : Handler I σ}

/-- Two stretches of answered calls, the second from where the first ends, are one. -/
theorem append {s t u : σ} {es fs : List (Event I)} (hs : Answered h s es t)
    (ht : Answered h t fs u) : Answered h s (es ++ fs) u := by
  induction hs with
  | nil _ => exact ht
  | cons _ ih => exact .cons (ih ht)

/-- A stretch of answered calls can be cut anywhere. -/
theorem split {s u : σ} {es fs : List (Event I)} (hs : Answered h s (es ++ fs) u) :
    ∃ t, Answered h s es t ∧ Answered h t fs u := by
  induction es generalizing s with
  | nil => exact ⟨s, .nil s, hs⟩
  | cons e es ih =>
    cases hs with
    | cons hs =>
      obtain ⟨t, ht, hu⟩ := ih hs
      exact ⟨t, .cons ht, hu⟩

/-- The first answered call, and those that follow it. -/
theorem of_cons {s s' : σ} {e : Event I} {es : List (Event I)} (hs : Answered h s (e :: es) s') :
    e.2 = (h e.1 s).1 ∧ Answered h (h e.1 s).2 es s' := by
  cases hs with
  | cons hs => exact ⟨rfl, hs⟩

/-- The invariant rule: what every answered call keeps holds at the end. -/
theorem induction {P : σ → Prop} {s s' : σ} {es : List (Event I)}
    (hs : Answered h s es s') (h0 : P s)
    (hcall : ∀ e ∈ es, ∀ t, P t → P (h e.1 t).2) : P s' := by
  induction hs with
  | nil _ => exact h0
  | @cons c s s' es _ ih =>
    refine ih (hcall _ List.mem_cons_self s h0) (fun e he => hcall e ?_)
    exact List.mem_cons_of_mem _ he

/-- The state in which a call of the list was answered. -/
theorem mem {s s' : σ} {es : List (Event I)} {e : Event I} (hs : Answered h s es s')
    (he : e ∈ es) :
    ∃ es₁ es₂ t, es = es₁ ++ e :: es₂ ∧ Answered h s es₁ t ∧ e.2 = (h e.1 t).1 ∧
      Answered h (h e.1 t).2 es₂ s' := by
  induction hs with
  | nil _ => simp at he
  | @cons c s s' es hs ih =>
    rcases List.mem_cons.mp he with rfl | he
    · exact ⟨[], es, s, rfl, .nil s, rfl, hs⟩
    · obtain ⟨es₁, es₂, t, rfl, h₁, h₂, h₃⟩ := ih he
      exact ⟨_ :: es₁, es₂, t, rfl, .cons h₁, h₂, h₃⟩

end Answered

/-- Running alone is one trace, answered by the handler. -/
theorem Prog.run_trace (h : Handler I σ) (p : Prog I α) (s : σ) :
    ∃ es q, Trace p es q ∧ Answered h s es (p.run h s).2 ∧
      (∀ a, (p.run h s).1 = .ok a → q = .ret a) ∧
      ∀ e, (p.run h s).1 = .error e → q = .raise e := by
  induction p generalizing s with
  | ret a => exact ⟨[], .ret a, .nil _, .nil _, by simp, by simp⟩
  | raise e => exact ⟨[], .raise e, .nil _, .nil _, by simp, by simp⟩
  | call c k ih =>
    obtain ⟨es, q, ht, ha, hok, herr⟩ := ih (h c s).1 (h c s).2
    exact ⟨⟨c, (h c s).1⟩ :: es, q, .cons ht, .cons ha, hok, herr⟩

/-- A trace in which every call is answered as in `s`, and leaves it alone, is the
beginning of the run in `s`. -/
theorem Trace.run_eq {h : Handler I σ} {s : σ} {p q : Prog I α} {es : List (Event I)}
    (ht : Trace p es q) (hes : ∀ e ∈ es, h e.1 s = (e.2, s)) : p.run h s = q.run h s := by
  induction ht with
  | nil _ => rfl
  | @cons c k r es q _ ih =>
    have hc : h c s = (r, s) := hes _ List.mem_cons_self
    rw [Prog.run_call, hc]
    exact ih fun e he => hes e (List.mem_cons_of_mem _ he)

/-! ## Answered by a family of handlers -/

/-- The calls were answered one after the other, each by some handler of the family. -/
inductive Served {ι : Type} (h : ι → Handler I σ) : σ → List (Event I) → σ → Prop where
  | nil (s : σ) : Served h s [] s
  | cons {c : I.Call} {s s' : σ} {es : List (Event I)} (i : ι)
      (hs : Served h (h i c s).2 es s') : Served h s (⟨c, (h i c s).1⟩ :: es) s'

namespace Served

variable {ι : Type} {h : ι → Handler I σ}

/-- A stretch of served calls can be cut anywhere. -/
theorem split {s u : σ} {es fs : List (Event I)} (hs : Served h s (es ++ fs) u) :
    ∃ t, Served h s es t ∧ Served h t fs u := by
  induction es generalizing s with
  | nil => exact ⟨s, .nil s, hs⟩
  | cons e es ih =>
    cases hs with
    | cons i hs =>
      obtain ⟨t, ht, hu⟩ := ih hs
      exact ⟨t, .cons i ht, hu⟩

/-- The invariant rule: what every call keeps, whoever answers it, holds at the end. -/
theorem induction {P : σ → Prop} {s s' : σ} {es : List (Event I)}
    (hs : Served h s es s') (h0 : P s)
    (hcall : ∀ e ∈ es, ∀ i t, P t → P (h i e.1 t).2) : P s' := by
  induction hs with
  | nil _ => exact h0
  | @cons c s s' es i _ ih =>
    refine ih (hcall _ List.mem_cons_self i s h0) (fun e he => hcall e ?_)
    exact List.mem_cons_of_mem _ he

/-- The state in which a call of the list was answered, and who answered it. -/
theorem mem {s s' : σ} {es : List (Event I)} {e : Event I} (hs : Served h s es s')
    (he : e ∈ es) :
    ∃ i es₁ es₂ t, es = es₁ ++ e :: es₂ ∧ Served h s es₁ t ∧ e.2 = (h i e.1 t).1 := by
  induction hs with
  | nil _ => simp at he
  | @cons c s s' es i hs ih =>
    rcases List.mem_cons.mp he with rfl | he
    · exact ⟨i, [], es, s, rfl, .nil s, rfl⟩
    · obtain ⟨j, es₁, es₂, t, rfl, h₁, h₂⟩ := ih he
      exact ⟨j, _ :: es₁, es₂, t, rfl, .cons i h₁, h₂⟩

end Served

/-- One handler of the family may answer all calls. -/
theorem Answered.served {ι : Type} {h : ι → Handler I σ} {i : ι} {s s' : σ} {es : List (Event I)}
    (hs : Answered (h i) s es s') : Served h s es s' := by
  induction hs with
  | nil s => exact .nil s
  | cons _ ih => exact .cons i ih

/-- The `n`-th call is answered by the `n`-th handler. -/
def Handler.numbered (h : ℕ → Handler I σ) : Handler I (σ × ℕ) :=
  fun c s => ((h s.2 c s.1).1, (h s.2 c s.1).2, s.2 + 1)

/-- What a handler of numbered calls has answered is served, whatever the numbers were. -/
theorem Answered.of_numbered {h : ℕ → Handler I σ} {s s' : σ × ℕ} {es : List (Event I)}
    (hs : Answered (Handler.numbered h) s es s') : Served h s.1 es s'.1 := by
  induction hs with
  | nil s => exact .nil s.1
  | @cons c s s' es _ ih => exact .cons s.2 ih

/-- Where all the handlers are one, the numbers do not matter. -/
theorem Prog.run_numbered (h : Handler I σ) (p : Prog I α) (s : σ) (n : ℕ) :
    (p.run (Handler.numbered fun _ => h) (s, n)).1 = (p.run h s).1 ∧
      (p.run (Handler.numbered fun _ => h) (s, n)).2.1 = (p.run h s).2 := by
  induction p generalizing s n with
  | ret a => exact ⟨rfl, rfl⟩
  | raise e => exact ⟨rfl, rfl⟩
  | call c k ih => exact ih (h c s).1 (h c s).2 (n + 1)

/-! ## Running together -/

/-- Several programs on one state, with the log of the calls made so far. -/
structure Conf (I : Interface) (ι α σ : Type) where
  prog : ι → Prog I α
  state : σ
  log : List (ι × Event I)

namespace Conf

variable {ι : Type} [DecidableEq ι] (h : Handler I σ)

/-- Let program `i` make its next call. A finished program does nothing. -/
def step (c : Conf I ι α σ) (i : ι) : Conf I ι α σ :=
  match c.prog i with
  | .call q k =>
    { prog := Function.update c.prog i (k (h q c.state).1)
      state := (h q c.state).2
      log := c.log ++ [(i, ⟨q, (h q c.state).1⟩)] }
  | _ => c

/-- Let a schedule pick who moves. -/
def exec (c : Conf I ι α σ) (sched : List ι) : Conf I ι α σ := sched.foldl (step h) c

theorem exec_cons (c : Conf I ι α σ) (i : ι) (sched : List ι) :
    exec h c (i :: sched) = exec h (step h c i) sched := rfl

/-- The last move of a schedule. -/
theorem exec_concat (c : Conf I ι α σ) (sched : List ι) (i : ι) :
    exec h c (sched ++ [i]) = step h (exec h c sched) i := by
  simp only [exec, List.foldl_append, List.foldl_cons, List.foldl_nil]

/-- Everyone is done. -/
def Finished (c : Conf I ι α σ) : Prop := ∀ i, (c.prog i).Done

/-- The programs at their beginning. -/
def start (P : ι → Prog I α) (s : σ) : Conf I ι α σ := ⟨P, s, []⟩

/-- The calls one program made. -/
def own (i : ι) (log : List (ι × Event I)) : List (Event I) :=
  (log.filter (fun e => e.1 = i)).map Prod.snd

/-- The calls of one thread are the entries of the log that carry its name. -/
theorem mem_own {i : ι} {log : List (ι × Event I)} {e : Event I} :
    e ∈ own i log ↔ (i, e) ∈ log := by
  simp only [own, List.mem_map, List.mem_filter, decide_eq_true_eq]
  constructor
  · rintro ⟨⟨j, e'⟩, ⟨hmem, rfl⟩, rfl⟩
    exact hmem
  · intro hmem
    exact ⟨(i, e), ⟨hmem, rfl⟩, rfl⟩

/-- The calls of one thread in two logs, one behind the other. -/
theorem own_append (i : ι) (l₁ l₂ : List (ι × Event I)) :
    own i (l₁ ++ l₂) = own i l₁ ++ own i l₂ := by
  simp only [own, List.filter_append, List.map_append]

@[simp] theorem own_nil (i : ι) : own i ([] : List (ι × Event I)) = [] := rfl

/-- The thread's own entry in front is its first call. -/
@[simp] theorem own_cons_self (i : ι) (e : Event I) (l : List (ι × Event I)) :
    own i ((i, e) :: l) = e :: own i l := by
  simp [own]

/-- An entry of another thread is none of this thread's calls. -/
@[simp] theorem own_cons_ne {i j : ι} (hij : j ≠ i) (e : Event I) (l : List (ι × Event I)) :
    own i ((j, e) :: l) = own i l := by
  simp [own, hij]

/-- The thread's own entry at the end is its last call. -/
theorem own_concat_self (i : ι) (l : List (ι × Event I)) (e : Event I) :
    own i (l ++ [(i, e)]) = own i l ++ [e] := by
  rw [own_append, own_cons_self, own_nil]

/-- An entry of another thread at the end changes nothing for this one. -/
theorem own_concat_ne {i j : ι} (hij : j ≠ i) (l : List (ι × Event I)) (e : Event I) :
    own i (l ++ [(j, e)]) = own i l := by
  rw [own_append, own_cons_ne hij, own_nil, List.append_nil]

/-- A call of one program splits the whole log. -/
theorem own_split {i : ι} {log : List (ι × Event I)} {es fs : List (Event I)} {e : Event I}
    (hl : own i log = es ++ e :: fs) :
    ∃ l₁ l₂, log = l₁ ++ (i, e) :: l₂ ∧ own i l₁ = es ∧ own i l₂ = fs := by
  induction log generalizing es with
  | nil => simp at hl
  | cons je log ih =>
    obtain ⟨j, e'⟩ := je
    by_cases hj : j = i
    · subst hj
      rw [own_cons_self] at hl
      cases es with
      | nil =>
        obtain ⟨rfl, hfs⟩ := List.cons.inj hl
        exact ⟨[], log, rfl, rfl, hfs⟩
      | cons e'' es =>
        obtain ⟨rfl, hrest⟩ := List.cons.inj hl
        obtain ⟨l₁, l₂, rfl, h₁, h₂⟩ := ih hrest
        exact ⟨(j, e') :: l₁, l₂, rfl, by rw [own_cons_self, h₁], h₂⟩
    · rw [own_cons_ne hj] at hl
      obtain ⟨l₁, l₂, rfl, h₁, h₂⟩ := ih hl
      exact ⟨(j, e') :: l₁, l₂, rfl, by rw [own_cons_ne hj, h₁], h₂⟩

/-- Of two programs one makes its marked call first. -/
theorem own_order {log : List (Bool × Event I)} {pre post : Bool → List (Event I)}
    {mark : Bool → Event I} (hl : ∀ i, own i log = pre i ++ mark i :: post i) :
    ∃ i l₁ l₂ l₃, log = l₁ ++ (i, mark i) :: (l₂ ++ (!i, mark !i) :: l₃) ∧
      own i l₁ = pre i ∧ own i l₂ ++ own i l₃ = post i ∧
      own (!i) l₁ ++ own (!i) l₂ = pre (!i) ∧ own (!i) l₃ = post (!i) := by
  obtain ⟨m₁, m₂, rfl, hm₁, hm₂⟩ := own_split (hl true)
  have hfalse := hl false
  rw [own_append, own_cons_ne (by decide)] at hfalse
  have hsecond : ∀ as, pre false = own false m₁ ++ as →
      own false m₂ = as ++ mark false :: post false →
      ∃ i l₁ l₂ l₃, m₁ ++ (true, mark true) :: m₂ =
          l₁ ++ (i, mark i) :: (l₂ ++ (!i, mark !i) :: l₃) ∧
        own i l₁ = pre i ∧ own i l₂ ++ own i l₃ = post i ∧
        own (!i) l₁ ++ own (!i) l₂ = pre (!i) ∧ own (!i) l₃ = post (!i) := by
    intro as hpre has
    obtain ⟨l₂, l₃, rfl, h₂, h₃⟩ := own_split has
    refine ⟨true, m₁, l₂, l₃, rfl, hm₁, ?_, ?_, h₃⟩
    · rw [own_append, own_cons_ne (by decide)] at hm₂
      exact hm₂
    · rw [Bool.not_true, h₂, hpre]
  rcases List.append_eq_append_iff.mp hfalse with ⟨as, hpre, has⟩ | ⟨cs, hcs, hpost⟩
  · exact hsecond as hpre has
  cases cs with
  | nil => exact hsecond [] (by simpa using hcs.symm) (by simpa using hpost.symm)
  | cons c cs =>
    obtain ⟨rfl, hrest⟩ := List.cons.inj hpost
    obtain ⟨l₁, l₂, rfl, h₁, h₂⟩ := own_split hcs
    rw [own_append, own_cons_ne (by decide)] at hm₁
    refine ⟨false, l₁, l₂, m₂, by simp, h₁, ?_, hm₁, hm₂⟩
    rw [h₂]
    exact hrest.symm

/-- What one move adds to the log, and that it is a legal move of its program. -/
theorem step_cases (c : Conf I ι α σ) (i : ι) :
    step h c i = c ∨
      ∃ q k, c.prog i = .call q k ∧
        step h c i =
          ⟨Function.update c.prog i (k (h q c.state).1), (h q c.state).2,
            c.log ++ [(i, ⟨q, (h q c.state).1⟩)]⟩ := by
  unfold step
  split
  · rename_i q k hq
    exact .inr ⟨q, k, hq, rfl⟩
  · exact .inl rfl

/-- Each program follows a trace of its own, whatever the others do, and the
answers in the log are the handler's, in the order of the log. -/
theorem exec_trace (c : Conf I ι α σ) (sched : List ι) :
    ∃ l, (exec h c sched).log = c.log ++ l ∧
      (∀ i, Trace (c.prog i) (own i l) ((exec h c sched).prog i)) ∧
      Answered h c.state (l.map Prod.snd) (exec h c sched).state := by
  induction sched generalizing c with
  | nil => exact ⟨[], by simp [exec], fun i => .nil _, .nil _⟩
  | cons j sched ih =>
    obtain ⟨l, hlog, htr, hans⟩ := ih (step h c j)
    rw [exec_cons]
    rcases step_cases h c j with hc | ⟨q, k, hq, hc⟩
    · rw [hc] at hlog htr hans ⊢
      exact ⟨l, hlog, htr, hans⟩
    · refine ⟨(j, ⟨q, (h q c.state).1⟩) :: l, ?_, ?_, ?_⟩
      · rw [hlog, hc, List.append_assoc, List.singleton_append]
      · intro i
        have hi := htr i
        rw [show (step h c j).prog = Function.update c.prog j (k (h q c.state).1) by rw [hc]] at hi
        by_cases hij : j = i
        · subst hij
          rw [Function.update_self] at hi
          rw [own_cons_self, hq]
          exact .cons hi
        · rw [Function.update_of_ne (Ne.symm hij)] at hi
          rw [own_cons_ne hij]
          exact hi
      · rw [show (step h c j).state = (h q c.state).2 by rw [hc]] at hans
        exact .cons hans

end Conf

end Effect
