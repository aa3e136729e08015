/-
Pre- and postconditions of a program that runs alone.

`Triple h P p R E`: run from a state in `P` on its own, `p` returns in `R`, or it raises
in `E`. The rules follow the program's own constructs, so that a proof about a program
is laid out as the program is.
-/
import Memline.Lib.Effect

set_option autoImplicit false

namespace Effect.Prog

variable {I : Interface} {α β σ : Type} {h : Handler I σ} {P P' E E' : σ → Prop}
  {R R' : α → σ → Prop}

def Triple (h : Handler I σ) (P : σ → Prop) (p : Prog I α) (R : α → σ → Prop) (E : σ → Prop) :
    Prop :=
  ∀ s, P s → (∀ a s', p.run h s = (.ok a, s') → R a s') ∧ ∀ e s', p.run h s = (.error e, s') → E s'

/-- The rule of consequence. -/
theorem Triple.mono {p : Prog I α} (hp : Triple h P p R E) (hP : ∀ s, P' s → P s)
    (hR : ∀ a s, R a s → R' a s) (hE : ∀ s, E s → E' s) : Triple h P' p R' E' := by
  intro s hs
  obtain ⟨hok, herror⟩ := hp s (hP s hs)
  exact ⟨fun a s' hrun => hR a s' (hok a s' hrun), fun e s' hrun => hE s' (herror e s' hrun)⟩

theorem Triple.of_pre {p : Prog I α} (hp : Triple h P p R E) (hP : ∀ s, P' s → P s) :
    Triple h P' p R E := hp.mono hP (fun _ _ h => h) fun _ h => h

/-- What a precondition says beside the state is available. -/
theorem Triple.of_fact {φ : Prop} {p : Prog I α} (hφ : ∀ s, P s → φ) (hp : φ → Triple h P p R E) :
    Triple h P p R E := fun s hs => hp (hφ s hs) s hs

/-- A precondition that holds of something is used at what it holds of. -/
theorem triple_exists {γ : Type} {P : γ → σ → Prop} {p : Prog I α}
    (hp : ∀ c, Triple h (P c) p R E) : Triple h (fun s => ∃ c, P c s) p R E := by
  rintro s ⟨c, hs⟩
  exact hp c s hs

/-- Where everything ends in one set of states, the run does. -/
theorem Triple.run {p : Prog I α} (hp : Triple h P p (fun _ => E) E) {s : σ} (hs : P s) :
    E (p.run h s).2 := by
  obtain ⟨hok, herror⟩ := hp s hs
  rcases hrun : p.run h s with ⟨e | a, s'⟩
  · exact herror e s' hrun
  · exact hok a s' hrun

/-- A triple with one condition throughout says that it is kept. -/
theorem Triple.keeps {p : Prog I α} (hp : Triple h P p (fun _ => P) P) : p.Keeps h P :=
  fun _ hs => hp.run hs

/-- A program that only returns: what is asked of its result follows from the precondition. -/
theorem triple_pure (a : α) (hR : ∀ s, P s → R a s) : Triple h P (pure a) R E := by
  intro s hs
  refine ⟨fun b s' hrun => ?_, fun e s' hrun => ?_⟩
  · cases hrun
    exact hR s hs
  · cases hrun

/-- A program that only raises: what is asked of the raise follows from the precondition. -/
theorem triple_throw (e : I.Error) (hE : ∀ s, P s → E s) : Triple h P (throw e : Prog I α) R E := by
  intro s hs
  refine ⟨fun b s' hrun => ?_, fun e s' hrun => ?_⟩
  · cases hrun
  · cases hrun
    exact hE s hs

/-- The rule of composition: what the first part leaves is what the second one starts from. -/
theorem triple_bind {p : Prog I β} {f : β → Prog I α} {S : β → σ → Prop}
    (hp : Triple h P p S E) (hf : ∀ b, Triple h (S b) (f b) R E) : Triple h P (p >>= f) R E := by
  intro s hs
  obtain ⟨hok, herror⟩ := hp s hs
  rw [run_bind]
  rcases hrun : p.run h s with ⟨e | b, s₁⟩
  · refine ⟨fun a s' heq => ?_, fun e' s' heq => ?_⟩
    · cases heq
    · cases heq
      exact herror e s₁ hrun
  · exact hf b s₁ (hok b s₁ hrun)

/-- A single call: both of its outcomes are looked at. -/
theorem triple_perform {c : I.Call} {R : I.Answer c → σ → Prop}
    (hok : ∀ s a s', P s → h c s = (.ok a, s') → R a s')
    (herror : ∀ s e s', P s → h c s = (.error e, s') → E s') : Triple h P (perform c) R E := by
  intro s hs
  rw [run_perform]
  exact ⟨fun a s' hrun => hok s a s' hs hrun, fun e s' hrun => herror s e s' hs hrun⟩

/-- A guarded program: the handler starts from what the program leaves when it raises. -/
theorem triple_tryCatch {p : Prog I α} {f : I.Error → Prog I α} (hp : Triple h P p R E')
    (hf : ∀ e, Triple h E' (f e) R E) :
    Triple h P (@MonadExcept.tryCatch I.Error (Prog I) _ α p f) R E := by
  intro s hs
  obtain ⟨hok, herror⟩ := hp s hs
  rw [run_tryCatch]
  rcases hrun : p.run h s with ⟨e | a, s₁⟩
  · exact hf e s₁ (herror e s₁ hrun)
  · refine ⟨fun b s' heq => ?_, fun e' s' heq => ?_⟩
    · cases heq
      exact hok a s₁ hrun
    · cases heq

/-- What is kept is a triple with one condition throughout. -/
theorem triple_of_keeps {p : Prog I α} (hp : p.Keeps h P) : Triple h P p (fun _ => P) P := by
  intro s hs
  have hend := hp s hs
  refine ⟨fun a s' hrun => ?_, fun e s' hrun => ?_⟩
  · rwa [hrun] at hend
  · rwa [hrun] at hend

/-- What every returned value is, whatever the calls answered, it is after a run. -/
theorem triple_of_ret {p : Prog I α} {φ : α → Prop} (hp : Triple h P p (fun _ => P) E)
    (hφ : ∀ es a, Trace p es (.ret a) → φ a) : Triple h P p (fun a s => P s ∧ φ a) E := by
  intro s hs
  obtain ⟨hok, herror⟩ := hp s hs
  refine ⟨fun a s' hrun => ⟨hok a s' hrun, ?_⟩, herror⟩
  obtain ⟨es, q, htrace, -, hret, -⟩ := Prog.run_trace h p s
  have hq : q = .ret a := hret a (by rw [hrun])
  exact hφ es a (hq ▸ htrace)

/-- A loop goes from state to state as each of its turns does, whatever it has
accumulated. -/
theorem triple_foldlM {P : β → σ → Prop} {f : β → α → Prog I β} {xs : List α}
    (hf : ∀ b, ∀ x ∈ xs, Triple h (P b) (f b x) P E) (b : β) :
    Triple h (P b) (xs.foldlM f b) P E := by
  induction xs generalizing b with
  | nil => exact triple_pure b fun _ hs => hs
  | cons x xs ih =>
    rw [List.foldlM_cons]
    refine triple_bind (hf b x List.mem_cons_self) fun b' => ih ?_ b'
    exact fun b y hy => hf b y (List.mem_cons_of_mem _ hy)

end Effect.Prog
