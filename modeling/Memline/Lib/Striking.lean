/-
Runs in which one call fails.

`Handler.striking` answers as a handler does and keeps a log, but lets the call with a given
number fail if it is one that can. What has been logged before that call is what happens
when nothing fails, so which call it is can be read off an undisturbed run.
-/
import Memline.Lib.Hoare

set_option autoImplicit false

namespace Effect

variable {I : Interface} {α σ : Type}

/-- The same answers, with a log, but call number `n` fails if it is `ok` that it does. -/
def Handler.striking (h : Handler I σ) (ok : I.Call → Bool) (n : ℕ) (exc : I.Error) :
    Handler I (σ × List (Event I)) := fun c t =>
  if t.2.length = n ∧ ok c = true then (.error exc, t.1, t.2 ++ [⟨c, .error exc⟩])
  else ((h c t.1).1, (h c t.1).2, t.2 ++ [⟨c, (h c t.1).1⟩])

namespace Handler

variable {h : Handler I σ} {ok : I.Call → Bool} {n : ℕ} {exc : I.Error}

/-- Every call is logged. -/
theorem striking_logs (h : Handler I σ) (ok : I.Call → Bool) (n : ℕ) (exc : I.Error) (c : I.Call)
    (t : σ × List (Event I)) :
    ∃ r, (h.striking ok n exc c t).2.2 = t.2 ++ [⟨c, r⟩] := by
  unfold striking
  split
  · exact ⟨_, rfl⟩
  · exact ⟨_, rfl⟩

/-- A handler that strikes only adds to what has been called. -/
theorem striking_extends (p : Prog I α) (t : σ × List (Event I)) :
    ∃ es, (p.run (h.striking ok n exc) t).2.2 = t.2 ++ es := by
  induction p generalizing t with
  | ret a => exact ⟨[], (List.append_nil _).symm⟩
  | raise e => exact ⟨[], (List.append_nil _).symm⟩
  | call c k ih =>
    obtain ⟨r, hr⟩ := striking_logs h ok n exc c t
    obtain ⟨es, hes⟩ := ih (h.striking ok n exc c t).1 (h.striking ok n exc c t).2
    refine ⟨⟨c, r⟩ :: es, ?_⟩
    rw [Prog.run_call, hes, hr, List.append_assoc, List.singleton_append]

/-- Up to call number `n` nothing is different, and that call is made. -/
theorem striking_log (p : Prog I α) {s : σ} {es : List (Event I)} {m : ℕ} (hn : n = es.length + m) :
    ∃ fs, (p.run (h.striking ok n exc) (s, es)).2.2 = es ++ fs ∧
      fs.take m = (p.calls h s).take m ∧
        fs[m]?.map Sigma.fst = (p.calls h s)[m]?.map Sigma.fst := by
  induction p generalizing s es m with
  | ret a => exact ⟨[], (List.append_nil _).symm, rfl, rfl⟩
  | raise e => exact ⟨[], (List.append_nil _).symm, rfl, rfl⟩
  | call c k ih =>
    cases m with
    | zero =>
      obtain ⟨r, hr⟩ := striking_logs h ok n exc c (s, es)
      obtain ⟨fs, hfs⟩ := striking_extends (k (h.striking ok n exc c (s, es)).1)
        (h.striking ok n exc c (s, es)).2
      refine ⟨⟨c, r⟩ :: fs, ?_, rfl, rfl⟩
      rw [Prog.run_call, hfs, hr, List.append_assoc, List.singleton_append]
    | succ m =>
      have hstep : h.striking ok n exc c (s, es) =
          ((h c s).1, (h c s).2, es ++ [⟨c, (h c s).1⟩]) := by
        refine if_neg fun hstruck => ?_
        have hlength : es.length = n := hstruck.1
        omega
      have hlater : n = (es ++ [(⟨c, (h c s).1⟩ : Event I)]).length + m := by
        rw [hn, List.length_append, List.length_singleton]
        omega
      obtain ⟨fs, hfs, htake, hnext⟩ := ih (h c s).1 (s := (h c s).2) hlater
      refine ⟨⟨c, (h c s).1⟩ :: fs, ?_, ?_, ?_⟩
      · rw [Prog.run_call, hstep, hfs, List.append_assoc, List.singleton_append]
      · rw [List.take_succ_cons, htake]
        rfl
      · exact hnext

/-- The log of a run, up to the call that fails. -/
theorem striking_calls (ok : I.Call → Bool) (n : ℕ) (exc : I.Error) (p : Prog I α) (s : σ) :
    (p.run (h.striking ok n exc) (s, [])).2.2.take n = (p.calls h s).take n ∧
      (p.run (h.striking ok n exc) (s, [])).2.2[n]?.map Sigma.fst =
        (p.calls h s)[n]?.map Sigma.fst := by
  have hzero : n = ([] : List (Event I)).length + n := (Nat.zero_add n).symm
  obtain ⟨fs, hfs, htake, hnext⟩ := striking_log (h := h) p (s := s) hzero
  rw [hfs]
  exact ⟨htake, hnext⟩

open Prog in
/-- One call: it is struck, or answered as ever. -/
theorem triple_striking {c : I.Call} {P E : σ × List (Event I) → Prop}
    {R : I.Answer c → σ × List (Event I) → Prop}
    (hstruck : ∀ s es, P (s, es) → es.length = n → ok c = true → E (s, es ++ [⟨c, .error exc⟩]))
    (hok : ∀ s es a s', P (s, es) → ¬ (es.length = n ∧ ok c = true) → h c s = (.ok a, s') →
      R a (s', es ++ [⟨c, .ok a⟩]))
    (herror : ∀ s es e s', P (s, es) → ¬ (es.length = n ∧ ok c = true) → h c s = (.error e, s') →
      E (s', es ++ [⟨c, .error e⟩])) :
    Triple (h.striking ok n exc) P (perform c) R E := by
  refine triple_perform (fun t a t' hP hrun => ?_) fun t e t' hP hrun => ?_
  all_goals unfold striking at hrun
  · split at hrun
    · cases hrun
    · rename_i hnot
      obtain ⟨ha, rfl⟩ := Prod.mk.inj hrun
      rw [ha]
      exact hok t.1 t.2 a _ hP hnot (Prod.ext ha rfl)
  · split at hrun
    · rename_i hstrikes
      obtain ⟨he, rfl⟩ := Prod.mk.inj hrun
      obtain rfl : exc = e := Except.error.inj he
      exact hstruck t.1 t.2 hP hstrikes.1 hstrikes.2
    · rename_i hnot
      obtain ⟨he, rfl⟩ := Prod.mk.inj hrun
      rw [he]
      exact herror t.1 t.2 e _ hP hnot (Prod.ext he rfl)

end Handler

namespace Prog

variable {h : Handler I σ} {P E K : σ → Prop} {R : α → σ → Prop}

/-- What a program keeps holds beside its triple. -/
theorem Triple.and_keeps {p : Prog I α} (hp : Triple h P p R E) (hK : p.Keeps h K) :
    Triple h (fun s => P s ∧ K s) p (fun a s => R a s ∧ K s) (fun s => E s ∧ K s) := by
  rintro s ⟨hs, hk⟩
  obtain ⟨hok, herror⟩ := hp s hs
  have hend := hK s hk
  refine ⟨fun a s' hrun => ⟨hok a s' hrun, ?_⟩, fun e s' hrun => ⟨herror e s' hrun, ?_⟩⟩
  · rwa [hrun] at hend
  · rwa [hrun] at hend

end Prog

end Effect
