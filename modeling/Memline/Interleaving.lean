/-
What a program has seen of the points in an interleaving of two.

A lookup in a stretch without writes is answered as at either end of the stretch.
Code that only looks points up, and saw what is in some world, has run as it runs
in that world alone.
-/
import Memline.Supersession

set_option autoImplicit false

namespace Memline

open Effect Effect.Prog

variable {host : Host} {w : World}

/-- The lookup of one point depends on that point only. -/
theorem answer_vs_get_congr {w' : World} {id : Id} (h : w'.payload id = w.payload id) :
    (host.answer (.vs_get id) w').1 = (host.answer (.vs_get id) w).1 := by
  simp only [Host.answer, h]

/-- What is looked up in a quiet stretch is answered as at its beginning. -/
theorem read_in_quiet {w' : World} {es : List Ev} {id : Id} {r : Except Exn (Option Payload)}
    (h : Answered host.answer w es w') (hq : Quiet es) (hr : ⟨.vs_get id, r⟩ ∈ es) :
    r = (host.answer (.vs_get id) w).1 := by
  obtain ⟨es₁, es₂, t, rfl, h₁, ht, -⟩ := h.mem hr
  have hans : r = (host.answer (.vs_get id) t).1 := ht
  have hq₁ : Quiet es₁ := fun e he => hq e (List.mem_append_left _ he)
  rw [hans, answer_vs_get_congr (payload_of_quiet (served_healthy h₁) hq₁ id)]

/-- Every lookup was answered as it is in `w`. -/
def AsIn (host : Host) (w : World) (es : List Ev) : Prop :=
  ∀ id r, ⟨.vs_get id, r⟩ ∈ es → r = (host.answer (.vs_get id) w).1

/-- Two stretches that were answered as in one world. -/
theorem AsIn.append {es fs : List Ev} (h : AsIn host w es) (h' : AsIn host w fs) :
    AsIn host w (es ++ fs) := by
  intro id r hr
  rcases List.mem_append.mp hr with hr | hr
  · exact h id r hr
  · exact h' id r hr

/-- Code that only looks points up, and saw what is in `w`, ran as it runs in `w`. -/
theorem AsIn.run {α : Type} {p q : Code α} {es : List Ev} (h : AsIn host w es)
    (ht : Trace p es q) (hp : p.Uses looks_up) :
    p.run host.answer w = q.run host.answer w := by
  refine ht.run_eq fun e he => ?_
  obtain ⟨id, hid⟩ := (ht.uses hp).1 e he
  obtain ⟨c, r⟩ := e
  obtain rfl : c = .vs_get id := hid
  have hr : r = (host.answer (.vs_get id) w).1 := h id r he
  rw [hr]
  rfl

theorem AsIn.found {es : List Ev} {id : Id} {r : Except Exn (Option Payload)}
    (h : AsIn host w es) (hr : ⟨.vs_get id, r⟩ ∈ es) : found r = w.payload id := by
  rw [h id r hr]
  exact found_answer host id w

theorem AsIn.stored {es : List Ev} {id : Id} {r : Except Exn (Option Payload)}
    (h : AsIn host w es) (hr : ⟨.vs_get id, r⟩ ∈ es)
    (hsome : (Memline.found r).isSome = true) : Stored w id := by
  rwa [h.found hr] at hsome

/-- For both sides, when it holds for one and the other. -/
theorem forall_bool_of {P : Bool → Prop} {i : Bool} (h : P i) (h' : P !i) : ∀ j, P j := by
  intro j
  by_cases hj : j = i
  · rwa [hj]
  · rwa [(Bool.eq_not.mpr hj : j = !i)]

/-- What holds of the calls of each program holds of the log. -/
theorem log_forall {ok : Call → Prop} {l : List (Bool × Ev)} {i : Bool}
    (h : ∀ e ∈ Conf.own i l, ok e.1) (h' : ∀ e ∈ Conf.own (!i) l, ok e.1) :
    ∀ e ∈ l.map Prod.snd, ok e.1 := by
  intro e he
  obtain ⟨⟨j, e'⟩, hmem, rfl⟩ := List.mem_map.mp he
  have hall : ∀ j, ∀ e ∈ Conf.own j l, ok e.1 := forall_bool_of h h'
  exact hall j _ (Conf.mem_own.mpr hmem)

/-- Quiet calls of one side are answered as in the world that they started in. -/
theorem asIn_of_quiet {l : List (Bool × Ev)} {w' : World}
    (h : Answered host.answer w (l.map Prod.snd) w') (hq : Quiet (l.map Prod.snd)) (i : Bool) :
    AsIn host w (Conf.own i l) := by
  intro id r hr
  exact read_in_quiet h hq (List.mem_map.mpr ⟨_, Conf.mem_own.mp hr, rfl⟩)

/-- Quiet calls see what is there at their end, too. -/
theorem asIn_end {l : List (Bool × Ev)} {w' : World}
    (h : Answered host.answer w (l.map Prod.snd) w') (hq : Quiet (l.map Prod.snd)) (i : Bool) :
    AsIn host w' (Conf.own i l) := by
  intro id r hr
  rw [asIn_of_quiet h hq i id r hr]
  exact (answer_vs_get_congr (payload_of_quiet (served_healthy h) hq id)).symm

end Memline
