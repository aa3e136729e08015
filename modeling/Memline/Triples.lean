/-
Triples for the small pieces of code.

Reading a point, the clock and an optional value leave the world as it was, or nearly;
a payload write that fails has written nothing. The operations built from them are
proved by these rules and the ones of the constructs.
-/
import Memline.Harvest
import Memline.Lib.Hoare

set_option autoImplicit false

namespace Memline

open Effect Effect.Prog

variable {host : Host} {fault : Call → World → Option Exn} {E : World → Prop}

/-- An inert call leaves the points and the pairs alone. -/
theorem inert_same {w : World} {c : Call} (hc : inert c) :
    (host.failing fault c w).2.points = w.points ∧ (host.failing fault c w).2.pairs = w.pairs := by
  constructor
  · refine host.failing_points ?_ fault w
    cases c with
    | vs_set_payload _ _ | vs_upsert _ _ | vs_insert _ | vs_delete _ => exact hc.elim
    | _ => rfl
  · rcases host.failing_pairs fault c w with h | ⟨op, rfl, -, h⟩
    · exact h
    · rw [h]
      cases op with
      | has_judgment _ _ _ _ | judged_either _ _ _ | get _ => rfl
      | consecutive_dismissed_displacement_evidence _ _ _ => rfl
      | _ => exact hc.elim

/-- What a caught failure ends in has to do as well. -/
theorem triple_attempt {P R : World → Prop} {p : Code Unit}
    (hp : Triple (host.failing fault) P p (fun _ => R) R) :
    Triple (host.failing fault) P (attempt p) (fun _ => R) E :=
  triple_tryCatch hp fun _ => triple_pure () fun _ hw => hw

/-- The time is told, whatever holds of the world. -/
theorem now_iso_total (P : World → Prop) (hP : ∀ w, P w → P w.tick) :
    Triple (host.failing fault) P now_iso (fun _ => P) E := by
  refine triple_perform (fun w a w' hw heq => ?_) fun w e w' hw heq => ?_
  · cases heq
    exact hP w hw
  · cases heq

/-- A failing payload write leaves the world as it was. -/
theorem set_payload_error {id : Id} {patch : Payload} {w w' : World} {e : Exn}
    (h : host.failing fault (.vs_set_payload id patch) w = (.error e, w')) : w' = w := by
  rcases host.failing_cases fault (.vs_set_payload id patch) w with ⟨e', hfail⟩ | hok
  · rw [hfail] at h
    cases h
    rfl
  · rw [hok] at h
    simp only [Host.answer] at h
    split at h
    · cases h
    · cases h
      rfl

/-- The world after a statement on pairs that cannot fail. -/
theorem pairs_answer (hfault : WritesSucceed fault) (op : PairOp) (hop : ¬ op.reads) (w : World) :
    host.failing fault (.pairs op) w =
      ((op.apply host.text_hash w.pairs).1,
        { w with pairs := (op.apply host.text_hash w.pairs).2 }) :=
  hfault.answer (c := .pairs op) hop w

/-- A lookup fails when nothing is stored, or when a fault strikes it. -/
theorem vs_get_triple (P : World → Prop) (id : Id) :
    Triple (host.failing fault) P (perform (I := Api) (.vs_get id))
      (fun found w => P w ∧ found = w.payload id)
      (fun w => P w ∧ (w.payload id = none ∨ fault (.vs_get id) w ≠ none)) := by
  -- the read fails by itself, or is answered from the store
  have hstruck : ∀ w, (∃ e, host.failing fault (.vs_get id) w = (.error e, w) ∧
      fault (.vs_get id) w ≠ none) ∨
        host.failing fault (.vs_get id) w = host.answer (.vs_get id) w := by
    intro w
    rw [Host.failing, Handler.failing]
    simp only [Call.fallible, if_true]
    cases fault (.vs_get id) w with
    | some e => exact .inl ⟨e, rfl, by simp⟩
    | none => exact .inr rfl
  refine triple_perform (fun w a w' hw heq => ?_) fun w e w' hw heq => ?_
  · rcases hstruck w with ⟨e, hfail, -⟩ | hok
    · rw [hfail] at heq
      cases heq
    · simp only [hok, Host.answer, Prod.mk.injEq] at heq
      obtain ⟨hanswer, rfl⟩ := heq
      split at hanswer
      · cases hanswer
      · injection hanswer with hanswer
        exact ⟨hw, hanswer.symm⟩
  · rcases hstruck w with ⟨e, hfail, hne⟩ | hok
    · rw [hfail] at heq
      cases heq
      exact ⟨hw, .inr hne⟩
    · simp only [hok, Host.answer, Prod.mk.injEq] at heq
      obtain ⟨hanswer, rfl⟩ := heq
      split at hanswer
      · rename_i hnone
        rw [Bool.and_eq_true, Option.isNone_iff_eq_none] at hnone
        exact ⟨hw, .inl hnone.1⟩
      · cases hanswer

/-- A lookup that hides its failures finds what is stored, or nothing. -/
theorem point_payload_triple (P : World → Prop) (id : Id) :
    Triple (host.failing fault) P (point_payload id)
      (fun found w => P w ∧
        (found = w.payload id ∨ found = none ∧ fault (.vs_get id) w ≠ none)) E := by
  refine triple_tryCatch ((vs_get_triple P id).mono (fun _ h => h)
    (fun _ _ h => ⟨h.1, .inl h.2⟩) fun _ h => h) fun _ => triple_pure none fun w hw => ⟨hw.1, ?_⟩
  rcases hw.2 with hnone | hstruck
  · exact .inl hnone.symm
  · exact .inr ⟨rfl, hstruck⟩

/-- What such a lookup has found is stored. -/
theorem stored_of_point_payload {id : Id} {w : World} {found : Option Payload} {p : Payload}
    {Q : Prop} (h : found = w.payload id ∨ found = none ∧ Q) (hp : found = some p) :
    w.payload id = some p := by
  rcases h with rfl | ⟨rfl, -⟩
  · exact hp
  · cases hp

theorem lift_except_triple {α : Type} (P : World → Prop) (r : Except Exn α) :
    Triple (host.failing fault) P (lift_except r) (fun a w => P w ∧ r = .ok a) P := by
  cases r with
  | ok a => exact triple_pure a fun w hw => ⟨hw, rfl⟩
  | error e => exact triple_throw (I := Api) e fun w hw => hw

theorem expect_triple {α : Type} (P : World → Prop) (a : Option α) (e : Exn) :
    Triple (host.failing fault) P (expect a e) (fun b w => P w ∧ a = some b) P := by
  cases a with
  | some b => exact triple_pure b fun w hw => ⟨hw, rfl⟩
  | none => exact triple_throw (I := Api) e fun w hw => hw

/-- A write that cannot fail. -/
theorem write_triple (hfault : WritesSucceed fault) (P : World → Prop) {c : Call} (hc : mutates c)
    {Q : World → Prop} (hok : ∀ w, P w →
      (∃ a, (host.answer c w).1 = .ok a) ∧ Q (host.answer c w).2) :
    Triple (host.failing fault) P (perform (I := Api) c) (fun _ => Q) E := by
  refine triple_perform (fun w a w' hw heq => ?_) fun w e w' hw heq => ?_
  · rw [hfault.answer hc] at heq
    have hend := (hok w hw).2
    rwa [heq] at hend
  · rw [hfault.answer hc] at heq
    obtain ⟨a, ha⟩ := (hok w hw).1
    rw [heq] at ha
    cases ha

end Memline
