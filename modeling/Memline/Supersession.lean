/-
The supersession graph over sequential runs.

`SupersededBy w old new` holds when `new` is listed in the `superseded_by` of
`old`. A call of the code changes the edges of one memory at a time: it sheds
edges, or it is the write of an `invalidate`, which redirects one node that had
no successors to nodes that do not reach it. Acyclicity over runs is read off
that. Referential integrity is not: a deletion is the one step that can leave an
edge without its end.
-/
import Memline.Mutations
import Memline.Lib.Reachability

set_option autoImplicit false

namespace Memline

open Effect Relation Reachability

/-! ## The graph -/

/-- The successor ids of a memory; none for a missing one. -/
def successors (w : World) (x : Id) : List Id := ((w.payload x).map superseded_ids).getD []

/-- `new` is listed in the `superseded_by` of `old`. -/
def SupersededBy (w : World) (old new : Id) : Prop := new ∈ successors w old

/-- The memory exists. -/
def Stored (w : World) (x : Id) : Prop := (w.payload x).isSome = true

/-- The successors of a memory are read from its payload. -/
theorem successors_congr {w w' : World} {x : Id} (h : w'.payload x = w.payload x) :
    successors w' x = successors w x := by
  rw [successors, successors, h]

/-- Stores of the same points have the same payloads. -/
theorem payload_congr {w w' : World} (h : w'.points = w.points) (x : Id) :
    w'.payload x = w.payload x := by
  rw [World.payload, World.payload, h]

theorem stored_congr {w w' : World} {x : Id} (h : w'.payload x = w.payload x) :
    Stored w' x ↔ Stored w x := by
  rw [Stored, Stored, h]

theorem stored_of_supersededBy {w : World} {x y : Id} (h : SupersededBy w x y) : Stored w x := by
  unfold SupersededBy successors at h
  unfold Stored
  cases hp : w.payload x with
  | none => simp [hp] at h
  | some p => rfl

theorem successors_of_payload {w : World} {x : Id} {p : Payload} (h : w.payload x = some p) :
    successors w x = superseded_ids p := by
  rw [successors, h]
  rfl

/-- Writing a payload redirects the edges of its memory. -/
theorem supersededBy_put (w : World) (id : Id) (p : Payload) :
    SupersededBy (w.put id p) = redirect (SupersededBy w) id {y | y ∈ superseded_ids p} := by
  funext x y
  by_cases hx : x = id
  · subst hx
    simp [SupersededBy, redirect, successors_of_payload (w.payload_put_self x p)]
  · simp [SupersededBy, redirect, hx, successors_congr (w.payload_put_ne p hx)]

/-- No stored payload is empty. -/
def Solid (w : World) : Prop := ∀ x p, w.payload x = some p → p.truthy = true

/-- What no step but `invalidate`, `update` and `delete` can break: edges are only
lost, memories only gained, and no stored payload becomes empty. -/
structure Sheds (w w' : World) : Prop where
  edges : ∀ x y, SupersededBy w' x y → SupersededBy w x y
  stored : ∀ x, Stored w x → Stored w' x
  solid : Solid w → Solid w'

/-- A world with the same payloads sheds nothing. -/
theorem Sheds.of_payload {w w' : World} (h : ∀ x, w'.payload x = w.payload x) : Sheds w w' where
  edges := by
    intro x y hxy
    rwa [SupersededBy, successors_congr (h x)] at hxy
  stored := by
    intro x hx
    rwa [Stored, h x]
  solid := by
    intro hs x p hp
    exact hs x p ((h x) ▸ hp)

theorem Sheds.trans {w₁ w₂ w₃ : World} (h : Sheds w₁ w₂) (h' : Sheds w₂ w₃) : Sheds w₁ w₃ where
  edges := fun x y hxy => h.edges x y (h'.edges x y hxy)
  stored := fun x hx => h'.stored x (h.stored x hx)
  solid := fun hs => h'.solid (h.solid hs)

/-- Writing a payload whose successors the memory already had. -/
theorem Sheds.put {w : World} {id : Id} {p : Payload} (hp : p.truthy = true)
    (h : ∀ y ∈ superseded_ids p, SupersededBy w id y) : Sheds w (w.put id p) where
  edges := by
    intro x y hxy
    rw [supersededBy_put] at hxy
    rcases hxy with ⟨rfl, hy⟩ | ⟨-, hxy⟩
    · exact h y hy
    · exact hxy
  stored := by
    intro x hx
    unfold Stored at *
    by_cases hxid : x = id
    · rw [hxid, World.payload_put_self]
      rfl
    · rwa [w.payload_put_ne p hxid]
  solid := by
    intro hs x q hq
    by_cases hxid : x = id
    · rw [hxid, World.payload_put_self] at hq
      injection hq with hq
      rwa [← hq]
    · rw [w.payload_put_ne p hxid] at hq
      exact hs x q hq

variable (host : Host) (fault : Call → World → Option Exn)

theorem sheds_insert (points : List (Id × Payload)) (w : World)
    (h : ∀ p ∈ points, superseded_ids p.2 = [] ∧ p.2.truthy = true) :
    Sheds w (points.foldl (fun w p => w.put p.1 p.2) w) := by
  induction points generalizing w with
  | nil => exact .of_payload fun _ => rfl
  | cons p points ih =>
    have hp := h p List.mem_cons_self
    have hput : Sheds w (w.put p.1 p.2) := by
      refine Sheds.put hp.2 fun y hy => ?_
      rw [hp.1] at hy
      simp at hy
    exact hput.trans (ih _ fun q hq => h q (List.mem_cons_of_mem _ hq))

/-- A shedding call sheds. -/
theorem sheds_call {c : Call} (hc : sheds c) (w : World) (hw : Solid w) :
    Sheds w (host.failing fault c w).2 := by
  rcases host.failing_cases fault c w with ⟨e, h⟩ | h
  · rw [h]
    exact .of_payload fun _ => rfl
  rw [h]
  by_cases hq : c.writes = false
  · exact .of_payload (payload_congr (host.answer_points hq w))
  cases c with
  | vs_set_payload id patch =>
    simp only [Host.answer]
    cases hp : w.payload id with
    | none => exact .of_payload fun _ => rfl
    | some p =>
      refine Sheds.put (Payload.truthy_merge patch (hw id p hp)) fun y hy => ?_
      rcases superseded_ids_merge (p := p) hc with hm | hm
      · rw [hm] at hy
        rwa [SupersededBy, successors_of_payload hp]
      · rw [hm] at hy
        simp at hy
  | vs_insert points => exact sheds_insert points w hc
  | vs_upsert _ _ => exact hc.elim
  | vs_delete _ => exact hc.elim
  | _ => exact absurd rfl hq

/-- Shedding code sheds. -/
theorem sheds_run {α : Type} {p : Code α} (hp : p.Uses sheds)
    (fault : Faults) {w : World} (hw : Solid w) :
    Sheds w (p.run (host.beset fault) (w, 0)).2.1 := by
  have hinv := hp.run (h := host.beset fault) (P := fun s => Sheds w s.1)
    (fun c s hc hs => hs.trans (sheds_call host (fault s.2) hc s.1 (hs.solid hw)))
    (s := (w, 0)) (Sheds.of_payload fun _ => rfl)
  exact hinv

/-! ## Quiet stretches -/

section stretches

variable {ι : Type} {host : Host} {fault : ι → Call → World → Option Exn} {w w' : World}
  {es : List Ev}

/-- Nothing fails in a healthy world. -/
theorem served_healthy (h : Answered host.answer w es w') :
    Served (fun _ : Unit => host.failing fun _ _ => none) w es w' := by
  rw [← host.failing_none] at h
  exact h.served (i := ())

/-- Shedding calls shed. -/
theorem sheds_served (h : Served (fun i => host.failing (fault i)) w es w')
    (hes : ∀ e ∈ es, sheds e.1) (hw : Solid w) : Sheds w w' := by
  refine h.induction (Sheds.of_payload fun _ => rfl) ?_
  intro e he i t ht
  exact ht.trans (sheds_call host (fault i) (hes e he) t (ht.solid hw))

/-- Quiet calls leave every point where it is. -/
theorem payload_of_quiet (h : Served (fun i => host.failing (fault i)) w es w') (hq : Quiet es)
    (x : Id) : w'.payload x = w.payload x := by
  have hinv := h.induction (P := fun t => t.points = w.points) rfl ?_
  · exact payload_congr hinv x
  · intro e he i t ht
    rw [host.failing_points (hq e he), ht]

/-- What a lookup answers: the stored payload, or nothing where a fault strikes it. -/
theorem found_failing (host : Host) (g : Call → World → Option Exn) (n : Id) (t : World) :
    found (host.failing g (.vs_get n) t).1 = t.payload n ∧ g (.vs_get n) t = none ∨
      found (host.failing g (.vs_get n) t).1 = none ∧ g (.vs_get n) t ≠ none := by
  cases hfault : g (.vs_get n) t with
  | some e =>
    refine .inr ⟨?_, by simp⟩
    rw [Host.failing, Handler.failing]
    simp only [Call.fallible, if_true, hfault]
    rfl
  | none =>
    refine .inl ⟨?_, rfl⟩
    rw [Host.failing, Handler.failing]
    simp only [Call.fallible, if_true, hfault]
    exact found_answer host n t

/-- What a lookup in a quiet stretch has found is stored. -/
theorem stored_of_found {n : Id} {r : Except Exn (Option Payload)} {p : Payload}
    (h : Served (fun i => host.failing (fault i)) w es w') (hq : Quiet es)
    (hr : ⟨.vs_get n, r⟩ ∈ es) (hp : found r = some p) : w.payload n = some p := by
  obtain ⟨i, es₁, es₂, t, rfl, h₁, ht⟩ := h.mem hr
  have hq₁ : Quiet es₁ := fun e he => hq e (List.mem_append_left _ he)
  have hans : r = (host.failing (fault i) (.vs_get n) t).1 := ht
  rw [← payload_of_quiet h₁ hq₁ n]
  rcases found_failing host (fault i) n t with ⟨hsame, -⟩ | ⟨hnone, -⟩
  · rw [← hsame, ← hans, hp]
  · rw [← hans, hp] at hnone
    cases hnone

/-! ## Lookups -/

/-- Lookups leave the world as it is. -/
theorem world_of_lookups (h : Served (fun i => host.failing (fault i)) w es w')
    (hes : ∀ e ∈ es, looks_up e.1) : w' = w := by
  refine h.induction (P := fun t => t = w) rfl ?_
  rintro e he i t rfl
  obtain ⟨n, hn⟩ := hes e he
  rw [hn]
  rcases host.failing_cases (fault i) (.vs_get n) t with ⟨e, hfail⟩ | hok
  · rw [hfail]
  · rw [hok]
    rfl

/-- A lookup among lookups found what is stored, or a fault struck it. -/
theorem found_of_lookups {n : Id} {r : Except Exn (Option Payload)}
    (h : Served (fun i => host.failing (fault i)) w es w') (hes : ∀ e ∈ es, looks_up e.1)
    (hr : ⟨.vs_get n, r⟩ ∈ es) :
    found r = w.payload n ∨ ∃ i, fault i (.vs_get n) w ≠ none := by
  obtain ⟨i, es₁, es₂, t, rfl, h₁, ht⟩ := h.mem hr
  have ht' : t = w := world_of_lookups h₁ fun e he => hes e (List.mem_append_left _ he)
  subst ht'
  have hans : r = (host.failing (fault i) (.vs_get n) t).1 := ht
  rcases found_failing host (fault i) n t with ⟨hsame, -⟩ | ⟨-, hstruck⟩
  · exact .inl (by rw [hans, hsame])
  · exact .inr ⟨i, hstruck⟩

/-- No point read of the memory fails. -/
def Fetchable (fault : ι → Call → World → Option Exn) (w : World) (x : Id) : Prop :=
  ∀ i, fault i (.vs_get x) w = none

/-- An edge the cycle check is shown. -/
def Visible (fault : ι → Call → World → Option Exn) (w : World) (x y : Id) : Prop :=
  SupersededBy w x y ∧ Fetchable fault w x

/-- **A cycle check that passed.** No superseder reaches the target through memories
whose point reads do not fail. -/
theorem not_reach_of_checked {target : Id} {by_ids : List Id}
    (h : Served (fun i => host.failing (fault i)) w es w') (hes : ∀ e ∈ es, looks_up e.1)
    {walked : List Ev} (hsub : ∀ e ∈ walked, e ∈ es)
    (hwalk : Trace (assert_no_cycle target by_ids) walked (.ret ())) :
    ∀ b ∈ by_ids, ¬ ReflTransGen (Visible fault w) b target := by
  obtain ⟨visited, hw, ht, hby⟩ := assert_no_cycle_ret hwalk
  intro b hb
  refine not_reach_of_closed (X := {n | n ∈ visited}) (hby b hb) ?_ ht
  rintro x hx y ⟨hxy, hread⟩
  rcases hw.shows x hx with hx | ⟨r, hr, hy⟩
  · simp at hx
  · refine hy y ?_
    rcases found_of_lookups h hes (hsub _ hr) with hfound | ⟨i, hstruck⟩
    · rwa [shown, hfound]
    · exact absurd (hread i) hstruck

end stretches

end Memline
