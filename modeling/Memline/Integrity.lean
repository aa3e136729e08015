/-
Referential integrity of the supersession graph.

A run that never removes a memory another one lists keeps every successor
stored. `delete_guard` is meant to see to that: it reads whether the memory is
superseded, and takes a read that fails for "no"; it asks `get_all` who lists the
memory, but with a filter that names no user, agent or run, so the query is
refused and the guard takes the refusal for "nobody". `Step.Spares` is the
condition the guard fails to establish.

Where every successor is stored, the walk to the heads visits a closed set of
stored memories, and a chain within the depth limit has its end in it.
-/
import Memline.Runs

set_option autoImplicit false

namespace Memline

open Effect Effect.Prog Relation Reachability

/-- No edge leaves the store. -/
def Closed (w : World) : Prop := ∀ x y, SupersededBy w x y → Stored w y

/-- Where the step deletes a memory that another one lists, the memory is itself
superseded, and the read of the guard, the first of the request, does not fail. -/
def Step.Spares (w : World) (fault : Faults) : Step → Prop
  | .request (.delete memory_id _) =>
    (∃ x, SupersededBy w x memory_id) →
      successors w memory_id ≠ [] ∧ fault 0 (.vs_get memory_id) w = none
  | _ => True

variable {host : Host} {fault : Faults} {w : World}

/-- What only sheds successors leaves no memory superseded by a missing one. -/
theorem Sheds.closed {w' : World} (h : Sheds w w') (hw : Closed w) : Closed w' :=
  fun x y hxy => h.stored y (hw x y (h.edges x y hxy))

theorem stored_put_of_stored {id x : Id} {p : Payload} (hx : Stored w x) :
    Stored (w.put id p) x := by
  unfold Stored at *
  by_cases hid : x = id
  · rw [hid, World.payload_put_self]
    rfl
  · rwa [w.payload_put_ne p hid]

/-- A step that spares the listed memories leaves no successor missing. -/
theorem StepEffect.closed {w' : World} {s : Step} (h : StepEffect fault w w' s)
    (hs : s.Spares w fault) (hw : Closed w) : Closed w' := by
  cases h with
  | sheds h => exact h.closed hw
  | redirects id p by_ids reason actor_id session_id hinv h hp hids hby hends =>
    intro x y hxy
    rw [stored_congr (h y)]
    rw [supersededBy_congr h, supersededBy_put] at hxy
    rcases hxy with ⟨-, hy⟩ | ⟨-, hxy⟩
    · exact stored_put_of_stored (hends y ((hby y).mp hy)).1
    · exact stored_put_of_stored (hw x y hxy)
  | removes id actor_id hdel h hids =>
    subst hdel
    have hspared : ∀ x, ¬ SupersededBy w x id := by
      intro x hx
      obtain ⟨hne, hserved⟩ := hs ⟨x, hx⟩
      rcases hids with hnil | hstruck
      · exact hne hnil
      · exact hstruck hserved
    intro x y hxy
    rw [supersededBy_congr h] at hxy
    have hx : x ≠ id := by
      rintro rfl
      have hstored := stored_of_supersededBy hxy
      rw [Stored, World.payload_remove_self] at hstored
      cases hstored
    rw [SupersededBy, successors_congr (World.payload_remove_ne _ hx)] at hxy
    have hy : y ≠ id := by
      rintro rfl
      exact hspared x hxy
    rw [stored_congr (h y), stored_congr (World.payload_remove_ne _ hy)]
    exact hw x y hxy

/-- The runs that remove no memory another one lists. -/
abbrev Sparing (w : World) (fault : Faults) (s : Step) : Prop :=
  s.Admissible w ∧ s.Spares w fault

/-- Every world that sparing steps lead to is closed. -/
theorem Reachable.closed (hw : Reachable host Sparing w) : Closed w := by
  induction hw with
  | start => exact fun x y hxy => absurd hxy (not_supersededBy_empty x y)
  | step hw s fault hs ih =>
    have hsolid := hw.solid fun _ _ _ h => h.1
    exact (step_effect s hs.1 hsolid).closed hs.2 ih

/-! ## The walk to the heads -/

theorem stored_payload_run {x : Id} {p : Payload} (hp : w.payload x = some p) :
    (ops.stored_payload x).run host.answer w = (.ok (some p), w) := by
  refine (run_perform host.answer (.vs_get x) w).trans ?_
  simp only [Host.answer, hp, Option.isNone_some, Bool.false_and, Bool.false_eq_true, if_false]
  rfl

/-- What one level of the walk does with the memories it visits. -/
structure LevelDone (w : World) (frontier visited next heads visited' next' heads' : List Id) :
    Prop where
  covers : ∀ n ∈ frontier, n ∈ visited'
  visits : ∀ n ∈ visited, n ∈ visited'
  heads : ∀ n ∈ heads, n ∈ heads'
  expands : ∀ n ∈ visited', n ∈ visited ∨
    ((∀ y, SupersededBy w n y → y ∈ next') ∧ (successors w n = [] → n ∈ heads'))
  nexts : ∀ y ∈ next, y ∈ next'
  comes : ∀ y ∈ next', y ∈ next ∨ ∃ n ∈ frontier, SupersededBy w n y

/-- One memory visited, and the rest of the level after it. -/
theorem LevelDone.cons {node : Id} {frontier visited next heads visited' next' heads' : List Id}
    (succ tips : List Id)
    (h : LevelDone w frontier (node :: visited) (next ++ succ) (heads ++ tips)
      visited' next' heads')
    (hsucc : succ = successors w node) (htips : succ = [] → node ∈ tips) :
    LevelDone w (node :: frontier) visited next heads visited' next' heads' where
  covers := by
    intro n hn
    rcases List.mem_cons.mp hn with rfl | hn
    · exact h.visits n List.mem_cons_self
    · exact h.covers n hn
  visits := fun n hn => h.visits n (List.mem_cons_of_mem _ hn)
  heads := fun n hn => h.heads n (List.mem_append_left _ hn)
  -- visited by now: this one, one from before, or one of the rest of the frontier
  expands := by
    intro n hn
    rcases h.expands n hn with hn | hn
    · rcases List.mem_cons.mp hn with rfl | hn
      · refine .inr ⟨fun y hy => ?_, fun hnil => ?_⟩
        · refine h.nexts y (List.mem_append_right _ ?_)
          rw [hsucc]
          exact hy
        · exact h.heads n (List.mem_append_right _ (htips (hsucc.trans hnil)))
      · exact .inl hn
    · exact .inr hn
  nexts := fun y hy => h.nexts y (List.mem_append_left _ hy)
  comes := by
    intro y hy
    rcases h.comes y hy with hy | ⟨n, hn, hny⟩
    · rcases List.mem_append.mp hy with hy | hy
      · exact .inl hy
      · refine .inr ⟨node, List.mem_cons_self, ?_⟩
        rw [SupersededBy, ← hsucc]
        exact hy
    · exact .inr ⟨n, List.mem_cons_of_mem _ hn, hny⟩

/-- A level over stored memories visits them all and fails nowhere. -/
theorem heads_level_run (host : Host) (hsolid : Solid w) {frontier : List Id}
    (hstored : ∀ n ∈ frontier, Stored w n) (visited next heads : List Id) :
    ∃ visited' next' heads',
      (heads_level ops.stored_payload frontier visited next heads).run host.answer w
        = (.ok (visited', next', heads'), w) ∧
      LevelDone w frontier visited next heads visited' next' heads' := by
  -- down the frontier: visited already, a head, or a memory that leads on
  induction frontier generalizing visited next heads with
  | nil =>
    exact ⟨visited, next, heads, rfl, by simp, fun _ h => h, fun _ h => h, fun _ h => .inl h,
      fun _ h => h, fun _ h => .inl h⟩
  | cons node frontier ih =>
    have hrest := ih fun n hn => hstored n (List.mem_cons_of_mem _ hn)
    unfold heads_level
    by_cases hv : node ∈ visited
    · rw [if_pos hv]
      obtain ⟨visited', next', heads', hrun, hdone⟩ := hrest visited next heads
      refine ⟨visited', next', heads', hrun, ?_, hdone.visits, hdone.heads, hdone.expands,
        hdone.nexts, fun y hy => ?_⟩
      · intro n hn
        rcases List.mem_cons.mp hn with rfl | hn
        · exact hdone.visits n hv
        · exact hdone.covers n hn
      · rcases hdone.comes y hy with hy | ⟨n, hn, hny⟩
        · exact .inl hy
        · exact .inr ⟨n, List.mem_cons_of_mem _ hn, hny⟩
    · rw [if_neg hv]
      obtain ⟨p, hp⟩ := Option.isSome_iff_exists.mp (hstored node List.mem_cons_self)
      rw [run_bind_ok (stored_payload_run hp)]
      have hids : superseded_ids p = successors w node := (successors_of_payload hp).symm
      simp only [Option.getD_some, hsolid node p hp, if_true]
      by_cases hs : superseded_ids p = []
      · rw [if_neg (not_not.mpr hs)]
        obtain ⟨visited', next', heads', hrun, hdone⟩ :=
          hrest (node :: visited) next (heads ++ [node])
        refine ⟨visited', next', heads', hrun, LevelDone.cons [] [node] ?_ ?_ ?_⟩
        · rwa [List.append_nil]
        · rw [← hids, hs]
        · simp
      · rw [if_pos hs]
        obtain ⟨visited', next', heads', hrun, hdone⟩ :=
          hrest (node :: visited) (next ++ superseded_ids p) heads
        refine ⟨visited', next', heads', hrun,
          LevelDone.cons (superseded_ids p) [] ?_ hids ?_⟩
        · rwa [List.append_nil]
        · exact fun h => absurd h hs

/-- The memories a walk has dealt with: their successors are dealt with or waiting,
and those without successors are heads. -/
structure Explored (w : World) (visited frontier heads : List Id) : Prop where
  expands : ∀ n ∈ visited, ∀ y, SupersededBy w n y → y ∈ visited ∨ y ∈ frontier
  heads : ∀ n ∈ visited, successors w n = [] → n ∈ heads

/-- A walk with more levels left than any path from its frontier is long. -/
theorem heads_walk_run (host : Host) (hsolid : Solid w) (hclosed : Closed w) {levels : ℕ}
    {frontier visited heads : List Id} (hops : ℕ) (hstored : ∀ n ∈ frontier, Stored w n)
    (hwithin : ∀ n ∈ frontier, ∃ k < levels, Within (SupersededBy w) k n)
    (hex : Explored w visited frontier heads) :
    ∃ visited' heads' hops',
      (heads_walk ops.stored_payload levels frontier visited heads hops).run host.answer w
        = (.ok (heads', hops'), w) ∧
      Explored w visited' [] heads' ∧ (∀ n ∈ visited, n ∈ visited') ∧
      ∀ n ∈ frontier, n ∈ visited' := by
  induction levels generalizing frontier visited heads hops with
  | zero =>
    have hnil : frontier = [] := by
      rw [List.eq_nil_iff_forall_not_mem]
      intro n hn
      obtain ⟨k, hk, -⟩ := hwithin n hn
      omega
    subst hnil
    exact ⟨visited, heads, hops, rfl, hex, fun _ h => h, by simp⟩
  | succ levels ih =>
    unfold heads_walk
    by_cases hf : frontier = []
    · rw [if_pos hf]
      subst hf
      exact ⟨visited, heads, hops, rfl, hex, fun _ h => h, by simp⟩
    · rw [if_neg hf]
      obtain ⟨visited₁, next, heads₁, hrun, hdone⟩ :=
        heads_level_run host hsolid hstored visited [] heads
      rw [run_bind_ok hrun]
      have hcomes : ∀ y ∈ next, ∃ n ∈ frontier, SupersededBy w n y := by
        intro y hy
        rcases hdone.comes y hy with hy | hy
        · simp at hy
        · exact hy
      have hstored₁ : ∀ y ∈ next, Stored w y := by
        intro y hy
        obtain ⟨n, -, hny⟩ := hcomes y hy
        exact hclosed n y hny
      -- a successor of a frontier node has one edge less ahead of it
      have hwithin₁ : ∀ y ∈ next, ∃ k < levels, Within (SupersededBy w) k y := by
        intro y hy
        obtain ⟨n, hn, hny⟩ := hcomes y hy
        obtain ⟨k, hk, hkn⟩ := hwithin n hn
        cases k with
        | zero => exact absurd hny (hkn y)
        | succ k => exact ⟨k, by omega, hkn y hny⟩
      have hex₁ : Explored w visited₁ next heads₁ := by
        constructor
        · intro n hn y hny
          rcases hdone.expands n hn with hn | ⟨hy, -⟩
          · rcases hex.expands n hn y hny with hy | hy
            · exact .inl (hdone.visits y hy)
            · exact .inl (hdone.covers y hy)
          · exact .inr (hy y hny)
        · intro n hn hnil
          rcases hdone.expands n hn with hn | ⟨-, hhead⟩
          · exact hdone.heads n (hex.heads n hn hnil)
          · exact hhead hnil
      obtain ⟨visited', heads', hops', hrun', hex', hsub, hcov⟩ :=
        ih (if next = [] then hops else hops + 1) hstored₁ hwithin₁ hex₁
      exact ⟨visited', heads', hops', hrun', hex', fun n hn => hsub n (hdone.visits n hn),
        fun n hn => hsub n (hdone.covers n hn)⟩

/-- Where every successor is stored, a memory within the depth limit has a head. -/
theorem resolve_head_run (host : Host) (hsolid : Solid w) (hclosed : Closed w) {x : Id}
    (hx : Stored w x) (hdepth : Within (SupersededBy w) MAX_CHAIN_DEPTH x) :
    ∃ r, (resolve_head ops.stored_payload x).run host.answer w = (.ok r, w) ∧ r.heads ≠ [] := by
  obtain ⟨p, hp⟩ := Option.isSome_iff_exists.mp hx
  have hstart : ∀ n ∈ [x], ∃ k < MAX_CHAIN_DEPTH + 1, Within (SupersededBy w) k n := by
    intro n hn
    rw [List.mem_singleton.mp hn]
    exact ⟨MAX_CHAIN_DEPTH, by omega, hdepth⟩
  have hstored : ∀ n ∈ [x], Stored w n := by
    intro n hn
    rwa [List.mem_singleton.mp hn]
  have hnone : Explored w [] [x] [] := ⟨by simp, by simp⟩
  obtain ⟨visited, heads, hops, hrun, hex, -, hcov⟩ :=
    heads_walk_run host hsolid hclosed 0 hstored hstart hnone
  refine ⟨{ requested := x, heads, hops }, ?_, ?_⟩
  · unfold resolve_head
    rw [run_bind_ok (stored_payload_run hp)]
    simp only [Option.isNone_some, refuse_if, Bool.false_eq_true, if_false, pure_eq, ret_bind]
    rw [run_bind_ok hrun]
    rfl
  · -- the end of the chain is in the closed set the walk has visited
    obtain ⟨y, hxy, hsink⟩ := hdepth.exists_sink
    have hy : y ∈ visited := by
      clear hsink
      induction hxy with
      | refl => exact hcov x List.mem_cons_self
      | tail _ hab ih =>
        rcases hex.expands _ ih _ hab with h | h
        · exact h
        · simp at h
    have hnil : successors w y = [] := List.eq_nil_iff_forall_not_mem.mpr hsink
    exact List.ne_nil_of_mem (hex.heads y hy hnil)

/-- **Referential integrity.** In every world that a run of sparing steps reaches,
every successor is stored, and a stored memory whose chain is within the depth
limit resolves to at least one head. -/
theorem supersession_closed (hw : Reachable host Sparing w) :
    (∀ x y, SupersededBy w x y → Stored w y) ∧
      ∀ x, Stored w x → Within (SupersededBy w) MAX_CHAIN_DEPTH x →
        ∃ r, ((ops.dispatch host (.resolve_head x)).run host.answer w).1 = .ok (.head r) ∧
          r.heads ≠ [] := by
  have hclosed := hw.closed
  refine ⟨hclosed, fun x hx hdepth => ?_⟩
  obtain ⟨r, hrun, hheads⟩ :=
    resolve_head_run host (hw.solid fun _ _ _ h => h.1) hclosed hx hdepth
  refine ⟨r, ?_, hheads⟩
  rw [ops.dispatch, run_bind_ok hrun]
  rfl

/-- A chain of three. Its middle is deleted, as is a memory outside it: the first of
the two is listed but superseded, so it only expires; the second is removed. -/
def pruning : List Step :=
  superseding ++ [.note "C", .request (.invalidate "m11" ["m111"] none none none),
    .request (.delete "m11" none), .note "D", .request (.delete "m1111" none)]

/-- Only stored memories list anything. -/
theorem unlisted_of_keys {y : Id} (h : ∀ x ∈ w.points.keys, y ∉ successors w x) (x : Id) :
    ¬ SupersededBy w x y := by
  intro hxy
  have hstored : (w.points.lookup x).isSome = true := stored_of_supersededBy hxy
  exact h x (AList.lookup_isSome.mp hstored) hxy

/-- The middle of the chain has only expired, so that nobody misses it. -/
theorem supersession_closed_superseding :
    let w := Step.runs .plain pruning
    ((∀ x y, SupersededBy w x y → Stored w y) ∧
      ∀ x, Stored w x → Within (SupersededBy w) MAX_CHAIN_DEPTH x →
        ∃ r, ((ops.dispatch .plain (.resolve_head x)).run (Host.answer .plain) w).1
          = .ok (.head r) ∧ r.heads ≠ []) ∧
      SupersededBy w "m1" "m11" ∧ SupersededBy w "m11" "m111" ∧ ¬ Stored w "m1111" := by
  have hmiddle : successors (Step.runs .plain (pruning.take 5)) "m11" ≠ [] := by decide
  have houter : ∀ x ∈ (Step.runs .plain (pruning.take 7)).points.keys,
      "m1111" ∉ successors (Step.runs .plain (pruning.take 7)) x := by decide
  have hchain : Reachable .plain Sparing (Step.runs .plain (pruning.take 5)) := by
    refine .runs fun w s hs => ?_
    rcases List.mem_append.mp (show s ∈ superseding ++ [.note "C", _] from hs) with hs | hs
    · refine ⟨superseding_admissible w s hs, ?_⟩
      simp only [superseding, List.mem_cons, List.not_mem_nil, or_false] at hs
      rcases hs with rfl | rfl | rfl <;> trivial
    · simp only [List.mem_cons, List.not_mem_nil, or_false] at hs
      rcases hs with rfl | rfl
      · exact ⟨fun _ _ => AList.notMem_empty _, trivial⟩
      · exact ⟨trivial, trivial⟩
  have hexpired := hchain.step (.request (.delete "m11" none)) .none
    ⟨trivial, fun _ => ⟨hmiddle, rfl⟩⟩
  have hnoted := hexpired.step (.note "D") .none ⟨fun _ _ => AList.notMem_empty _, trivial⟩
  have hpruned := hnoted.step (.request (.delete "m1111" none)) .none
    ⟨trivial, fun ⟨x, hx⟩ => absurd hx (unlisted_of_keys houter x)⟩
  refine ⟨supersession_closed hpruned, ?_⟩
  unfold SupersededBy Stored
  decide

/-- A memory superseded by a second one, and the deletion of the second. -/
def dangling : List Step := superseding ++ [.request (.delete "m11" none)]

/-- The deletion goes through, since the query of the guard was refused: the chain
of the superseded memory ends outside the store, and it has no head. -/
theorem dangling_reached :
    Reachable .plain (fun w _ s => s.Admissible w) (Step.runs .plain dangling) ∧
      SupersededBy (Step.runs .plain dangling) "m1" "m11" ∧
      Stored (Step.runs .plain dangling) "m1" ∧ ¬ Stored (Step.runs .plain dangling) "m11" ∧
      ∃ r, ((ops.dispatch .plain (.resolve_head "m1")).run (Host.answer .plain)
        (Step.runs .plain dangling)).1 = .ok (.head r) ∧ r.heads = [] := by
  refine ⟨.runs fun w s hs => ?_, by unfold SupersededBy; decide, by unfold Stored; decide,
    by unfold Stored; decide, _, rfl, rfl⟩
  rcases List.mem_append.mp hs with hs | hs
  · exact superseding_admissible w s hs
  · rw [List.mem_singleton.mp hs]
    trivial

/-- The middle of the chain, deleted while the read of the guard fails: the same. -/
example :
    let w := Step.runs_struck .plain ((pruning.take 5).map (fun s => (Faults.none, s)) ++
      [(.once 0 (.other "timed out"), .request (.delete "m11" none))])
    "m11" ∈ successors w "m1" ∧ (w.payload "m11").isSome = false := by
  decide

end Memline
