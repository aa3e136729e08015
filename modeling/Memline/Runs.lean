/-
Sequential runs of requests and harvests from an empty store.

One step of a run has one of three effects on the supersession graph
(`StepEffect`): it sheds edges, it redirects one memory to stored memories that
were not shown to reach it, or it removes a memory that was not shown to have
successors. "Shown", since a point read that fails reads as a missing memory: the
cycle check then passes by what it could not see. The graph stays acyclic in the
runs where an `invalidate` that would close a cycle can read its way around it.

Any call of any step may fail, by its number, but for the clock, the id generator
and the names of the models.
-/
import Memline.Supersession

set_option autoImplicit false

namespace Memline

open Effect Effect.Prog Relation Reachability

/-! ## Steps and runs -/

inductive Step where
  | request (r : ops.Request)
  | harvest (now : Option String) (limit : ℕ)

/-- The world after a step, given which calls fail in it. -/
def Step.run (host : Host) (fault : Faults) (w : World) : Step → World
  | .request r => ((ops.dispatch host r).run (host.beset fault) (w, 0)).2.1
  | .harvest now limit => ((harvest_expired host now limit).run (host.beset fault) (w, 0)).2.1

theorem Step.run_request (host : Host) (r : ops.Request) (w : World) :
    (Step.request r).run host .none w = ((ops.dispatch host r).run host.answer w).2 :=
  (host.run_beset_none _ w 0).2

/-- The world after several steps, given which calls fail in each. -/
def Step.runs_struck (host : Host) (steps : List (Faults × Step)) : World :=
  steps.foldl (fun w s => s.2.run host s.1 w) .empty

/-- The world after several steps in which nothing fails. -/
def Step.runs (host : Host) (steps : List Step) : World :=
  steps.foldl (fun w s => s.run host .none w) .empty

/-- The metadata names no lifecycle field. -/
def CarriesNoLifecycle (metadata : Payload) : Prop := ∀ k ∈ lifecycle_fields, k ∉ metadata

/-- The lifecycle fields of the metadata, if any, hold the memory's current values. -/
def CarriesCurrent (w : World) (memory_id : Id) (metadata : Payload) : Prop :=
  ∀ k ∈ lifecycle_fields, ∀ v, metadata.lookup k = some v →
    ∀ p, w.payload memory_id = some p → p.get k = v

/-- The arguments a client gives an `add` and an `update`. -/
def Step.Admissible (w : World) : Step → Prop
  | .request (.add _ _ _ _ metadata _) => CarriesNoLifecycle metadata
  | .request (.update memory_id _ metadata) => CarriesCurrent w memory_id metadata
  | _ => True

/-- The worlds that runs of admitted steps lead to. -/
inductive Reachable (host : Host) (allow : World → Faults → Step → Prop) : World → Prop where
  | start : Reachable host allow .empty
  | step {w : World} (hw : Reachable host allow w) (s : Step) (fault : Faults)
      (hs : allow w fault s) : Reachable host allow (s.run host fault w)

theorem Reachable.runs_struck {host : Host} {allow : World → Faults → Step → Prop}
    {steps : List (Faults × Step)} (h : ∀ w, ∀ s ∈ steps, allow w s.1 s.2) :
    Reachable host allow (Step.runs_struck host steps) := by
  suffices hfrom : ∀ w, Reachable host allow w →
      Reachable host allow (steps.foldl (fun w s => s.2.run host s.1 w) w) from
    hfrom .empty .start
  induction steps with
  | nil => exact fun _ hw => hw
  | cons s steps ih =>
    intro w hw
    refine ih (fun w t ht => h w t (List.mem_cons_of_mem _ ht)) _ ?_
    exact hw.step s.2 s.1 (h w s List.mem_cons_self)

theorem Step.runs_eq (host : Host) (steps : List Step) :
    Step.runs host steps = Step.runs_struck host (steps.map fun s => (.none, s)) := by
  rw [Step.runs, Step.runs_struck, List.foldl_map]

/-- A run of allowed steps without faults reaches its world. -/
theorem Reachable.runs {host : Host} {allow : World → Faults → Step → Prop} {steps : List Step}
    (h : ∀ w, ∀ s ∈ steps, allow w .none s) : Reachable host allow (Step.runs host steps) := by
  rw [Step.runs_eq]
  refine .runs_struck fun w s hs => ?_
  obtain ⟨t, ht, rfl⟩ := List.mem_map.mp hs
  exact h w t ht

/-! ## What a step does to the graph -/

/-- The three effects of a step that `fault` may strike. -/
inductive StepEffect (fault : Faults) (w w' : World) (s : Step) : Prop where
  | sheds (h : Sheds w w')
  | redirects (id : Id) (p : Payload) (by_ids : List Id)
      (reason actor_id session_id : Option String)
      (hs : s = .request (.invalidate id by_ids reason actor_id session_id))
      (h : ∀ x, w'.payload x = (w.put id p).payload x)
      (hp : Solid w → p.truthy = true) (hids : successors w id = [])
      (hby : ∀ b, b ∈ superseded_ids p ↔ b ∈ distinct_ids by_ids)
      (hends : ∀ b ∈ distinct_ids by_ids,
        Stored w b ∧ ¬ ReflTransGen (Visible fault w) b id)
  | removes (id : Id) (actor_id : Option String) (hs : s = .request (.delete id actor_id))
      (h : ∀ x, w'.payload x = (w.remove id).payload x)
      (hids : successors w id = [] ∨ fault 0 (.vs_get id) w ≠ none)

variable {host : Host} {fault : Faults} {w : World}

/-- An `invalidate` sheds edges, or it redirects its memory to what it has checked. -/
theorem invalidate_effect {memory_id : Id} {by_ids : List Id}
    {reason actor_id session_id : Option String} :
    StepEffect fault w ((invalidate memory_id by_ids reason actor_id session_id).run
        (host.beset fault) (w, 0)).2.1
      (.request (.invalidate memory_id by_ids reason actor_id session_id)) := by
  obtain ⟨es, q, htrace, hrun, -, -⟩ := Prog.run_trace (host.beset fault)
    (invalidate memory_id by_ids reason actor_id session_id) (w, 0)
  have hans := hrun.of_numbered
  rcases invalidate_trace htrace with ⟨hq, -⟩ | ⟨es₁, patch, r, es₂, rfl, hq₁, hq₂, hbefore, -⟩
  · exact .sheds (.of_payload (payload_of_quiet hans hq))
  obtain ⟨t, h₁, h₂⟩ := hans.split
  cases h₂ with
  | cons i h₂ =>
  obtain ⟨checks, p₀, now, rfl, hchecks, hpatch⟩ := hbefore
  have hlooks : ∀ e ∈ checks, looks_up e.1 := (hchecks.uses (check_invalidate_looks_up _ _)).1
  obtain ⟨_, hlookups, -⟩ := h₁.split
  obtain ⟨r₀, reads, walked, rfl, hchecked⟩ := check_invalidate_ret hchecks
  -- everything before the write only reads, so the checks hold where the write is made
  have hsame : ∀ x, t.payload x = w.payload x := payload_of_quiet h₁ hq₁
  have hlast := payload_of_quiet h₂ hq₂
  rcases host.failing_cases (fault i) (.vs_set_payload memory_id patch) t with ⟨e, hw⟩ | hw
  · refine .sheds (.of_payload fun x => ?_)
    rw [hlast x, hw, hsame x]
  obtain ⟨p, hfound, hactive⟩ := hchecked.active
  have hp : w.payload memory_id = some p := stored_of_found h₁ hq₁ (by simp) hfound
  have hwrite := hw
  simp only [Host.answer, hsame memory_id, hp] at hwrite
  refine .redirects memory_id (p.merge patch) by_ids reason actor_id session_id rfl
    (fun x => ?_) (fun hsolid => Payload.truthy_merge patch (hsolid _ p hp)) ?_ ?_ ?_
  · rw [hlast x, hwrite]
    by_cases hx : x = memory_id
    · rw [hx, World.payload_put_self, World.payload_put_self]
    · rw [World.payload_put_ne _ _ hx, World.payload_put_ne _ _ hx, hsame x]
  · rw [successors_of_payload hp, hactive]
  · intro b
    rw [hpatch, superseded_ids_invalidate_patch distinct_ids_ne]
  · intro b hb
    constructor
    · obtain ⟨r, hr, hsome⟩ := require_superseders_ret hchecked.superseders b hb
      obtain ⟨pb, hpb⟩ := Option.isSome_iff_exists.mp hsome
      rw [Stored, stored_of_found h₁ hq₁ (by simp [hr]) hpb]
      rfl
    · exact not_reach_of_checked hlookups hlooks (fun e he => by simp [he]) hchecked.no_cycle b hb

/-- The successors an update writes are those the memory has. -/
theorem superseded_ids_updated_payload {memory_id : Id} {text now : String}
    {metadata p : Payload} (hp : w.payload memory_id = some p)
    (h : CarriesCurrent w memory_id metadata) :
    superseded_ids (Mem0.updated_payload host p text metadata now) = superseded_ids p := by
  refine superseded_ids_congr ?_
  rw [Payload.get, Mem0.lookup_updated_payload (by decide)]
  cases hv : metadata.lookup SUPERSEDED_BY with
  | none => rfl
  | some v => exact (h SUPERSEDED_BY (by decide) v hv p hp).symm

theorem truthy_updated_payload {p metadata : Payload} {text now : String} :
    (Mem0.updated_payload host p text metadata now).truthy = true := by
  unfold Mem0.updated_payload
  simp only
  split
  · exact Payload.truthy_set _ _ _
  · have hmem : "updated_at" ∈ Payload.ofList [("data", .str text),
        ("hash", .str (host.md5 text)), ("text_lemmatized", .str (host.lemmatize text)),
        ("created_at", p.get "created_at"), ("updated_at", .str now)] := by
      rw [← AList.lookup_isSome]
      rfl
    exact Payload.truthy_of_mem (Payload.mem_merge.mpr (.inl hmem))

/-- An update writes the memory it found, with the successors it has. -/
theorem update_sheds {memory_id : Id} {text : String} {metadata : Payload} (hw : Solid w)
    (hmeta : CarriesCurrent w memory_id metadata) :
    Sheds w ((ops.update host memory_id text metadata).run (host.beset fault) (w, 0)).2.1 := by
  obtain ⟨es, q, htrace, hrun, -, -⟩ := Prog.run_trace (host.beset fault)
    (ops.update host memory_id text metadata) (w, 0)
  have hans := hrun.of_numbered
  rcases update_trace htrace with ⟨hq, -⟩ | ⟨r₀, es', rfl, p, now, r, es₂, rfl, htidy⟩
  · exact .of_payload (payload_of_quiet hans hq)
  let reads : List Ev :=
    [⟨.vs_get memory_id, r₀⟩, ⟨.vs_get memory_id, .ok (some p)⟩, ⟨.now_iso, .ok now⟩]
  have hreads : Quiet reads := by simp [reads, Quiet, quiet, Call.writes]
  obtain ⟨t, h₁, h₂⟩ := Served.split (show Served _ w (reads ++ _ :: es₂) _ from hans)
  have hsame : ∀ x, t.payload x = w.payload x := payload_of_quiet h₁ hreads
  have hp : w.payload memory_id = some p :=
    stored_of_found h₁ hreads (List.mem_cons_of_mem _ List.mem_cons_self) rfl
  cases h₂ with
  | cons i h₂ =>
  have hwrite : Sheds t (host.failing (fault i) (.vs_upsert memory_id
      (Mem0.updated_payload host p text metadata now)) t).2 := by
    rcases host.failing_cases (fault i) (.vs_upsert memory_id _) t with ⟨e, hfail⟩ | hok
    · rw [hfail]
      exact .of_payload fun _ => rfl
    · rw [hok]
      refine Sheds.put truthy_updated_payload fun y hy => ?_
      rw [superseded_ids_updated_payload hp hmeta] at hy
      rwa [SupersededBy, successors_congr (hsame memory_id), successors_of_payload hp]
  have hfirst : Sheds w t := .of_payload hsame
  have hlast := sheds_served h₂ (fun e he => sheds_of_tidies (htidy e he))
    (hwrite.solid (hfirst.solid hw))
  exact (hfirst.trans hwrite).trans hlast

/-- A deletion sheds edges, or it removes a memory that its guard was not shown to be
superseded. -/
theorem delete_effect {memory_id : Id} {actor_id : Option String} (hw : Solid w) :
    StepEffect fault w ((ops.delete host memory_id actor_id).run (host.beset fault) (w, 0)).2.1
      (.request (.delete memory_id actor_id)) := by
  obtain ⟨es, q, htrace, hrun, -, -⟩ := Prog.run_trace (host.beset fault)
    (ops.delete host memory_id actor_id) (w, 0)
  have hans := hrun.of_numbered
  -- deletion or invalidation: which of the two, the guard decides
  rcases delete_trace htrace with hs | ⟨r₀, es₁, r, es₂, rfl, hq₁, hq₂, hguard⟩
  · exact .sheds (sheds_served hans hs hw)
  obtain ⟨t, h₁, h₂⟩ := hans.split
  have hq : Quiet (⟨.vs_get memory_id, r₀⟩ :: es₁) := by
    intro e he
    rcases List.mem_cons.mp he with rfl | he
    · rfl
    · exact hq₁ e he
  have hsame := payload_of_quiet h₁ hq
  cases h₂ with
  | cons i h₂ =>
  have hlast := payload_of_quiet h₂ hq₂
  rcases host.failing_cases (fault i) (.vs_delete memory_id) t with ⟨e, hfail⟩ | hok
  · refine .sheds (.of_payload fun x => ?_)
    rw [hlast x, hfail, hsame x]
  · refine .removes memory_id actor_id rfl (fun x => ?_) ?_
    · rw [hlast x, hok]
      by_cases hx : x = memory_id
      · rw [hx, World.payload_remove_self]
        exact World.payload_remove_self _ _
      · rw [World.payload_remove_ne _ hx, ← hsame x]
        exact World.payload_remove_ne _ hx
    · -- the first call of the deletion is the guard's read, in the world it starts from
      have hfirst : r₀ = (host.failing (fault 0) (.vs_get memory_id) w).1 := hrun.of_cons.1
      rcases found_failing host (fault 0) memory_id w with ⟨hfound, -⟩ | ⟨-, hstruck⟩
      · left
        rw [← hfirst] at hfound
        unfold successors
        cases hp : w.payload memory_id with
        | none => rfl
        | some p => exact hguard p (hfound.trans hp)
      · exact .inr hstruck

/-- **One step.** -/
theorem step_effect (s : Step) (hs : s.Admissible w) (hw : Solid w) :
    StepEffect fault w (s.run host fault w) s := by
  cases s with
  | harvest now limit =>
    exact .sheds (sheds_run host (harvest_expired_sheds host now limit) _ hw)
  | request r =>
    cases r with
    | get memory_id =>
      rw [Step.run, ops.dispatch, run_map]
      refine .sheds (sheds_run host ?_ _ hw)
      exact (mem0_get_inert memory_id).mono fun _ => sheds_of_inert
    | add content user_id agent_id run_id metadata infer =>
      rw [Step.run, ops.dispatch, run_map]
      -- the metadata of an add names no successors
      have hplain : superseded_ids metadata = [] := by
        refine superseded_ids_of_none ?_
        rw [Payload.get, AList.lookup_eq_none.mpr (hs SUPERSEDED_BY (by decide))]
        rfl
      exact .sheds (sheds_run host (add_sheds host _ _ _ _ infer hplain) _ hw)
    | update memory_id text metadata =>
      rw [Step.run, ops.dispatch, run_map]
      exact .sheds (update_sheds hw hs)
    | delete memory_id actor_id =>
      rw [Step.run, ops.dispatch]
      exact delete_effect hw
    | invalidate memory_id by_ids reason actor_id session_id =>
      rw [Step.run, ops.dispatch, run_map]
      exact invalidate_effect
    | revive memory_id actor_id session_id =>
      rw [Step.run, ops.dispatch, run_map]
      exact .sheds (sheds_run host (revive_sheds memory_id actor_id session_id) _ hw)
    | set_ttl memory_id mode actor_id =>
      rw [Step.run, ops.dispatch, run_map]
      exact .sheds (sheds_run host (set_ttl_sheds memory_id mode actor_id) _ hw)
    | resolve_head memory_id =>
      rw [Step.run, ops.dispatch, run_map]
      exact .sheds (sheds_run host
        ((resolve_head_inert memory_id).mono fun _ => sheds_of_inert) _ hw)

/-! ## Acyclicity -/

/-- The relation of supersession is read from the payloads. -/
theorem supersededBy_congr {w w' : World} (h : ∀ x, w'.payload x = w.payload x) :
    SupersededBy w' = SupersededBy w := by
  funext x y
  rw [SupersededBy, SupersededBy, successors_congr (h x)]

/-- A step keeps the stored payloads nonempty. -/
theorem StepEffect.solid {w' : World} {s : Step} (h : StepEffect fault w w' s) (hw : Solid w) :
    Solid w' := by
  cases h with
  | sheds h => exact h.solid hw
  | redirects id p by_ids reason actor_id session_id hs h hp hids hby hends =>
    intro x q hq
    rw [h x] at hq
    by_cases hx : x = id
    · rw [hx, World.payload_put_self] at hq
      injection hq with hq
      rw [← hq]
      exact hp hw
    · rw [World.payload_put_ne _ _ hx] at hq
      exact hw x q hq
  | removes id actor_id hs h hids =>
    intro x q hq
    rw [h x] at hq
    by_cases hx : x = id
    · rw [hx, World.payload_remove_self] at hq
      cases hq
    · rw [World.payload_remove_ne _ hx] at hq
      exact hw x q hq

/-- Nothing is stored, so everything that is has an id. -/
theorem solid_empty : Solid .empty := by
  intro x p hp
  simp [World.payload, World.empty] at hp

theorem not_supersededBy_empty (x y : Id) : ¬ SupersededBy .empty x y := by
  simp [SupersededBy, successors, World.payload, World.empty]

/-- Stored payloads are nonempty in every run. -/
theorem Reachable.solid {allow : World → Faults → Step → Prop}
    (hallow : ∀ w fault s, allow w fault s → s.Admissible w) (hw : Reachable host allow w) :
    Solid w := by
  induction hw with
  | start => exact solid_empty
  | step _ s fault hs ih => exact (step_effect s (hallow _ _ _ hs) ih).solid ih

/-- An `invalidate` of an active memory by stored ones, one of which leads back to it. -/
def ClosesCycle (w : World) (memory_id : Id) (by_ids : List Id) : Prop :=
  successors w memory_id = [] ∧ (∀ b ∈ distinct_ids by_ids, Stored w b) ∧
    ∃ b ∈ distinct_ids by_ids, ReflTransGen (SupersededBy w) b memory_id

/-- Where the step would close a cycle, some way back to the memory leads through
memories whose point reads do not fail in it. -/
def Step.SeesCycles (w : World) (fault : Faults) : Step → Prop
  | .request (.invalidate memory_id by_ids _ _ _) =>
    ClosesCycle w memory_id by_ids →
      ∃ b ∈ distinct_ids by_ids, ReflTransGen (Visible fault w) b memory_id
  | _ => True

/-- A step that can see the cycle it would close closes none. -/
theorem StepEffect.acyclic {w' : World} {s : Step} (h : StepEffect fault w w' s)
    (hs : s.SeesCycles w fault) (hw : Acyclic (SupersededBy w)) : Acyclic (SupersededBy w') := by
  cases h with
  | sheds h => exact hw.mono h.edges
  | redirects id p by_ids reason actor_id session_id hinv h hp hids hby hends =>
    subst hinv
    rw [supersededBy_congr h, supersededBy_put]
    refine hw.redirect fun b hb hreach => ?_
    have hcloses : ClosesCycle w id by_ids :=
      ⟨hids, fun b hb => (hends b hb).1, b, (hby b).mp hb, hreach⟩
    obtain ⟨b', hb', hvisible⟩ := hs hcloses
    exact (hends b' hb').2 hvisible
  | removes id actor_id hdel h hids =>
    refine hw.mono fun x y hxy => ?_
    rw [supersededBy_congr h] at hxy
    by_cases hx : x = id
    · have hstored := stored_of_supersededBy hxy
      rw [Stored, hx, World.payload_remove_self] at hstored
      cases hstored
    · rwa [SupersededBy, successors_congr (World.payload_remove_ne _ hx)] at hxy

/-- The runs whose steps see the cycles they would close. -/
abbrev Seeing (w : World) (fault : Faults) (s : Step) : Prop :=
  s.Admissible w ∧ s.SeesCycles w fault

/-- **No cycle is closed unseen.** In every world that a sequential run of admissible
steps reaches, the supersession graph is acyclic, provided that the cycle check of each
`invalidate` that would close a cycle can read its way around it. -/
theorem supersession_acyclic (hw : Reachable host Seeing w) : Acyclic (SupersededBy w) := by
  induction hw with
  | start => exact acyclic_of_no_edges not_supersededBy_empty
  | step hw s fault hs ih =>
    have hsolid := hw.solid fun _ _ _ h => h.1
    exact (step_effect s hs.1 hsolid).acyclic hs.2 ih

/-- One message added for a user, with nothing extracted from it. -/
def Step.note (text : String) : Step :=
  .request (.add [{ role := some "user", content := some text }] (some "u") none none ∅ false)

/-- Two memories, and the first superseded by the second. -/
def superseding : List Step :=
  [.note "A", .note "B", .request (.invalidate "m1" ["m11"] none none none)]

/-- The steps of the superseding run are admissible anywhere. -/
theorem superseding_admissible (w : World) : ∀ s ∈ superseding, s.Admissible w := by
  have hnote : ∀ text, (Step.note text).Admissible w := fun _ _ _ => AList.notMem_empty _
  intro s hs
  simp only [superseding, List.mem_cons, List.not_mem_nil, or_false] at hs
  rcases hs with rfl | rfl | rfl
  · exact hnote "A"
  · exact hnote "B"
  · trivial

/-- The second memory superseded by the first in turn, while reads of the second fail:
the cycle check reads the first and sees the cycle. -/
def reversing : List (Faults × Step) :=
  superseding.map (fun s => (Faults.none, s)) ++
    [(.reads_of "m11" (.other "timed out"), .request (.invalidate "m11" ["m1"] none none none))]

theorem seesCycles_none (s : Step) (w : World) : s.SeesCycles w .none := by
  cases s with
  | harvest now limit => trivial
  | request r =>
    cases r with
    | invalidate memory_id by_ids reason actor_id session_id =>
      rintro ⟨-, -, b, hb, hreach⟩
      exact ⟨b, hb, ReflTransGen.mono (fun x y hxy => ⟨hxy, fun _ => rfl⟩) _ _ hreach⟩
    | _ => trivial

/-- The cycle is seen in the first memory, whose read does not fail, and is not closed. -/
theorem supersession_acyclic_superseding :
    Acyclic (SupersededBy (Step.runs_struck .plain reversing)) ∧
      SupersededBy (Step.runs_struck .plain reversing) "m1" "m11" := by
  refine ⟨supersession_acyclic (.runs_struck fun w s hs => ?_), ?_⟩
  · rcases List.mem_append.mp hs with hs | hs
    · obtain ⟨t, ht, rfl⟩ := List.mem_map.mp hs
      exact ⟨superseding_admissible w t ht, seesCycles_none t w⟩
    · rw [List.mem_singleton.mp hs]
      refine ⟨trivial, ?_⟩
      rintro ⟨hactive, -, b, hb, hreach⟩
      refine ⟨b, hb, ReflTransGen.mono (fun x y hxy => ⟨hxy, fun _ => ?_⟩) _ _ hreach⟩
      -- a memory with a successor is not the second one
      have hx : x ≠ "m11" := by
        rintro rfl
        simp [SupersededBy, hactive] at hxy
      simp [Faults.reads_of, hx]
  · unfold SupersededBy
    decide

/-- The same run, but what fails is the third read of the last request, the one the
cycle check makes. -/
def overlooked : List (Faults × Step) :=
  superseding.map (fun s => (Faults.none, s)) ++
    [(.once 2 (.other "timed out"), .request (.invalidate "m11" ["m1"] none none none))]

/-- The check reads the first memory as missing and lets the cycle be closed. -/
theorem overlooked_cycle :
    Reachable .plain (fun w _ s => s.Admissible w) (Step.runs_struck .plain overlooked) ∧
      SupersededBy (Step.runs_struck .plain overlooked) "m1" "m11" ∧
      SupersededBy (Step.runs_struck .plain overlooked) "m11" "m1" ∧
      ¬ Acyclic (SupersededBy (Step.runs_struck .plain overlooked)) := by
  have hforth : SupersededBy (Step.runs_struck .plain overlooked) "m1" "m11" := by
    unfold SupersededBy
    decide
  have hback : SupersededBy (Step.runs_struck .plain overlooked) "m11" "m1" := by
    unfold SupersededBy
    decide
  refine ⟨.runs_struck fun w s hs => ?_, hforth, hback, fun hacyclic => ?_⟩
  · rcases List.mem_append.mp hs with hs | hs
    · obtain ⟨t, ht, rfl⟩ := List.mem_map.mp hs
      exact superseding_admissible w t ht
    · rw [List.mem_singleton.mp hs]
      trivial
  · exact hacyclic "m1" (TransGen.head hforth (TransGen.single hback))

end Memline
