/-
Resolving a superseded memory to its heads.

The walk visits the supersession graph level by level, for at most `MAX_CHAIN_DEPTH` hops.
Its answer holds the heads that are that near, each once, and nothing tells a caller that
there are others further away. `invalidate` limits how far its new superseders reach, not how
far they are reached from, so that a chain grows past the limit by superseding its newest
head again and again.
-/
import Memline.Integrity

set_option autoImplicit false

namespace Memline

open Effect Effect.Prog Relation Reachability

variable {host : Host} {w : World} {fault : Call → World → Option Exn}

/-- The memory exists and is not superseded. -/
def Head (w : World) (x : Id) : Prop := Stored w x ∧ successors w x = []

/-- What the walk takes for a head: the payload it finds is not empty, and names no successor. -/
def Tip (w : World) (x : Id) : Prop :=
  ∃ p, w.payload x = some p ∧ p.truthy = true ∧ superseded_ids p = []

theorem Tip.head {x : Id} (h : Tip w x) : Head w x := by
  obtain ⟨p, hp, -, hids⟩ := h
  refine ⟨?_, (successors_of_payload hp).trans hids⟩
  rw [Stored, hp]
  rfl

/-- Where every stored memory holds something, the tips are the heads. -/
theorem tip_iff_head (hsolid : Solid w) (x : Id) : Tip w x ↔ Head w x := by
  refine ⟨Tip.head, fun h => ?_⟩
  obtain ⟨p, hp⟩ := Option.isSome_iff_exists.mp h.1
  exact ⟨p, hp, hsolid x p hp, (successors_of_payload hp).symm.trans h.2⟩

/-- The point cannot be looked up. -/
def Unreadable (host : Host) (fault : Call → World → Option Exn) (w : World) (x : Id) : Prop :=
  ∃ e, (host.failing fault (.vs_get x) w).1 = .error e

/-- Reading what is stored raises and changes nothing, or tells the payload. -/
theorem stored_payload_cases (host : Host) (fault : Call → World → Option Exn) (w : World)
    (x : Id) :
    (Unreadable host fault w x ∧ ∃ e, (ops.stored_payload x).run (host.failing fault) w =
      (.error e, w)) ∨
      (¬ Unreadable host fault w x ∧
        (ops.stored_payload x).run (host.failing fault) w = (.ok (w.payload x), w)) := by
  have hrun : (ops.stored_payload x).run (host.failing fault) w
      = host.failing fault (.vs_get x) w := run_perform _ _ _
  unfold Unreadable
  rw [hrun]
  rcases host.failing_cases fault (.vs_get x) w with ⟨e, h⟩ | h
  · rw [h]
    exact .inl ⟨⟨e, rfl⟩, e, rfl⟩
  · rw [h]
    simp only [Host.answer]
    split
    · exact .inl ⟨⟨_, rfl⟩, _, rfl⟩
    · refine .inr ⟨?_, rfl⟩
      rintro ⟨e, he⟩
      cases he

/-! ## One level -/

/-- What one level adds to the visited memories, the next frontier and the heads. -/
structure LevelSwept (w : World) (frontier visited next heads visited' next' heads' : List Id) :
    Prop where
  visits : ∀ y, y ∈ visited' ↔ y ∈ visited ∨ y ∈ frontier
  expands : ∀ y, y ∈ next' ↔ y ∈ next ∨ ∃ z ∈ frontier, z ∉ visited ∧ SupersededBy w z y
  finds : ∀ y, y ∈ heads' ↔ y ∈ heads ∨ y ∈ frontier ∧ y ∉ visited ∧ Tip w y
  distinct : (∀ y ∈ heads, y ∈ visited) → heads.Nodup → heads'.Nodup

/-- A memory visited before, and the rest of the level. -/
theorem LevelSwept.skip {node : Id} {frontier visited next heads visited' next' heads' : List Id}
    (hnode : node ∈ visited)
    (h : LevelSwept w frontier visited next heads visited' next' heads') :
    LevelSwept w (node :: frontier) visited next heads visited' next' heads' where
  visits := by
    intro y
    rw [h.visits, List.mem_cons]
    grind
  expands := by
    intro y
    rw [h.expands]
    simp only [List.mem_cons, exists_eq_or_imp, hnode, not_true_eq_false, false_and, false_or]
  finds := by
    intro y
    rw [h.finds, List.mem_cons]
    grind
  distinct := h.distinct

/-- A memory visited now, and the rest of the level after it. -/
theorem LevelSwept.visit {node : Id} {frontier visited next heads visited' next' heads' : List Id}
    {tips : List Id} (hnode : node ∉ visited) (htips : tips.Nodup)
    (hhead : ∀ y, y ∈ tips ↔ y = node ∧ Tip w node)
    (h : LevelSwept w frontier (node :: visited) (next ++ successors w node) (heads ++ tips)
      visited' next' heads') :
    LevelSwept w (node :: frontier) visited next heads visited' next' heads' where
  visits := by
    intro y
    rw [h.visits, List.mem_cons, List.mem_cons]
    grind
  -- what comes next comes from this memory or from the rest of the frontier
  expands := by
    intro y
    rw [h.expands, List.mem_append]
    constructor
    · rintro ((hy | hy) | ⟨z, hz, hzv, hzy⟩)
      · exact .inl hy
      · exact .inr ⟨node, List.mem_cons_self, hnode, hy⟩
      · exact .inr ⟨z, List.mem_cons_of_mem _ hz, fun hv => hzv (List.mem_cons_of_mem _ hv), hzy⟩
    · rintro (hy | ⟨z, hz, hzv, hzy⟩)
      · exact .inl (.inl hy)
      · by_cases hznode : z = node
        · rw [hznode] at hzy
          exact .inl (.inr hzy)
        · refine .inr ⟨z, (List.mem_cons.mp hz).resolve_left hznode, ?_, hzy⟩
          rw [List.mem_cons, not_or]
          exact ⟨hznode, hzv⟩
  finds := by
    intro y
    rw [h.finds, List.mem_append, hhead, List.mem_cons, List.mem_cons]
    grind
  distinct := by
    intro hsub hnodup
    refine h.distinct (fun y hy => ?_) ?_
    · rcases List.mem_append.mp hy with hy | hy
      · exact List.mem_cons_of_mem _ (hsub y hy)
      · rw [((hhead y).mp hy).1]
        exact List.mem_cons_self
    · rw [List.nodup_append]
      refine ⟨hnodup, htips, fun a ha b hb hab => hnode ?_⟩
      rw [← ((hhead b).mp hb).1, ← hab]
      exact hsub a ha

/-- A level fails on a memory that cannot be looked up, and else sweeps its frontier. -/
theorem heads_level_sweeps (host : Host) (fault : Call → World → Option Exn)
    (frontier visited next heads : List Id) :
    (∃ e, (heads_level ops.stored_payload frontier visited next heads).run (host.failing fault) w
        = (.error e, w) ∧ ∃ x ∈ frontier, Unreadable host fault w x) ∨
    ∃ visited' next' heads',
      (heads_level ops.stored_payload frontier visited next heads).run (host.failing fault) w
        = (.ok (visited', next', heads'), w) ∧
      (∀ x ∈ frontier, x ∉ visited → ¬ Unreadable host fault w x) ∧
      LevelSwept w frontier visited next heads visited' next' heads' := by
  induction frontier generalizing visited next heads with
  | nil =>
    refine .inr ⟨visited, next, heads, rfl, by simp, ?_, ?_, ?_, fun _ h => h⟩
    · simp
    · simp
    · simp
  | cons node frontier ih =>
    unfold heads_level
    by_cases hv : node ∈ visited
    · rw [if_pos hv]
      rcases ih visited next heads with ⟨e, hrun, x, hx, hunreadable⟩ |
        ⟨_, _, _, hrun, hnone, hswept⟩
      · exact .inl ⟨e, hrun, x, List.mem_cons_of_mem _ hx, hunreadable⟩
      · refine .inr ⟨_, _, _, hrun, fun x hx hxv => ?_, hswept.skip hv⟩
        refine hnone x ((List.mem_cons.mp hx).resolve_left ?_) hxv
        rintro rfl
        exact hxv hv
    · rw [if_neg hv]
      rcases stored_payload_cases host fault w node with ⟨hunreadable, e, hrun⟩ | ⟨hfound, hrun⟩
      · rw [run_bind_error hrun]
        exact .inl ⟨e, rfl, node, List.mem_cons_self, hunreadable⟩
      · rw [run_bind_ok hrun]
        have hsucc : superseded_ids ((w.payload node).getD ∅) = successors w node := by
          unfold successors
          cases w.payload node with
          | none => rfl
          | some p => rfl
        have htip : ((w.payload node).getD ∅).truthy = true ∧ successors w node = [] ↔
            Tip w node := by
          unfold Tip successors
          cases w.payload node with
          | none => simp [Payload.truthy, AList.empty_entries]
          | some p => simp
        -- the rest of the level, whatever became of this memory
        have hrest : ∀ tips : List Id, tips.Nodup → (∀ y, y ∈ tips ↔ y = node ∧ Tip w node) →
            (∃ e, (heads_level ops.stored_payload frontier (node :: visited)
                (next ++ successors w node) (heads ++ tips)).run (host.failing fault) w
                = (.error e, w) ∧ ∃ x ∈ node :: frontier, Unreadable host fault w x) ∨
            ∃ visited' next' heads',
              (heads_level ops.stored_payload frontier (node :: visited)
                (next ++ successors w node) (heads ++ tips)).run (host.failing fault) w
                = (.ok (visited', next', heads'), w) ∧
              (∀ x ∈ node :: frontier, x ∉ visited → ¬ Unreadable host fault w x) ∧
              LevelSwept w (node :: frontier) visited next heads visited' next' heads' := by
          intro tips htips hhead
          rcases ih (node :: visited) (next ++ successors w node) (heads ++ tips) with
            ⟨e, hrun, x, hx, hunreadable⟩ | ⟨_, _, _, hrun, hnone, hswept⟩
          · exact .inl ⟨e, hrun, x, List.mem_cons_of_mem _ hx, hunreadable⟩
          · refine .inr ⟨_, _, _, hrun, fun x hx hxv => ?_, hswept.visit hv htips hhead⟩
            by_cases hxnode : x = node
            · rwa [hxnode]
            · refine hnone x ((List.mem_cons.mp hx).resolve_left hxnode) ?_
              rw [List.mem_cons, not_or]
              exact ⟨hxnode, hxv⟩
        simp only [hsucc]
        by_cases hs : successors w node = []
        · rw [if_neg (not_not.mpr hs)]
          by_cases hx : ((w.payload node).getD ∅).truthy = true
          · rw [if_pos hx]
            have := hrest [node] (List.nodup_singleton _) fun y => by simp [htip.mp ⟨hx, hs⟩]
            rwa [hs, List.append_nil] at this
          · rw [if_neg hx]
            have hnot : ¬ Tip w node := fun h => hx (htip.mpr h).1
            have := hrest [] List.nodup_nil fun y => by simp [hnot]
            rwa [hs, List.append_nil, List.append_nil] at this
        · rw [if_pos hs]
          have hnot : ¬ Tip w node := fun h => hs (htip.mpr h).2
          have := hrest [] List.nodup_nil fun y => by simp [hnot]
          rwa [List.append_nil] at this

/-! ## The walk -/

/-- The heads that can be reached along at most `n` edges, each once. -/
structure HeadsNear (w : World) (n : ℕ) (x : Id) (heads : List Id) : Prop where
  distinct : heads.Nodup
  exact : ∀ y, y ∈ heads ↔ Near (SupersededBy w) n x y ∧ Tip w y

/-- The walk after `n` levels: what it has visited, and the heads among that. -/
structure WalkedTo (host : Host) (fault : Call → World → Option Exn) (w : World) (x : Id) (n : ℕ)
    (frontier visited heads : List Id) : Prop where
  swept : Swept (SupersededBy w) x n {y | y ∈ visited} {y | y ∈ frontier}
  visited_near : ∀ m, n = m + 1 → ∀ y, y ∈ visited ↔ Near (SupersededBy w) m x y
  served : ∀ y ∈ visited, ¬ Unreadable host fault w y
  distinct : heads.Nodup
  exact : ∀ y, y ∈ heads ↔ y ∈ visited ∧ Tip w y

/-- Nothing is visited at the start. -/
theorem WalkedTo.start (x : Id) : WalkedTo host fault w x 0 [x] [] [] where
  swept := Swept.start (fun _ => List.not_mem_nil) fun _ => List.mem_singleton
  visited_near := fun m hm => absurd hm (by omega)
  served := by simp
  distinct := List.nodup_nil
  exact := by simp

/-- The step lemma: one more level. -/
theorem WalkedTo.level {x : Id} {n : ℕ} {frontier visited heads visited' next' heads' : List Id}
    (h : WalkedTo host fault w x n frontier visited heads)
    (hserved : ∀ y ∈ frontier, y ∉ visited → ¬ Unreadable host fault w y)
    (hlevel : LevelSwept w frontier visited [] heads visited' next' heads') :
    WalkedTo host fault w x (n + 1) next' visited' heads' where
  swept := by
    refine h.swept.level hlevel.visits fun y => ?_
    refine (hlevel.expands y).trans ?_
    simp
  visited_near := by
    intro m hm y
    obtain rfl : n = m := by omega
    exact (hlevel.visits y).trans (h.swept.seen y)
  served := by
    intro y hy
    by_cases hv : y ∈ visited
    · exact h.served y hv
    · exact hserved y (((hlevel.visits y).mp hy).resolve_left hv) hv
  distinct := hlevel.distinct (fun y hy => ((h.exact y).mp hy).1) h.distinct
  exact := by
    intro y
    rw [hlevel.finds, h.exact, hlevel.visits]
    grind

/-- The run lemma: with `levels` levels left of `depth + 1`, the walk fails on a memory within
`depth` hops that cannot be looked up, and else finds the heads within `depth` hops. -/
theorem heads_walk_sweeps {x : Id} {depth levels n : ℕ}
    {frontier visited heads : List Id} (hops : ℕ) (hlevels : n + levels = depth + 1)
    (h : WalkedTo host fault w x n frontier visited heads) :
    (∃ e, (heads_walk ops.stored_payload levels frontier visited heads hops).run
        (host.failing fault) w = (.error e, w) ∧
      ∃ y, Near (SupersededBy w) depth x y ∧ Unreadable host fault w y) ∨
    ∃ heads' hops', (heads_walk ops.stored_payload levels frontier visited heads hops).run
        (host.failing fault) w = (.ok (heads', hops'), w) ∧
      (∀ y, Near (SupersededBy w) depth x y → ¬ Unreadable host fault w y) ∧
      HeadsNear w depth x heads' := by
  -- what the walk ends with, once it has visited all that is within `depth` hops
  have hend : (∀ y, y ∈ visited ↔ Near (SupersededBy w) depth x y) →
      (∀ y, Near (SupersededBy w) depth x y → ¬ Unreadable host fault w y) ∧
        HeadsNear w depth x heads := by
    intro hvisited
    refine ⟨fun y hy => h.served y ((hvisited y).mpr hy), h.distinct, fun y => ?_⟩
    rw [h.exact, hvisited]
  induction levels generalizing n frontier visited heads hops with
  | zero => exact .inr ⟨heads, hops, rfl, hend (h.visited_near depth (by omega))⟩
  | succ levels ih =>
    unfold heads_walk
    by_cases hf : frontier = []
    · rw [if_pos hf]
      subst hf
      refine .inr ⟨heads, hops, rfl, hend fun y => ⟨fun hy => ?_, fun hy => ?_⟩⟩
      · exact ((h.swept.seen y).mp (.inl hy)).mono (by omega)
      · exact (h.swept.exhausted (by simp) y).mpr hy.reach
    · rw [if_neg hf]
      rcases heads_level_sweeps host fault frontier visited [] heads with
        ⟨e, hrun, y, hy, hunreadable⟩ | ⟨visited', next', heads', hrun, hserved, hlevel⟩
      · rw [run_bind_error hrun]
        have hnear := (h.swept.seen y).mp (.inr hy)
        exact .inl ⟨e, rfl, y, hnear.mono (by omega), hunreadable⟩
      · rw [run_bind_ok hrun]
        have hnext := h.level hserved hlevel
        refine ih _ (by omega) hnext fun hvisited => ?_
        refine ⟨fun y hy => hnext.served y ((hvisited y).mpr hy), hnext.distinct, fun y => ?_⟩
        rw [hnext.exact, hvisited]

/-- Resolving a memory fails when it is missing or a memory within the depth limit cannot be
looked up, and else finds the heads within the depth limit. -/
theorem resolve_head_sweeps (host : Host) (fault : Call → World → Option Exn) (w : World)
    (x : Id) :
    (∃ e, (resolve_head ops.stored_payload x).run (host.failing fault) w = (.error e, w) ∧
      (¬ Stored w x ∨
        ∃ y, Near (SupersededBy w) MAX_CHAIN_DEPTH x y ∧ Unreadable host fault w y)) ∨
    ∃ r, (resolve_head ops.stored_payload x).run (host.failing fault) w = (.ok r, w) ∧
      Stored w x ∧ (∀ y, Near (SupersededBy w) MAX_CHAIN_DEPTH x y → ¬ Unreadable host fault w y) ∧
      HeadsNear w MAX_CHAIN_DEPTH x r.heads := by
  unfold resolve_head
  rcases stored_payload_cases host fault w x with ⟨hunreadable, e, hrun⟩ | ⟨-, hrun⟩
  · rw [run_bind_error hrun]
    exact .inl ⟨e, rfl, .inr ⟨x, Near.refl _ x, hunreadable⟩⟩
  · rw [run_bind_ok hrun]
    by_cases hx : (w.payload x).isNone = true
    · refine .inl ⟨memory_not_found x, ?_, .inl ?_⟩
      · simp only [refuse_if, hx, if_true]
        rfl
      · rw [Stored, Option.isNone_iff_eq_none.mp hx]
        simp
    · have hstored : Stored w x := by
        rw [Stored]
        simpa [Option.isSome_iff_ne_none] using hx
      simp only [refuse_if, if_neg hx, pure_eq, ret_bind]
      rcases @heads_walk_sweeps host w fault x MAX_CHAIN_DEPTH (MAX_CHAIN_DEPTH + 1) 0 [x] [] []
          0 (by omega) (WalkedTo.start x) with
        ⟨e, hwalk, hnear⟩ | ⟨heads, hops, hwalk, hserved, hheads⟩
      · rw [run_bind_error hwalk]
        exact .inl ⟨e, rfl, .inr hnear⟩
      · rw [run_bind_ok hwalk]
        exact .inr ⟨_, rfl, hstored, hserved, hheads⟩

/-! ## Chains that grow at their newest end -/

/-- What a note stores. -/
def note_payload (text now : String) : Payload :=
  ((((((((∅ : Payload).set "user_id" (.str "u")).set "role" (.str "user")).set "data"
    (.str text)).set
    "hash" (.str text)).set "created_at" (.str now)).set "updated_at" (.str now)).set
      "text_lemmatized" (.str text))

/-- The world after a note whose text is new. -/
def noted (text : String) (w : World) (e : HistoryEvent) : World :=
  let w' := { w with drawn := w.drawn + 1 }.tick.put (Host.plain.uuid4 w.drawn)
    (note_payload text (tally w.ticks))
  { w' with history := w.history ++ [e] }

theorem note_run {w : World} {text : String}
    (hnew : (Host.plain.scrolled w).filter (fun p => Host.plain.matches_filters
      [("user_id", .value "u"), ("hash", .value text)] p.2) = []) :
    ∃ e, (Step.note text).run .plain .none w = noted text w e := by
  -- nobody has stored this text before
  have hdup : ((Prog.tryCatch (Prog.perform (I := Api)
      (.vs_list [("user_id", .value "u"), ("hash", .value text)] 1)) fun _ => pure []) :
      Code (List (Id × Payload))).run Host.plain.answer w = (.ok [], w) := by
    refine run_tryCatch_ok ((run_perform _ _ _).trans ?_)
    change (Except.ok (List.take 1 _), w) = _
    rw [hnew]
    rfl
  have hmessage : ∃ r e, (Mem0.add_message .plain ((∅ : Payload).set "user_id" (.str "u"))
      [("user_id", .value "u")] { role := some "user", content := some text }).run
        (Host.answer .plain) w = (.ok r, noted text w e) := by
    exact ⟨_, _, (run_bind_ok hdup).trans rfl⟩
  obtain ⟨r, e, hmessage⟩ := hmessage
  refine ⟨e, ?_⟩
  unfold Step.note
  rw [Step.run_request]
  have hadd :
      (Mem0.add .plain [{ role := some "user", content := some text }] (some "u") none none ∅
      false).run (Host.answer .plain) w = (.ok r.toList, noted text w e) := by
    have hscope : (lift_except (Mem0.build_filters_and_metadata (some "u") none none ∅)).run
        (Host.answer .plain) w
        = (.ok ((∅ : Payload).set "user_id" (.str "u"), [("user_id", .value "u")]), w) := rfl
    refine (run_bind_ok hscope).trans ?_
    have hone : ((Mem0.add_message .plain ((∅ : Payload).set "user_id" (.str "u"))
        [("user_id", .value "u")] { role := some "user", content := some text } >>= fun r =>
          pure ([] ++ r.toList)) : Code (List Mem0.AddResult)).run (Host.answer .plain) w
        = (.ok ([] ++ r.toList), noted text w e) := by
      rw [run_bind_ok hmessage]
      rfl
    exact (run_bind_ok hone).trans rfl
  rw [ops.dispatch, run_map, hadd]

/-- A head is superseded by another head. -/
theorem check_invalidate_run {w : World} {x y : Id} {p q : Payload} (hxy : x ≠ y)
    (hx : w.payload x = some p) (hp : superseded_ids p = []) (hy : w.payload y = some q)
    (hq : superseded_ids q = []) :
    (check_invalidate x [y]).run (Host.answer .plain) w = (.ok p, w) := by
  have hpoint : ∀ z, (point_payload z).run (Host.answer .plain) w = (.ok (w.payload z), w) := by
    intro z
    refine run_tryCatch_ok ((run_perform _ _ _).trans ?_)
    simp only [Host.answer, Host.plain, Bool.and_false]
    rfl
  have hsuperseders : (require_superseders [y]).run (Host.answer .plain) w = (.ok (), w) := by
    unfold require_superseders
    rw [List.forM_cons, List.forM_nil]
    refine (run_bind_ok (a := ()) ((run_bind_ok (hpoint y)).trans ?_)).trans rfl
    rw [hy]
    rfl
  -- the walk from the new superseder ends at once
  have hlevel : (walk_level x [y] [] []).run (Host.answer .plain) w = (.ok ([y], []), w) := by
    unfold walk_level
    rw [if_neg hxy.symm, if_neg List.not_mem_nil, run_bind_ok (hpoint y), hy]
    simp only [Option.map_some, Option.getD_some, hq]
    rfl
  have hcycle : (assert_no_cycle x [y]).run (Host.answer .plain) w = (.ok (), w) := by
    have hwalk : (walk x MAX_CHAIN_DEPTH [y] []).run (Host.answer .plain) w = (.ok [], w) := by
      unfold MAX_CHAIN_DEPTH walk
      rw [if_neg (List.cons_ne_nil _ _), run_bind_ok hlevel]
      rfl
    unfold assert_no_cycle
    rw [run_bind_ok hwalk]
    rfl
  unfold check_invalidate
  simp only [refuse_if, if_neg (List.cons_ne_nil y []), if_neg (show ¬ x ∈ [y] by simpa using hxy),
    pure_eq, ret_bind]
  rw [run_bind_ok (hpoint x), hx]
  simp only [expect, pure_eq, ret_bind, hp, ne_eq, not_true_eq_false, if_false]
  rw [run_bind_ok hsuperseders, run_bind_ok hcycle]
  rfl

/-- The write of an accepted supersession, and what comes after it. -/
theorem supersede_run {w : World} {x y : Id} {p q : Payload} (hxy : x ≠ y)
    (hx : w.payload x = some p) (hp : superseded_ids p = []) (hy : w.payload y = some q)
    (hq : superseded_ids q = []) (hne : y ≠ "") :
    ∃ w', (Step.request (.invalidate x [y] none none none)).run .plain .none w = w' ∧
      w'.points = (w.put x (p.merge (invalidate_patch [y] (tally w.ticks) none none none))).points ∧
      w'.drawn = w.drawn := by
  have hids : distinct_ids [y] = [y] := by
    unfold distinct_ids
    rw [show [y].eraseDups = [y] from rfl, List.filter_cons_of_pos (by simpa using hne),
      List.filter_nil]
  refine ⟨_, rfl, ?_⟩
  rw [Step.run_request, ops.dispatch, run_map]
  unfold invalidate
  rw [hids, run_bind_ok (check_invalidate_run hxy hx hp hy hq)]
  have hwrite : Host.plain.answer (.vs_set_payload x
      (invalidate_patch [y] (tally w.ticks) none none none)) w.tick =
      (.ok (), w.tick.put x (p.merge (invalidate_patch [y] (tally w.ticks) none none none))) := by
    simp only [Host.answer, show w.tick.payload x = some p from hx]
  have hclock : now_iso.run (Host.answer .plain) w = (.ok (tally w.ticks), w.tick) := rfl
  rw [run_bind_ok hclock]
  have hrest := (run_perform (Host.answer .plain) (.vs_set_payload x
    (invalidate_patch [y] (tally w.ticks) none none none)) w.tick).trans hwrite
  have hends := @run_bind_ok _ _ _ _ _ _ (fun _ => do
    note_history x p "INVALIDATE" (tally w.ticks) none
    let closed ← pair_store.close_for_old x "obsoleted" none
    pure { id := x, superseded_by := [y], superseded_at := tally w.ticks
           superseded_reason := none, closed_open_suspicions := closed : InvalidateResult }) _ _ _
             hrest
  exact ⟨congrArg (fun r => r.2.points) hends, congrArg (fun r => r.2.drawn) hends⟩

/-- The ids of the memories in the order in which they are stored. -/
def link (k : ℕ) : Id := Host.plain.uuid4 k

theorem link_injective : Function.Injective link := tally_injective "m"

theorem link_ne_empty (k : ℕ) : link k ≠ "" := by
  intro h
  have hlength := congrArg String.length h
  simp [link, Host.plain, String.length_append] at hlength

/-- `n` memories, each superseded by the next, and a newest one. -/
structure Chain (n : ℕ) (w : World) : Prop where
  drawn : w.drawn = n + 1
  linked : ∀ k < n, successors w (link k) = [link (k + 1)]
  newest : Head w (link n)
  texts : ∀ x p, w.payload x = some p → ∃ k ≤ n, p.get "hash" = .str (tally k)

/-- A newer memory is stored, and the newest one so far superseded by it. -/
def lengthen (n : ℕ) : List Step :=
  [.note (tally (n + 1)), .request (.invalidate (link n) [link (n + 1)] none none none)]

/-- Superseding the newest head, again and again. -/
def chaining : ℕ → List Step
  | 0 => [.note (tally 0)]
  | n + 1 => chaining n ++ lengthen n

/-- A note has no successors, and its text for a hash. -/
theorem note_payload_facts (text now : String) :
    superseded_ids (note_payload text now) = [] ∧
      (note_payload text now).get "hash" = .str text := by
  unfold note_payload
  constructor
  · refine superseded_ids_of_none ?_
    simp [Payload.get_set_ne, SUPERSEDED_BY]
  · simp [Payload.get_set_ne]

/-- A text that no memory has is new. -/
theorem Chain.new {n : ℕ} {w : World} (h : Chain n w) :
    (Host.plain.scrolled w).filter (fun p => Host.plain.matches_filters
      [("user_id", .value "u"), ("hash", .value (tally (n + 1)))] p.2) = [] := by
  rw [List.filter_eq_nil_iff]
  intro e he hmatch
  obtain ⟨a, ha, rfl⟩ := List.mem_map.mp he
  have hpayload : w.payload a.1 = some a.2 := AList.mem_lookup_iff.mpr ha
  obtain ⟨k, hk, hhash⟩ := h.texts a.1 a.2 hpayload
  unfold Host.matches_filters Host.matches_value at hmatch
  have hne : tally k ≠ tally (n + 1) := by
    intro heq
    have := tally_injective "" (congrArg ("" ++ ·) heq)
    omega
  have hstar : (Cond.value (tally (n + 1))) ≠ .value "*" := by
    intro heq
    injection heq with heq
    have := congrArg String.toList heq
    simp [tally, List.replicate_succ] at this
  simp [hhash, hne, hstar] at hmatch

/-- The step lemma: the newest head is superseded by a newer one, and that is accepted. -/
theorem Chain.lengthen {n : ℕ} {w : World} (h : Chain n w) :
    Chain (n + 1) ((lengthen n).foldl (fun w s => s.run .plain .none w) w) := by
  obtain ⟨e, hnoted⟩ := note_run h.new
  set w₁ := noted (tally (n + 1)) w e with hw₁
  have hself : w₁.payload (link (n + 1)) = some (note_payload (tally (n + 1)) (tally w.ticks)) := by
    rw [hw₁, link, ← h.drawn]
    exact World.payload_put_self _ _ _
  have hother : ∀ x, x ≠ link (n + 1) → w₁.payload x = w.payload x := by
    intro x hx
    rw [link, ← h.drawn] at hx
    exact World.payload_put_ne _ _ hx
  obtain ⟨hfacts, hhash⟩ := note_payload_facts (tally (n + 1)) (tally w.ticks)
  have hne : link n ≠ link (n + 1) := link_injective.ne (by omega)
  obtain ⟨p, hp⟩ := Option.isSome_iff_exists.mp h.newest.1
  have hp₁ : w₁.payload (link n) = some p := (hother _ hne).trans hp
  have hids : superseded_ids p = [] := (successors_of_payload hp).symm.trans h.newest.2
  -- one more memory, and the newest so far is superseded by it
  obtain ⟨w₂, hrun, hpoints, hdrawn⟩ :=
    supersede_run hne hp₁ hids hself hfacts (link_ne_empty (n + 1))
  have hruns : (Memline.lengthen n).foldl (fun w s => s.run .plain .none w) w = w₂ := by
    rw [Memline.lengthen, List.foldl_cons, List.foldl_cons, List.foldl_nil, hnoted, hrun]
  rw [hruns]
  have hpayload := payload_congr hpoints
  have hlast : successors w₂ (link n) = [link (n + 1)] := by
    rw [successors_of_payload ((hpayload _).trans (World.payload_put_self _ _ _))]
    exact superseded_ids_invalidate_patch fun b hb => by
      rw [List.mem_singleton.mp hb]
      exact link_ne_empty (n + 1)
  -- nothing else is touched by either step
  have hkept : ∀ x, x ≠ link n → w₂.payload x = w₁.payload x :=
    fun x hx => (hpayload x).trans (World.payload_put_ne _ _ hx)
  constructor
  · rw [hdrawn]
    change w.drawn + 1 = n + 1 + 1
    rw [h.drawn]
  · intro k hk
    by_cases hkn : k = n
    · rw [hkn, hlast]
    · rw [← h.linked k (by omega)]
      refine successors_congr ((hkept _ ?_).trans (hother _ ?_))
      · exact link_injective.ne hkn
      · exact link_injective.ne (by omega)
  · have hsame := (hkept _ hne.symm).trans hself
    refine ⟨?_, (successors_of_payload hsame).trans hfacts⟩
    rw [Stored, hsame]
    rfl
  · intro x q hq
    by_cases hx : x = link n
    · subst hx
      obtain ⟨k, hk, hhash⟩ := h.texts _ _ hp
      refine ⟨k, by omega, ?_⟩
      rw [(hpayload _).trans (World.payload_put_self _ _ _)] at hq
      injection hq with hq
      have hnot : "hash" ∉ invalidate_patch [link (n + 1)] (tally w₁.ticks) none none none := by
        rw [← AList.lookup_eq_none]
        refine Payload.lookup_ofList_ne ?_
        simp [protection_fields, SUPERSEDED_BY, SUPERSEDED_AT, SUPERSEDED_REASON,
          DISPLACEMENT_PROTECTED_UNTIL, DISPLACEMENT_PROTECTION_REASON, DISPLACEMENT_PROTECTED_AT,
          DISPLACEMENT_PROTECTED_BY_AGENT, DISPLACEMENT_PROTECTED_BY_SESSION]
      rw [← hq, Payload.get_merge_of_notMem hnot, hhash]
    · rw [hkept x hx] at hq
      by_cases hx₁ : x = link (n + 1)
      · rw [hx₁, hself] at hq
        injection hq with hq
        exact ⟨n + 1, le_rfl, by rw [← hq, hhash]⟩
      · rw [hother x hx₁] at hq
        obtain ⟨k, hk, hhash⟩ := h.texts x q hq
        exact ⟨k, by omega, hhash⟩

/-- The run lemma. -/
theorem chaining_chain (n : ℕ) : Chain n (Step.runs .plain (chaining n)) := by
  induction n with
  | zero =>
    obtain ⟨e, hnoted⟩ := @note_run .empty (tally 0) rfl
    have hstart : Step.runs .plain (chaining 0) = noted (tally 0) .empty e := hnoted
    obtain ⟨hfacts, hhash⟩ := note_payload_facts (tally 0) (tally 0)
    have hself : (noted (tally 0) .empty e).payload (link 0) =
        some (note_payload (tally 0) (tally 0)) :=
      World.payload_put_self _ _ _
    rw [hstart]
    refine ⟨rfl, fun k hk => absurd hk (by omega), ⟨?_, ?_⟩, fun x p hp => ?_⟩
    · rw [Stored, hself]
      rfl
    · exact (successors_of_payload hself).trans hfacts
    · by_cases hx : x = link 0
      · rw [hx, hself] at hp
        injection hp with hp
        exact ⟨0, le_rfl, by rw [← hp, hhash]⟩
      · rw [show (noted (tally 0) .empty e).payload x = World.empty.payload x from
          World.payload_put_ne _ _ hx] at hp
        simp [World.payload, World.empty] at hp
  | succ n ih =>
    unfold Step.runs chaining
    rw [List.foldl_append]
    exact ih.lengthen

/-- The steps that build the chain are admissible anywhere. -/
theorem chaining_admissible (n : ℕ) (w : World) : ∀ s ∈ chaining n, s.Admissible w := by
  have hnote : ∀ text, (Step.note text).Admissible w := fun _ _ _ hk => by cases hk
  induction n with
  | zero =>
    intro s hs
    rw [List.mem_singleton.mp hs]
    exact hnote _
  | succ n ih =>
    intro s hs
    rcases List.mem_append.mp hs with hs | hs
    · exact ih s hs
    · simp only [lengthen, List.mem_cons, List.not_mem_nil, or_false] at hs
      rcases hs with rfl | rfl
      · exact hnote _
      · trivial

/-- Along a chain, `k` hops lead no further than the memory `k` places later. -/
theorem Chain.near {n k : ℕ} {w : World} (h : Chain n w) {y : Id}
    (hy : Near (SupersededBy w) k (link 0) y) : ∃ j ≤ k, j ≤ n ∧ y = link j := by
  induction k generalizing y with
  | zero => exact ⟨0, le_rfl, Nat.zero_le n, hy⟩
  | succ k ih =>
    rcases hy with hy | ⟨z, hz, hzy⟩
    · obtain ⟨j, hj, hjn, rfl⟩ := ih hy
      exact ⟨j, by omega, hjn, rfl⟩
    · obtain ⟨j, hj, hjn, rfl⟩ := ih hz
      have hlt : j < n := by
        by_contra hnot
        obtain rfl : j = n := by omega
        rw [SupersededBy, h.newest.2] at hzy
        simp at hzy
      rw [SupersededBy, h.linked j hlt] at hzy
      exact ⟨j + 1, by omega, by omega, List.mem_singleton.mp hzy⟩

/-- The newest memory is reached from every one. -/
theorem Chain.reach {n : ℕ} {w : World} (h : Chain n w) {k : ℕ} (hk : k ≤ n) :
    ReflTransGen (SupersededBy w) (link 0) (link k) := by
  induction k with
  | zero => exact .refl
  | succ k ih =>
    refine (ih (by omega)).tail ?_
    rw [SupersededBy, h.linked k (by omega)]
    exact List.mem_cons_self

/-! ## Exactness -/

/-- The answer holds exactly the heads that can be reached, each once. A refusal promises
nothing. -/
def Resolves (w : World) (x : Id) : Except Exn HeadResult → Prop
  | .error _ => True
  | .ok r => r.heads.Nodup ∧ ∀ y, y ∈ r.heads ↔ ReflTransGen (SupersededBy w) x y ∧ Head w y

/-- **Head resolution.** In a world that sequential requests lead to, a memory resolves to
exactly its heads, each once, unless that is refused, if and only if some memory within the
depth limit cannot be looked up or every head is within the limit. -/
theorem resolve_head_exact (hw : Reachable host (fun w _ s => s.Admissible w) w)
    (fault : Call → World → Option Exn) (x : Id) :
    Resolves w x ((resolve_head ops.stored_payload x).run (host.failing fault) w).1 ↔
      (∃ y, Near (SupersededBy w) MAX_CHAIN_DEPTH x y ∧ Unreadable host fault w y) ∨
        ∀ y, ReflTransGen (SupersededBy w) x y → Head w y →
          Near (SupersededBy w) MAX_CHAIN_DEPTH x y := by
  have hsolid := hw.solid fun _ _ _ h => h
  -- it raises, for one of two reasons, or returns the tips within the bound
  rcases resolve_head_sweeps host fault w x with
    ⟨e, hrun, hwhy⟩ | ⟨r, hrun, -, hserved, hheads⟩
  · rw [hrun]
    refine iff_of_true trivial ?_
    rcases hwhy with hx | hunreadable
    · -- a missing memory has no successors, and is no head itself
      refine .inr fun y hxy hy => ?_
      rcases ReflTransGen.cases_head hxy with rfl | ⟨z, hxz, -⟩
      · exact absurd hy.1 hx
      · exact absurd (stored_of_supersededBy hxz) hx
    · exact .inl hunreadable
  · rw [hrun]
    constructor
    · rintro ⟨-, hexact⟩
      exact .inr fun y hxy hy => ((hheads.exact y).mp ((hexact y).mpr ⟨hxy, hy⟩)).1
    · rintro (⟨y, hy, hunreadable⟩ | hnear)
      · exact absurd hunreadable (hserved y hy)
      -- all heads are within the bound, and the tips are the heads
      · refine ⟨hheads.distinct, fun y => ⟨fun hy => ?_, fun hy => ?_⟩⟩
        · obtain ⟨hxy, htip⟩ := (hheads.exact y).mp hy
          exact ⟨hxy.reach, htip.head⟩
        · exact (hheads.exact y).mpr ⟨hnear y hy.1 hy.2, (tip_iff_head hsolid y).mpr hy.2⟩

/-- A memory superseded once. -/
theorem resolve_head_superseding :
    let w := Step.runs .plain superseding
    Resolves w "m1" ((resolve_head ops.stored_payload "m1").run
      (Host.plain.failing fun _ _ => none) w).1 ↔
      (∃ y, Near (SupersededBy w) MAX_CHAIN_DEPTH "m1" y ∧
        Unreadable .plain (fun _ _ => none) w y) ∨
        ∀ y, ReflTransGen (SupersededBy w) "m1" y → Head w y →
          Near (SupersededBy w) MAX_CHAIN_DEPTH "m1" y :=
  resolve_head_exact (.runs superseding_admissible) (fun _ _ => none) "m1"

/-- A chain that is one hop longer than the limit, built by superseding its newest head: its
oldest memory resolves to no head at all, and to no error. -/
theorem long_chain_headless :
    let w := Step.runs .plain (chaining 101)
    Reachable .plain (fun w _ s => s.Admissible w) w ∧
      ReflTransGen (SupersededBy w) (link 0) (link 101) ∧ Head w (link 101) ∧
      ∃ r, (resolve_head ops.stored_payload (link 0)).run (Host.plain.failing fun _ _ => none) w
          = (.ok r, w) ∧
        r.heads = [] ∧ ¬ Resolves w (link 0) (.ok r) := by
  have hreachable :
      Reachable .plain (fun w _ s => s.Admissible w) (Step.runs .plain (chaining 101)) :=
    .runs (chaining_admissible 101)
  have hchain := chaining_chain 101
  generalize Step.runs .plain (chaining 101) = w at hreachable hchain
  have hreach := hchain.reach le_rfl
  have hserved : ∀ y, ¬ Unreadable .plain (fun _ _ => none) w y := by
    rintro y ⟨e, he⟩
    rw [Host.failing_none] at he
    simp [Host.answer, Host.plain] at he
  refine ⟨hreachable, hreach, hchain.newest, ?_⟩
  rcases resolve_head_sweeps .plain (fun _ _ => none) w (link 0) with
    ⟨e, -, hwhy⟩ | ⟨r, hrun, -, -, hheads⟩
  · rcases hwhy with hx | ⟨y, -, hy⟩
    · refine absurd (stored_of_supersededBy (y := link 1) ?_) hx
      rw [SupersededBy, hchain.linked 0 (by omega)]
      exact List.mem_cons_self
    · exact absurd hy (hserved y)
  · -- a head within the limit would be a link before the last, which leads on
    have hnil : r.heads = [] := by
      rw [List.eq_nil_iff_forall_not_mem]
      intro y hy
      obtain ⟨hnear, htip⟩ := (hheads.exact y).mp hy
      have hhead := htip.head
      obtain ⟨j, hj, -, rfl⟩ := hchain.near hnear
      have hlinked := hchain.linked j (by unfold MAX_CHAIN_DEPTH at hj; omega)
      rw [hhead.2] at hlinked
      cases hlinked
    refine ⟨r, hrun, hnil, fun hresolves => ?_⟩
    have := (hresolves.2 (link 101)).mpr ⟨hreach, hchain.newest⟩
    rw [hnil] at this
    cases this

end Memline
