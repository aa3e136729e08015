/-
Leaving the pool and coming back.

Whatever takes a memory out of the default pool, or puts it back, merges a patch into
its payload, and the patches name the keys of `owned_fields` only. So any number of
these operations in a row, with calls that fail, leave the rest of every payload as it
was. The two exits are undone by two patches that do not meet: `revive` nulls the
supersession and `set_ttl` the deadline, in either order.
-/
import Memline.Triples

set_option autoImplicit false

namespace Memline

open Effect Effect.Prog

/-! ## The default pool -/

/-- `result_item_expired`. -/
def result_item_expired (item : Item) (now : String) : Bool :=
  is_ttl_expired item.metadata now || is_ttl_expired item.top now

/-- What `search_with_staleness` keeps of the hits. -/
def kept (now : String) (item : Item) : Bool :=
  (result_item_superseded item).isEmpty && !result_item_expired item now

/-- `search_with_staleness`, but for the suspicions it annotates the hits with. -/
def search_with_staleness (query : String) (top_k : ℕ) (filters : Filters)
    (include_superseded : Bool) : Code (List Item) := do
  let fetch_k := if include_superseded then top_k else max (top_k * 2) (top_k + 10)
  let items ← Mem0.search query fetch_k filters
  if include_superseded then pure items
  else do
    let now ← now_iso
    pure ((items.filter (kept now)).take top_k)

/-- A hit on the stored memory is kept by the default search, at any time. -/
def InDefaultPool (w : World) (id : Id) : Prop :=
  ∃ p, w.payload id = some p ∧ ∀ now, kept now (Mem0.item_of id p) = true

/-- What is read at the top of an item is not a lifecycle field. -/
theorem get_item_top {id : Id} {p : Payload} {key : String}
    (h : key ∉ "id" :: "memory" :: "hash" :: "created_at" :: "updated_at" ::
      Mem0.promoted_payload_keys) : (Mem0.item_of id p).top.get key = .none := by
  simp only [List.mem_cons, not_or] at h
  obtain ⟨hid, hmemory, hhash, hcreated, hupdated, hpromoted⟩ := h
  have hnot : key ∉ Payload.ofList [("id", .str id),
      ("memory", if "data" ∈ p then p.get "data" else .str ""), ("hash", p.get "hash"),
      ("created_at", p.get "created_at"), ("updated_at", p.get "updated_at")] := by
    refine AList.lookup_eq_none.mp (Payload.lookup_ofList_ne ?_)
    simp only [List.mem_cons, List.not_mem_nil, or_false, forall_eq_or_imp, forall_eq]
    exact ⟨Ne.symm hid, Ne.symm hmemory, Ne.symm hhash, Ne.symm hcreated, Ne.symm hupdated⟩
  rw [Mem0.item_of, Payload.get_merge_of_notMem hnot, Payload.get, Payload.lookup_filterKeys,
    if_neg (by simpa using hpromoted)]
  rfl

/-- The filter of the search reads two fields of the payload. -/
theorem kept_item_of_eq (id : Id) (p : Payload) (now : String) :
    kept now (Mem0.item_of id p) = (!is_invalidated p && !is_ttl_expired p now) := by
  have hmeta : ∀ key ∉ Mem0.core_and_promoted_keys,
      (Mem0.item_of id p).metadata.get key = p.get key := by
    intro key hkey
    rw [Payload.get, Mem0.get_item_metadata hkey, Payload.get]
  have hsuperseded : result_item_superseded (Mem0.item_of id p) = superseded_ids p := by
    unfold result_item_superseded
    rw [superseded_ids_congr (hmeta SUPERSEDED_BY (by decide)),
      superseded_ids_of_none (get_item_top (by decide))]
    split
    · rfl
    · rename_i hids
      exact (not_not.mp hids).symm
  have hexpired : result_item_expired (Mem0.item_of id p) now = is_ttl_expired p now := by
    unfold result_item_expired is_ttl_expired
    rw [hmeta TTL_EXPIRES_AT (by decide), get_item_top (by decide)]
    exact Bool.or_false _
  rw [kept, hsuperseded, hexpired, is_invalidated, Bool.not_not]

/-- Without successors and without a deadline an item is in the pool. -/
theorem kept_item_of {id : Id} {p : Payload} (hids : superseded_ids p = [])
    (hexpires : (p.get TTL_EXPIRES_AT).truthy = false) (now : String) :
    kept now (Mem0.item_of id p) = true := by
  rw [kept_item_of_eq, is_invalidated, hids, is_ttl_expired, hexpires]
  rfl

/-- The default search hands out the first `top_k` of the hits it keeps. -/
theorem search_with_staleness_ok {h : Handler Api World} {query : String} {top_k : ℕ}
    {filters : Filters} {w w' : World} {items : List Item}
    (hrun : (search_with_staleness query top_k filters false).run h w = (.ok items, w')) :
    ∃ hits w₁ now,
      (Mem0.search query (max (top_k * 2) (top_k + 10)) filters).run h w = (.ok hits, w₁) ∧
        items = (hits.filter (kept now)).take top_k := by
  change ((Mem0.search query (max (top_k * 2) (top_k + 10)) filters) >>= fun hits =>
    now_iso >>= fun now => pure ((hits.filter (kept now)).take top_k)).run h w = _ at hrun
  rw [run_bind] at hrun
  rcases hsearch : (Mem0.search query (max (top_k * 2) (top_k + 10)) filters).run h w
    with ⟨e | hits, w₁⟩
  · rw [hsearch] at hrun
    cases hrun
  rw [hsearch] at hrun
  change (now_iso >>= fun now => pure ((hits.filter (kept now)).take top_k)).run h w₁ = _ at hrun
  rw [run_bind] at hrun
  rcases hnow : now_iso.run h w₁ with ⟨e | now, w₂⟩
  · rw [hnow] at hrun
    cases hrun
  · rw [hnow] at hrun
    cases hrun
    exact ⟨hits, w₁, now, rfl, rfl⟩

/-- A memory in the default pool is found when it is hit, unless `top_k` others are
ahead of it. -/
theorem InDefaultPool.found {h : Handler Api World} {query : String} {top_k : ℕ}
    {filters : Filters} {w w₁ w' : World} {items hits : List Item} {id : Id}
    (hpool : InDefaultPool w id)
    (hrun : (search_with_staleness query top_k filters false).run h w = (.ok items, w'))
    (hsearch : (Mem0.search query (max (top_k * 2) (top_k + 10)) filters).run h w = (.ok hits, w₁))
    (hhit : ∀ p, w.payload id = some p → Mem0.item_of id p ∈ hits.take top_k) :
    ∃ item ∈ items, item.id = id := by
  obtain ⟨p, hp, hkept⟩ := hpool
  obtain ⟨hits', w₂, now, hsame, rfl⟩ := search_with_staleness_ok hrun
  rw [hsearch] at hsame
  cases hsame
  refine ⟨Mem0.item_of id p, ?_, rfl⟩
  -- the filter of a beginning of the hits is a beginning of the filtered hits
  have hpre : (hits.take top_k).filter (kept now) <+: (hits.filter (kept now)).take top_k := by
    rw [List.prefix_take_iff]
    refine ⟨(List.take_prefix top_k hits).filter _, ?_⟩
    exact (List.length_filter_le _ _).trans (List.length_take_le _ _)
  refine hpre.subset (List.mem_filter.mpr ⟨hhit p hp, hkept now⟩)

/-! ## The keys these operations own -/

/-- The lifecycle, TTL and protection keys. -/
def owned_fields : List String :=
  lifecycle_fields ++ protection_fields ++
    ["invalidated_by_agent_id", "invalidated_session_id", "revived_at", "revived_by_agent_id",
      "revived_session_id", "ttl_set_at", "ttl_set_by"]

/-- A payload without them, as a function of the key. -/
def unowned (p : Payload) (key : String) : Option Value :=
  if key ∈ owned_fields then none else p.lookup key

/-- The same memories, each the same but for the owned keys. -/
def SameRest (w w' : World) : Prop :=
  ∀ id, (w'.payload id).map unowned = (w.payload id).map unowned

theorem SameRest.refl (w : World) : SameRest w w := fun _ => rfl

theorem SameRest.trans {w w' w'' : World} (h : SameRest w w') (h' : SameRest w' w'') :
    SameRest w w'' := fun id => (h' id).trans (h id)

/-- What has not been touched can be read back. -/
theorem SameRest.lookup {w w' : World} (h : SameRest w w') {id : Id} {p : Payload}
    (hp : w.payload id = some p) :
    ∃ p', w'.payload id = some p' ∧ ∀ key ∉ owned_fields, p'.lookup key = p.lookup key := by
  have hid := h id
  rw [hp, Option.map_some, Option.map_eq_some_iff] at hid
  obtain ⟨p', hp', heq⟩ := hid
  refine ⟨p', hp', fun key hkey => ?_⟩
  have hread := congrFun heq key
  rwa [unowned, unowned, if_neg hkey, if_neg hkey] at hread

/-- A call that writes owned keys only, into a memory that is stored. -/
def owned : Call → Prop
  | .vs_set_payload _ patch => ∀ key ∉ owned_fields, key ∉ patch
  | .vs_upsert _ _ | .vs_insert _ | .vs_delete _ => False
  | _ => True

theorem owned_of_inert (c : Call) (h : inert c) : owned c := by
  cases c with
  | vs_set_payload _ _ | vs_upsert _ _ | vs_insert _ | vs_delete _ => exact h.elim
  | _ => trivial

/-- A dict literal of owned keys is a patch of owned keys. -/
theorem owned_of_list {entries : List (String × Value)} {id : Id}
    (h : ∀ e ∈ entries, e.1 ∈ owned_fields) : owned (.vs_set_payload id (.ofList entries)) := by
  intro key hkey
  refine AList.lookup_eq_none.mp (Payload.lookup_ofList_ne fun e he heq => ?_)
  exact hkey (heq ▸ h e he)

theorem unowned_merge {p patch : Payload} (h : ∀ key ∉ owned_fields, key ∉ patch) :
    unowned (p.merge patch) = unowned p := by
  funext key
  unfold unowned
  split
  · rfl
  · rename_i hkey
    rw [Payload.lookup_merge, AList.lookup_eq_none.mpr (h key hkey)]
    rfl

variable {host : Host}

/-- One call, failing or not. -/
theorem same_rest_failing {fault : Call → World → Option Exn} {c : Call} (hc : owned c)
    (w : World) : SameRest w (host.failing fault c w).2 := by
  by_cases hwrites : c.writes = false
  · intro id
    rw [World.payload, World.payload, host.failing_points hwrites]
  rcases host.failing_cases fault c w with ⟨e, hfail⟩ | hok
  · rw [hfail]
    exact .refl w
  cases c with
  | vs_set_payload id patch =>
    rw [hok]
    simp only [Host.answer]
    split
    · rename_i p hp
      intro x
      by_cases hx : x = id
      · rw [hx, World.payload_put_self, hp, Option.map_some, Option.map_some, unowned_merge hc]
      · rw [World.payload_put_ne _ _ hx]
    · exact .refl w
  | vs_upsert _ _ | vs_insert _ | vs_delete _ => exact hc.elim
  | _ => exact absurd rfl hwrites

/-- Calls that touch no more than the owned fields leave the rest of each memory. -/
theorem same_rest_run {α : Type} {fault : Call → World → Option Exn} {p : Code α}
    (hp : p.Uses owned) (w : World) : SameRest w (p.run (host.failing fault) w).2 := by
  refine (hp.keeps (P := SameRest w) fun c t hc ht => ?_) w (.refl w)
  exact ht.trans (same_rest_failing hc t)

/-! ## The operations -/

/-- Clearing a protection touches its own fields only. -/
theorem clear_displacement_protection_owned (id : Id) (actor_id : Option String) (cause : String) :
    (clear_displacement_protection id actor_id cause).Uses owned := by
  refine clear_displacement_protection_uses owned_of_inert (owned_of_list ?_)
  decide

theorem set_displacement_protection_owned (id : Id) (days : ℚ) (reason : String)
    (actor_id session_id : Option String) :
    (set_displacement_protection id days reason actor_id session_id).Uses owned := by
  unfold set_displacement_protection check_protection
  refine uses_bind ?_ fun checked => ?_
  · refine uses_bind ((point_payload_inert id).mono owned_of_inert) fun _ => ?_
    refine uses_bind (expect_uses _ _) fun p => ?_
    refine uses_bind (refuse_if_uses _ _) fun _ => ?_
    refine uses_bind ?_ fun _ => ?_
    · unfold ttl_expired_now
      split
      · exact uses_bind (now_iso_inert.mono owned_of_inert) fun _ => uses_pure _
      · exact uses_pure _
    refine uses_bind (refuse_if_uses _ _) fun _ => ?_
    refine uses_bind (refuse_if_uses _ _) fun _ => ?_
    refine uses_bind (refuse_if_uses _ _) fun _ => ?_
    refine uses_bind (refuse_if_uses _ _) fun _ => ?_
    exact uses_bind (refuse_if_uses _ _) fun _ => uses_pure _
  · obtain ⟨p, reason, actor_id, session_id⟩ := checked
    refine uses_bind (uses_perform trivial) fun evidence => ?_
    refine uses_bind (refuse_if_uses _ _) fun _ => ?_
    refine uses_bind (now_iso_inert.mono owned_of_inert) fun now => ?_
    refine uses_bind (uses_perform trivial) fun until_ => ?_
    refine uses_bind (uses_perform (owned_of_list (by simp [owned_fields, protection_fields])))
      fun _ => ?_
    exact uses_bind ((note_history_inert _ _ _ _ _).mono owned_of_inert) fun _ => uses_pure _

theorem invalidate_owned (id : Id) (by_ids : List Id) (reason actor_id session_id : Option String) :
    (invalidate id by_ids reason actor_id session_id).Uses owned := by
  refine invalidate_uses owned_of_inert (fun now => owned_of_list ?_) fun _ => trivial
  simp [owned_fields, protection_fields, lifecycle_fields]

theorem revive_owned (id : Id) (actor_id session_id : Option String) :
    (revive id actor_id session_id).Uses owned := by
  refine revive_uses owned_of_inert fun now => owned_of_list ?_
  simp [owned_fields, lifecycle_fields]

theorem set_ttl_owned (id : Id) (mode : TtlMode) (actor_id : Option String) :
    (set_ttl id mode actor_id).Uses owned := by
  refine set_ttl_uses owned_of_inert (fun now expires_at => ?_) fun _ => trivial
  cases mode with
  | clear => exact owned_of_list (by simp [owned_fields, lifecycle_fields])
  | expire_now => exact owned_of_list (by simp [owned_fields, lifecycle_fields])
  | deadline _ _ => exact owned_of_list (by simp [owned_fields, lifecycle_fields])

theorem harvest_expired_owned (host : Host) (now : Option String) (limit : ℕ) :
    (harvest_expired host now limit).Uses owned := by
  refine harvest_expired_uses owned_of_inert (fun _ _ => owned_of_list ?_) (fun _ _ => trivial)
    fun _ _ _ _ => trivial
  simp [owned_fields, lifecycle_fields]

theorem run_stale_check_owned (new_id : Id) (session_id judge_model : Option String) (top_k : ℕ)
    (self_only : Bool) :
    (run_stale_check new_id session_id judge_model top_k self_only).Uses owned :=
  run_stale_check_uses owned_of_inert (fun _ _ _ => trivial) new_id session_id judge_model top_k
    self_only

/-! ## Runs -/

/-- One operation on the pool. -/
inductive ExitStep where
  | invalidate (memory_id : Id) (by_ids : List Id) (reason actor_id session_id : Option String)
  | revive (memory_id : Id) (actor_id session_id : Option String)
  | set_ttl (memory_id : Id) (mode : TtlMode) (actor_id : Option String)
  | harvest_expired (now : Option String) (limit : ℕ)
  | set_displacement_protection (memory_id : Id) (days : ℚ) (reason : String)
      (actor_id session_id : Option String)
  | clear_displacement_protection (memory_id : Id) (actor_id : Option String) (cause : String)
  | run_stale_check (new_id : Id) (session_id judge_model : Option String) (top_k : ℕ)
      (self_only : Bool)
  | delete (memory_id : Id) (actor_id : Option String)

namespace ExitStep

/-- What the step leaves of the world, given how its calls are answered. -/
def after (host : Host) (h : Handler Api World) (w : World) : ExitStep → World
  | .invalidate memory_id by_ids reason actor_id session_id =>
    ((Memline.invalidate memory_id by_ids reason actor_id session_id).run h w).2
  | .revive memory_id actor_id session_id =>
    ((Memline.revive memory_id actor_id session_id).run h w).2
  | .set_ttl memory_id mode actor_id => ((Memline.set_ttl memory_id mode actor_id).run h w).2
  | .harvest_expired now limit => ((Memline.harvest_expired host now limit).run h w).2
  | .set_displacement_protection memory_id days reason actor_id session_id =>
    ((Memline.set_displacement_protection memory_id days reason actor_id session_id).run h w).2
  | .clear_displacement_protection memory_id actor_id cause =>
    ((Memline.clear_displacement_protection memory_id actor_id cause).run h w).2
  | .run_stale_check new_id session_id judge_model top_k self_only =>
    ((Memline.run_stale_check new_id session_id judge_model top_k self_only).run h w).2
  | .delete memory_id actor_id => ((ops.delete host memory_id actor_id).run h w).2

/-- A deletion counts when the guard downgrades it. -/
def Counts (h : Handler Api World) (w : World) : ExitStep → Prop
  | .delete memory_id _ =>
    ∃ g w', (delete_guard memory_id).run h w = (.ok g, w') ∧ g.participates = true
  | _ => True

end ExitStep

/-- Where a run of such steps can get from `w`. In each step any calls may fail. -/
inductive ExitRun (host : Host) (w : World) : World → Prop where
  | start : ExitRun host w w
  | step {w' : World} (h : ExitRun host w w') (s : ExitStep) (fault : Call → World → Option Exn)
      (hs : s.Counts (host.failing fault) w') :
      ExitRun host w (s.after host (host.failing fault) w')

/-- The step lemma. -/
theorem same_rest_step {fault : Call → World → Option Exn} {w : World} (s : ExitStep)
    (hs : s.Counts (host.failing fault) w) : SameRest w (s.after host (host.failing fault) w) := by
  cases s with
  | invalidate memory_id by_ids reason actor_id session_id =>
    exact same_rest_run (invalidate_owned _ _ _ _ _) w
  | revive memory_id actor_id session_id => exact same_rest_run (revive_owned _ _ _) w
  | set_ttl memory_id mode actor_id => exact same_rest_run (set_ttl_owned _ _ _) w
  | harvest_expired now limit => exact same_rest_run (harvest_expired_owned _ _ _) w
  | set_displacement_protection memory_id days reason actor_id session_id =>
    exact same_rest_run (set_displacement_protection_owned _ _ _ _ _) w
  | clear_displacement_protection memory_id actor_id cause =>
    exact same_rest_run (clear_displacement_protection_owned _ _ _) w
  | run_stale_check new_id session_id judge_model top_k self_only =>
    exact same_rest_run (run_stale_check_owned _ _ _ _ _) w
  | delete memory_id actor_id =>
    obtain ⟨g, w₁, hguard, hg⟩ := hs
    -- the guard only reads; what follows it is the expiry, not mem0's deletion
    have hread : SameRest w ((delete_guard memory_id).run (host.failing fault) w).2 :=
      same_rest_run ((delete_guard_inert memory_id).mono owned_of_inert) w
    rw [hguard] at hread
    refine hread.trans ?_
    change SameRest w₁ ((ops.delete host memory_id actor_id).run (host.failing fault) w).2
    unfold ops.delete
    rw [run_bind_ok hguard, if_pos hg]
    exact same_rest_run (uses_bind (set_ttl_owned _ _ _) fun _ => uses_pure _) w₁

/-- The run lemma. -/
theorem ExitRun.same_rest {w w' : World} (h : ExitRun host w w') : SameRest w w' := by
  induction h with
  | start => exact .refl w
  | step _ s fault hs ih => exact ih.trans (same_rest_step s hs)

/-! ## The way back -/

/-- `revive`, for a memory that is superseded. -/
def revive_if_superseded (memory_id : Id) (actor_id session_id : Option String) : Code Unit := do
  let found ← point_payload memory_id
  if superseded_ids (found.getD ∅) ≠ [] then
    let _ ← revive memory_id actor_id session_id
    pure ()
  else pure ()

/-- `set_ttl` with `clear`. -/
def clear_ttl (memory_id : Id) (actor_id : Option String) : Code Unit := do
  let _ ← set_ttl memory_id .clear actor_id
  pure ()

/-- Both exits undone, in either order. -/
def back_to_pool (revive_first : Bool) (memory_id : Id) (actor_id session_id : Option String) :
    Code Unit :=
  if revive_first then do
    revive_if_superseded memory_id actor_id session_id
    clear_ttl memory_id actor_id
  else do
    clear_ttl memory_id actor_id
    revive_if_superseded memory_id actor_id session_id

/-- The way back into the pool touches the owned fields only. -/
theorem back_to_pool_owned (revive_first : Bool) (id : Id) (actor_id session_id : Option String) :
    (back_to_pool revive_first id actor_id session_id).Uses owned := by
  have hrevive : (revive_if_superseded id actor_id session_id).Uses owned := by
    refine uses_bind ((point_payload_inert id).mono owned_of_inert) fun found => ?_
    split
    · exact uses_bind (revive_owned _ _ _) fun _ => uses_pure _
    · exact uses_pure _
  have hclear : (clear_ttl id actor_id).Uses owned :=
    uses_bind (set_ttl_owned _ _ _) fun _ => uses_pure _
  unfold back_to_pool
  split
  · exact uses_bind hrevive fun _ => hclear
  · exact uses_bind hclear fun _ => hrevive

/-- Payloads are read and written; anything else may fail. -/
structure PayloadsServed (fault : Call → World → Option Exn) : Prop where
  read : ∀ id w, fault (.vs_get id) w = none
  written : ∀ id patch w, fault (.vs_set_payload id patch) w = none

section way_back

variable {fault : Call → World → Option Exn} {id : Id} {φ ψ : Payload → Prop}

/-- The memory is stored, with a payload in `φ`. -/
def StoredAs (id : Id) (φ : Payload → Prop) (w : World) : Prop := ∃ p, w.payload id = some p ∧ φ p

/-- A quiet call leaves what is stored of the memory. -/
theorem stored_of_quiet {c : Call} (hc : quiet c) (w : World) (hw : StoredAs id φ w) :
    StoredAs id φ (host.failing fault c w).2 := by
  obtain ⟨p, hp, hφ⟩ := hw
  refine ⟨p, ?_, hφ⟩
  rw [World.payload, host.failing_points hc]
  exact hp

/-- Quiet code whose failure is caught. -/
theorem attempt_stored {p : Code Unit} (hp : p.Uses quiet) {E : World → Prop} :
    Triple (host.failing fault) (StoredAs id φ) (attempt p) (fun _ => StoredAs id φ) E :=
  triple_attempt (triple_of_keeps (hp.keeps fun _ w hc hw => stored_of_quiet hc w hw))

/-- The note in the history leaves what is stored of the memory. -/
theorem note_history_stored (p : Payload) (event now : String) (actor_id : Option String)
    {E : World → Prop} :
    Triple (host.failing fault) (StoredAs id φ) (note_history id p event now actor_id)
      (fun _ => StoredAs id φ) E :=
  attempt_stored (uses_perform (I := Api) (c := Call.add_history _) rfl)

/-- The write of a stored payload only fails when it is made to. -/
theorem patch_triple {patch : Payload} (h : ∀ p, φ p → ψ (p.merge patch)) :
    Triple (host.failing fault) (StoredAs id φ) (perform (I := Api) (.vs_set_payload id patch))
      (fun _ => StoredAs id ψ) fun _ => ¬ PayloadsServed fault := by
  refine triple_perform (fun w a w' hw heq => ?_) fun w e w' hw heq hserved => ?_
  · obtain ⟨p, hp, hφ⟩ := hw
    rcases host.failing_cases fault (.vs_set_payload id patch) w with ⟨e, hfail⟩ | hok
    · rw [hfail] at heq
      cases heq
    · rw [hok] at heq
      simp only [Host.answer, hp, Prod.mk.injEq] at heq
      obtain ⟨-, rfl⟩ := heq
      exact ⟨p.merge patch, World.payload_put_self _ _ _, h p hφ⟩
  · obtain ⟨p, hp, -⟩ := hw
    have hok : host.failing fault (.vs_set_payload id patch) w =
        host.answer (.vs_set_payload id patch) w := by
      simp only [Host.failing, Handler.failing, hserved.written id patch w, ite_self]
    rw [hok] at heq
    simp only [Host.answer, hp] at heq
    cases heq

/-- Looking up a memory that is stored finds it, or was made to fail. -/
theorem read_triple {E : World → Prop} :
    Triple (host.failing fault) (StoredAs id φ) (point_payload id)
    (fun found w => StoredAs id φ w ∧
      (w.payload id = found ∨ found = none ∧ ¬ PayloadsServed fault)) E := by
  refine (point_payload_triple (E := E) (StoredAs id φ) id).mono (fun _ h => h)
    (fun found w hw => ⟨hw.1, ?_⟩) fun _ h => h
  rcases hw.2 with hfound | ⟨hnone, hstruck⟩
  · exact .inl hfound.symm
  · exact .inr ⟨hnone, fun hserved => hstruck (hserved.read id w)⟩

/-- Code that raises unless a stored memory is found. -/
theorem stored_triple {α : Type} {R : α → World → Prop} {exc : Exn} {k : Payload → Code α}
    (hk : ∀ p, φ p → Triple (host.failing fault) (StoredAs id φ) (k p) R
      fun _ => ¬ PayloadsServed fault) :
    Triple (host.failing fault) (StoredAs id φ)
      (do let found ← point_payload id
          let payload ← expect found exc
          k payload) R fun _ => ¬ PayloadsServed fault := by
  refine triple_bind read_triple fun found => ?_
  cases found with
  | none =>
    -- nothing was found, though the memory is stored
    refine Triple.of_fact (φ := ¬ PayloadsServed fault) ?_ fun hstruck => ?_
    · rintro w ⟨⟨p, hp, -⟩, hnone | ⟨-, hstruck⟩⟩
      · rw [hnone] at hp
        cases hp
      · exact hstruck
    · exact triple_bind (S := fun _ _ => False) (triple_throw (I := Api) exc fun _ _ => hstruck)
        fun _ => Triple.of_fact (fun _ hw => hw) False.elim
  | some p =>
    refine Triple.of_fact (φ := φ p) ?_ fun hφ => (hk p hφ).of_pre fun w hw => hw.1
    rintro w ⟨⟨q, hq, hφ⟩, hp | ⟨hnone, -⟩⟩
    · rw [hq] at hp
      injection hp with hp
      rwa [← hp]
    · cases hnone

/-- Clearing a deadline merges its patch, unless the read of the payload fails. -/
theorem clear_ttl_triple {actor_id : Option String}
    (h : ∀ p now, φ p → ψ (p.merge (ttl_patch .clear now "" actor_id))) :
    Triple (host.failing fault) (StoredAs id φ) (clear_ttl id actor_id) (fun _ => StoredAs id ψ)
      fun _ => ¬ PayloadsServed fault := by
  refine triple_bind ?_ fun _ => triple_pure () fun _ hw => hw
  refine stored_triple fun p hp => ?_
  refine triple_bind (now_iso_total (StoredAs id φ) fun w hw => hw) fun now => ?_
  change Triple _ _ (perform (I := Api) (.vs_set_payload id (ttl_patch .clear now "" actor_id)) >>=
    _)
    _ _
  refine triple_bind (patch_triple fun p hp => h p now hp) fun _ => ?_
  refine triple_bind (attempt_stored ?_) fun _ => ?_
  · exact uses_bind (close_for_old_uses (fun _ => quiet_of_inert) fun _ => rfl)
      fun _ => uses_pure ()
  refine triple_bind (note_history_stored p _ now _) fun _ => ?_
  exact triple_pure (ttl_result .clear id now "") fun _ hw => hw

/-- Revival merges its patch, unless the read of the payload fails. -/
theorem revive_triple {actor_id session_id : Option String}
    (hids : ∀ p, φ p → superseded_ids p ≠ [])
    (h : ∀ p now, φ p → ψ (p.merge (revive_patch now actor_id session_id))) :
    Triple (host.failing fault) (StoredAs id φ) (revive id actor_id session_id) (fun _ =>
      StoredAs id ψ)
      fun _ => ¬ PayloadsServed fault := by
  refine stored_triple fun p hp => ?_
  refine triple_bind (S := fun _ => StoredAs id φ) ?_ fun _ => ?_
  · rw [refuse_if, if_neg (hids p hp)]
    exact triple_pure () fun w hw => hw
  refine triple_bind (now_iso_total (StoredAs id φ) fun w hw => hw) fun now => ?_
  refine triple_bind (patch_triple fun p hp => h p now hp) fun _ => ?_
  refine triple_bind (note_history_stored p _ now _) fun _ => ?_
  exact triple_pure _ fun _ hw => hw

/-- Where payloads are read, a superseded memory is revived and an active one left as it is. -/
theorem revive_if_superseded_triple (hserved : PayloadsServed fault)
    {actor_id session_id : Option String} (hactive : ∀ p, φ p → superseded_ids p = [] → ψ p)
    (h : ∀ p now, φ p → ψ (p.merge (revive_patch now actor_id session_id))) :
    Triple (host.failing fault) (StoredAs id φ) (revive_if_superseded id actor_id session_id)
      (fun _ => StoredAs id ψ) fun _ => ¬ PayloadsServed fault := by
  refine triple_bind read_triple fun found => ?_
  refine Triple.of_fact (φ := ∃ p, found = some p) ?_ ?_
  · rintro w ⟨⟨p, hp, -⟩, hfound | ⟨-, hstruck⟩⟩
    · exact ⟨p, hfound.symm.trans hp⟩
    · exact absurd hserved hstruck
  rintro ⟨p, rfl⟩
  have hfound : ∀ w, StoredAs id φ w ∧ (w.payload id = some p ∨ some p = none ∧
      ¬ PayloadsServed fault) → StoredAs id (fun q => φ q ∧ q = p) w := by
    rintro w ⟨⟨q, hq, hφ⟩, hp | ⟨hnone, -⟩⟩
    · rw [hq, Option.some.injEq] at hp
      exact ⟨q, hq, hφ, hp⟩
    · cases hnone
  split
  · rename_i hids
    refine triple_bind (S := fun _ => StoredAs id ψ) ?_ fun _ => triple_pure () fun _ hw => hw
    refine Triple.of_pre (revive_triple (φ := fun q => φ q ∧ q = p) ?_ ?_) hfound
    · rintro q ⟨-, rfl⟩
      exact hids
    · exact fun q now hq => h q now hq.1
  · rename_i hids
    refine triple_pure () fun w hw => ?_
    obtain ⟨q, hq, hφ, rfl⟩ := hfound w hw
    exact ⟨q, hq, hactive q hφ (not_not.mp hids)⟩

/-- What the search filter reads of a payload. -/
def Expiring (p : Payload) : Prop := (p.get TTL_EXPIRES_AT).truthy = true

theorem not_expiring_clear (p : Payload) (now : String) (actor_id : Option String) :
    ¬ Expiring (p.merge (ttl_patch .clear now "" actor_id)) := by
  have h : (ttl_patch .clear now "" actor_id).lookup TTL_EXPIRES_AT = some .none := rfl
  rw [Expiring, Payload.get_merge_of_lookup h]
  decide

/-- Clearing the deadline is no revival, nor undoes one. -/
theorem superseded_ids_clear (p : Payload) (now : String) (actor_id : Option String) :
    superseded_ids (p.merge (ttl_patch .clear now "" actor_id)) = superseded_ids p := by
  refine superseded_ids_congr (Payload.get_merge_of_notMem ?_)
  exact AList.lookup_eq_none.mp rfl

theorem superseded_ids_revived (p : Payload) (now : String) (actor_id session_id : Option String) :
    superseded_ids (p.merge (revive_patch now actor_id session_id)) = [] := by
  refine superseded_ids_of_none (Payload.get_merge_of_lookup ?_)
  rfl

/-- Nor does a revival set a deadline. -/
theorem expiring_revived (p : Payload) (now : String) (actor_id session_id : Option String) :
    Expiring (p.merge (revive_patch now actor_id session_id)) ↔ Expiring p := by
  have hnot : TTL_EXPIRES_AT ∉ revive_patch now actor_id session_id :=
    AList.lookup_eq_none.mp rfl
  rw [Expiring, Payload.get_merge_of_notMem hnot, Expiring]

/-- **The way back.** From wherever a memory is stored, either order of the two leaves it
in the default pool, where payloads are read and written. -/
theorem back_to_pool_triple (hserved : PayloadsServed fault) (revive_first : Bool)
    (actor_id session_id : Option String) :
    Triple (host.failing fault) (fun w => (w.payload id).isSome = true)
      (back_to_pool revive_first id actor_id session_id) (fun _ w => InDefaultPool w id)
      fun _ => ¬ PayloadsServed fault := by
  have hstored : ∀ w : World, (w.payload id).isSome = true → StoredAs id (fun _ => True) w := by
    intro w hw
    obtain ⟨p, hp⟩ := Option.isSome_iff_exists.mp hw
    exact ⟨p, hp, trivial⟩
  have hpool : ∀ w : World, StoredAs id (fun p => superseded_ids p = [] ∧ ¬ Expiring p) w →
      InDefaultPool w id := by
    rintro w ⟨p, hp, hids, hexpires⟩
    rw [Expiring, Bool.not_eq_true] at hexpires
    exact ⟨p, hp, kept_item_of hids hexpires⟩
  refine Triple.mono (P := StoredAs id fun _ => True)
    (R := fun _ => StoredAs id fun p => superseded_ids p = [] ∧ ¬ Expiring p)
    ?_ hstored (fun _ => hpool) fun _ h => h
  unfold back_to_pool
  split
  · refine triple_bind (S := fun _ => StoredAs id fun p => superseded_ids p = []) ?_ fun _ => ?_
    · refine revive_if_superseded_triple hserved (fun p _ hids => hids) fun p now _ => ?_
      exact superseded_ids_revived p now actor_id session_id
    · refine clear_ttl_triple fun p now hids => ⟨?_, not_expiring_clear p now actor_id⟩
      rw [superseded_ids_clear, hids]
  · refine triple_bind (S := fun _ => StoredAs id fun p => ¬ Expiring p) ?_ fun _ => ?_
    · exact clear_ttl_triple fun p now _ => not_expiring_clear p now actor_id
    · refine revive_if_superseded_triple hserved (fun p hp hids => ⟨hids, hp⟩) fun p now hp => ?_
      rw [expiring_revived]
      exact ⟨superseded_ids_revived p now actor_id session_id, hp⟩

end way_back

/-- **Every exit from the pool is reversible.** A run of these operations leaves the
text, the creation time and every key that is not theirs as they were, and loses no
memory. From where it ends, reviving and clearing the deadline in either order succeed as
far as reads and writes of payloads do, and put any memory back into the default pool. -/
theorem exits_reversible {w w' : World} (h : ExitRun host w w') :
    (∀ id p, w.payload id = some p → ∃ p', w'.payload id = some p' ∧
      p'.get "data" = p.get "data" ∧ p'.get "created_at" = p.get "created_at" ∧
      ∀ key ∉ owned_fields, p'.lookup key = p.lookup key) ∧
    ∀ id, (w'.payload id).isSome = true → ∀ revive_first actor_id session_id fault,
      PayloadsServed fault →
      ∃ w'', (back_to_pool revive_first id actor_id session_id).run (host.failing fault) w' =
        (.ok (), w'') ∧ InDefaultPool w'' id ∧ SameRest w w'' := by
  refine ⟨fun id p hp => ?_, fun id hid revive_first actor_id session_id fault hserved => ?_⟩
  · obtain ⟨p', hp', hrest⟩ := h.same_rest.lookup hp
    refine ⟨p', hp', ?_, ?_, hrest⟩
    · rw [Payload.get, hrest "data" (by decide), Payload.get]
    · rw [Payload.get, hrest "created_at" (by decide), Payload.get]
  · have hback : Triple (host.failing fault) (fun w => (w.payload id).isSome = true)
        (back_to_pool revive_first id actor_id session_id) (fun _ w => InDefaultPool w id)
        fun _ => ¬ PayloadsServed fault := back_to_pool_triple hserved revive_first actor_id
          session_id
    obtain ⟨hok, herror⟩ := hback w' hid
    have hrest : SameRest w' ((back_to_pool revive_first id actor_id session_id).run
        (host.failing fault) w').2 :=
      same_rest_run (back_to_pool_owned revive_first id actor_id session_id) w'
    -- it raises only where a payload is not read or written, which does not happen here
    rcases hrun : (back_to_pool revive_first id actor_id session_id).run (host.failing fault) w'
      with ⟨e | u, w''⟩
    · exact absurd hserved (herror e w'' hrun)
    · rw [hrun] at hrest
      exact ⟨w'', rfl, hok u w'' hrun, h.same_rest.trans hrest⟩

/-- Two memories, and the run that supersedes the one by the other and then deletes it. -/
def two_memories : World :=
  (World.empty.put "old" (.ofList [("data", .str "a")])).put "new" (.ofList [("data", .str "b")])

def sent_away : World :=
  ExitStep.after Host.plain (Host.plain.failing fun _ _ => none)
    (ExitStep.after Host.plain (Host.plain.failing fun _ _ => none) two_memories
      (.invalidate "old" ["new"] none none none)) (.delete "old" none)

/-- The superseded memory was expired, not deleted, and comes back. -/
theorem deleted_comes_back :
    (∃ p, sent_away.payload "old" = some p ∧ superseded_ids p = ["new"] ∧ Expiring p) ∧
    ∃ w, (back_to_pool false "old" none none).run (Host.plain.failing fun _ _ => none) sent_away =
      (.ok (), w) ∧ InDefaultPool w "old" ∧ SameRest two_memories w := by
  have hrun : ExitRun Host.plain two_memories sent_away := by
    refine .step (.step .start (.invalidate "old" ["new"] none none none) _ trivial)
      (.delete "old" none) _ ?_
    exact ⟨_, _, rfl, rfl⟩
  refine ⟨⟨_, rfl, by decide +kernel, by unfold Expiring; decide +kernel⟩, ?_⟩
  exact (exits_reversible hrun).2 "old" (by decide +kernel) false none none _
    ⟨fun _ _ => rfl, fun _ _ _ => rfl⟩

end Memline
