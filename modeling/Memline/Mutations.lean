/-
What each operation writes to the vector store, read off its traces.

A trace of an operation holds for every way its calls are answered, so these
lemmas serve a sequential run and an interleaving alike. `invalidate`, `revive`
and `set_ttl` have one shape (`OneWrite`): quiet calls, one payload write on the
memory they name, quiet calls. For `invalidate` the calls before the write carry
the certificate of the cycle check (`Walked`): a set of nodes that holds the
superseders, misses the target and is closed under the successor lists that the
walk was shown.
-/
import Memline.Calls

set_option autoImplicit false

namespace Memline

open Effect Effect.Prog

abbrev Ev : Type := Effect.Event Api

/-- A call that writes no point. -/
def quiet (c : Call) : Prop := c.writes = false

/-- Calls that write no point. -/
def Quiet (es : List Ev) : Prop := ∀ e ∈ es, quiet e.1

theorem Quiet.append {es fs : List Ev} (h : Quiet es) (h' : Quiet fs) : Quiet (es ++ fs) := by
  intro e he
  rcases List.mem_append.mp he with he | he
  · exact h e he
  · exact h' e he

theorem quiet_of_inert {c : Call} (h : inert c) : quiet c := by
  cases c with
  | vs_set_payload _ _ | vs_upsert _ _ | vs_insert _ | vs_delete _ => exact h.elim
  | _ => rfl

/-- Inert code writes no point. -/
theorem quietly {α : Type} {p : Code α} (h : p.Uses inert) : p.Uses quiet :=
  h.mono fun _ => quiet_of_inert

theorem quiet_of_looks_up {c : Call} (h : looks_up c) : quiet c :=
  quiet_of_inert (inert_of_looks_up h)

/-! ## One point looked up -/

/-- What the code takes a lookup to have found: a failure reads as missing. -/
def found : Except Exn (Option Payload) → Option Payload
  | .ok p => p
  | .error _ => none

/-- The lookup of an id found what is stored there. -/
@[simp] theorem found_answer (host : Host) (id : Id) (w : World) :
    found (host.answer (.vs_get id) w).1 = w.payload id := by
  simp only [Host.answer]
  split
  · rename_i h
    simp only [Bool.and_eq_true, Option.isNone_iff_eq_none] at h
    rw [h.1]
    rfl
  · rfl

/-- Reading a payload is one call, whose failure reads like a missing memory. -/
theorem point_payload_ret {id : Id} {es : List Ev} {p : Option Payload}
    (h : Trace (point_payload id) es (.ret p)) :
    ∃ r, es = [⟨.vs_get id, r⟩] ∧ p = found r := by
  cases h with
  | @cons _ _ r _ _ h =>
    refine ⟨r, ?_⟩
    cases r with
    | ok a =>
      obtain ⟨rfl, rfl⟩ := h.ret_ret
      exact ⟨rfl, rfl⟩
    | error e =>
      obtain ⟨rfl, rfl⟩ := h.ret_ret
      exact ⟨rfl, rfl⟩

theorem refuse_if_ret {c : Prop} [Decidable c] {e : Exn} {es : List Ev} {u : Unit}
    (h : Trace (refuse_if c e) es (.ret u)) : es = [] ∧ ¬ c := by
  unfold refuse_if at h
  split at h
  · exact (Trace.raise_ret h).elim
  · exact ⟨h.ret_ret.1, ‹_›⟩

theorem expect_ret {α : Type} {a : Option α} {e : Exn} {es : List Ev} {b : α}
    (h : Trace (expect a e) es (.ret b)) : es = [] ∧ a = some b := by
  cases a with
  | none => exact (Trace.raise_ret h).elim
  | some a =>
    obtain ⟨rfl, rfl⟩ := h.ret_ret
    exact ⟨rfl, rfl⟩

/-! ## The cycle check -/

/-- The successor ids on what a lookup found. -/
def shown (r : Except Exn (Option Payload)) : List Id := ((found r).map superseded_ids).getD []

/-- The ids looked up, in order. -/
def looked_up (es : List Ev) : List Id :=
  es.filterMap fun e => match e.1 with
    | .vs_get id => some id
    | _ => none

@[simp] theorem looked_up_append (es fs : List Ev) :
    looked_up (es ++ fs) = looked_up es ++ looked_up fs := List.filterMap_append

@[simp] theorem looked_up_vs_get (id : Id) (r : Except Exn (Option Payload)) :
    looked_up [⟨.vs_get id, r⟩] = [id] := rfl

/-- What a walk leaves behind: the nodes it has `visited` and what it was shown of
them. New nodes are not the target, were looked up exactly once, and all their
successors are among `reached`. -/
structure Walked (target : Id) (es : List Ev) (visited visited' reached : List Id) : Prop where
  keeps : ∀ n ∈ visited, n ∈ visited'
  misses : target ∉ visited → target ∉ visited'
  once : (looked_up es).Nodup
  fresh : ∀ n ∈ looked_up es, n ∉ visited ∧ n ∈ visited'
  shows : ∀ n ∈ visited', n ∈ visited ∨
    ∃ r, ⟨.vs_get n, r⟩ ∈ es ∧ ∀ y ∈ shown r, y ∈ reached

theorem Walked.nil (target : Id) (visited reached : List Id) :
    Walked target [] visited visited reached where
  keeps := fun _ h => h
  misses := fun h => h
  once := List.nodup_nil
  fresh := fun _ h => by simp [looked_up] at h
  shows := fun _ h => .inl h

/-- Two walks in a row; what the first one reached, the second one may visit. -/
theorem Walked.append {target : Id} {es fs : List Ev} {v₀ v₁ v₂ r₁ r₂ : List Id}
    (h₁ : Walked target es v₀ v₁ r₁) (h₂ : Walked target fs v₁ v₂ r₂)
    (hr : ∀ y ∈ r₁, y ∈ r₂) : Walked target (es ++ fs) v₀ v₂ r₂ where
  keeps := fun n hn => h₂.keeps n (h₁.keeps n hn)
  misses := fun ht => h₂.misses (h₁.misses ht)
  once := by
    rw [looked_up_append]
    refine h₁.once.append h₂.once ?_
    intro n hn hn'
    exact (h₂.fresh n hn').1 (h₁.fresh n hn).2
  fresh := by
    intro n hn
    rw [looked_up_append] at hn
    rcases List.mem_append.mp hn with hn | hn
    · exact ⟨(h₁.fresh n hn).1, h₂.keeps n (h₁.fresh n hn).2⟩
    · exact ⟨fun h => (h₂.fresh n hn).1 (h₁.keeps n h), (h₂.fresh n hn).2⟩
  shows := by
    intro n hn
    rcases h₂.shows n hn with hn | ⟨r, hr', hy⟩
    · rcases h₁.shows n hn with hn | ⟨r, hr', hy⟩
      · exact .inl hn
      · exact .inr ⟨r, List.mem_append_left _ hr', fun y h => hr y (hy y h)⟩
    · exact .inr ⟨r, List.mem_append_right _ hr', hy⟩

/-- One lookup of a node that is not the target and was not visited before. -/
theorem Walked.single {target node : Id} {visited reached : List Id}
    {r : Except Exn (Option Payload)} (ht : node ≠ target) (hv : node ∉ visited)
    (hr : ∀ y ∈ shown r, y ∈ reached) :
    Walked target [⟨.vs_get node, r⟩] visited (node :: visited) reached where
  keeps := fun n hn => List.mem_cons_of_mem _ hn
  misses := by
    intro h hmem
    rcases List.mem_cons.mp hmem with h' | h'
    · exact ht h'.symm
    · exact h h'
  once := by
    rw [looked_up_vs_get]
    exact List.nodup_singleton _
  fresh := by
    intro n hn
    rw [looked_up_vs_get, List.mem_singleton] at hn
    subst hn
    exact ⟨hv, List.mem_cons_self⟩
  shows := by
    intro n hn
    rcases List.mem_cons.mp hn with rfl | hn
    · exact .inr ⟨r, List.mem_cons_self, hr⟩
    · exact .inl hn

/-- A level of the walk visits its frontier, and looks up the successors of whatever it has not
visited yet. -/
theorem walk_level_ret {target : Id} {frontier visited next visited' next' : List Id}
    {es : List Ev} (h : Trace (walk_level target frontier visited next) es
      (.ret (visited', next'))) :
    Walked target es visited visited' next' ∧ (∀ y ∈ next, y ∈ next') ∧
      ∀ n ∈ frontier, n ∈ visited' := by
  -- a memory that was visited is passed over; any other is looked up once
  induction frontier generalizing visited next es with
  | nil =>
    obtain ⟨rfl, heq⟩ := Trace.ret_ret h
    obtain ⟨rfl, rfl⟩ := Prod.mk.inj heq
    exact ⟨.nil _ _ _, fun _ hy => hy, by simp⟩
  | cons node frontier ih =>
    unfold walk_level at h
    split at h
    · exact (Trace.raise_ret h).elim
    · rename_i ht
      split at h
      · rename_i hv
        obtain ⟨hw, hnext, hfr⟩ := ih h
        refine ⟨hw, hnext, ?_⟩
        intro n hn
        rcases List.mem_cons.mp hn with rfl | hn
        · exact hw.keeps _ hv
        · exact hfr n hn
      · rename_i hv
        obtain ⟨p, es₁, es₂, rfl, h₁, h₂⟩ := Trace.bind_ret h
        obtain ⟨r, rfl, rfl⟩ := point_payload_ret h₁
        obtain ⟨hw, hnext, hfr⟩ := ih h₂
        have hone : Walked target [⟨.vs_get node, r⟩] visited (node :: visited)
            (next ++ shown r) := .single ht hv fun y hy => List.mem_append_right _ hy
        refine ⟨hone.append hw hnext, fun y hy => hnext y (List.mem_append_left _ hy), ?_⟩
        intro n hn
        rcases List.mem_cons.mp hn with rfl | hn
        · exact hw.keeps _ List.mem_cons_self
        · exact hfr n hn

/-- A walk that leaves no frontier over has visited all it reached. -/
theorem walk_ret {target : Id} {levels : ℕ} {frontier visited : List Id} {es : List Ev}
    (h : Trace (walk target levels frontier visited) es (.ret [])) :
    ∃ visited', Walked target es visited visited' visited' ∧ ∀ n ∈ frontier, n ∈ visited' := by
  induction levels generalizing frontier visited es with
  | zero =>
    obtain ⟨rfl, heq⟩ := Trace.ret_ret h
    refine ⟨visited, .nil _ _ _, ?_⟩
    rw [← heq]
    simp
  | succ levels ih =>
    unfold walk at h
    split at h
    · rename_i hf
      obtain ⟨rfl, -⟩ := Trace.ret_ret h
      exact ⟨visited, .nil _ _ _, by simp [hf]⟩
    · obtain ⟨⟨visited₁, next⟩, es₁, es₂, rfl, h₁, h₂⟩ := Trace.bind_ret h
      obtain ⟨hw₁, -, hfr⟩ := walk_level_ret h₁
      obtain ⟨visited', hw₂, hnext⟩ := ih h₂
      exact ⟨visited', hw₁.append hw₂ hnext, fun n hn => hw₂.keeps n (hfr n hn)⟩

/-- **The cycle check.** When it passes, the nodes it visited hold the superseders,
miss the target, and are closed under the successor lists it was shown. -/
theorem assert_no_cycle_ret {target : Id} {by_ids : List Id} {es : List Ev} {u : Unit}
    (h : Trace (assert_no_cycle target by_ids) es (.ret u)) :
    ∃ visited, Walked target es [] visited visited ∧ target ∉ visited ∧
      ∀ n ∈ by_ids, n ∈ visited := by
  obtain ⟨frontier, es₁, es₂, rfl, h₁, h₂⟩ := Trace.bind_ret h
  obtain ⟨rfl, hf⟩ := refuse_if_ret h₂
  rw [not_not] at hf
  subst hf
  obtain ⟨visited, hw, hfr⟩ := walk_ret h₁
  rw [List.append_nil]
  exact ⟨visited, hw, hw.misses (by simp), hfr⟩

/-! ## Operations with one payload write -/

/-- Quiet calls, one payload write on `id` that satisfies `ok`, quiet calls; or no
write at all, and then no result. -/
def OneWrite {α : Type} (id : Id) (ok : List Ev → Payload → Prop) (es : List Ev)
    (q : Code α) : Prop :=
  (Quiet es ∧ ¬ q.Returned) ∨
    ∃ es₁ patch r es₂, es = es₁ ++ ⟨.vs_set_payload id patch, r⟩ :: es₂ ∧
      Quiet es₁ ∧ Quiet es₂ ∧ ok es₁ patch ∧ (q.Returned → r = .ok ())

/-- A write at the head of what is left, and quiet code after it. -/
theorem OneWrite.of_write {α : Type} {id : Id} {patch : Payload} {f : Unit → Code α}
    {es₁ es : List Ev} {q : Code α} {ok : List Ev → Payload → Prop}
    (h : Trace (perform (I := Api) (.vs_set_payload id patch) >>= f) es q) (h₁ : Quiet es₁)
    (hf : (f ()).Uses quiet) (hok : ok es₁ patch) : OneWrite id ok (es₁ ++ es) q := by
  rcases h.perform_bind with ⟨rfl, hq⟩ | ⟨e, rfl, rfl⟩ | ⟨⟨⟩, es', rfl, h'⟩
  · exact .inl ⟨by simpa using h₁, fun hret => hq hret.done⟩
  · exact .inr ⟨es₁, patch, _, [], rfl, h₁, by simp [Quiet], hok, fun hret => hret.elim⟩
  · exact .inr ⟨es₁, patch, _, es', rfl, h₁, (h'.uses hf).1, hok, fun _ => rfl⟩

/-- Quiet code first: the write, if any, comes after it has returned. -/
theorem OneWrite.after {α β : Type} {id : Id} {p : Code α} {f : α → Code β} {es₁ es : List Ev}
    {q : Code β} {ok : List Ev → Payload → Prop} (h : Trace (p >>= f) es q) (h₁ : Quiet es₁)
    (hp : p.Uses quiet)
    (hf : ∀ a es₂ es₃, Trace p es₂ (.ret a) → Quiet (es₁ ++ es₂) → Trace (f a) es₃ q →
      OneWrite id ok (es₁ ++ es₂ ++ es₃) q) : OneWrite id ok (es₁ ++ es) q := by
  rcases h.bind_uses hp with ⟨hq, hret⟩ | ⟨a, es₂, es₃, rfl, h₂, hq, h₃⟩
  · exact .inl ⟨h₁.append hq, hret⟩
  · rw [← List.append_assoc]
    exact hf a es₂ es₃ h₂ (h₁.append hq) h₃

theorem Quiet.nil : Quiet [] := by
  intro e he
  simp at he

/-- The checks of `invalidate` on `by_ids` have passed, answered by the lookup `r` of
the memory, the lookups of the superseders and those of the cycle check. -/
structure Checked (memory_id : Id) (by_ids : List Id) (reads walked : List Ev)
    (r : Except Exn (Option Payload)) : Prop where
  nonempty : by_ids ≠ []
  distinct : memory_id ∉ by_ids
  active : ∃ p, found r = some p ∧ superseded_ids p = []
  superseders : Trace (require_superseders by_ids) reads (.ret ())
  no_cycle : Trace (assert_no_cycle memory_id by_ids) walked (.ret ())

/-- Before an invalidation the memory, its successors and the chains behind them are looked at. -/
theorem check_invalidate_ret {memory_id : Id} {by_ids : List Id} {es : List Ev} {p : Payload}
    (h : Trace (check_invalidate memory_id by_ids) es (.ret p)) :
    ∃ r reads walked, es = ⟨.vs_get memory_id, r⟩ :: reads ++ walked ∧
      Checked memory_id by_ids reads walked r := by
  unfold check_invalidate at h
  obtain ⟨_, _, es, rfl, h₁, k₁⟩ := h.bind_ret
  obtain ⟨rfl, hne⟩ := refuse_if_ret h₁
  obtain ⟨_, _, es, rfl, h₂, k₂⟩ := k₁.bind_ret
  obtain ⟨rfl, hmem⟩ := refuse_if_ret h₂
  obtain ⟨_, _, es, rfl, h₃, k₃⟩ := k₂.bind_ret
  obtain ⟨r, rfl, rfl⟩ := point_payload_ret h₃
  obtain ⟨p', _, es, rfl, h₄, k₄⟩ := k₃.bind_ret
  obtain ⟨rfl, hp⟩ := expect_ret h₄
  obtain ⟨_, _, es, rfl, h₅, k₅⟩ := k₄.bind_ret
  obtain ⟨rfl, hactive⟩ := refuse_if_ret h₅
  obtain ⟨_, reads, es, rfl, hreads, k₆⟩ := k₅.bind_ret
  obtain ⟨_, walked, es, rfl, hwalked, k₇⟩ := k₆.bind_ret
  obtain ⟨rfl, -⟩ := Trace.ret_ret k₇
  exact ⟨r, reads, walked, by simp, hne, hmem, ⟨p', hp, not_not.mp hactive⟩, hreads, hwalked⟩

/-- What `invalidate` has done before it writes `patch`. -/
def BeforeInvalidate (memory_id : Id) (by_ids : List Id)
    (reason actor_id session_id : Option String) (es : List Ev) (patch : Payload) : Prop :=
  ∃ checks p now, es = checks ++ [⟨.now_iso, .ok now⟩] ∧
    Trace (check_invalidate memory_id (distinct_ids by_ids)) checks (.ret p) ∧
    patch = invalidate_patch (distinct_ids by_ids) now reason actor_id session_id

theorem require_superseders_ret {by_ids : List Id} {es : List Ev} {u : Unit}
    (h : Trace (require_superseders by_ids) es (.ret u)) :
    ∀ b ∈ by_ids, ∃ r, ⟨.vs_get b, r⟩ ∈ es ∧ (found r).isSome = true := by
  induction by_ids generalizing es with
  | nil => simp
  | cons b by_ids ih =>
    unfold require_superseders at h
    rw [List.forM_cons] at h
    obtain ⟨⟨⟩, es₁, es₂, rfl, h₁, h₂⟩ := Trace.bind_ret h
    obtain ⟨p, fs₁, fs₂, rfl, h₃, h₄⟩ := Trace.bind_ret h₁
    obtain ⟨r, rfl, rfl⟩ := point_payload_ret h₃
    obtain ⟨rfl, hsome⟩ := refuse_if_ret h₄
    intro b' hb'
    rcases List.mem_cons.mp hb' with rfl | hb'
    · refine ⟨r, by simp, ?_⟩
      cases hr : found r with
      | none => simp [hr] at hsome
      | some _ => rfl
    · obtain ⟨r', hr', hs⟩ := ih h₂ b' hb'
      exact ⟨r', List.mem_append_right _ hr', hs⟩

/-- **`invalidate`.** At most one write, and only after every check has passed. -/
theorem invalidate_trace {memory_id : Id} {by_ids : List Id}
    {reason actor_id session_id : Option String} {es : List Ev} {q : Code InvalidateResult}
    (h : Trace (invalidate memory_id by_ids reason actor_id session_id) es q) :
    OneWrite memory_id (BeforeInvalidate memory_id by_ids reason actor_id session_id) es q := by
  unfold invalidate at h
  refine OneWrite.after h .nil
    ((check_invalidate_looks_up _ _).mono fun _ => quiet_of_looks_up)
    fun p checks es hchecks hq h => ?_
  refine OneWrite.after h hq (quietly now_iso_inert) fun now es₁ es h₁ hq h => ?_
  obtain rfl := Trace.perform_ret h₁
  refine OneWrite.of_write h hq ?_ ⟨checks, p, now, rfl, hchecks, rfl⟩
  exact uses_bind (quietly (note_history_inert _ _ _ _ _)) fun _ =>
    uses_bind (close_for_old_uses (fun _ => quiet_of_inert) fun _ => rfl) fun _ => uses_pure _

/-- **`revive`.** At most one write, of the cleared supersession state. -/
theorem revive_trace {memory_id : Id} {actor_id session_id : Option String} {es : List Ev}
    {q : Code ReviveResult} (h : Trace (revive memory_id actor_id session_id) es q) :
    OneWrite memory_id (fun _ patch => ∃ now,
      patch = revive_patch now actor_id session_id) es q := by
  unfold revive at h
  refine OneWrite.after h .nil (quietly (point_payload_inert _)) fun p es₁ es h₁ hq h => ?_
  refine OneWrite.after h hq (expect_uses _ _) fun p es₁ es h₁ hq h => ?_
  refine OneWrite.after h hq (refuse_if_uses _ _) fun _ es₁ es h₁ hq h => ?_
  refine OneWrite.after h hq (quietly now_iso_inert) fun now es₁ es h₁ hq h => ?_
  refine OneWrite.of_write h hq ?_ ⟨now, rfl⟩
  exact uses_bind (quietly (note_history_inert _ _ _ _ _)) fun _ => uses_pure _

/-- **`set_ttl`.** At most one write, of the patch of its mode. -/
theorem set_ttl_trace {memory_id : Id} {mode : TtlMode} {actor_id : Option String}
    {es : List Ev} {q : Code TtlResult} (h : Trace (set_ttl memory_id mode actor_id) es q) :
    OneWrite memory_id
      (fun _ patch => ∃ now expires_at, patch = ttl_patch mode now expires_at actor_id) es q := by
  unfold set_ttl at h
  refine OneWrite.after h .nil (quietly (point_payload_inert _)) fun p es₁ es h₁ hq h => ?_
  refine OneWrite.after h hq (expect_uses _ _) fun p es₁ es h₁ hq h => ?_
  refine OneWrite.after h hq (quietly now_iso_inert) fun now es₁ es h₁ hq h => ?_
  refine OneWrite.after h hq (quietly (ttl_deadline_inert mode)) fun expires_at es₁ es h₁ hq h => ?_
  refine OneWrite.of_write h hq ?_ ⟨now, expires_at, rfl⟩
  have hclose : (do
      let _ ← pair_store.close_for_old memory_id "ttl" actor_id (some KIND_TTL_EXPIRY)
      : Code Unit).Uses quiet :=
    uses_bind (close_for_old_uses (fun _ => quiet_of_inert) fun _ => rfl) fun _ => uses_pure ()
  exact uses_bind (attempt_uses hclose) fun _ =>
    uses_bind (quietly (note_history_inert _ _ _ _ _)) fun _ => uses_pure _

/-! ## Operations that only shed edges -/

/-- A call that names no successor and removes no memory. -/
def sheds : Call → Prop
  | .vs_set_payload _ patch => superseded_ids patch = []
  | .vs_insert points => ∀ p ∈ points, superseded_ids p.2 = [] ∧ p.2.truthy = true
  | .vs_upsert _ _ | .vs_delete _ => False
  | _ => True

/-- What is quiet sheds: it takes successors away at most. -/
theorem sheds_of_quiet {c : Call} (h : quiet c) : sheds c := by
  cases c with
  | vs_set_payload _ _ | vs_insert _ | vs_upsert _ _ | vs_delete _ => simp [quiet, Call.writes] at h
  | _ => trivial

/-- A patch of other fields names no successor. -/
theorem superseded_ids_ofList {entries : List (String × Value)}
    (h : ∀ e ∈ entries, e.1 = SUPERSEDED_BY → e.2 = .none) :
    superseded_ids (.ofList entries) = [] := superseded_ids_of_none (Payload.get_ofList_none h)

theorem revive_patch_sheds (now : String) (actor_id session_id : Option String) :
    superseded_ids (revive_patch now actor_id session_id) = [] := by
  refine superseded_ids_ofList ?_
  simp [SUPERSEDED_BY, SUPERSEDED_AT, SUPERSEDED_REASON]

theorem ttl_patch_sheds (mode : TtlMode) (now expires_at : String) (actor_id : Option String) :
    superseded_ids (ttl_patch mode now expires_at actor_id) = [] := by
  cases mode with
  | clear => exact superseded_ids_ofList (by simp [SUPERSEDED_BY, TTL_EXPIRES_AT, TTL_EXPIRED_AT])
  | expire_now =>
    exact superseded_ids_ofList (by simp [SUPERSEDED_BY, TTL_EXPIRES_AT, TTL_EXPIRED_AT])
  | deadline _ _ =>
    exact superseded_ids_ofList (by simp [SUPERSEDED_BY, TTL_EXPIRES_AT, TTL_EXPIRED_AT])

theorem cleared_protection_sheds : superseded_ids cleared_protection = [] := by
  refine superseded_ids_ofList ?_
  intro e he _
  obtain ⟨f, -, rfl⟩ := List.mem_map.mp he
  rfl

theorem sheds_of_inert {c : Call} (h : inert c) : sheds c := sheds_of_quiet (quiet_of_inert h)

theorem revive_sheds (id : Id) (actor_id session_id : Option String) :
    (revive id actor_id session_id).Uses sheds :=
  revive_uses (fun _ => sheds_of_inert) fun now => revive_patch_sheds now actor_id session_id

theorem set_ttl_sheds (id : Id) (mode : TtlMode) (actor_id : Option String) :
    (set_ttl id mode actor_id).Uses sheds :=
  set_ttl_uses (fun _ => sheds_of_inert)
    (fun now expires_at => ttl_patch_sheds mode now expires_at actor_id) fun _ => trivial

theorem harvest_expired_sheds (host : Host) (now : Option String) (limit : ℕ) :
    (harvest_expired host now limit).Uses sheds := by
  refine harvest_expired_uses (fun _ => sheds_of_inert) (fun id t => ?_) (fun _ _ => trivial)
    fun _ _ _ _ => trivial
  exact superseded_ids_ofList (by simp [SUPERSEDED_BY, TTL_EXPIRED_AT])

/-- **`add`.** Nothing but plain new memories is written. -/
theorem add_sheds (host : Host) (messages : List Message) (user_id agent_id run_id : Option String)
    {metadata : Payload} (infer : Bool) (h : superseded_ids metadata = []) :
    (Mem0.add host messages user_id agent_id run_id metadata infer).Uses sheds := by
  refine add_uses (fun _ => sheds_of_inert) (fun points hpoints p hp => ?_) messages user_id
    agent_id run_id infer
  have hsame := FromMetadata.get (hpoints p hp).1 (by decide : SUPERSEDED_BY ∉ added_fields)
  exact ⟨(superseded_ids_congr hsame).trans h, (hpoints p hp).1.2⟩

/-! ## Updating -/

/-- Quiet, or the patch that clears a displacement protection. -/
def tidies (memory_id : Id) (c : Call) : Prop :=
  quiet c ∨ c = .vs_set_payload memory_id cleared_protection

theorem sheds_of_tidies {id : Id} {c : Call} (h : tidies id c) : sheds c := by
  rcases h with h | rfl
  · exact sheds_of_quiet h
  · exact cleared_protection_sheds

theorem tidies_of_inert {id : Id} (c : Call) (h : inert c) : tidies id c :=
  .inl (quiet_of_inert h)

theorem text_of_str (s : String) : (Value.str s).text = s := by
  rw [Value.text]
  by_cases hs : s = ""
  · subst hs
    rfl
  · rw [if_pos (by simpa [Value.truthy, Value.str, Atom.truthy] using hs)]
    rfl

/-- The text of an updated payload is the one given. -/
theorem updated_payload_text {host : Host} (p : Payload) (text : String) (metadata : Payload)
    (now : String) :
    payload_text (Mem0.updated_payload host p text metadata now) = text := by
  have hdata : (Mem0.updated_payload host p text metadata now).get "data" = .str text := by
    have hmerged : ∀ q : Payload, (q.merge (.ofList [("data", .str text),
        ("hash", .str (host.md5 text)), ("text_lemmatized", .str (host.lemmatize text)),
        ("created_at", p.get "created_at"), ("updated_at", .str now)])).get "data" =
          .str text := fun q =>
      Payload.get_merge_of_lookup (Payload.lookup_ofList_head _ (by simp))
    rw [Mem0.updated_payload]
    split
    · rw [Payload.get_set_ne _ _ (by decide), hmerged]
    · exact hmerged _
  rw [payload_text, hdata, text_of_str]

/-- What has happened in an `update` that has written: the payload it found, the
clock it read, the whole payload it wrote, and calls that only tidy up. -/
def Updated (host : Host) (id : Id) (text : String) (metadata : Payload) (tidy : Call → Prop)
    (es : List Ev) : Prop :=
  ∃ (p : Payload) (now : String) (r : Except Exn Unit) (es₂ : List Ev),
    es = ⟨.vs_get id, .ok (some p)⟩ :: ⟨.now_iso, .ok now⟩ ::
      ⟨.vs_upsert id (Mem0.updated_payload host p text metadata now), r⟩ :: es₂ ∧
    ∀ e ∈ es₂, tidy e.1

/-- An update of the store fails without a write, or writes the new text once. -/
theorem mem0_update_trace {host : Host} {id : Id} {text : String} {metadata : Payload}
    {es : List Ev} {q : Code Unit} (h : Trace (Mem0.update host id text metadata) es q) :
    (Quiet es ∧ ¬ q.Returned) ∨ Updated host id text metadata quiet es := by
  unfold Mem0.update at h
  rcases h.bind_uses (quietly (vs_get_inert id)) with ⟨hq, hret⟩ | ⟨a, _, es, rfl, h₁, hq₁, h₂⟩
  · exact .inl ⟨hq, hret⟩
  obtain rfl := Trace.perform_ret h₁
  rcases h₂.bind_uses (expect_uses _ _) with ⟨hq, hret⟩ | ⟨p, _, es, rfl, h₃, -, h₄⟩
  · exact .inl ⟨Quiet.append hq₁ hq, hret⟩
  obtain ⟨rfl, rfl⟩ := expect_ret h₃
  rcases h₄.bind_uses (quietly now_iso_inert) with ⟨hq, hret⟩ | ⟨now, _, es, rfl, h₅, hq₅, h₆⟩
  · exact .inl ⟨Quiet.append hq₁ hq, hret⟩
  obtain rfl := Trace.perform_ret h₅
  rcases h₆.perform_bind with ⟨rfl, hq⟩ | ⟨e, rfl, -⟩ | ⟨⟨⟩, es', rfl, h₇⟩
  · exact .inl ⟨Quiet.append hq₁ hq₅, fun hret => hq hret.done⟩
  · exact .inr ⟨p, now, _, [], rfl, by simp⟩
  · have hlast : ∀ e : HistoryEvent, (perform (I := Api) (.add_history e)).Uses quiet :=
      fun _ => uses_perform rfl
    exact .inr ⟨p, now, _, es', rfl, (h₇.uses (hlast _)).1⟩

/-- **`update`.** One lookup of its own, then mem0's update, then tidying up. -/
theorem update_trace {host : Host} {id : Id} {text : String} {metadata : Payload}
    {es : List Ev} {q : Code (Option Bool)} (h : Trace (ops.update host id text metadata) es q) :
    (Quiet es ∧ ¬ q.Returned) ∨ ∃ (r₀ : Except Exn (Option Payload)) (es' : List Ev),
      es = ⟨.vs_get id, r₀⟩ :: es' ∧ Updated host id text metadata (tidies id) es' := by
  unfold ops.update at h
  rcases h.perform_bind with ⟨rfl, hq⟩ | ⟨e, rfl, rfl⟩ | ⟨point, es, rfl, h₁⟩
  · exact .inl ⟨.nil, fun hret => hq hret.done⟩
  · exact .inl ⟨by simp [Quiet, quiet, Call.writes], fun hret => hret⟩
  have hq₀ : Quiet [⟨.vs_get id, .ok point⟩] := by simp [Quiet, quiet, Call.writes]
  rcases h₁.bind_inv with ⟨p', hp', rfl, hret⟩ | ⟨⟨⟩, es₁, es₂, rfl, h₂, h₃⟩
  · rcases mem0_update_trace hp' with ⟨hq, -⟩ | ⟨p, now, r, es₂, rfl, hq⟩
    · exact .inl ⟨hq₀.append hq, not_returned_bind hret _⟩
    · exact .inr ⟨_, _, rfl, p, now, r, es₂, rfl, fun e he => .inl (hq e he)⟩
  · have htail : ∀ e ∈ es₂, tidies id e.1 := by
      refine (h₃.uses (uses_bind (clear_if_changed_uses tidies_of_inert (.inr rfl)) fun _ => ?_)).1
      refine uses_bind (attempt_uses ?_) fun _ => uses_pure _
      exact uses_bind (close_for_updated_text_uses tidies_of_inert fun _ => .inl rfl)
        fun _ => uses_pure ()
    obtain ⟨p, now, r, es₃, rfl, hq⟩ := (mem0_update_trace h₂).resolve_left fun h => h.2 trivial
    refine .inr ⟨_, _, rfl, p, now, r, es₃ ++ es₂, rfl, fun e he => ?_⟩
    rcases List.mem_append.mp he with he | he
    · exact .inl (hq e he)
    · exact htail e he

/-! ## Deleting -/

/-- The guard of a deletion reads the memory; where it lets the deletion pass, what was read has no
successors. -/
theorem delete_guard_ret {id : Id} {es : List Ev} {g : GuardResult}
    (h : Trace (delete_guard id) es (.ret g)) :
    ∃ r es', es = ⟨.vs_get id, r⟩ :: es' ∧
      (g.participates = false → ∀ p, found r = some p → superseded_ids p = []) := by
  unfold delete_guard at h
  obtain ⟨p, es₁, es₂, rfl, h₁, h₂⟩ := Trace.bind_ret h
  obtain ⟨r, rfl, rfl⟩ := point_payload_ret h₁
  refine ⟨r, es₂, rfl, fun hg p hp => ?_⟩
  rw [hp] at h₂
  simp only at h₂
  split at h₂
  · obtain ⟨-, rfl⟩ := Trace.ret_ret h₂
    exact absurd hg (by simp)
  · rename_i hids
    exact not_not.mp hids

/-- A deletion of the store deletes once at most, with nothing but quiet calls about it. -/
theorem mem0_delete_trace {host : Host} {id : Id} {es : List Ev} {q : Code Unit}
    (h : Trace (Mem0.delete host id) es q) :
    Quiet es ∨ ∃ es₁ r es₂, es = es₁ ++ ⟨.vs_delete id, r⟩ :: es₂ ∧ Quiet es₁ ∧ Quiet es₂ := by
  unfold Mem0.delete at h
  rcases h.bind_uses (quietly (vs_get_inert id)) with ⟨hq, -⟩ | ⟨a, es₁, es, rfl, h₁, hq₁, h₂⟩
  · exact .inl hq
  rcases h₂.bind_uses (expect_uses _ _) with ⟨hq, -⟩ | ⟨p, es₂, es, rfl, h₃, hq₂, h₄⟩
  · exact .inl (Quiet.append hq₁ hq)
  rcases h₄.bind_uses (quietly now_iso_inert) with ⟨hq, -⟩ | ⟨now, es₃, es, rfl, h₅, hq₃, h₆⟩
  · exact .inl (Quiet.append hq₁ (Quiet.append hq₂ hq))
  have hq : Quiet (es₁ ++ es₂ ++ es₃) := (Quiet.append hq₁ hq₂).append hq₃
  rcases h₆.perform_bind with ⟨rfl, -⟩ | ⟨e, rfl, -⟩ | ⟨⟨⟩, es', rfl, h₇⟩
  · exact .inl (by simpa using hq)
  · exact .inr ⟨es₁ ++ es₂ ++ es₃, .error e, [], by simp only [List.append_assoc], hq, .nil⟩
  · have hlast : ∀ e : HistoryEvent, (perform (I := Api) (.add_history e)).Uses quiet :=
      fun _ => uses_perform rfl
    exact .inr ⟨es₁ ++ es₂ ++ es₃, .ok (), es', by simp only [List.append_assoc], hq,
      (h₇.uses (hlast _)).1⟩

/-- **`delete`.** It sheds edges, or it deletes the memory, after having found it
not superseded. -/
theorem delete_trace {host : Host} {id : Id} {actor_id : Option String} {es : List Ev}
    {q : Code ops.Response} (h : Trace (ops.delete host id actor_id) es q) :
    (∀ e ∈ es, sheds e.1) ∨ ∃ r₀ es₁ r es₂,
      es = ⟨.vs_get id, r₀⟩ :: es₁ ++ ⟨.vs_delete id, r⟩ :: es₂ ∧ Quiet es₁ ∧ Quiet es₂ ∧
        ∀ p, found r₀ = some p → superseded_ids p = [] := by
  have hsheds : ∀ {fs : List Ev}, Quiet fs → ∀ e ∈ fs, sheds e.1 :=
    fun hq e he => sheds_of_quiet (hq e he)
  unfold ops.delete at h
  rcases h.bind_uses (quietly (delete_guard_inert id)) with ⟨hq, -⟩ |
    ⟨g, es₁, es₂, rfl, h₁, hq₁, h₂⟩
  · exact .inl (hsheds hq)
  obtain ⟨r₀, es₀, rfl, hguard⟩ := delete_guard_ret h₁
  -- the guard has the memory expired instead, or lets it be deleted
  split at h₂
  · have hs := (h₂.uses (uses_bind (set_ttl_sheds id .expire_now actor_id)
      fun _ => uses_pure _)).1
    refine .inl fun e he => ?_
    rcases List.mem_append.mp he with he | he
    · exact hsheds hq₁ e he
    · exact hs e he
  · rename_i hg
    rw [Bool.not_eq_true] at hg
    have hnone : ∀ {es : List Ev} {q : Code Unit}, Trace (Mem0.delete host id) es q →
        (∀ e ∈ ⟨.vs_get id, r₀⟩ :: es₀ ++ es, sheds e.1) ∨ ∃ r₁ es₁ r es₂,
          ⟨.vs_get id, r₀⟩ :: es₀ ++ es =
            ⟨.vs_get id, r₁⟩ :: es₁ ++ ⟨.vs_delete id, r⟩ :: es₂ ∧ Quiet es₁ ∧ Quiet es₂ ∧
          ∀ p, found r₁ = some p → superseded_ids p = [] := by
      intro es q hdel
      rcases mem0_delete_trace hdel with hq | ⟨es₁, r, es₂, rfl, hq₂, hq₃⟩
      · exact .inl (hsheds (Quiet.append hq₁ hq))
      · refine .inr ⟨r₀, es₀ ++ es₁, r, es₂, by simp, ?_, hq₃, hguard hg⟩
        exact Quiet.append (fun e he => hq₁ e (List.mem_cons_of_mem _ he)) hq₂
    rcases h₂.bind_inv with ⟨p', hp', -⟩ | ⟨u, fs, gs, rfl, hret, hpure⟩
    · exact hnone hp'
    · obtain ⟨rfl, -⟩ := hpure.of_done trivial
      rw [List.append_nil]
      exact hnone hret

end Memline
