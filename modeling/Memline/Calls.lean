/-
Which calls each operation makes.

Most of what an operation asks for is `inert`: it leaves the stored points and the
pairs alone. What is left are its payload writes and its statements on pairs.
Each lemma below takes these apart: an operation makes `ok` calls when inert calls
are `ok` and the few it names are. A module that cares for one kind of effect
instantiates `ok` and looks at the named calls only.
-/
import Memline.Ops

set_option autoImplicit false

namespace Memline

open Effect Effect.Prog

/-- The operation only reads. -/
def PairOp.reads : PairOp → Prop
  | has_judgment .. | judged_either .. | get .. => True
  | consecutive_dismissed_displacement_evidence .. => True
  | _ => False

/-- A call that leaves the stored points and the pairs alone. -/
def inert : Call → Prop
  | .vs_set_payload .. | .vs_upsert .. | .vs_insert _ | .vs_delete _ => False
  | .pairs op => op.reads
  | _ => True

/-- A call that writes: to the points, the pairs, the history or the audit log. -/
def mutates : Call → Prop
  | .vs_set_payload .. | .vs_upsert .. | .vs_insert _ | .vs_delete _ => True
  | .add_history _ | .batch_add_history _ | .audit _ => True
  | .pairs op => ¬ op.reads
  | _ => False

/-! ## Small pieces -/

section pieces

variable {ok : Call → Prop}

theorem refuse_if_uses (c : Prop) [Decidable c] (e : Exn) : (refuse_if c e).Uses ok := by
  unfold refuse_if
  split
  · exact uses_throw _
  · exact uses_pure ()

theorem expect_uses {α : Type} (a : Option α) (e : Exn) : (expect a e).Uses ok := by
  cases a with
  | none => exact uses_throw _
  | some a => exact uses_pure a

theorem lift_except_uses {α : Type} (a : Except Exn α) : (lift_except a).Uses ok := by
  cases a with
  | error e => exact uses_throw _
  | ok a => exact uses_pure a

theorem attempt_uses {p : Code Unit} (hp : p.Uses ok) : (attempt p).Uses ok :=
  uses_tryCatch hp fun _ => uses_pure ()

end pieces

/-! ## Looking points up -/

/-- The call is the lookup of one point. -/
def looks_up (c : Call) : Prop := ∃ id, c = .vs_get id

theorem inert_of_looks_up {c : Call} (h : looks_up c) : inert c := by
  obtain ⟨id, rfl⟩ := h
  trivial

theorem point_payload_looks_up (id : Id) : (point_payload id).Uses looks_up :=
  uses_tryCatch (uses_perform ⟨id, rfl⟩) fun _ => uses_pure _

theorem require_superseders_looks_up (by_ids : List Id) :
    (require_superseders by_ids).Uses looks_up :=
  uses_forM fun _ _ => uses_bind (point_payload_looks_up _) fun _ => refuse_if_uses _ _

theorem walk_level_looks_up (target : Id) (frontier visited next : List Id) :
    (walk_level target frontier visited next).Uses looks_up := by
  induction frontier generalizing visited next with
  | nil => exact uses_pure _
  | cons node frontier ih =>
    unfold walk_level
    split
    · exact uses_throw _
    · split
      · exact ih _ _
      · exact uses_bind (point_payload_looks_up _) fun _ => ih _ _

theorem walk_looks_up (target : Id) (levels : ℕ) (frontier visited : List Id) :
    (walk target levels frontier visited).Uses looks_up := by
  induction levels generalizing frontier visited with
  | zero => exact uses_pure _
  | succ levels ih =>
    unfold walk
    split
    · exact uses_pure _
    · exact uses_bind (walk_level_looks_up _ _ _ _) fun _ => ih _ _

theorem assert_no_cycle_looks_up (target : Id) (by_ids : List Id) :
    (assert_no_cycle target by_ids).Uses looks_up :=
  uses_bind (walk_looks_up _ _ _ _) fun _ => refuse_if_uses _ _

/-- The checks of `invalidate` only look points up. -/
theorem check_invalidate_looks_up (memory_id : Id) (by_ids : List Id) :
    (check_invalidate memory_id by_ids).Uses looks_up := by
  unfold check_invalidate
  refine uses_bind (refuse_if_uses _ _) fun _ => ?_
  refine uses_bind (refuse_if_uses _ _) fun _ => ?_
  refine uses_bind (point_payload_looks_up _) fun _ => ?_
  refine uses_bind (expect_uses _ _) fun _ => ?_
  refine uses_bind (refuse_if_uses _ _) fun _ => ?_
  refine uses_bind (require_superseders_looks_up _) fun _ => ?_
  exact uses_bind (assert_no_cycle_looks_up _ _) fun _ => uses_pure _

/-! ## Code that is inert -/

theorem vs_get_inert (id : Id) : (perform (I := Api) (.vs_get id)).Uses inert :=
  uses_perform trivial

theorem now_iso_inert : now_iso.Uses inert := uses_perform trivial

theorem point_payload_inert (id : Id) : (point_payload id).Uses inert :=
  (point_payload_looks_up id).mono fun _ => inert_of_looks_up

/-- The note in the history is inert: it touches no point and no pair. -/
theorem note_history_inert (id : Id) (p : Payload) (event now : String)
    (actor_id : Option String) : (note_history id p event now actor_id).Uses inert :=
  attempt_uses (uses_perform trivial)

theorem ttl_deadline_inert (mode : TtlMode) : (ttl_deadline mode).Uses inert := by
  rcases mode with - | - | ⟨days, - | expires_at⟩
  · exact uses_pure _
  · exact uses_pure _
  · exact uses_perform trivial
  · exact uses_pure _

/-- Looking at the expiry of a payload is inert. -/
theorem payload_is_expired_inert (show_expired : Bool) (p : Payload) :
    (Mem0.payload_is_expired show_expired p).Uses inert := by
  unfold Mem0.payload_is_expired
  split
  · exact uses_pure _
  · exact uses_perform trivial

theorem format_rows_inert (show_expired : Bool) (limit : ℕ) (rows : List (Id × Payload))
    (formatted : List Item) : (Mem0.format_rows show_expired limit rows formatted).Uses inert := by
  induction rows generalizing formatted with
  | nil => exact uses_pure _
  | cons row rows ih =>
    unfold Mem0.format_rows
    refine uses_bind (payload_is_expired_inert _ _) fun expired => ?_
    split
    · exact ih _
    · simp only
      split
      · exact uses_pure _
      · exact ih _

theorem get_all_inert (filters : Filters) (top_k : ℕ) (show_expired : Bool) :
    (Mem0.get_all filters top_k show_expired).Uses inert :=
  uses_bind (lift_except_uses _) fun _ => uses_bind (refuse_if_uses _ _) fun _ =>
    uses_bind (uses_perform trivial) fun _ => format_rows_inert _ _ _ _

theorem mem0_get_inert (id : Id) : (Mem0.get id).Uses inert :=
  uses_bind (vs_get_inert id) fun _ => uses_pure _

theorem search_inert (query : String) (top_k : ℕ) (filters : Filters) :
    (Mem0.search query top_k filters).Uses inert :=
  uses_bind (refuse_if_uses _ _) fun _ => uses_bind (lift_except_uses _) fun _ =>
    uses_bind (refuse_if_uses _ _) fun _ => uses_perform trivial

theorem delete_guard_inert (id : Id) : (delete_guard id).Uses inert := by
  refine uses_bind (point_payload_inert id) fun p => ?_
  cases p with
  | none => exact uses_pure _
  | some p =>
    simp only
    split
    · exact uses_pure _
    · refine uses_bind (uses_tryCatch (get_all_inert _ _ _) fun _ => uses_pure _) fun items => ?_
      split
      · exact uses_pure _
      · exact uses_pure _

theorem stored_payload_inert (id : Id) : (ops.stored_payload id).Uses inert := vs_get_inert id

theorem heads_level_inert {get_payload : Id → Code (Option Payload)}
    (hget : ∀ id, (get_payload id).Uses inert) (frontier visited next heads : List Id) :
    (heads_level get_payload frontier visited next heads).Uses inert := by
  induction frontier generalizing visited next heads with
  | nil => exact uses_pure _
  | cons node frontier ih =>
    unfold heads_level
    split
    · exact ih _ _ _
    · refine uses_bind (hget node) fun p => ?_
      simp only
      split
      · exact ih _ _ _
      · split
        · exact ih _ _ _
        · exact ih _ _ _

/-- The walk to the heads is inert when reading is. -/
theorem heads_walk_inert {get_payload : Id → Code (Option Payload)}
    (hget : ∀ id, (get_payload id).Uses inert) (levels : ℕ) (frontier visited heads : List Id)
    (hops : ℕ) : (heads_walk get_payload levels frontier visited heads hops).Uses inert := by
  induction levels generalizing frontier visited heads hops with
  | zero => exact uses_pure _
  | succ levels ih =>
    unfold heads_walk
    split
    · exact uses_pure _
    · exact uses_bind (heads_level_inert hget _ _ _ _) fun _ => ih _ _ _ _

theorem resolve_head_inert (id : Id) : (resolve_head ops.stored_payload id).Uses inert :=
  uses_bind (stored_payload_inert id) fun _ => uses_bind (refuse_if_uses _ _) fun _ =>
    uses_bind (heads_walk_inert stored_payload_inert _ _ _ _ _) fun _ => uses_pure _

theorem scan_expired_inert (host : Host) (now : String) (limit : ℕ) :
    (scan_expired host now limit).Uses inert := by
  unfold scan_expired
  refine uses_tryCatch ?_ fun _ => uses_pure _
  exact uses_bind (get_all_inert _ _ _) fun _ => uses_pure _

/-- The time that is given or asked for is inert. -/
theorem given_now_inert (now : Option String) : (given_now now).Uses inert := by
  cases now with
  | none => exact now_iso_inert
  | some t =>
    unfold given_now
    simp only
    split
    · exact now_iso_inert
    · exact uses_pure t

theorem stamp_created_inert (p : Payload) : (Mem0.stamp_created p).Uses inert := by
  unfold Mem0.stamp_created Mem0.created_at_of
  refine uses_bind ?_ fun _ => uses_pure _
  split
  · exact uses_pure _
  · exact uses_bind now_iso_inert fun _ => uses_pure _

theorem record_of_inert (host : Host) (metadata : Payload) (hashes : List Value)
    (acc : List Mem0.Record × List String) (mem : Extracted) :
    (Mem0.record_of host metadata hashes acc mem).Uses inert := by
  unfold Mem0.record_of
  simp only
  split
  · exact uses_pure _
  · refine uses_bind (uses_perform trivial) fun _ => ?_
    exact uses_bind (stamp_created_inert _) fun _ => uses_pure _

theorem persist_history_inert (records : List Mem0.Record) :
    (Mem0.persist_history records).Uses inert :=
  uses_tryCatch (uses_perform trivial) fun _ =>
    uses_forM fun _ _ => attempt_uses (uses_perform trivial)

/-! ## Payload writes and statements on pairs -/

section effects

variable {ok : Call → Prop} (hinert : ∀ c, inert c → ok c)
include hinert

/-- Closing the pairs of an old memory is one statement. -/
theorem close_for_old_uses {id : Id} {d : String} {by_ kind : Option String}
    (h : ∀ now, ok (.pairs (.close_for_old id d by_ kind now))) :
    (pair_store.close_for_old id d by_ kind).Uses ok :=
  uses_bind (now_iso_inert.mono hinert) fun now => uses_perform (h now)

/-- Closing the pairs of a reworded text is one statement. -/
theorem close_for_updated_text_uses {id : Id} {text : String}
    (h : ∀ now, ok (.pairs (.close_for_updated_text id text now))) :
    (pair_store.close_for_updated_text id text).Uses ok :=
  uses_bind (now_iso_inert.mono hinert) fun now => uses_perform (h now)

theorem record_judgment_uses {j : Judgment}
    (h : ∀ pair_id now, ok (.pairs (.record_judgment j pair_id now))) :
    (pair_store.record_judgment j).Uses ok :=
  uses_bind (uses_perform (hinert _ trivial)) fun pair_id =>
    uses_bind (now_iso_inert.mono hinert) fun now => uses_perform (h pair_id now)

theorem dispose_uses {pair_id : Id} {d : String} {by_ : Option String}
    (h : ∀ now, ok (.pairs (.dispose pair_id d by_ now))) :
    (pair_store.dispose pair_id d by_).Uses ok :=
  uses_bind (now_iso_inert.mono hinert) fun now => uses_perform (h now)

/-- Clearing a protection is, apart from what is inert, one write. -/
theorem clear_displacement_protection_uses {id : Id} {actor_id : Option String} {cause : String}
    (hwrite : ok (.vs_set_payload id cleared_protection)) :
    (clear_displacement_protection id actor_id cause).Uses ok := by
  refine uses_bind ((point_payload_inert id).mono hinert) fun _ => ?_
  refine uses_bind (expect_uses _ _) fun p => ?_
  simp only
  split
  · refine uses_bind (uses_perform hwrite) fun _ => ?_
    refine uses_bind (now_iso_inert.mono hinert) fun now => ?_
    exact uses_bind ((note_history_inert _ _ _ _ _).mono hinert) fun _ => uses_pure _
  · exact uses_pure _

theorem clear_if_changed_uses {text_changed : Bool} {id : Id} {actor_id : Value}
    (hwrite : ok (.vs_set_payload id cleared_protection)) :
    (ops.clear_if_changed text_changed id actor_id).Uses ok := by
  unfold ops.clear_if_changed
  split
  · exact uses_bind (clear_displacement_protection_uses hinert hwrite) fun _ => uses_pure _
  · exact uses_pure _

/-- Invalidation writes its patch and closes the pairs of the old memory. -/
theorem invalidate_uses {id : Id} {by_ids : List Id} {reason actor_id session_id : Option String}
    (hwrite : ∀ now,
      ok
        (.vs_set_payload id (invalidate_patch (distinct_ids by_ids) now reason
          actor_id session_id)))
    (hclose : ∀ now, ok (.pairs (.close_for_old id "obsoleted" actor_id none now))) :
    (invalidate id by_ids reason actor_id session_id).Uses ok := by
  unfold invalidate
  refine uses_bind ((check_invalidate_looks_up _ _).mono
    fun c hc => hinert c (inert_of_looks_up hc)) fun _ => ?_
  refine uses_bind (now_iso_inert.mono hinert) fun now => ?_
  refine uses_bind (uses_perform (hwrite now)) fun _ => ?_
  refine uses_bind ((note_history_inert _ _ _ _ _).mono hinert) fun _ => ?_
  exact uses_bind (close_for_old_uses hinert hclose) fun _ => uses_pure _

theorem revive_uses {id : Id} {actor_id session_id : Option String}
    (hwrite : ∀ now, ok (.vs_set_payload id (revive_patch now actor_id session_id))) :
    (revive id actor_id session_id).Uses ok := by
  refine uses_bind ((point_payload_inert id).mono hinert) fun _ => ?_
  refine uses_bind (expect_uses _ _) fun _ => ?_
  refine uses_bind (refuse_if_uses _ _) fun _ => ?_
  refine uses_bind (now_iso_inert.mono hinert) fun now => ?_
  refine uses_bind (uses_perform (hwrite now)) fun _ => ?_
  exact uses_bind ((note_history_inert _ _ _ _ _).mono hinert) fun _ => uses_pure _

/-- Setting a deadline writes its patch and closes the expiry pairs. -/
theorem set_ttl_uses {id : Id} {mode : TtlMode} {actor_id : Option String}
    (hwrite : ∀ now expires_at, ok (.vs_set_payload id (ttl_patch mode now expires_at actor_id)))
    (hclose : ∀ now, ok (.pairs (.close_for_old id "ttl" actor_id (some KIND_TTL_EXPIRY) now))) :
    (set_ttl id mode actor_id).Uses ok := by
  refine uses_bind ((point_payload_inert id).mono hinert) fun _ => ?_
  refine uses_bind (expect_uses _ _) fun _ => ?_
  refine uses_bind (now_iso_inert.mono hinert) fun now => ?_
  refine uses_bind ((ttl_deadline_inert mode).mono hinert) fun expires_at => ?_
  refine uses_bind (uses_perform (hwrite now expires_at)) fun _ => ?_
  refine uses_bind (attempt_uses ?_) fun _ => ?_
  · exact uses_bind (close_for_old_uses hinert hclose) fun _ => uses_pure _
  · exact uses_bind ((note_history_inert _ _ _ _ _).mono hinert) fun _ => uses_pure _

/-- The stamp of a harvested memory. -/
theorem harvest_item_uses {now : String} {item : Item}
    (hwrite : ok (.vs_set_payload item.id (.ofList [(TTL_EXPIRED_AT, .str now)])))
    (hclose : ∀ t, ok (.pairs (.close_for_old item.id "expired" none none t)))
    (hflag : ∀ expires pair_id t, ok (.pairs (.record_judgment
      (expiry_judgment item item.id expires now) pair_id t))) (harvested : ℕ) :
    (harvest_item now harvested item).Uses ok := by
  unfold harvest_item
  simp only
  split
  · exact uses_pure _
  · split
    · exact uses_pure _
    · refine uses_bind (uses_perform hwrite) fun _ => ?_
      refine uses_bind (attempt_uses (uses_perform (hinert _ trivial))) fun _ => ?_
      refine uses_bind (attempt_uses ?_) fun _ => uses_pure _
      refine uses_bind (close_for_old_uses hinert hclose) fun _ => ?_
      exact uses_bind (record_judgment_uses hinert (hflag _)) fun _ => uses_pure _

theorem harvest_expired_uses {host : Host} {now : Option String} {limit : ℕ}
    (hwrite : ∀ id t, ok (.vs_set_payload id (.ofList [(TTL_EXPIRED_AT, .str t)])))
    (hclose : ∀ id t, ok (.pairs (.close_for_old id "expired" none none t)))
    (hflag : ∀ j pair_id t, j.kind = KIND_TTL_EXPIRY →
      ok (.pairs (.record_judgment j pair_id t))) :
    (harvest_expired host now limit).Uses ok := by
  unfold harvest_expired
  refine uses_bind ((given_now_inert now).mono hinert) fun now => ?_
  refine uses_bind ((scan_expired_inert host now limit).mono hinert) fun scan => ?_
  cases scan with
  | error e => exact uses_pure _
  | ok items =>
    refine uses_bind (uses_foldlM (fun b item _ => ?_) 0) fun _ => uses_pure _
    exact harvest_item_uses hinert (hwrite _ _) (hclose _) (fun _ _ _ => hflag _ _ _ rfl) b

theorem mem0_update_uses {host : Host} {id : Id} {text : String} {metadata : Payload}
    (hwrite : ∀ p now, ok (.vs_upsert id (Mem0.updated_payload host p text metadata now))) :
    (Mem0.update host id text metadata).Uses ok := by
  refine uses_bind ((vs_get_inert id).mono hinert) fun _ => ?_
  refine uses_bind (expect_uses _ _) fun _ => ?_
  refine uses_bind (now_iso_inert.mono hinert) fun _ => ?_
  exact uses_bind (uses_perform (hwrite _ _)) fun _ => uses_perform (hinert _ trivial)

/-- An update writes one point, clears what it must and closes the pairs of the old text. -/
theorem update_uses {host : Host} {id : Id} {text : String} {metadata : Payload}
    (hwrite : ∀ p now, ok (.vs_upsert id (Mem0.updated_payload host p text metadata now)))
    (hclear : ok (.vs_set_payload id cleared_protection))
    (hclose : ∀ now, ok (.pairs (.close_for_updated_text id text now))) :
    (ops.update host id text metadata).Uses ok := by
  refine uses_bind ((vs_get_inert id).mono hinert) fun _ => ?_
  refine uses_bind (mem0_update_uses hinert hwrite) fun _ => ?_
  refine uses_bind (clear_if_changed_uses hinert hclear) fun _ => ?_
  refine uses_bind (attempt_uses ?_) fun _ => uses_pure _
  exact uses_bind (close_for_updated_text_uses hinert hclose) fun _ => uses_pure _

/-- The deletion of the store deletes one point. -/
theorem mem0_delete_uses {host : Host} {id : Id} (hwrite : ok (.vs_delete id)) :
    (Mem0.delete host id).Uses ok := by
  refine uses_bind ((vs_get_inert id).mono hinert) fun _ => ?_
  refine uses_bind (expect_uses _ _) fun _ => ?_
  refine uses_bind (now_iso_inert.mono hinert) fun _ => ?_
  exact uses_bind (uses_perform hwrite) fun _ => uses_perform (hinert _ trivial)

/-- A deletion deletes, or expires where the guard says so. -/
theorem delete_uses {host : Host} {id : Id} {actor_id : Option String}
    (hdelete : ok (.vs_delete id))
    (hwrite : ∀ now expires_at,
      ok (.vs_set_payload id (ttl_patch .expire_now now expires_at actor_id)))
    (hclose : ∀ now, ok (.pairs (.close_for_old id "ttl" actor_id (some KIND_TTL_EXPIRY) now))) :
    (ops.delete host id actor_id).Uses ok := by
  refine uses_bind ((delete_guard_inert id).mono hinert) fun guard => ?_
  split
  · exact uses_bind (set_ttl_uses hinert hwrite hclose) fun _ => uses_pure _
  · exact uses_bind (mem0_delete_uses hinert hdelete) fun _ => uses_pure _

end effects

/-! ## Recording judgments -/

/-- What inert calls keep, a program of inert calls keeps. -/
theorem keeps_of_inert {σ α : Type} {h : Handler Api σ} {P : σ → Prop}
    (hinert : ∀ c s, inert c → P s → P (h c s).2) {p : Code α} (hp : p.Uses inert) : p.Keeps h P :=
  hp.keeps hinert

section judgments

/-! What holds of inert programs and of recording a judgment, and carries over to
sequences, holds of a check. -/

variable {K : {α : Type} → Code α → Prop}
  (hinert : ∀ {α : Type} {p : Code α}, p.Uses inert → K p)
  (hbind : ∀ {α β : Type} {p : Code α} {f : α → Code β}, K p → (∀ a, K (f a)) → K (p >>= f))
include hinert hbind

/-- A self check records judgments about the entry itself. -/
theorem self_check_closed {new_id : Id} {new_text kind : String}
    {judge_model session_id : Option String} {judged : Code Verdict} (hjudged : judged.Uses inert)
    (hrecord : ∀ j, j.old_id = new_id → K (pair_store.record_judgment j)) :
    K (self_check new_id new_text kind judge_model session_id judged) := by
  unfold self_check
  refine hbind (hinert (uses_perform trivial)) fun cached => ?_
  split
  · exact hinert (uses_pure _)
  · refine hbind (hinert hjudged) fun v => ?_
    refine hbind (hinert (uses_perform trivial)) fun model => ?_
    exact hbind (hrecord _ rfl) fun _ => hinert (uses_pure _)

/-- A property of programs that holds of recording a judgment holds of the checks of one memory. -/
theorem run_self_checks_closed {new_id : Id} {new_text : String} {payload : Payload}
    {judge_model session_id : Option String}
    (hrecord : ∀ j, j.old_id = new_id → K (pair_store.record_judgment j)) :
    K (run_self_checks new_id new_text payload judge_model session_id) := by
  unfold run_self_checks
  refine hbind (self_check_closed hinert hbind (uses_perform trivial) hrecord) fun _ => ?_
  refine hbind (self_check_closed hinert hbind (uses_perform trivial) hrecord) fun _ => ?_
  refine hbind (self_check_closed hinert hbind ?_ hrecord) fun _ => hinert (uses_pure _)
  unfold judge_correctness
  refine uses_bind (uses_perform trivial) fun v => ?_
  split
  · exact uses_pure _
  · exact uses_pure _

variable (hrecord : ∀ j, K (pair_store.record_judgment j))
include hrecord

theorem record_displacement_closed {new_id : Id} {candidates : List JudgeEntry}
    {judge_model session_id : Option String} (opened : ℕ) (v : Id × Verdict) :
    K (record_displacement new_id candidates judge_model session_id opened v) := by
  unfold record_displacement
  refine hbind (hinert (uses_perform trivial)) fun model => ?_
  exact hbind (hrecord _) fun _ => hinert (uses_pure _)

theorem record_displacements_closed {new_id : Id} {candidates : List JudgeEntry}
    {judge_model session_id : Option String} (opened : ℕ) (judgments : List (Id × Verdict)) :
    K (judgments.foldlM (record_displacement new_id candidates judge_model session_id) opened) := by
  induction judgments generalizing opened with
  | nil => exact hinert (uses_pure _)
  | cons v judgments ih =>
    rw [List.foldlM_cons]
    exact hbind (record_displacement_closed hinert hbind hrecord opened v) ih

theorem run_stale_check_closed (new_id : Id) (session_id judge_model : Option String) (top_k : ℕ)
    (self_only : Bool) : K (run_stale_check new_id session_id judge_model top_k self_only) := by
  unfold run_stale_check
  refine hbind (hinert (point_payload_inert _)) fun found => ?_
  cases found with
  | none => exact hinert (uses_pure _)
  | some payload =>
    simp only
    split
    · exact hinert (uses_pure _)
    split
    · exact hinert (uses_pure _)
    refine hbind (run_self_checks_closed hinert hbind fun j _ => hrecord j) fun self_report => ?_
    split
    · exact hinert (uses_pure _)
    refine hbind (hinert (search_inert _ _ _)) fun items => ?_
    refine hbind (hinert now_iso_inert) fun now => ?_
    refine hbind (hinert (uses_perform trivial)) fun already => ?_
    split
    · exact hinert (uses_pure _)
    refine hbind (hinert (uses_perform trivial)) fun judgments => ?_
    refine hbind (record_displacements_closed hinert hbind hrecord 0 judgments) fun _ => ?_
    exact hinert (uses_pure _)

end judgments

/-- The checks of one memory keep what recording a judgment keeps. -/
theorem run_self_checks_keeps {σ : Type} {h : Handler Api σ} {P : σ → Prop}
    (hinert : ∀ c s, inert c → P s → P (h c s).2) {new_id : Id} {new_text : String}
    {payload : Payload} {judge_model session_id : Option String}
    (hrecord : ∀ j, j.old_id = new_id → (pair_store.record_judgment j).Keeps h P) :
    (run_self_checks new_id new_text payload judge_model session_id).Keeps h P :=
  run_self_checks_closed (K := fun p => p.Keeps h P) (keeps_of_inert hinert) keeps_bind hrecord

/-- The background check keeps what inert calls and recording a judgment keep. -/
theorem run_stale_check_keeps {σ : Type} {h : Handler Api σ} {P : σ → Prop}
    (hinert : ∀ c s, inert c → P s → P (h c s).2)
    (hrecord : ∀ j, (pair_store.record_judgment j).Keeps h P) (new_id : Id)
    (session_id judge_model : Option String) (top_k : ℕ) (self_only : Bool) :
    (run_stale_check new_id session_id judge_model top_k self_only).Keeps h P :=
  run_stale_check_closed (K := fun p => p.Keeps h P) (keeps_of_inert hinert)
    keeps_bind hrecord _ _ _
    _ _

/-- A check makes inert calls and records judgments. -/
theorem run_stale_check_uses {ok : Call → Prop} (hinert : ∀ c, inert c → ok c)
    (hrecord : ∀ j pair_id judged_at, ok (.pairs (.record_judgment j pair_id judged_at)))
    (new_id : Id) (session_id judge_model : Option String) (top_k : ℕ) (self_only : Bool) :
    (run_stale_check new_id session_id judge_model top_k self_only).Uses ok :=
  run_stale_check_closed (K := fun p => p.Uses ok) (fun hp => hp.mono hinert) uses_bind
    (fun j => record_judgment_uses hinert fun _ _ => hrecord j _ _) _ _ _ _ _

/-! ## Adding -/

/-- The fields that `add` sets itself. -/
def added_fields : List String :=
  ["role", "actor_id", "data", "hash", "created_at", "updated_at", "text_lemmatized",
    "attributed_to"] ++ Mem0.ENTITY_PARAMS

/-- Any other field is as in the metadata. -/
def Agrees (metadata p : Payload) : Prop :=
  ∀ key ∉ added_fields, p.lookup key = metadata.lookup key

/-- A new memory stored for `metadata`: not empty, with the fields of `metadata`. -/
def FromMetadata (metadata p : Payload) : Prop := Agrees metadata p ∧ p.truthy = true

/-- A payload that holds a text and the hash of it. -/
def Hashed (host : Host) (p : Payload) : Prop :=
  ∃ text, p.get "data" = .str text ∧ p.get "hash" = .str (host.md5 text)

/-- Such a memory, and its text is hashed. -/
def NewMemory (host : Host) (metadata p : Payload) : Prop := FromMetadata metadata p ∧ Hashed host p

namespace Hashed

variable {host : Host}

/-- A payload with another key set is hashed as before. -/
theorem set {p : Payload} (h : Hashed host p) {key : String} (v : Value) (hdata : key ≠ "data")
    (hhash : key ≠ "hash") : Hashed host (p.set key v) := by
  obtain ⟨text, htext, htext'⟩ := h
  refine ⟨text, ?_, ?_⟩
  · rw [Payload.get_set_ne _ _ hdata.symm, htext]
  · rw [Payload.get_set_ne _ _ hhash.symm, htext']

theorem merge {p patch : Payload} (h : Hashed host p) (hdata : "data" ∉ patch)
    (hhash : "hash" ∉ patch) : Hashed host (p.merge patch) := by
  obtain ⟨text, htext, htext'⟩ := h
  refine ⟨text, ?_, ?_⟩
  · rw [Payload.get_merge_of_notMem hdata, htext]
  · rw [Payload.get_merge_of_notMem hhash, htext']

theorem new_payload (data : String) (metadata : Payload) :
    Hashed host (Mem0.new_payload host data metadata) := by
  refine ⟨data, ?_, ?_⟩
  · unfold Mem0.new_payload
    rw [Payload.get_set_ne _ _ (by decide), Payload.get_set_self]
  · exact Payload.get_set_self _ _ _

/-- Stamping the creation leaves text and hash alone. -/
theorem stamp_created_ret {p p' : Payload} {es : List (Effect.Event Api)}
    (h : Trace (Mem0.stamp_created p) es (.ret p')) (hp : Hashed host p) : Hashed host p' := by
  obtain ⟨created_at, es₁, es₂, -, -, h₂⟩ := Trace.bind_ret h
  obtain ⟨-, rfl⟩ := Trace.ret_ret h₂
  exact (hp.set created_at (by decide) (by decide)).set _ (by decide) (by decide)

/-- An update hashes the text it writes. -/
theorem updated_payload (p : Payload) (text : String) (metadata : Payload) (now : String) :
    Hashed host (Mem0.updated_payload host p text metadata now) := by
  have hmerged : Hashed host ((p.merge metadata).merge (.ofList [("data", .str text),
      ("hash", .str (host.md5 text)), ("text_lemmatized", .str (host.lemmatize text)),
      ("created_at", p.get "created_at"), ("updated_at", .str now)])) := by
    refine ⟨text, Payload.get_merge_of_lookup ?_, Payload.get_merge_of_lookup ?_⟩
    · exact Payload.lookup_ofList_head _ (by simp)
    · rfl
  unfold Mem0.updated_payload
  simp only
  split
  · exact hmerged.set _ (by decide) (by decide)
  · exact hmerged

end Hashed

namespace FromMetadata

variable {metadata : Payload}

/-- Apart from the added fields, the payload holds what the metadata holds. -/
theorem get {p : Payload} (h : FromMetadata metadata p) {key : String} (hkey : key ∉ added_fields) :
    p.get key = metadata.get key := by
  rw [Payload.get, h.1 key hkey]
  rfl

/-- Setting an added field leaves what the metadata holds. -/
theorem set {p : Payload} (h : Agrees metadata p) {key : String} (v : Value)
    (hkey : key ∈ added_fields) : FromMetadata metadata (p.set key v) := by
  refine ⟨fun key' hkey' => ?_, Payload.truthy_set p key v⟩
  have hne : key' ≠ key := fun heq => hkey' (heq ▸ hkey)
  rw [Payload.lookup_set_ne _ _ hne, h key' hkey']

/-- Stamping the creation leaves what the metadata holds. -/
theorem stamp_created_ret {p p' : Payload} {es : List (Effect.Event Api)}
    (h : Trace (Mem0.stamp_created p) es (.ret p'))
    (hp : Agrees metadata p) : FromMetadata metadata p' := by
  obtain ⟨created_at, es₁, es₂, -, -, h₂⟩ := Trace.bind_ret h
  obtain ⟨-, rfl⟩ := Trace.ret_ret h₂
  exact .set (FromMetadata.set hp created_at (by decide)).1 _ (by decide)

end FromMetadata

namespace NewMemory

variable {host : Host} {metadata : Payload}

/-- The records of an extraction. -/
theorem record_of_ret {hashes : List Value} {acc acc' : List Mem0.Record × List String}
    {mem : Extracted} {es : List (Effect.Event Api)}
    (hacc : ∀ r ∈ acc.1, NewMemory host metadata r.payload)
    (h : Trace (Mem0.record_of host metadata hashes acc mem) es (.ret acc')) :
    ∀ r ∈ acc'.1, NewMemory host metadata r.payload := by
  unfold Mem0.record_of at h
  simp only at h
  split at h
  · obtain ⟨-, rfl⟩ := Trace.ret_ret h
    exact hacc
  · obtain ⟨id, _, es₂, -, -, h₂⟩ := Trace.bind_ret h
    obtain ⟨stamped, _, es₃, -, h₃, h₄⟩ := Trace.bind_ret h₂
    obtain ⟨-, rfl⟩ := Trace.ret_ret h₄
    have hdata : Agrees metadata (metadata.set "data" (.str mem.text)) :=
      (FromMetadata.set (fun _ _ => rfl) _ (by decide)).1
    have hlemma := (FromMetadata.set hdata (.str (host.lemmatize mem.text))
      (by decide : "text_lemmatized" ∈ added_fields)).1
    have hstamped : FromMetadata metadata stamped :=
      FromMetadata.stamp_created_ret h₃ (FromMetadata.set hlemma _ (by decide)).1
    have hhashed : Hashed host stamped := by
      refine Hashed.stamp_created_ret h₃ ⟨mem.text, ?_, Payload.get_set_self _ _ _⟩
      rw [Payload.get_set_ne _ _ (by decide), Payload.get_set_ne _ _ (by decide),
        Payload.get_set_self]
    intro r hr
    rcases List.mem_append.mp hr with hr | hr
    · exact hacc r hr
    · rw [List.mem_singleton] at hr
      subst hr
      simp only
      split
      · exact ⟨.set hstamped.1 _ (by decide), hhashed.set _ (by decide) (by decide)⟩
      · exact ⟨hstamped, hhashed⟩

/-- The records of a batch are those of new memories made of the metadata. -/
theorem records_ret {hashes : List Value} {extracted : List Extracted}
    {acc : List Mem0.Record × List String} {es : List (Effect.Event Api)}
    (h : Trace (extracted.foldlM (Mem0.record_of host metadata hashes) ([], [])) es (.ret acc)) :
    ∀ r ∈ acc.1, NewMemory host metadata r.payload := by
  let good (acc : List Mem0.Record × List String) : Prop :=
    ∀ r ∈ acc.1, NewMemory host metadata r.payload
  have hnil : good ([], []) := by simp [good]
  exact Trace.foldlM_ret h hnil fun _ _ _ _ _ hacc hstep => record_of_ret hacc hstep

/-- A payload `_create_memory` has stamped. -/
theorem stamped_ret {data : String} {p stamped : Payload} {es : List (Effect.Event Api)}
    (h : Trace (Mem0.stamp_created (Mem0.new_payload host data p)) es (.ret stamped))
    (hp : Agrees metadata p) :
    NewMemory host metadata (stamped.set "text_lemmatized" (.str (host.lemmatize data))) := by
  have hnew : Agrees metadata (Mem0.new_payload host data p) :=
    (FromMetadata.set (FromMetadata.set hp _ (by decide)).1 _ (by decide)).1
  have hhashed := Hashed.stamp_created_ret h (Hashed.new_payload data p)
  exact ⟨.set (FromMetadata.stamp_created_ret h hnew).1 _ (by decide),
    hhashed.set _ (by decide) (by decide)⟩

end NewMemory

section adding

variable {host : Host} {ok : Call → Prop} {metadata : Payload}
  (hinsert : ∀ points, (∀ p ∈ points, NewMemory host metadata p.2) → ok (.vs_insert points))
include hinsert

theorem persist_uses {records : List Mem0.Record}
    (h : ∀ r ∈ records, NewMemory host metadata r.payload) : (Mem0.persist records).Uses ok := by
  unfold Mem0.persist
  refine uses_tryCatch (uses_perform (hinsert _ fun p hp => ?_)) fun _ =>
    uses_forM fun r hr => attempt_uses (uses_perform (hinsert _ fun p hp => ?_))
  · obtain ⟨r, hr, rfl⟩ := List.mem_map.mp hp
    exact h r hr
  · rw [List.mem_singleton] at hp
    subst hp
    exact h r hr

variable (hinert : ∀ c, inert c → ok c)
include hinert

theorem create_memory_uses (data : String) {p : Payload} (h : Agrees metadata p) :
    (Mem0.create_memory host data p).Uses ok := by
  unfold Mem0.create_memory
  refine uses_bind (uses_perform (hinert _ trivial)) fun memory_id => ?_
  refine uses_bind_ret ((stamp_created_inert _).mono hinert) fun stamped es hret => ?_
  refine uses_bind (uses_perform (hinsert _ fun q hq => ?_)) fun _ => ?_
  · rw [List.mem_singleton] at hq
    subst hq
    exact NewMemory.stamped_ret hret h
  · exact uses_bind (uses_perform (hinert _ trivial)) fun _ => uses_pure _

/-- Adding a message as it is writes a new memory. -/
theorem add_message_uses {p : Payload} (filters : Filters) (m : Message) (h : Agrees metadata p) :
    (Mem0.add_message host p filters m).Uses ok := by
  unfold Mem0.add_message
  split
  · rename_i role content _ _
    split
    · exact uses_pure _
    · refine uses_bind (uses_tryCatch (uses_perform (hinert _ trivial)) fun _ => uses_pure _)
        fun rows => ?_
      cases rows with
      | cons row rows => exact uses_pure _
      | nil =>
        refine uses_bind (uses_tryCatch (uses_perform (hinert _ trivial)) fun _ => uses_pure _)
          fun hits => ?_
        refine uses_bind (create_memory_uses hinsert hinert content ?_) fun _ => uses_pure _
        have hrole := (FromMetadata.set h (.str role) (by decide : "role" ∈ added_fields)).1
        split
        · exact (FromMetadata.set hrole _ (by decide)).1
        · exact hrole
  · exact uses_pure _

/-- Adding what was extracted writes new memories. -/
theorem add_extracted_uses (messages : List Message) (filters : Filters) {p : Payload}
    (h : Agrees metadata p) : (Mem0.add_extracted host messages p filters).Uses ok := by
  unfold Mem0.add_extracted
  refine uses_bind (uses_perform (hinert _ trivial)) fun existing => ?_
  refine uses_bind (uses_perform (hinert _ trivial)) fun extracted => ?_
  refine uses_bind_ret (uses_foldlM (fun acc mem _ => ?_) _) fun acc es hacc => ?_
  · exact (record_of_inert _ _ _ _ _).mono hinert
  · have hrecords : ∀ r ∈ acc.1, NewMemory host metadata r.payload := by
      intro r hr
      obtain ⟨⟨hsame, htruthy⟩, hhashed⟩ := NewMemory.records_ret hacc r hr
      exact ⟨⟨fun key hkey => (hsame key hkey).trans (h key hkey), htruthy⟩, hhashed⟩
    simp only
    split
    · exact uses_pure _
    · refine uses_bind (persist_uses hinsert hrecords) fun _ => ?_
      exact uses_bind ((persist_history_inert acc.1).mono hinert) fun _ => uses_pure _

end adding

/-- Fields of the scope are among those that `add` sets. -/
theorem agrees_foldl_set {entries : List (String × String)} {metadata p : Payload}
    (h : ∀ e ∈ entries, e.1 ∈ added_fields) (hp : Agrees metadata p) :
    Agrees metadata (entries.foldl (fun p e => p.set e.1 (.str e.2)) p) := by
  induction entries generalizing p with
  | nil => exact hp
  | cons e entries ih =>
    refine ih (fun x hx => h x (List.mem_cons_of_mem _ hx)) ?_
    exact (FromMetadata.set hp _ (h e List.mem_cons_self)).1

/-- The ids that were given are those of users, agents and runs. -/
theorem provided_ids_keys {user_id agent_id run_id : Option String}
    {provided : List (String × String)}
    (h : Mem0.provided_ids user_id agent_id run_id = .ok provided) :
    ∀ e ∈ provided, e.1 ∈ Mem0.ENTITY_PARAMS := by
  unfold Mem0.provided_ids at h
  simp only [Bind.bind, Except.bind] at h
  split at h
  · cases h
  split at h
  · cases h
  split at h
  · cases h
  injection h with h
  subst h
  intro e he
  simp only [List.mem_append, List.mem_map] at he
  rcases he with (⟨_, -, rfl⟩ | ⟨_, -, rfl⟩) | ⟨_, -, rfl⟩
  · simp [Mem0.ENTITY_PARAMS]
  · simp [Mem0.ENTITY_PARAMS]
  · simp [Mem0.ENTITY_PARAMS]

/-- The metadata that is built agrees with what was passed in, outside the added fields. -/
theorem build_filters_and_metadata_agrees {user_id agent_id run_id : Option String}
    {input metadata : Payload} {filters : Filters}
    (h : Mem0.build_filters_and_metadata user_id agent_id run_id input = .ok (metadata, filters)) :
    Agrees input metadata := by
  unfold Mem0.build_filters_and_metadata at h
  simp only [Bind.bind, Except.bind] at h
  split at h
  · cases h
  rename_i provided hprovided
  split at h
  · cases h
  injection h with h
  obtain ⟨rfl, -⟩ := Prod.mk.inj h
  refine agrees_foldl_set (fun e he => ?_) fun _ _ => rfl
  exact List.mem_append_right _ (provided_ids_keys hprovided e he)

/-- `add` inserts new memories made from the given metadata, and that is all. -/
theorem add_uses {host : Host} {ok : Call → Prop} (hinert : ∀ c, inert c → ok c)
    {metadata : Payload}
    (hinsert : ∀ points, (∀ p ∈ points, NewMemory host metadata p.2) → ok (.vs_insert points))
    (messages : List Message) (user_id agent_id run_id : Option String)
    (infer : Bool) : (Mem0.add host messages user_id agent_id run_id metadata infer).Uses ok := by
  unfold Mem0.add
  cases hbuild : Mem0.build_filters_and_metadata user_id agent_id run_id metadata with
  | error e => exact uses_throw _
  | ok built =>
    obtain ⟨processed, filters⟩ := built
    have hagrees := build_filters_and_metadata_agrees hbuild
    simp only [lift_except, pure_eq, ret_bind]
    split
    · exact add_extracted_uses hinsert hinert messages filters hagrees
    · refine uses_foldlM (fun acc m _ => ?_) _
      exact uses_bind (add_message_uses hinsert hinert filters m hagrees) fun _ => uses_pure _

/-! ## Requests -/

/-- The statements on pairs that a request may lead to. -/
def ops.Request.closes : ops.Request → PairOp → Prop
  | update memory_id text _, .close_for_updated_text id current_text _ =>
    id = memory_id ∧ current_text = text
  | delete memory_id _, .close_for_old old_id _ _ _ _
  | invalidate memory_id _ _ _ _, .close_for_old old_id _ _ _ _
  | set_ttl memory_id _ _, .close_for_old old_id _ _ _ _ => old_id = memory_id
  | _, _ => False

/-- A request makes inert calls, writes points and closes pairs of its memory. -/
theorem dispatch_uses {ok : Call → Prop} (hinert : ∀ c, inert c → ok c)
    (hpoints : ∀ c, c.writes = true → ok c) (host : Host) (r : ops.Request)
    (hpairs : ∀ op, r.closes op → ok (.pairs op)) : (ops.dispatch host r).Uses ok := by
  cases r with
  | get id => exact uses_bind ((mem0_get_inert id).mono hinert) fun _ => uses_pure _
  | add content user_id agent_id run_id metadata infer =>
    refine uses_bind (add_uses hinert (fun points _ => hpoints _ rfl) content user_id agent_id
      run_id infer) fun _ => uses_pure _
  | update id text metadata =>
    refine uses_bind (update_uses hinert (fun _ _ => hpoints _ rfl) (hpoints _ rfl) fun now => ?_)
      fun _ => uses_pure _
    exact hpairs (.close_for_updated_text id text now) ⟨rfl, rfl⟩
  | delete id actor_id =>
    refine delete_uses hinert (hpoints _ rfl) (fun _ _ => hpoints _ rfl) fun now => ?_
    exact hpairs (.close_for_old id "ttl" actor_id (some KIND_TTL_EXPIRY) now) rfl
  | invalidate id by_ids reason actor_id session_id =>
    refine uses_bind (invalidate_uses hinert (fun _ => hpoints _ rfl) fun now => ?_)
      fun _ => uses_pure _
    exact hpairs (.close_for_old id "obsoleted" actor_id none now) rfl
  | revive id actor_id session_id =>
    exact uses_bind (revive_uses hinert fun _ => hpoints _ rfl) fun _ => uses_pure _
  | set_ttl id mode actor_id =>
    refine uses_bind (set_ttl_uses hinert (fun _ _ => hpoints _ rfl) fun now => ?_) fun _ =>
      uses_pure _
    exact hpairs (.close_for_old id "ttl" actor_id (some KIND_TTL_EXPIRY) now) rfl
  | resolve_head id =>
    exact uses_bind ((resolve_head_inert id).mono hinert) fun _ => uses_pure _

end Memline
