/-
Which calls the commands of the CLI make.

The same split as for the operations they send: a command makes `ok` calls when
inert calls are `ok` and its writes and statements on pairs are. Loading a pair,
asking for authority and building metadata are inert.
-/
import Memline.Calls
import Memline.Cli

set_option autoImplicit false

namespace Memline

open Effect Effect.Prog

namespace cli

/-! ## Before the first effect -/

theorem get_inert (memory_id : Id) : (get memory_id).Uses inert :=
  uses_bind (mem0_get_inert memory_id) fun _ => expect_uses _ _

/-- Working out the metadata of an update is inert. -/
theorem updated_memory_metadata_inert (client : Client) (existing : Item) (extra : Payload) :
    (updated_memory_metadata client existing extra).Uses inert := by
  unfold updated_memory_metadata
  refine uses_bind ?_ fun _ => uses_bind now_iso_inert fun _ => uses_pure _
  unfold ledger_timestamp
  simp only
  split
  · exact uses_pure _
  · exact uses_bind now_iso_inert fun _ => uses_pure _

theorem load_open_pair_inert (pair_id : Id) : (load_open_pair pair_id).Uses inert := by
  unfold load_open_pair
  refine uses_bind (uses_perform trivial) fun _ => ?_
  refine uses_bind (expect_uses _ _) fun _ => ?_
  exact uses_bind (refuse_if_uses _ _) fun _ => uses_pure _

/-- Asking for authority makes no call at all. -/
theorem require_disposition_authority_uses {ok : Call → Prop} (client : Client) (pair : PairRow)
    (force : Bool) (action : String) :
    (require_disposition_authority client pair force action).Uses ok := by
  unfold require_disposition_authority
  split
  · exact uses_pure ()
  split
  · exact uses_pure ()
  split
  · exact uses_pure ()
  split
  · exact refuse_if_uses _ _
  · exact uses_throw _

theorem confirm_destructive_uses {ok : Call → Prop} (client : Client) (force : Bool) :
    (confirm_destructive client force).Uses ok := by
  unfold confirm_destructive
  split
  · exact uses_pure _
  split
  · exact refuse_if_uses _ _
  · exact uses_throw _

/-- The outcome of a program makes the program's calls. -/
theorem outcome_uses {ok : Call → Prop} {α : Type} {p : Code α} (hp : p.Uses ok) :
    (outcome p).Uses ok :=
  uses_tryCatch (uses_bind hp fun _ => uses_pure _) fun _ => uses_pure _

/-! ## Mutations -/

section effects

variable {ok : Call → Prop} (hinert : ∀ c, inert c → ok c)
include hinert

/-- An audited program makes the program's calls. -/
theorem audited_uses {α : Type} {operation : String} {p : Code α} (hp : p.Uses ok) :
    (audited operation p).Uses ok := by
  refine uses_bind (outcome_uses hp) fun result => ?_
  cases result with
  | ok a => exact uses_bind (uses_perform (hinert _ trivial)) fun _ => uses_pure a
  | error e =>
    exact uses_bind (attempt_uses (uses_perform (hinert _ trivial))) fun _ =>
      uses_throw (I := Api) e

/-- What the command `invalidate` writes and closes. -/
theorem run_invalidate_uses {client : Client} {memory_id : Id} {by_ids : List Id} {reason : String}
    (hwrite : ∀ patch, ok (.vs_set_payload memory_id patch))
    (hclose : ∀ now,
      ok (.pairs (.close_for_old memory_id "obsoleted" (some client.actor) none now))) :
    (run_invalidate client memory_id by_ids reason).Uses ok := by
  refine uses_bind (audited_uses hinert (outcome_uses ?_)) fun result => ?_
  · exact invalidate_uses hinert (fun _ => hwrite _) hclose
  · cases result with
    | ok r => exact uses_pure r
    | error e => exact uses_throw _

/-- What a deadline set by a command writes and closes. -/
theorem apply_ttl_uses {client : Client} {memory_id : Id} {mode : TtlMode}
    (hwrite : ∀ patch, ok (.vs_set_payload memory_id patch))
    (hclose : ∀ now, ok (.pairs
      (.close_for_old memory_id "ttl" (some client.actor) (some KIND_TTL_EXPIRY) now))) :
    (apply_ttl client memory_id mode).Uses ok :=
  audited_uses hinert (set_ttl_uses hinert (fun _ _ => hwrite _) hclose)

/-- Whatever a confirmation mutates, it is the old memory of the pair, and closes its pairs. -/
theorem confirm_mutation_uses {client : Client} {pair : PairRow}
    (hwrite : ∀ patch, ok (.vs_set_payload pair.old_id patch))
    (hclose : ∀ d kind now, d ≠ "open" →
      ok (.pairs (.close_for_old pair.old_id d (some client.actor) kind now))) :
    (confirm_mutation client pair).Uses ok := by
  unfold confirm_mutation
  split
  · exact uses_pure _
  · split
    · refine uses_bind (apply_ttl_uses hinert hwrite fun _ => ?_) fun _ => uses_pure _
      exact hclose _ _ _ (by decide)
    · refine uses_bind (run_invalidate_uses hinert hwrite fun _ => ?_) fun _ => uses_pure _
      exact hclose _ _ _ (by decide)

/-- After a deletion the pairs of the memory are closed. -/
theorem close_after_delete_uses {memory_id : Id} {result : ops.Response}
    (hclose : ∀ now, ok (.pairs (.close_for_deleted_memory memory_id now))) :
    (close_after_delete memory_id result).Uses ok := by
  have hattempt : (attempt (do
      let _ ← pair_store.close_for_deleted_memory memory_id)).Uses ok :=
    attempt_uses (uses_bind (uses_bind (now_iso_inert.mono hinert)
      fun now => uses_perform (hclose now)) fun _ => uses_pure _)
  cases result with
  | downgraded_to_expiry _ _ => exact uses_pure ()
  | _ => exact hattempt

theorem delete_uses {host : Host} {client : Client} {memory_id : Id} {force : Bool}
    (hdelete : (ops.delete host memory_id (some client.actor)).Uses ok)
    (hclose : ∀ now, ok (.pairs (.close_for_deleted_memory memory_id now))) :
    (delete host client memory_id force).Uses ok := by
  unfold delete
  refine uses_bind ((mem0_get_inert _).mono hinert) fun _ => ?_
  refine uses_bind (confirm_destructive_uses client force) fun _ => audited_uses hinert ?_
  refine uses_bind hdelete fun result => ?_
  exact uses_bind (close_after_delete_uses hinert hclose) fun _ => uses_pure _

end effects

end cli

/-! ## Calls that leave dispositions alone -/

/-- A call that neither disposes of a pair nor reopens one. -/
def apart : Call → Prop
  | .pairs (.dispose ..) | .pairs (.reopen _) => False
  | _ => True

theorem apart_of_inert (c : Call) (h : inert c) : apart c := by
  cases c with
  | pairs op =>
    cases op with
    | dispose _ _ _ _ | reopen _ => exact h.elim
    | _ => trivial
  | _ => trivial

theorem invalidate_apart {client : cli.Client} {id : Id} {by_ids : List Id} {reason : String} :
    (cli.run_invalidate client id by_ids reason).Uses apart :=
  cli.run_invalidate_uses apart_of_inert (fun _ => trivial) fun _ => trivial

theorem ttl_apart {client : cli.Client} {id : Id} {mode : TtlMode} :
    (cli.apply_ttl client id mode).Uses apart :=
  cli.apply_ttl_uses apart_of_inert (fun _ => trivial) fun _ => trivial

end Memline
