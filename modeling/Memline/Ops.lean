/-
The registry of store operations and its one entry point.

A `Request` is an operation with its arguments, `dispatch` is the code it runs.
The daemon and the direct path of the CLI both go through it. A request that
deletes a whole scope is not among them.
-/
import Memline.Staleness

set_option autoImplicit false

namespace Memline

open Effect

namespace ops

/-- What a client may ask the store to do. -/
inductive Request where
  | get (memory_id : Id)
  | add (content : List Message) (user_id agent_id run_id : Option String) (metadata : Payload)
      (infer : Bool)
  | update (memory_id : Id) (text : String) (metadata : Payload)
  | delete (memory_id : Id) (actor_id : Option String)
  | invalidate (memory_id : Id) (by_ids : List Id) (reason actor_id session_id : Option String)
  | revive (memory_id : Id) (actor_id session_id : Option String)
  | set_ttl (memory_id : Id) (mode : TtlMode) (actor_id : Option String)
  | resolve_head (memory_id : Id)

/-- What it is told. -/
inductive Response where
  | item (found : Option Item)
  | added (results : List Mem0.AddResult)
  | updated (displacement_protection_cleared : Option Bool)
  | deleted
  | downgraded_to_expiry (reason : Option String) (ttl : TtlResult)
  | invalidated (result : InvalidateResult)
  | revived (result : ReviveResult)
  | ttl (result : TtlResult)
  | head (result : HeadResult)

/-- A changed text ends a displacement protection. -/
def clear_if_changed (text_changed : Bool) (memory_id : Id) (actor_id : Value) :
    Code (Option Bool) :=
  if text_changed then do
    let actor_id := if actor_id = .none then none else some actor_id.toStr
    let cleared ← clear_displacement_protection memory_id actor_id "text_updated"
    pure (some cleared.changed)
  else pure none

/-- `_update`: the write goes through mem0; a changed text also ends a
displacement protection and expires the suspicions against the old text. -/
def update (host : Host) (memory_id : Id) (text : String) (metadata : Payload) :
    Code (Option Bool) := do
  let point ← Prog.perform (I := Api) (.vs_get memory_id)
  let previous_payload := point.getD ∅
  -- what is stored is compared before it is written over
  let text_changed := decide (payload_text previous_payload ≠ text)
  Mem0.update host memory_id text metadata
  let cleared ← clear_if_changed text_changed memory_id (metadata.get "last_updated_by_agent_id")
  -- best effort: a failure is swallowed, and the pairs stay open
  attempt (do
    let _ ← pair_store.close_for_updated_text memory_id text)
  pure cleared

/-- `_delete` of one memory: a chain participant is expired, not deleted. -/
def delete (host : Host) (memory_id : Id) (actor_id : Option String) : Code Response := do
  let guard ← delete_guard memory_id
  if guard.participates then
    let result ← set_ttl memory_id .expire_now actor_id
    pure (.downgraded_to_expiry guard.reason result)
  else
    Mem0.delete host memory_id
    pure .deleted

/-- `_payload` of `_resolve_head`: a failing lookup is not caught. -/
def stored_payload (memory_id : Id) : Code (Option Payload) :=
  Prog.perform (I := Api) (.vs_get memory_id)

def dispatch (host : Host) : Request → Code Response
  | .get memory_id => do
    pure (.item (← Mem0.get memory_id))
  | .add content user_id agent_id run_id metadata infer => do
    pure (.added (← Mem0.add host content user_id agent_id run_id metadata infer))
  | .update memory_id text metadata => do
    pure (.updated (← update host memory_id text metadata))
  | .delete memory_id actor_id => delete host memory_id actor_id
  | .invalidate memory_id by_ids reason actor_id session_id => do
    pure (.invalidated (← invalidate memory_id by_ids reason actor_id session_id))
  | .revive memory_id actor_id session_id => do
    pure (.revived (← revive memory_id actor_id session_id))
  | .set_ttl memory_id mode actor_id => do
    pure (.ttl (← set_ttl memory_id mode actor_id))
  | .resolve_head memory_id => do
    pure (.head (← resolve_head stored_payload memory_id))

end ops

end Memline
