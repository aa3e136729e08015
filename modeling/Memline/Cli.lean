/-
The commands of the CLI that rewrite a memory or settle a suspicion.

A command is a program of its own process: it reads, decides and only then sends
its store operation, which runs the same handler in the daemon and in process.
What a command knows of its caller (writer context, terminal, configuration) is a
`Client`. The reports it prints are reduced to the values they are made of.
-/
import Memline.Ops

set_option autoImplicit false

namespace Memline

open Effect

namespace cli

/-- The process a command runs in: the detected writer, the configured names, and
whether a user sits at the terminal and agrees when asked. -/
structure Client where
  source : Option String
  session_id : Option Id
  manual_source : String
  manual_session : String
  memory_schema_version : Value
  max_raw_text_chars : ℕ
  interactive_tty : Bool
  confirms : Bool

/-- A client for fixed inputs: a non-interactive session of its own. -/
def Client.plain (session_id : Id) : Client where
  source := some "agent"
  session_id := some session_id
  manual_source := "manual"
  manual_session := "manual-session"
  memory_schema_version := .atom (.other "2" true)
  max_raw_text_chars := 600
  interactive_tty := false
  confirms := false

/-- `value or default`, on an optional string. -/
def nonempty_or (value : Option String) (default : String) : String :=
  match value with
  | some s => if s = "" then default else s
  | none => default

/-- `context.get("source") or MANUAL_SOURCE`. -/
def Client.actor (client : Client) : String := nonempty_or client.source client.manual_source

/-- `context.get("session_id") or MANUAL_SESSION`. -/
def Client.session (client : Client) : String :=
  nonempty_or client.session_id client.manual_session

/-! ## Audit -/

/-- The result of a piece of code, an exception included. -/
def outcome {α : Type} (p : Code α) : Code (Except Exn α) :=
  try
    let a ← p
    pure (.ok a)
  catch e => pure (.error e)

/-- `with audited(operation)`: the manifest row of a success may fail and then
raises, the one of a failure never hides the error. -/
def audited {α : Type} (operation : String) (p : Code α) : Code α := do
  let result ← outcome p
  match result with
  | .ok a =>
    Prog.perform (I := Api) (.audit operation)
    pure a
  | .error e =>
    attempt (Prog.perform (I := Api) (.audit operation))
    throw e

/-! ## The update command -/

/-- The hard cap on verbatim text, which a legacy entry may keep or shrink. -/
def check_raw_length (client : Client) (content previous : String) : Code Unit :=
  refuse_if (client.max_raw_text_chars < content.length ∧ previous.length < content.length)
    (.click_exception (s!"text is {content.length} chars, over the raw-write hard cap of " ++
      s!"{client.max_raw_text_chars}. " ++
      "Split it into multiple single-fact \x60add\x60 calls (one atomic, self-contained " ++
      "fact per entry — retrieval works per fact), or pass --infer to let LLM " ++
      "extraction break long content up. " ++
      "Cap is configurable via [memory].max_raw_text_chars."))

/-- The timestamp of the ledger: the entry's own, its creation, or now. -/
def ledger_timestamp (existing : Item) : Code Value :=
  let given := (existing.metadata.get "ledger_timestamp").or_else (existing.top.get "created_at")
  if given.truthy then pure given
  else do
    let now ← now_iso
    pure (.str now)

/-- Metadata for rewriting an existing memory, made from a snapshot of it. -/
def updated_memory_metadata (client : Client) (existing : Item) (extra : Payload) :
    Code Payload := do
  let created_at := existing.top.get "created_at"
  let merged := existing.metadata.merge extra
  -- the date of creation is kept whatever the command gives
  let kept := if created_at.truthy then merged.set "created_at" created_at else merged
  let ledger ← ledger_timestamp existing
  let filled := (kept.setdefault "ledger_timestamp" ledger).setdefault
    "memory_schema_version" client.memory_schema_version
  let now ← now_iso
  pure (((filled.set "updated_by_cli_at" (.str now)).set
    "last_updated_by_agent_id" (.str client.actor)).set
    "last_updated_session_id" (.str client.session))

/-- `execute("get")`, which has to find something. -/
def get (memory_id : Id) : Code Item := do
  let found ← Mem0.get memory_id
  expect found (.click_exception s!"memory not found: {memory_id}")

/-- `update`: read the memory, build the new metadata from that snapshot, send the
operation. -/
def update (host : Host) (client : Client) (memory_id : Id) (text : String) (extra : Payload) :
    Code (Option Bool) := do
  let existing ← get memory_id
  check_raw_length client text (existing.top.get "memory").text
  let metadata ← updated_memory_metadata client existing extra
  audited "update" (ops.update host memory_id text metadata)

/-! ## The delete command -/

/-- Asks on a terminal, and needs `--force` without one. -/
def confirm_destructive (client : Client) (force : Bool) : Code Unit :=
  if force then pure ()
  else if client.interactive_tty then refuse_if (¬ client.confirms) (.other "Aborted.")
  else
    throw (.click_exception
      ("Refusing destructive operation in non-interactive mode without --force " ++
        "(use --dry-run to preview)."))

/-- Suspicions about a deleted memory are closed; a memory that was only expired
keeps its own. -/
def close_after_delete (memory_id : Id) : ops.Response → Code Unit
  | .downgraded_to_expiry _ _ => pure ()
  | _ => attempt (do
    let _ ← pair_store.close_for_deleted_memory memory_id)

/-- `delete` of one memory. -/
def delete (host : Host) (client : Client) (memory_id : Id) (force : Bool) :
    Code ops.Response := do
  let _ ← Mem0.get memory_id
  confirm_destructive client force
  audited "delete" do
    let result ← ops.delete host memory_id (some client.actor)
    close_after_delete memory_id result
    pure result

/-! ## The mutations of a disposition -/

def message : Exn → String
  | .staleness_error msg | .value_error msg | .llm_error msg | .click_exception msg
  | .other msg => msg

/-- `ClickException(str(error))`, unless the error is one. -/
def as_click_exception : Exn → Exn
  | .click_exception msg => .click_exception msg
  | e => .click_exception (message e)

/-- `run_invalidate` with `raise_on_error`: the audit row is written first. -/
def run_invalidate (client : Client) (memory_id : Id) (by_ids : List Id) (reason : String) :
    Code InvalidateResult := do
  let result ← audited "invalidate" (outcome
    (invalidate memory_id by_ids (some reason) (some client.actor) (some client.session)))
  match result with
  | .ok r => pure r
  | .error e => throw (as_click_exception e)

/-- `_apply_ttl`. -/
def apply_ttl (client : Client) (memory_id : Id) (mode : TtlMode) : Code TtlResult :=
  audited "ttl" (set_ttl memory_id mode (some client.actor))

/-! ## Settling a pair -/

/-- `pair.get("kind") or "displacement"`. -/
def kind_of (pair : PairRow) : String := if pair.kind = "" then KIND_DISPLACEMENT else pair.kind

def load_open_pair (pair_id : Id) : Code PairRow := do
  let found ← pair_store.get pair_id
  let pair ← expect found (.click_exception s!"pair not found: {pair_id}")
  refuse_if (pair.disposition ≠ "open")
    (.click_exception s!"pair is not open (disposition={pair.disposition})")
  pure pair

/-- The session that raised the pair is the one that runs. -/
def owns (client : Client) (pair : PairRow) : Prop :=
  client.session_id.getD "" ≠ "" ∧ pair.new_session_id = client.session_id

instance (client : Client) (pair : PairRow) : Decidable (owns client pair) := by
  unfold owns
  infer_instance

/-- A non-interactive session disposes only what its own writes raised; expiry
flags belong to no session. -/
def require_disposition_authority (client : Client) (pair : PairRow) (force : Bool)
    (action : String) : Code Unit :=
  if force then pure ()
  else if kind_of pair = KIND_TTL_EXPIRY then pure ()
  else if owns client pair then pure ()
  else if client.interactive_tty then
    refuse_if (¬ client.confirms)
      (.click_exception s!"{action} cancelled: cross-session confirmation declined")
  else
    throw (.click_exception (s!"{action} denied: non-interactive sessions may only dispose " ++
      "suspicions raised by their own writes (design: disposition " ++
      "authority). Ask the user to confirm from an interactive session, " ++
      "or pass --force when the user has approved it out-of-band."))

/-- Dispose first, run the mutation, reopen the pair when it fails. What `dispose`
answers is not looked at. -/
def dispose_with_rollback {α : Type} (pair_id : Id) (disposition actor : String)
    (mutate : Code α) : Code α := do
  let _ ← pair_store.dispose pair_id disposition (some actor)
  try mutate
  catch e => do
    let _ ← pair_store.reopen pair_id
    throw e

/-- What a settled pair led to. -/
inductive FollowUp where
  | none
  | expiry_accepted (old_id : Id)
  | expired (result : TtlResult)
  | ttl (result : TtlResult)
  | invalidated (result : InvalidateResult)
  | merged (updated : Id) (result : InvalidateResult)

/-- The mutation of `stale confirm`, by the kind of the pair. -/
def confirm_mutation (client : Client) (pair : PairRow) : Code FollowUp :=
  if kind_of pair = KIND_TTL_EXPIRY then pure (.expiry_accepted pair.old_id)
  else if kind_of pair = KIND_NECESSITY then do
    let result ← apply_ttl client pair.old_id .expire_now
    pure (.expired result)
  else do
    let result ← run_invalidate client pair.old_id [pair.new_id]
      (nonempty_or pair.reason s!"confirmed staleness suspicion {pair.pair_id}")
    pure (.invalidated result)

def stale_confirm (client : Client) (pair_id : Id) (force : Bool) : Code FollowUp := do
  let pair ← load_open_pair pair_id
  refuse_if (kind_of pair = KIND_CORRECTNESS)
    (.click_exception ("correctness suspicions are corrected via \x60update\x60 (which expires " ++
      "the flag) or closed with \x60stale dismiss\x60; confirm does not apply."))
  require_disposition_authority client pair force "confirm"
  dispose_with_rollback pair_id "confirmed" client.actor (confirm_mutation client pair)

/-- There is no `force` here, and nothing it would skip. -/
def stale_ttl (client : Client) (pair_id : Id) (days : Option ℚ) : Code FollowUp := do
  let pair ← load_open_pair pair_id
  refuse_if (kind_of pair ∉ [KIND_NECESSITY, KIND_TTL_EXPIRY])
    (.click_exception ("ttl disposition applies to necessity and ttl-expiry suspicions; " ++
      "displacement pairs use confirm/dismiss/merge, timestamp flags use update/dismiss."))
  dispose_with_rollback pair_id "ttl" client.actor do
    let result ← apply_ttl client pair.old_id (.deadline days none)
    pure (.ttl result)

def stale_dismiss (client : Client) (pair_id : Id) (force : Bool) : Code FollowUp := do
  let pair ← load_open_pair pair_id
  require_disposition_authority client pair force "dismiss"
  let _ ← pair_store.dispose pair_id "dismissed" (some client.actor)
  pure .none

/-- The newer memory takes the consolidated text before the pair is disposed. -/
def stale_merge (host : Host) (client : Client) (pair_id : Id) (merged_text : String)
    (force : Bool) : Code FollowUp := do
  let pair ← load_open_pair pair_id
  refuse_if (kind_of pair ≠ KIND_DISPLACEMENT)
    (.click_exception "merge applies only to displacement pairs.")
  require_disposition_authority client pair force "merge"
  let existing ← get pair.new_id
  let metadata ← updated_memory_metadata client existing
    (.ofList [("merged_from", .str pair.old_id)])
  let _ ← audited "update" (ops.update host pair.new_id merged_text metadata)
  dispose_with_rollback pair_id "merged" client.actor do
    let result ← run_invalidate client pair.old_id [pair.new_id]
      s!"merged into {pair.new_id} (pair {pair_id})"
    pure (.merged pair.new_id result)

/-- The four commands that settle a pair. -/
inductive Stale where
  | confirm (force : Bool)
  | ttl (days : Option ℚ)
  | dismiss (force : Bool)
  | merge (merged_text : String) (force : Bool)

def Stale.run (host : Host) (client : Client) (pair_id : Id) : Stale → Code FollowUp
  | .confirm force => stale_confirm client pair_id force
  | .ttl days => stale_ttl client pair_id days
  | .dismiss force => stale_dismiss client pair_id force
  | .merge merged_text force => stale_merge host client pair_id merged_text force

end cli

end Memline
