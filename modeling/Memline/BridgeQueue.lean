/-
The mailbox: one table of requests, shared by sandboxed clients and the daemon.

A request is queued by a client, claimed by a worker of the daemon, answered, and
deleted by the client that has read the answer. The status column is the whole
protocol: each statement below names the status it expects, and `RowStep` is what
any of them may do to a row that is already there.

A payload and a response are stored as JSON text. The model keeps the value that
reading the text gives back, so the encoding is the business of whoever calls.
-/
import Memline.Lib.Table
import Memline.Payload
import Mathlib.Data.List.MinMax
import Mathlib.Data.String.Basic

set_option autoImplicit false

namespace Memline

open SqlTable

/-- What the daemon answers, over the socket or through the mailbox. -/
structure DaemonResponse (Val : Type) where
  status : String
  result : Option Val := none
  error : Option String := none

/-- `response.get("error") or default`. -/
def DaemonResponse.failure {Val : Type} (r : DaemonResponse Val) (default : String) : String :=
  match r.error with
  | some msg => if msg = "" then default else msg
  | none => default

def PROTOCOL_VERSION : ℕ := 1

inductive BridgeStatus where
  | queued
  | processing
  | done
  | error
  deriving DecidableEq

/-- A row of `bridge_requests`. -/
structure BridgeRow (Req Val : Type) where
  id : Id
  protocol_version : ℕ
  payload_json : Req
  status : BridgeStatus
  created_at : String
  updated_at : String
  response_json : Option (DaemonResponse Val) := none
  acknowledged : Bool := false

/-- The row of `bridge_state`. -/
structure BridgeState where
  protocol_version : ℕ
  daemon_id : Id
  ready : Bool
  heartbeat_at : String

/-- The table `bridge_requests`, with its primary key. -/
structure BridgeQueue (Req Val : Type) where
  rows : List (BridgeRow Req Val)
  id_unique : Unique (fun r : BridgeRow Req Val => r.id) rows

namespace BridgeQueue

variable {Req Val : Type}

def empty : BridgeQueue Req Val := ⟨[], unique_nil⟩

/-! ## Statements -/

/-- `UPDATE bridge_requests SET … WHERE p`; no statement sets the id or the payload. -/
def settle (q : BridgeQueue Req Val) (p : BridgeRow Req Val → Bool) (status : BridgeStatus)
    (response : BridgeRow Req Val → Option (DaemonResponse Val)) (now : String) :
    BridgeQueue Req Val where
  rows := update p
    (fun r => { r with status := status, response_json := response r, updated_at := now }) q.rows
  id_unique := q.id_unique.update fun _ => rfl

/-- `DELETE FROM bridge_requests WHERE p`. -/
def remove (q : BridgeQueue Req Val) (p : BridgeRow Req Val → Bool) : BridgeQueue Req Val where
  rows := delete p q.rows
  id_unique := q.id_unique.delete p

def find (q : BridgeQueue Req Val) (request_id : Id) : Option (BridgeRow Req Val) :=
  lookup (fun r : BridgeRow Req Val => r.id) request_id q.rows

/-! ## The client's side -/

/-- The row `enqueue` tries to insert. -/
def queued_row (request_id : Id) (payload_json : Req) (now : String) : BridgeRow Req Val where
  id := request_id
  protocol_version := PROTOCOL_VERSION
  payload_json := payload_json
  status := .queued
  created_at := now
  updated_at := now

/-- `INSERT … ON CONFLICT(id) DO NOTHING`. -/
def enqueue (q : BridgeQueue Req Val) (request_id : Id) (payload_json : Req) (now : String) :
    BridgeQueue Req Val where
  rows :=
    insertOrIgnore (fun r r' => decide (r.id = r'.id)) (queued_row request_id payload_json now)
    q.rows
  id_unique := q.id_unique.insertOrIgnore fun _ h => decide_eq_true h

/-- A response is readable once the row is settled. -/
def response (q : BridgeQueue Req Val) (request_id : Id) : Option (DaemonResponse Val) :=
  match q.find request_id with
  | none => none
  | some row =>
    if row.status = .done ∨ row.status = .error then some (row.response_json.getD ⟨"", none, none⟩)
    else none

def acknowledge (q : BridgeQueue Req Val) (request_id : Id) : BridgeQueue Req Val :=
  q.remove fun r => decide (r.id = request_id) && decide (r.status = .done ∨ r.status = .error)

/-- Cancel work that no daemon has claimed; claimed work is left alone. -/
def cancel_if_queued (q : BridgeQueue Req Val) (request_id : Id) (reason now : String) :
    Bool × BridgeQueue Req Val :=
  let p : BridgeRow Req Val → Bool := fun r =>
    decide (r.id = request_id) && decide (r.status = .queued)
  (decide (0 < rowcount p q.rows),
    q.settle p .error (fun _ => some { status := "error", error := some reason }) now)

/-! ## The daemon's side -/

/-- The oldest queued request: what `claim_next` reads before its transaction. -/
def next_queued (q : BridgeQueue Req Val) : Option (Id × Req) :=
  let queued := q.rows.filter fun r =>
    decide (r.status = .queued) && decide (r.protocol_version = PROTOCOL_VERSION)
  (queued.argmin fun r => r.created_at).map fun r => (r.id, r.payload_json)

/-- The claim point of `claim_next`. -/
def claim (q : BridgeQueue Req Val) (request_id : Id) (now : String) : Bool × BridgeQueue Req Val :=
  let p : BridgeRow Req Val → Bool := fun r =>
    decide (r.id = request_id) && decide (r.status = .queued)
  (decide (0 < rowcount p q.rows), q.settle p .processing (fun r => r.response_json) now)

def complete (q : BridgeQueue Req Val) (request_id : Id) (response : DaemonResponse Val)
    (now : String) : BridgeQueue Req Val :=
  q.settle (fun r => decide (r.id = request_id)) (if response.status = "ok" then .done else .error)
    (fun _ => some response) now

/-- What a restarted daemon says about a request its predecessor was working on. -/
def interrupted (Val : Type) : DaemonResponse Val where
  status := "error"
  error := some ("host daemon restarted while bridge request was processing; " ++
    "execution outcome is unknown")

def recover_stale (q : BridgeQueue Req Val) (now : String) : ℕ × BridgeQueue Req Val :=
  let p : BridgeRow Req Val → Bool := fun r => decide (r.status = .processing)
  (rowcount p q.rows, q.settle p .error (fun _ => some (interrupted Val)) now)

def purge (q : BridgeQueue Req Val) (cutoff : String) : ℕ × BridgeQueue Req Val :=
  let p : BridgeRow Req Val → Bool := fun r =>
    r.acknowledged || (decide (r.updated_at < cutoff) &&
      decide (r.status = .done ∨ r.status = .error))
  (rowcount p q.rows, q.remove p)

/-! ## What a statement may do to the rows -/

/-- The rows after a settlement are those before, some of them settled. -/
theorem mem_settle {q : BridgeQueue Req Val} {p : BridgeRow Req Val → Bool} {status : BridgeStatus}
    {response : BridgeRow Req Val → Option (DaemonResponse Val)} {now : String}
    {row' : BridgeRow Req Val} (h : row' ∈ (q.settle p status response now).rows) :
    ∃ row ∈ q.rows, row' = if p row then
      { row with status := status, response_json := response row, updated_at := now } else row := by
  obtain ⟨row, hrow, rfl⟩ := mem_update.mp h
  exact ⟨row, hrow, rfl⟩

/-- What is left after a removal was there before. -/
theorem mem_remove {q : BridgeQueue Req Val} {p : BridgeRow Req Val → Bool}
    {row : BridgeRow Req Val} (h : row ∈ (q.remove p).rows) : row ∈ q.rows := (mem_delete.mp h).1

/-- Every row comes from an earlier one, which was queued if it is. -/
def Kept (q q' : BridgeQueue Req Val) : Prop :=
  ∀ row' ∈ q'.rows, ∃ row ∈ q.rows, row'.id = row.id ∧ row'.payload_json = row.payload_json ∧
    (row'.status = .queued → row.status = .queued)

theorem Kept.refl (q : BridgeQueue Req Val) : Kept q q := fun row h => ⟨row, h, rfl, rfl, id⟩

/-- Settling keeps the rows, as long as it queues none again. -/
theorem kept_settle (q : BridgeQueue Req Val) (p : BridgeRow Req Val → Bool) {status : BridgeStatus}
    (hstatus : status ≠ .queued) (response : BridgeRow Req Val → Option (DaemonResponse Val))
    (now : String) : Kept q (q.settle p status response now) := by
  intro row' hrow'
  obtain ⟨row, hrow, rfl⟩ := mem_settle hrow'
  refine ⟨row, hrow, ?_⟩
  split
  · exact ⟨rfl, rfl, fun h => absurd h hstatus⟩
  · exact ⟨rfl, rfl, id⟩

theorem kept_remove (q : BridgeQueue Req Val) (p : BridgeRow Req Val → Bool) :
    Kept q (q.remove p) := fun row h => ⟨row, mem_remove h, rfl, rfl, id⟩

/-- Rows of this id are queued no longer. -/
theorem settle_queued (q : BridgeQueue Req Val) (request_id : Id) {status : BridgeStatus}
    (hstatus : status ≠ .queued) (response : BridgeRow Req Val → Option (DaemonResponse Val))
    (now : String) :
    ∀ row ∈ (q.settle (fun r => decide (r.id = request_id) && decide (r.status = .queued)) status
      response now).rows, row.id = request_id → row.status ≠ .queued := by
  intro row' hrow' hid
  obtain ⟨row, hrow, rfl⟩ := mem_settle hrow'
  by_cases hp : (decide (row.id = request_id) && decide (row.status = .queued)) = true
  · rw [if_pos hp]
    exact hstatus
  · rw [if_neg hp] at hid ⊢
    intro hqueued
    exact hp (by simp [hid, hqueued])

/-- A count of queued rows of an id tells of a row. -/
theorem rowcount_queued {q : BridgeQueue Req Val} {request_id : Id}
    (h : decide (0 < rowcount (fun r : BridgeRow Req Val =>
      decide (r.id = request_id) && decide (r.status = .queued)) q.rows) = true) :
    ∃ row ∈ q.rows, row.id = request_id ∧ row.status = .queued := by
  obtain ⟨row, hrow, hp⟩ := rowcount_pos.mp (of_decide_eq_true h)
  simp only [Bool.and_eq_true, decide_eq_true_eq] at hp
  exact ⟨row, hrow, hp⟩

/-- The rows after an enqueue are those before and a queued one. -/
theorem mem_enqueue {q : BridgeQueue Req Val} {request_id : Id} {payload : Req} {now : String}
    {row : BridgeRow Req Val} (h : row ∈ (q.enqueue request_id payload now).rows) :
    row ∈ q.rows ∨ row = queued_row request_id payload now := by
  change row ∈ insertOrIgnore (fun r r' : BridgeRow Req Val => decide (r.id = r'.id))
    (queued_row request_id payload now) q.rows at h
  rcases insertOrIgnore_cases (fun r r' : BridgeRow Req Val => decide (r.id = r'.id))
    (queued_row request_id payload now) q.rows with ⟨-, he⟩ | ⟨-, he⟩
  · exact .inl (he ▸ h)
  · rw [he, List.mem_append, List.mem_singleton] at h
    exact h

/-- What is handed out next is a row of the mailbox. -/
theorem next_queued_mem {q : BridgeQueue Req Val} {request_id : Id} {payload : Req}
    (h : q.next_queued = some (request_id, payload)) :
    ∃ row ∈ q.rows, row.id = request_id ∧ row.payload_json = payload := by
  obtain ⟨row, hrow, heq⟩ := Option.map_eq_some_iff.mp h
  obtain ⟨rfl, rfl⟩ := Prod.mk.inj heq
  exact ⟨row, (List.mem_filter.mp (List.argmin_mem hrow)).1, rfl, rfl⟩

/-- A response that was found is that of its request. -/
theorem response_mem {q : BridgeQueue Req Val} {request_id : Id} {r : DaemonResponse Val}
    (h : q.response request_id = some r) (hr : r.status = "ok") :
    ∃ row ∈ q.rows, row.id = request_id ∧ row.response_json = some r := by
  unfold response at h
  split at h
  · cases h
  · rename_i row hfind
    obtain ⟨hrow, hid⟩ := mem_of_lookup hfind
    split at h
    · injection h with h
      cases hresponse : row.response_json with
      | none =>
        rw [hresponse] at h
        subst h
        simp at hr
      | some r' =>
        rw [hresponse] at h
        exact ⟨row, hrow, hid, hresponse.trans (congrArg some h)⟩
    · cases h

end BridgeQueue

end Memline
