/-
The machine that clients and the daemon share, as far as a request travels on it.

There are two ways to the daemon: a connection to its socket, and the mailbox for
clients that cannot connect. Beside them stand the two files that say a daemon is
there. A call is one access to one of these, and nothing happens between its reading
and its writing; whatever comes between two calls is up to the schedule.

A read that finds nothing is answered at once. The schedule says when a blocked read
ends: with the line, when it has arrived by then, and otherwise with a timeout or the
end of the stream.
-/
import Memline.BridgeQueue
import Memline.Lib.Effect

set_option autoImplicit false

namespace Memline

open Effect SqlTable

/-- The exceptions that the two transports tell apart. -/
inductive TransportError where
  | os_error (msg : String)
  | sqlite_error (msg : String)
  | value_error (msg : String)
  | runtime_error (msg : String)
  | bridge_unavailable (msg : String)
  | daemon_unavailable (msg : String)
  | click_exception (msg : String)
  | other (msg : String)

/-- `str(exc)`. -/
def TransportError.msg : TransportError → String
  | os_error msg | sqlite_error msg | value_error msg | runtime_error msg
  | bridge_unavailable msg | daemon_unavailable msg | click_exception msg | other msg => msg

/-- On whose behalf an operation is applied to the store. -/
inductive Source where
  | socket (conn : ℕ)
  | bridge (request_id : Id)
  | direct
  deriving DecidableEq

/-- A connection: the line the client sent, and the line it was sent back. -/
structure Conn (Req Val : Type) where
  request : Option Req := none
  response : Option (DaemonResponse Val) := none

structure Machine (Req Val Store : Type) where
  /-- `SOCKET_PATH` exists. -/
  socket : Bool
  /-- `PID_PATH` exists. -/
  pid : Bool
  /-- Somebody accepts connections on the socket. -/
  listening : Bool
  conns : List (Conn Req Val)
  /-- `BRIDGE_DB` exists. -/
  bridge_db : Bool
  bridge_state : Option BridgeState
  mailbox : BridgeQueue Req Val
  store : Store
  ticks : ℕ
  drawn : ℕ

namespace Machine

/-! ## Calls -/

inductive Call (Req Val : Type) where
  | bridge_exists
  | is_ready
  | enqueue (payload : Req) (request_id : Option Id)
  | response (request_id : Id)
  | acknowledge (request_id : Id)
  | cancel_if_queued (request_id : Id) (reason : String)
  | next_queued
  | claim (request_id : Id)
  | complete (request_id : Id) (response : DaemonResponse Val)
  | open_bridge
  | recover_stale
  | purge
  | mark_ready (daemon_id : Id)
  | heartbeat (daemon_id : Id)
  | mark_stopped (daemon_id : Id)
  | dispatch (source : Source) (payload : Req)
  | socket_exists
  | pid_exists
  | connect
  | send (conn : ℕ) (payload : Req)
  | recv (conn : ℕ)
  | recv_request (conn : ℕ)
  | send_response (conn : ℕ) (response : DaemonResponse Val)
  | take_lock
  | bind
  | write_pid
  | listen
  | close_server
  | unlink_socket
  | unlink_pid
  | start_daemon

variable (Req Val : Type)

def Call.Answer : Call Req Val → Type
  | bridge_exists | is_ready | claim _ | cancel_if_queued .. | heartbeat _ => Bool
  | socket_exists | pid_exists | take_lock => Bool
  | enqueue .. => Id
  | response _ => Option (DaemonResponse Val)
  | next_queued => Option (Id × Req)
  | recover_stale | purge | connect => ℕ
  | dispatch .. => Val
  | recv _ => DaemonResponse Val
  | recv_request _ => Req
  | _ => Unit

/-- The interface of clients and daemon to the machine. -/
abbrev Sys : Interface := ⟨Call Req Val, Call.Answer Req Val, TransportError⟩

abbrev Code (α : Type) : Type := Prog (Sys Req Val) α

/-! ## Answers -/

/-- Everything the modelled code does not decide. Ids are never drawn twice, and a
string survives the JSON encoding of a response. -/
structure Host (Req Val Store : Type) where
  now_iso : ℕ → String
  /-- The retention cutoff of a purge. -/
  cutoff : ℕ → String
  heartbeat_fresh : ℕ → String → Bool
  uuid4 : ℕ → Id
  uuid4_injective : Function.Injective uuid4
  json_request : Req → Req
  json_response : DaemonResponse Val → DaemonResponse Val
  json_status : ∀ r, (json_response r).status = r.status
  dispatch : ℕ → Req → Store → Except TransportError Val × Store
  /-- Why a read from a connection ended without a line. -/
  read_failure : ℕ → TransportError
  /-- Whether no other process holds the lifetime lock. -/
  take_lock : ℕ → Bool
  start_daemon : ℕ → Except TransportError Unit
  /-- Whether `start_daemon` takes the files it finds for stale. -/
  finds_stale : ℕ → Bool

variable {Req Val} {Store : Type}

/-- A machine on which no daemon has run. -/
def start (store : Store) : Machine Req Val Store where
  socket := false
  pid := false
  listening := false
  conns := []
  bridge_db := false
  bridge_state := none
  mailbox := .empty
  store := store
  ticks := 0
  drawn := 0

def tick (m : Machine Req Val Store) : Machine Req Val Store := { m with ticks := m.ticks + 1 }

/-- `UPDATE bridge_state SET … WHERE singleton = 1 AND daemon_id = ?`. -/
def on_state (m : Machine Req Val Store) (daemon_id : Id) (f : BridgeState → BridgeState) :
    Machine Req Val Store :=
  { m with bridge_state := m.bridge_state.map fun s => if s.daemon_id = daemon_id then f s else s }

namespace Host

variable (host : Host Req Val Store)

/-- `is_ready`: a daemon of this protocol has said so, and not long ago. -/
def is_ready (m : Machine Req Val Store) : Bool :=
  match m.bridge_state with
  | none => false
  | some s => decide (s.protocol_version = PROTOCOL_VERSION) && s.ready &&
      host.heartbeat_fresh m.ticks s.heartbeat_at

/-- The id of a new request: the one given, or a new one. -/
def request_id (m : Machine Req Val Store) (given : Option Id) : Id :=
  match given with
  | some s => if s = "" then host.uuid4 m.drawn else s
  | none => host.uuid4 m.drawn

/-- What each call does. -/
def answer : Handler (Sys Req Val) (Machine Req Val Store)
  | .bridge_exists, m => (.ok m.bridge_db, m)
  | .is_ready, m => (.ok (host.is_ready m), m.tick)
  | .enqueue payload given, m =>
    let id := host.request_id m given
    (.ok id, { m with
      mailbox := m.mailbox.enqueue id (host.json_request payload) (host.now_iso m.ticks)
      ticks := m.ticks + 1
      drawn := m.drawn + 1 })
  | .response id, m => (.ok (m.mailbox.response id), m)
  | .acknowledge id, m => (.ok (), { m with mailbox := m.mailbox.acknowledge id })
  | .cancel_if_queued id reason, m =>
    let r := m.mailbox.cancel_if_queued id reason (host.now_iso m.ticks)
    (.ok r.1, { m with mailbox := r.2, ticks := m.ticks + 1 })
  | .next_queued, m => (.ok m.mailbox.next_queued, m)
  | .claim id, m =>
    let r := m.mailbox.claim id (host.now_iso m.ticks)
    (.ok r.1, { m with mailbox := r.2, ticks := m.ticks + 1 })
  | .complete id response, m =>
    (.ok (), { m with
      mailbox := m.mailbox.complete id (host.json_response response) (host.now_iso m.ticks)
      ticks := m.ticks + 1 })
  | .open_bridge, m => (.ok (), { m with bridge_db := true })
  | .recover_stale, m =>
    let r := m.mailbox.recover_stale (host.now_iso m.ticks)
    (.ok r.1, { m with mailbox := r.2, ticks := m.ticks + 1 })
  | .purge, m =>
    let r := m.mailbox.purge (host.cutoff m.ticks)
    (.ok r.1, { m with mailbox := r.2, ticks := m.ticks + 1 })
  | .mark_ready daemon_id, m =>
    (.ok (), { m with
      bridge_state := some ⟨PROTOCOL_VERSION, daemon_id, true, host.now_iso m.ticks⟩
      ticks := m.ticks + 1 })
  -- whose file it is stands in it; a heartbeat of another daemon changes nothing
  | .heartbeat daemon_id, m =>
    (.ok (m.bridge_state.any fun s => decide (s.daemon_id = daemon_id) && s.ready),
      (m.on_state daemon_id fun s =>
        if s.ready then { s with heartbeat_at := host.now_iso m.ticks } else s).tick)
  | .mark_stopped daemon_id, m =>
    (.ok (), (m.on_state daemon_id fun s =>
      { s with ready := false, heartbeat_at := host.now_iso m.ticks }).tick)
  | .dispatch _ payload, m =>
    let r := host.dispatch m.ticks payload m.store
    (r.1, { m with store := r.2, ticks := m.ticks + 1 })
  | .socket_exists, m => (.ok m.socket, m)
  | .pid_exists, m => (.ok m.pid, m)
  -- a socket file that nobody listens on refuses
  | .connect, m =>
    if m.socket && m.listening then (.ok m.conns.length, { m with conns := m.conns ++ [{}] })
    else (.error (.os_error "connection refused"), m)
  | .send conn payload, m =>
    (.ok (), { m with
      conns := m.conns.modify conn fun c =>
        { c with request := some (host.json_request payload) } })
  | .recv conn, m =>
    match m.conns[conn]?.bind Conn.response with
    | some response => (.ok response, m)
    | none => (.error (host.read_failure m.ticks), m.tick)
  | .recv_request conn, m =>
    match m.conns[conn]?.bind Conn.request with
    | some payload => (.ok payload, m)
    | none => (.error (.value_error "empty request"), m)
  | .send_response conn response, m =>
    (.ok (), { m with
      conns := m.conns.modify conn fun c =>
        { c with response := some (host.json_response response) } })
  | .take_lock, m => (.ok (host.take_lock m.ticks), m.tick)
  | .bind, m => (.ok (), { m with socket := true })
  | .write_pid, m => (.ok (), { m with pid := true })
  | .listen, m => (.ok (), { m with listening := true })
  | .close_server, m => (.ok (), { m with listening := false })
  | .unlink_socket, m => (.ok (), { m with socket := false })
  | .unlink_pid, m => (.ok (), { m with pid := false })
  -- whoever starts one clears away what a dead daemon has left
  | .start_daemon, m =>
    (host.start_daemon m.ticks, { m with
      socket := m.socket && !host.finds_stale m.ticks
      pid := m.pid && !host.finds_stale m.ticks
      ticks := m.ticks + 1 })

/-- The same machine, on which any call may fail. -/
def failing (fault : Call Req Val → Machine Req Val Store → Option TransportError) :
    Handler (Sys Req Val) (Machine Req Val Store) :=
  Handler.failing host.answer fault

/-- A failing call raises without effect, or is answered as any other. -/
theorem failing_cases (fault : Call Req Val → Machine Req Val Store → Option TransportError)
    (c : Call Req Val) (m : Machine Req Val Store) :
    (∃ e, host.failing fault c m = (.error e, m)) ∨ host.failing fault c m = host.answer c m := by
  unfold failing Handler.failing
  split
  · exact .inl ⟨_, rfl⟩
  · exact .inr rfl

end Host

end Machine

end Memline
