/-
The threads of the daemon.

`serve` is the main thread of one daemon, from the lifetime lock to the removal of its
files. A connection is served by a thread of its own, the mailbox by worker threads
that poll it. How long a loop goes on is the `rounds` it is given; a thread that is
killed is one that the schedule does not pick again.

Not modelled: the event queue, the harvest loop and the warm-up of `serve`, which do
not touch a request.
-/
import Memline.Machine

set_option autoImplicit false

namespace Memline

open Effect Machine

variable {Req Val : Type}

/-! ## Answers with a truth value -/

namespace bridge_queue

def is_ready : Code Req Val Bool := Prog.perform (I := Sys Req Val) .is_ready

def cancel_if_queued (request_id : Id) (reason : String) : Code Req Val Bool :=
  Prog.perform (I := Sys Req Val) (.cancel_if_queued request_id reason)

def claim (request_id : Id) : Code Req Val Bool :=
  Prog.perform (I := Sys Req Val) (.claim request_id)

def heartbeat (daemon_id : Id) : Code Req Val Bool :=
  Prog.perform (I := Sys Req Val) (.heartbeat daemon_id)

/-- `claim_next`: the read and the conditional update are two statements. -/
def claim_next : Code Req Val (Option (Id × Req)) := do
  let row ← Prog.perform (I := Sys Req Val) .next_queued
  match row with
  | none => pure none
  | some (request_id, payload) => do
    let claimed ← claim request_id
    if claimed then pure (some (request_id, payload)) else pure none

end bridge_queue

namespace daemon

def socket_exists : Code Req Val Bool := Prog.perform (I := Sys Req Val) .socket_exists

def pid_exists : Code Req Val Bool := Prog.perform (I := Sys Req Val) .pid_exists

def take_lock : Code Req Val Bool := Prog.perform (I := Sys Req Val) .take_lock

/-! ## Serving a request -/

/-- `handle_request` of a store operation, whose errors the callers turn into a response. -/
def handle_request (source : Source) (payload : Req) : Code Req Val (DaemonResponse Val) := do
  let result ← Prog.perform (I := Sys Req Val) (.dispatch source payload)
  pure { status := "ok", result := some result }

def error_response (e : TransportError) : DaemonResponse Val :=
  { status := "error", error := some e.msg }

/-- `_serve_connection`. -/
def serve_connection (conn : ℕ) : Code Req Val Unit := do
  let response ←
    try
      let request ← Prog.perform (I := Sys Req Val) (.recv_request conn)
      handle_request (.socket conn) request
    catch e => pure (error_response e)
  try Prog.perform (I := Sys Req Val) (.send_response conn response)
  catch _ => pure ()

/-- `_process_bridge_request`. -/
def process_bridge_request (request_id : Id) (payload : Req) : Code Req Val Unit := do
  let response ←
    try handle_request (.bridge request_id) payload
    catch e => pure (error_response e)
  Prog.perform (I := Sys Req Val) (.complete request_id response)

def bridge_worker_loop : ℕ → Code Req Val Unit
  | 0 => pure ()
  | rounds + 1 => do
    let item ← bridge_queue.claim_next
    match item with
    | none => bridge_worker_loop rounds
    | some (request_id, payload) => do
      process_bridge_request request_id payload
      bridge_worker_loop rounds

def bridge_heartbeat_loop (daemon_id : Id) : ℕ → Code Req Val Unit
  | 0 => pure ()
  | rounds + 1 => do
    let alive ← bridge_queue.heartbeat daemon_id
    if alive then bridge_heartbeat_loop daemon_id rounds else pure ()

/-! ## The main thread -/

/-- From the stale socket to the first accepted connection. -/
def startup (daemon_id : Id) : Code Req Val Unit := do
  if ← socket_exists then Prog.perform (I := Sys Req Val) .unlink_socket
  Prog.perform (I := Sys Req Val) .bind
  Prog.perform (I := Sys Req Val) .write_pid
  Prog.perform (I := Sys Req Val) .listen
  Prog.perform (I := Sys Req Val) .open_bridge
  let _ ← Prog.perform (I := Sys Req Val) .recover_stale
  let _ ← Prog.perform (I := Sys Req Val) .purge
  Prog.perform (I := Sys Req Val) (.mark_ready daemon_id)

/-- From the signal on. The files go before the requests that are being served. -/
def shutdown (daemon_id : Id) : Code Req Val Unit := do
  Prog.perform (I := Sys Req Val) .close_server
  Prog.perform (I := Sys Req Val) .unlink_socket
  Prog.perform (I := Sys Req Val) .unlink_pid
  Prog.perform (I := Sys Req Val) (.mark_stopped daemon_id)

def serve (daemon_id : Id) : Code Req Val Unit := do
  if ← take_lock then
    startup daemon_id
    shutdown daemon_id

end daemon

/-! ## All threads -/

/-- Who makes calls: clients, and the threads of all daemons there will be. -/
inductive Party where
  | client (i : ℕ)
  | daemon (k : ℕ)
  | heartbeat (k : ℕ)
  | connection (conn : ℕ)
  | worker (k : ℕ)
  deriving DecidableEq

/-- How long the threads go on, and how the daemons call themselves. -/
structure Threads where
  rounds : ℕ → ℕ
  beats : ℕ → ℕ
  daemon_id : ℕ → Id

/-- A thread that returns nothing. -/
def thread (p : Code Req Val Unit) : Code Req Val (Option Val) := do
  p
  pure none

/-- The code of each party, given that of the clients. -/
def Threads.code (threads : Threads) (client : ℕ → Code Req Val (Option Val)) :
    Party → Code Req Val (Option Val)
  | .client i => client i
  | .daemon k => thread (daemon.serve (threads.daemon_id k))
  | .heartbeat k => thread (daemon.bridge_heartbeat_loop (threads.daemon_id k) (threads.beats k))
  | .connection conn => thread (daemon.serve_connection conn)
  | .worker k => thread (daemon.bridge_worker_loop (threads.rounds k))

end Memline
