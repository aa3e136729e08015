/-
One store operation of a command, over whichever transport answers.

`execute` asks the daemon on its socket, then through the mailbox, then starts a daemon
and asks again, and at last applies the operation itself. An attempt whose outcome is
not known must not be followed by another one. What the ladder goes by after such an
attempt is whether the socket and pid files are there, and a daemon that stops removes
them before it has answered what it is serving.
-/
import Memline.Bridge
import Memline.Lib.Tally
import Mathlib.Data.List.Induction

set_option autoImplicit false

namespace Memline

open Effect Effect.Prog Machine

variable {Req Val Store : Type}

/-! ## The ladder -/

namespace daemon

/-- The connection of `request`, or its `socket_error`. -/
def try_connect : Code Req Val (Except String ℕ) := do
  let there ← socket_exists
  if there then
    try
      let conn ← perform (I := Sys Req Val) .connect
      pure (.ok conn)
    -- an error of the connection means that no daemon is there; others go up
    catch e =>
      match e with
      | .os_error msg => pure (.error msg)
      | e => throw e
  else pure (.error "daemon socket does not exist")

def write_json_line (conn : ℕ) (payload : Req) : Code Req Val Bool :=
  try
    perform (I := Sys Req Val) (.send conn payload)
    pure true
  catch e =>
    match e with
    | .os_error _ => pure false
    | e => throw e

/-- The reading of `request`: a read failure is never answered with the mailbox. -/
def read_response (conn : ℕ) : Code Req Val (DaemonResponse Val) :=
  try perform (I := Sys Req Val) (.recv conn)
  catch e =>
    match e with
    | .os_error msg => throw (.daemon_unavailable msg)
    | e => throw e

/-- `request` once it is connected. -/
def talk (conn : ℕ) (payload : Req) : Code Req Val (Option Val) := do
  let sent ← write_json_line conn payload
  if sent then do
    let response ← read_response conn
    if response.status ≠ "ok" then throw (.runtime_error (response.failure "daemon request failed"))
    else pure response.result
  else throw (.daemon_unavailable "failed to write request to daemon")

/-- `request` where the socket does not answer. -/
def ask_bridge (socket_error : String) (payload : Req) (timeout : String) (polls : ℕ) :
    Code Req Val (Option Val) :=
  try bridge.request payload timeout polls
  catch e =>
    match e with
    | .bridge_unavailable msg =>
      throw (.daemon_unavailable s!"{socket_error}; bridge unavailable: {msg}")
    | e => throw e

def request (payload : Req) (timeout : String) (polls : ℕ) : Code Req Val (Option Val) := do
  let connected ← try_connect
  match connected with
  | .ok conn => talk conn payload
  | .error socket_error => ask_bridge socket_error payload timeout polls

end daemon

namespace cli

/-- What `maybe_daemon_request` reads of the process it runs in, and how long its two
requests poll. -/
structure Settings where
  daemon_enabled : Bool
  autostart_enabled : Bool
  autostart_attempted : Bool
  daemon_spawn_safe : Bool
  timeout : String
  polls : ℕ
  retry_polls : ℕ

/-- `SOCKET_PATH.exists() or PID_PATH.exists()`. -/
def runtime_files_exist : Code Req Val Bool := do
  let there ← daemon.socket_exists
  if there then pure true else daemon.pid_exists

def started : Code Req Val Bool :=
  try
    perform (I := Sys Req Val) .start_daemon
    pure true
  catch _ => pure false

/-- The lazy auto-start. `none` falls back to the direct path. -/
def start_and_retry (settings : Settings) (op : String) (payload : Req) :
    Code Req Val (Option (Option Val)) := do
  let up ← started
  if up then
    try
      let result ← daemon.request payload settings.timeout settings.retry_polls
      pure (some result)
    catch e => throw (.click_exception s!"memline daemon {op} failed after auto-start: {e.msg}")
  else pure none

/-- What `maybe_daemon_request` does when the daemon could not be asked. -/
def unavailable (settings : Settings) (op : String) (payload : Req) (exc : String) :
    Code Req Val (Option (Option Val)) := do
  let there ← runtime_files_exist
  -- files of a daemon that does not answer: never past it without a word
  if there then
    throw (.click_exception ("memline daemon appears to be configured but is not reachable " ++
      s!"({exc}). Run \x60memline daemon status\x60; if it is stale, run " ++
      "\x60memline daemon stop\x60 and retry, or set MEMLINE_NO_DAEMON=1 for the direct path."))
  else if !settings.autostart_enabled || settings.autostart_attempted then pure none
  else if !settings.daemon_spawn_safe then pure none
  else start_and_retry settings op payload

/-- The result of the daemon, or `none` where the daemon is not used. -/
def maybe_daemon_request (settings : Settings) (op : String) (payload : Req) :
    Code Req Val (Option (Option Val)) :=
  if settings.daemon_enabled then
    try
      let result ← daemon.request payload settings.timeout settings.polls
      pure (some result)
    catch e =>
      match e with
      | .daemon_unavailable exc => unavailable settings op payload exc
      -- what the daemon itself reports is the answer
      | e => throw (.click_exception s!"memline daemon {op} failed: {e.msg}")
  else pure none

def execute (settings : Settings) (op : String) (payload : Req) : Code Req Val (Option Val) := do
  let used ← maybe_daemon_request settings op payload
  match used with
  | some result => pure result
  | none => do
    let result ← perform (I := Sys Req Val) (.dispatch .direct payload)
    pure (some result)

end cli

/-! ## Attempts -/

/-- The call was answered. -/
def succeeded {ε α : Type} : Except ε α → Bool
  | .ok _ => true
  | .error _ => false

/-- The file is not there. -/
def absent {ε : Type} : Except ε Bool → Bool
  | .ok b => !b
  | .error _ => false

def queued (t : List Source) {ε : Type} : Except ε Id → List Source
  | .ok request_id => .bridge request_id :: t
  | .error _ => t

/-- Attempts to have the operation applied, after one more call. A request that was
cancelled in time is no attempt. -/
def tried (t : List Source) : MachineEvent Req Val → List Source
  | ⟨.send conn _, r⟩ => if succeeded r then .socket conn :: t else t
  | ⟨.enqueue _ _, r⟩ => queued t r
  | ⟨.cancel_if_queued request_id _, r⟩ =>
    if changed r then t.filter fun s => s ≠ .bridge request_id else t
  | ⟨.dispatch .direct _, _⟩ => .direct :: t
  | _ => t

def attempts (es : List (MachineEvent Req Val)) : List Source := es.foldl tried []

/-- The command finds no pid file (and so no socket). -/
def misses_files : MachineEvent Req Val → Bool
  | ⟨.pid_exists, r⟩ => absent r
  | _ => false

/-- One attempt at a time, where the files are found once an attempt has been made. -/
def ladder : Tally (Sys Req Val) (List Source) where
  next := tried
  expects t e := misses_files e = true → t = []
  holds t := t.length ≤ 1

/-- A call that is not part of an attempt. -/
def aside : Call Req Val → Prop
  | .send .. | .enqueue .. | .cancel_if_queued .. | .dispatch .. => False
  | _ => True

/-- Calls aside leave the sources that were tried. -/
theorem tried_aside {c : Call Req Val} (hc : aside c) (t : List Source)
    (r : Except TransportError (Call.Answer Req Val c)) : tried t ⟨c, r⟩ = t := by
  cases c with
  | send conn payload => exact hc.elim
  | enqueue payload given => exact hc.elim
  | cancel_if_queued request_id reason => exact hc.elim
  | dispatch source payload => exact hc.elim
  | _ => rfl

section ladder

variable {t : List Source}

theorem aside_wp {α : Type} {p : Code Req Val α} (hp : p.Uses aside) (ht : t.length ≤ 1) :
    ladder.wp p (fun _ t' => t' = t) t :=
  Tally.wp_of_uses hp ht fun _ r hc => tried_aside hc t r

theorem aside_safe {α : Type} {p : Code Req Val α} (hp : p.Uses aside) (ht : t.length ≤ 1) :
    ladder.safe p t := Tally.safe_of_wp (aside_wp hp ht)

theorem talk_safe (conn : ℕ) (payload : Req) :
    ladder.safe (daemon.talk conn payload : Code Req Val (Option Val)) [] := by
  have hsend : ladder.safe (daemon.write_json_line conn payload : Code Req Val Bool) [] := by
    refine Tally.safe_tryCatch (Tally.safe_bind ?_ fun _ t ht => Tally.safe_pure true ht)
      fun e t ht => ?_
    · refine Tally.wp_perform (Nat.zero_le _) fun r _ => ⟨?_, trivial⟩
      cases r with
      | ok a => exact le_rfl
      | error e => exact Nat.zero_le _
    · cases e with
      | os_error msg => exact Tally.safe_pure false ht
      | _ => exact Tally.safe_throw _ ht
  refine Tally.safe_bind hsend fun sent t ht => ?_
  cases sent with
  | false => exact Tally.safe_throw _ ht
  | true =>
    refine Tally.safe_bind ?_ fun response t ht => ?_
    · refine Tally.safe_tryCatch (aside_safe (uses_perform trivial) ht) fun e t ht => ?_
      cases e with
      | _ => exact Tally.safe_throw _ ht
    · split
      · exact Tally.safe_throw _ ht
      · exact Tally.safe_pure _ ht

/-- A submitted request is the only attempt; where submitting fails there is none. -/
theorem submit_wp (payload : Req) :
    ladder.wp (bridge.submit payload : Code Req Val Id)
      (fun r t => match r with
        | .ok request_id => t = [.bridge request_id]
        | .error _ => t = []) [] := by
  refine Tally.wp_tryCatch (R := fun _ t => t = []) ?_ fun e t ht he => ?_
  · refine Tally.wp_bind_of (aside_wp (uses_perform trivial) (Nat.zero_le _))
      (fun e t _ hready => hready) fun ready t ht hready => ?_
    subst hready
    cases ready with
    | false => exact Tally.wp_throw _ ht rfl
    | true =>
      refine Tally.wp_perform ht fun r _ => ?_
      change (Except TransportError Id) at r
      cases r with
      | ok request_id => exact ⟨le_rfl, rfl⟩
      | error e => exact ⟨ht, rfl⟩
  · cases e with
    | _ => exact Tally.wp_throw _ ht he

theorem cancel_safe (ht : t.length ≤ 1) (request_id : Id) (reason : String) :
    ladder.safe (bridge_queue.cancel_if_queued request_id reason : Code Req Val Bool) t := by
  refine Tally.wp_perform ht fun r _ => ⟨?_, trivial⟩
  change (if changed r = true then t.filter _ else t).length ≤ 1
  split
  · exact le_trans (List.length_filter_le _ _) ht
  · exact ht

/-- Waiting for a response tries nothing further. -/
theorem await_safe (ht : t.length ≤ 1) (request_id : Id) (timeout : String) (polls : ℕ) :
    ladder.safe (bridge.await request_id timeout polls : Code Req Val (Option Val)) t := by
  induction polls generalizing t with
  | zero => exact Tally.safe_bind (cancel_safe ht _ _) fun _ t ht => Tally.safe_throw _ ht
  | succ polls ih =>
    refine Tally.safe_bind (aside_safe (uses_perform trivial) ht) fun response t ht => ?_
    cases response with
    | some response =>
      refine Tally.safe_bind (aside_safe (uses_perform trivial) ht) fun _ t ht => ?_
      split
      · exact Tally.safe_throw _ ht
      · exact Tally.safe_pure _ ht
    | none =>
      refine Tally.safe_bind (aside_safe (uses_perform trivial) ht) fun ready t ht => ?_
      cases ready with
      | true => exact ih ht
      | false =>
        refine Tally.safe_bind (cancel_safe ht _ _) fun cancelled t ht => ?_
        cases cancelled with
        | true => exact Tally.safe_throw _ ht
        | false => exact ih ht

/-- A request through the mailbox tries the mailbox once. -/
theorem bridge_request_safe (payload : Req) (timeout : String) (polls : ℕ) :
    ladder.safe (bridge.request payload timeout polls : Code Req Val (Option Val)) [] := by
  refine Tally.wp_bind_of (aside_wp (uses_perform trivial) (Nat.zero_le _))
    (fun _ _ _ _ => trivial) fun there t ht hthere => ?_
  subst hthere
  cases there with
  | false => exact Tally.safe_throw _ ht
  | true =>
    exact Tally.safe_bind (Tally.safe_of_wp (submit_wp payload)) fun request_id t ht =>
      await_safe ht request_id timeout polls

/-- Connecting tries nothing: nothing has been asked yet. -/
theorem try_connect_aside : (daemon.try_connect : Code Req Val (Except String ℕ)).Uses aside := by
  refine uses_bind (uses_perform trivial) fun there => ?_
  cases there with
  | false => exact uses_pure _
  | true =>
    refine uses_tryCatch (uses_bind (uses_perform trivial) fun conn => uses_pure _) fun e => ?_
    cases e with
    | os_error msg => exact uses_pure _
    | _ => exact uses_throw _

/-- A request to the daemon is tried over one of its two ways. -/
theorem request_safe (payload : Req) (timeout : String) (polls : ℕ) :
    ladder.safe (daemon.request payload timeout polls : Code Req Val (Option Val)) [] := by
  refine Tally.wp_bind_of (aside_wp try_connect_aside (Nat.zero_le _))
    (fun _ _ _ _ => trivial) fun connected t ht hconnected => ?_
  subst hconnected
  cases connected with
  | ok conn => exact talk_safe conn payload
  | error socket_error =>
    refine Tally.safe_tryCatch (bridge_request_safe payload timeout polls) fun e t ht => ?_
    cases e with
    | _ => exact Tally.safe_throw _ ht

/-- Where the direct path is left, no attempt stands. -/
def clear_to_fall_back : Except TransportError (Option (Option Val)) → List Source → Prop
  | .ok none, t => t = []
  | _, _ => True

/-- Starting the daemon and asking again leaves at most one attempt, and none where the command may
fall back. -/
theorem start_and_retry_wp (settings : cli.Settings) (op : String) (payload : Req) :
    ladder.wp (cli.start_and_retry settings op payload : Code Req Val (Option (Option Val)))
      clear_to_fall_back [] := by
  have hstarted : (cli.started : Code Req Val Bool).Uses aside :=
    uses_tryCatch (uses_bind (uses_perform trivial) fun _ => uses_pure true) fun _ =>
      uses_pure false
  refine Tally.wp_bind_of (aside_wp hstarted (Nat.zero_le _)) (fun _ _ _ _ => trivial)
    fun up t ht hup => ?_
  subst hup
  cases up with
  | false => exact Tally.wp_pure none ht rfl
  | true =>
    refine Tally.wp_tryCatch (R := fun _ _ => True) ?_ fun e t ht _ => Tally.wp_throw _ ht trivial
    refine Tally.wp_bind_of (request_safe payload _ _) (fun _ _ _ _ => trivial) ?_
    exact fun result t ht _ => Tally.wp_pure _ ht trivial

/-- No files, no attempts. -/
theorem runtime_files_wp (ht : t.length ≤ 1) :
    ladder.wp (cli.runtime_files_exist : Code Req Val Bool)
      (fun r t => match r with
        | .ok false => t = []
        | _ => True) t := by
  refine Tally.wp_bind_of (P := fun _ => True) (aside_safe (uses_perform trivial) ht)
    (fun _ _ _ _ => trivial) fun there t ht _ => ?_
  cases there with
  | true => exact Tally.wp_pure true ht trivial
  | false =>
    refine Tally.wp_perform_same ht (fun r => rfl) fun r hr => ?_
    change (Except TransportError Bool) at r
    cases r with
    | error e => trivial
    | ok there =>
      cases there with
      | true => trivial
      | false => exact hr rfl

/-- A daemon that cannot be reached lets the command fall back only when nothing was asked of it. -/
theorem unavailable_wp (ht : t.length ≤ 1) (settings : cli.Settings) (op : String) (payload : Req)
    (exc : String) :
    ladder.wp (cli.unavailable settings op payload exc : Code Req Val (Option (Option Val)))
      clear_to_fall_back t := by
  refine Tally.wp_bind (R := fun there t => there = false → t = [])
    (Tally.wp_mono (runtime_files_wp ht) fun r t _ hr => ?_) fun there t ht hthere => ?_
  · cases r with
    | error e => trivial
    | ok there =>
      cases there with
      | true => exact fun h => by cases h
      | false => exact fun _ => hr
  cases there with
  | true => exact Tally.wp_throw _ ht trivial
  | false =>
    obtain rfl : t = [] := hthere rfl
    change ladder.wp (if (!settings.autostart_enabled || settings.autostart_attempted) = true then
      pure none else _) _ _
    split
    · exact Tally.wp_pure none ht rfl
    · split
      · exact Tally.wp_pure none ht rfl
      · exact start_and_retry_wp settings op payload

/-- A command falls back on the store only when no attempt stands. -/
theorem maybe_daemon_request_wp (settings : cli.Settings) (op : String) (payload : Req) :
    ladder.wp (cli.maybe_daemon_request settings op payload : Code Req Val (Option (Option Val)))
      clear_to_fall_back [] := by
  unfold cli.maybe_daemon_request
  split
  · refine Tally.wp_tryCatch (R := fun _ _ => True) ?_ fun e t ht _ => ?_
    · refine Tally.wp_bind_of (request_safe payload _ _) (fun _ _ _ _ => trivial) ?_
      exact fun result t ht _ => Tally.wp_pure _ ht trivial
    · cases e with
      | daemon_unavailable exc => exact unavailable_wp ht settings op payload exc
      | _ => exact Tally.wp_throw _ ht trivial
  · exact Tally.wp_pure none (Nat.zero_le _) rfl

/-- A command makes one attempt at a time, where it finds the files once it has made one. -/
theorem execute_safe (settings : cli.Settings) (op : String) (payload : Req) :
    ladder.safe (cli.execute settings op payload : Code Req Val (Option Val)) [] := by
  refine Tally.wp_bind (R := fun used t => used = none → t = [])
    (Tally.wp_mono (maybe_daemon_request_wp settings op payload) fun r t _ hr => ?_)
    fun used t ht hused => ?_
  · cases r with
    | error e => trivial
    | ok used =>
      cases used with
      | some result => exact fun h => by cases h
      | none => exact fun _ => hr
  cases used with
  | some result => exact Tally.safe_pure result ht
  | none =>
    obtain rfl : t = [] := hused rfl
    refine Tally.safe_bind (Tally.wp_perform ht fun r _ => ⟨le_rfl, trivial⟩) ?_
    exact fun result t ht => Tally.safe_pure _ ht

end ladder

/-! ## What is applied -/

/-- The call asks for the operation on behalf of this source. -/
def asks (s : Source) : MachineEvent Req Val → Bool
  | ⟨.send conn _, r⟩ => succeeded r && decide (s = .socket conn)
  | ⟨.enqueue _ _, r⟩ => decide (s ∈ queued [] r)
  | ⟨.dispatch .direct _, _⟩ => decide (s = .direct)
  | _ => false

/-- An operation is applied on behalf of this source. -/
def operates (s : Source) : MachineEvent Req Val → Bool
  | ⟨.dispatch source _, _⟩ => decide (source = s)
  | _ => false

/-- The operation that command `i` asked for is applied, by the command or by whoever
got it from the command. -/
def applies (i : ℕ) (log : List (Party × MachineEvent Req Val)) :
    Party × MachineEvent Req Val → Bool
  | (party, ⟨.dispatch source _, _⟩) =>
    (Conf.own (.client i) log).any (asks source) &&
      (decide (source ≠ .direct) || decide (party = .client i))
  | _ => false

/-- How often the operation of command `i` is applied. -/
def applied (i : ℕ) (log : List (Party × MachineEvent Req Val)) : ℕ := log.countP (applies i log)

/-- A source that was asked is an attempt, unless it was taken back. -/
theorem attempted_of_asked {s : Source} {es : List (MachineEvent Req Val)}
    {e : MachineEvent Req Val} (he : e ∈ es) (hasks : asks s e = true) :
    s ∈ attempts es ∨ ∃ request_id, s = .bridge request_id ∧
      ∃ e' ∈ es, cancels request_id e' = true := by
  -- over the record from its start: what has been attempted stays so, unless it is
  -- cancelled
  induction es using List.reverseRecOn with
  | nil => simp at he
  | append_singleton es e' ih =>
    have hattempts : attempts (es ++ [e']) = tried (attempts es) e' := by
      simp only [attempts, List.foldl_append, List.foldl_cons, List.foldl_nil]
    rw [hattempts]
    obtain ⟨c, r⟩ := e'
    rcases List.mem_append.mp he with he | he
    · rcases ih he with hmem | ⟨request_id, rfl, e₀, he₀, hcancels⟩
      · cases c with
        | send conn payload =>
          refine .inl ?_
          change s ∈ if succeeded r = true then _ else _
          split
          · exact List.mem_cons_of_mem _ hmem
          · exact hmem
        | enqueue payload given =>
          change (Except TransportError Id) at r
          cases r with
          | ok request_id => exact .inl (List.mem_cons_of_mem _ hmem)
          | error e => exact .inl hmem
        | cancel_if_queued request_id reason =>
          by_cases hs : s = .bridge request_id ∧ changed r = true
          · obtain ⟨rfl, hchanged⟩ := hs
            refine .inr ⟨request_id, rfl, _, List.mem_append_right _ List.mem_cons_self, ?_⟩
            change (decide (request_id = request_id) && changed r) = true
            rw [hchanged, decide_eq_true rfl]
            rfl
          · refine .inl ?_
            change s ∈ if changed r = true then (attempts es).filter _ else _
            split
            · rename_i hchanged
              exact List.mem_filter.mpr ⟨hmem, decide_eq_true fun h => hs ⟨h, hchanged⟩⟩
            · exact hmem
        | dispatch source payload =>
          cases source with
          | direct => exact .inl (List.mem_cons_of_mem _ hmem)
          | _ => exact .inl hmem
        | _ => exact .inl hmem
      · exact .inr ⟨request_id, rfl, e₀, List.mem_append_left _ he₀, hcancels⟩
    · -- the last call is the one that asks
      obtain rfl : e = ⟨c, r⟩ := by simpa using he
      refine .inl ?_
      cases c with
      | send conn payload =>
        obtain ⟨hr, rfl⟩ : succeeded r = true ∧ s = .socket conn := by
          simpa [asks] using hasks
        change _ ∈ if succeeded r = true then _ else _
        rw [if_pos hr]
        exact List.mem_cons_self
      | enqueue payload given =>
        change (Except TransportError Id) at r
        cases r with
        | ok request_id =>
          obtain rfl : s = .bridge request_id := by simpa [asks, queued] using hasks
          exact List.mem_cons_self
        | error e => simp [asks, queued] at hasks
      | dispatch source payload =>
        cases source with
        | direct =>
          obtain rfl : s = .direct := of_decide_eq_true hasks
          exact List.mem_cons_self
        | _ => cases hasks
      | _ => cases hasks

/-- Each operation of its own is an attempt of the command. -/
theorem count_direct (es : List (MachineEvent Req Val)) :
    (attempts es).count .direct = es.countP (operates .direct) := by
  induction es using List.reverseRecOn with
  | nil => rfl
  | append_singleton es e ih =>
    have hattempts : attempts (es ++ [e]) = tried (attempts es) e := by
      simp only [attempts, List.foldl_append, List.foldl_cons, List.foldl_nil]
    rw [hattempts, List.countP_append, List.countP_singleton, ← ih]
    obtain ⟨c, r⟩ := e
    cases c with
    | send conn payload =>
      change List.count _ (if succeeded r = true then _ else _) = _
      split
      · exact List.count_cons_of_ne (by simp)
      · rfl
    | enqueue payload given =>
      change (Except TransportError Id) at r
      cases r with
      | ok request_id => exact List.count_cons_of_ne (by simp)
      | error e => rfl
    | cancel_if_queued request_id reason =>
      change List.count _ (if changed r = true then (attempts es).filter _ else _) = _
      split
      · exact List.count_filter (by simp)
      · rfl
    | dispatch source payload =>
      cases source with
      | direct => exact List.count_cons_self
      | _ => rfl
    | _ => rfl

/-! ## Who applies -/

/-- A command asks in its own name, and serves nobody. -/
def commands : Call Req Val → Prop
  | .enqueue _ given => given = none
  | .dispatch source _ => source = .direct
  | .claim _ | .complete .. => False
  | _ => True

/-- What serves the mailbox may be called by a command. -/
theorem commands_of_mails {c : Call Req Val} (h : mails c) : commands c := by
  cases c with
  | enqueue payload given => exact h
  | dispatch source payload => exact h.elim
  | _ => exact h

/-- Talking to the daemon calls what a command may call. -/
theorem talk_commands (conn : ℕ) (payload : Req) :
    (daemon.talk conn payload : Code Req Val (Option Val)).Uses commands := by
  refine uses_bind (uses_tryCatch (uses_bind (uses_perform trivial) fun _ => uses_pure true)
    fun e => ?_) fun sent => ?_
  · cases e with
    | os_error msg => exact uses_pure false
    | _ => exact uses_throw _
  cases sent with
  | false => exact uses_throw _
  | true =>
    refine uses_bind (uses_tryCatch (uses_perform trivial) fun e => ?_) fun response => ?_
    · cases e with
      | _ => exact uses_throw _
    · split
      · exact uses_throw _
      · exact uses_pure _

theorem request_commands (payload : Req) (timeout : String) (polls : ℕ) :
    (daemon.request payload timeout polls : Code Req Val (Option Val)).Uses commands := by
  refine uses_bind (uses_bind (uses_perform trivial) fun there => ?_) fun connected => ?_
  · cases there with
    | false => exact uses_pure _
    | true =>
      refine uses_tryCatch (uses_bind (uses_perform trivial) fun conn => uses_pure _) fun e => ?_
      cases e with
      | os_error msg => exact uses_pure _
      | _ => exact uses_throw _
  · cases connected with
    | ok conn => exact talk_commands conn payload
    | error socket_error =>
      refine uses_tryCatch ((bridge_request_mails _ _ _).mono fun c => commands_of_mails)
        fun e => ?_
      cases e with
      | _ => exact uses_throw _

theorem unavailable_commands (settings : cli.Settings) (op : String) (payload : Req)
    (exc : String) :
    (cli.unavailable settings op payload exc :
      Code Req Val (Option (Option Val))).Uses commands := by
  refine uses_bind (uses_bind (uses_perform trivial) fun there => ?_) fun there => ?_
  · cases there with
    | true => exact uses_pure true
    | false => exact uses_perform trivial
  cases there with
  | true => exact uses_throw _
  | false =>
    change Prog.Uses (I := Sys Req Val) commands
      (if (!settings.autostart_enabled || settings.autostart_attempted) =
        true then pure none else _)
    split
    · exact uses_pure none
    · split
      · exact uses_pure none
      · refine uses_bind (uses_tryCatch (uses_bind (uses_perform trivial) fun _ => uses_pure true)
          fun _ => uses_pure false) fun up => ?_
        cases up with
        | false => exact uses_pure none
        | true =>
          exact uses_tryCatch (uses_bind (request_commands _ _ _) fun _ => uses_pure _) fun _ =>
            uses_throw _

theorem execute_commands (settings : cli.Settings) (op : String) (payload : Req) :
    (cli.execute settings op payload : Code Req Val (Option Val)).Uses commands := by
  refine uses_bind ?_ fun used => ?_
  · unfold cli.maybe_daemon_request
    split
    · refine uses_tryCatch (uses_bind (request_commands _ _ _) fun _ => uses_pure _) fun e => ?_
      cases e with
      | daemon_unavailable exc => exact unavailable_commands settings op payload exc
      | _ => exact uses_throw _
    · exact uses_pure none
  · cases used with
    | some result => exact uses_pure result
    | none => exact uses_bind (uses_perform rfl) fun _ => uses_pure _

/-- What a command calls is polite: it removes no request of others. -/
theorem commands.polite {c : Call Req Val} (h : commands c) : polite c := by
  cases c with
  | enqueue payload given => exact ⟨h, id⟩
  | claim id => exact h.elim
  | complete id response => exact h.elim
  | dispatch source payload =>
    obtain rfl : source = .direct := h
    exact ⟨trivial, id⟩
  | _ => exact ⟨trivial, id⟩

/-- What came on a connection is applied by its own thread. -/
def by_own_thread (party : Party) (c : Call Req Val) : Prop :=
  ∀ conn payload, c = .dispatch (.socket conn) payload → party = .connection conn

theorem party_operates {threads : Threads} {client : ℕ → Code Req Val (Option Val)}
    (hclient : ∀ i, (client i).Uses commands) (party : Party) :
    (threads.code client party).Uses (by_own_thread party) := by
  cases party with
  | client i =>
    refine (hclient i).mono fun c hc conn payload heq => ?_
    subst heq
    cases hc
  | daemon k =>
    refine (thread_uses (serve_housekeeping _)).mono fun c hc conn payload heq => ?_
    subst heq
    exact hc.elim
  | heartbeat k =>
    refine (thread_uses (heartbeat_housekeeping _ _)).mono fun c hc conn payload heq => ?_
    subst heq
    exact hc.elim
  | connection conn =>
    refine (thread_uses (serve_connection_uses conn)).mono fun c hc conn' payload heq => ?_
    subst heq
    have hsame : Source.socket conn' = .socket conn := hc
    injection hsame with hsame
    rw [hsame]
  | worker k =>
    refine (thread_uses (worker_uses _)).mono fun c hc conn payload heq => ?_
    subst heq
    obtain ⟨request_id, h⟩ := hc
    cases h

/-- A connection is served once. -/
theorem serve_connection_once (conn : ℕ) (s : Source) :
    (Tally.counting (operates s) 1).safe
      (thread (daemon.serve_connection conn) : Code Req Val (Option Val)) 0 := by
  have hsame : ∀ {c : Call Req Val} {n : ℕ}, n ≤ 1 →
      (∀ source payload, c ≠ .dispatch source payload) →
      (Tally.counting (operates s) 1).safe (perform (I := Sys Req Val) c) n := by
    intro c n hn hc
    refine Tally.wp_perform_same hn (fun r => ?_) fun _ _ => trivial
    cases c with
    | dispatch source payload => exact absurd rfl (hc source payload)
    | _ => rfl
  refine Tally.safe_bind (Tally.safe_bind (Tally.safe_tryCatch ?_ fun e n hn => ?_)
    fun response n hn => ?_) fun _ n hn => Tally.safe_pure none hn
  · refine Tally.wp_bind_of (P := fun n => n = 0) ?_ (fun _ _ _ _ => trivial)
      fun request n hn h0 => ?_
    · exact Tally.wp_perform_same (Nat.zero_le 1) (fun r => rfl) fun _ _ => rfl
    · subst h0
      refine Tally.safe_bind (Tally.wp_perform hn fun r _ => ⟨?_, trivial⟩) fun _ n hn =>
        Tally.safe_pure _ hn
      change (if operates s ⟨.dispatch (.socket conn) request, r⟩ = true then 0 + 1 else 0) ≤ 1
      split
      · exact le_rfl
      · exact Nat.zero_le 1
  · exact Tally.safe_pure _ hn
  · exact Tally.safe_tryCatch (hsame hn fun _ _ => by simp) fun _ n hn => Tally.safe_pure () hn

/-! ## Any schedule -/

/-- The command looks in vain for the files of a daemon. -/
def missed (i : ℕ) : Option (Party × MachineEvent Req Val) → Bool
  | some (party, e) => decide (party = .client i) && misses_files e
  | none => false

/-- Whenever the command has made an attempt and looks for the files of a daemon, it
finds one. -/
def FindsFiles (i : ℕ) (log : List (Party × MachineEvent Req Val)) : Prop :=
  ∀ n < log.length, missed i log[n]? = true →
    attempts (Conf.own (.client i) (log.take n)) = []

instance (i : ℕ) (log : List (Party × MachineEvent Req Val)) : Decidable (FindsFiles i log) :=
  inferInstanceAs (Decidable (∀ n < log.length, _))

/-- What the command finds of the daemon's files is what the ladder expects. -/
theorem FindsFiles.expected {i : ℕ} {log : List (Party × MachineEvent Req Val)}
    (h : FindsFiles i log) : ladder.Expected [] (Conf.own (.client i) log) := by
  refine Tally.expected_of_split fun es₁ e es₂ hes hmisses => ?_
  obtain ⟨l₁, l₂, rfl, rfl, -⟩ := Conf.own_split hes
  have hfound := h l₁.length (by simp)
  rw [List.take_left] at hfound
  refine hfound ?_
  simp [missed, hmisses]

section schedules

variable (host : Host Req Val Store)
  (fault : Call Req Val → Machine Req Val Store → Option TransportError) (store : Store)
  (threads : Threads) {client : ℕ → Code Req Val (Option Val)}
  (hclient : ∀ i, (client i).Uses commands) (sched : List Party)

include hclient

/-- One source, one operation, except for what commands do themselves. -/
theorem log_operates_once {s : Source} (hs : s ≠ .direct) :
    (serve_clients host fault store threads client sched).log.countP
      (fun e => operates s e.2) ≤ 1 := by
  cases s with
  | direct => exact absurd rfl hs
  | bridge request_id =>
    have hpolite : ∀ i, (client i).Uses polite := fun i => (hclient i).mono fun c hc => hc.polite
    refine le_trans (List.countP_mono_left fun e _ he => ?_)
      (log_executed_once host fault store threads hpolite sched request_id)
    obtain ⟨party, c, r⟩ := e
    cases c with
    | dispatch source payload => exact he
    | _ => cases he
  | socket conn =>
    have htrace := (serve_clients_trace host fault store threads client sched).1
    have honce := Tally.countP_le (htrace (.connection conn))
      (serve_connection_once conn (.socket conn))
    rw [Conf.countP_own] at honce
    refine le_trans (List.countP_mono_left ?_) honce
    rintro ⟨party, c, r⟩ hmem hoperates
    cases c with
    | dispatch source payload =>
      obtain rfl : source = .socket conn := of_decide_eq_true hoperates
      have huses := ((htrace party).uses (party_operates hclient party)).1 _ (Conf.mem_own.mpr hmem)
      have hparty : party = .connection conn := huses conn payload rfl
      rw [Bool.and_eq_true]
      exact ⟨decide_eq_true hparty, hoperates⟩
    | _ => cases hoperates

/-- What was taken back is never applied. -/
theorem log_taken_back {request_id : Id} {e : Party × MachineEvent Req Val}
    (he : e ∈ (serve_clients host fault store threads client sched).log)
    (hcancels : cancels request_id e.2 = true) :
    (serve_clients host fault store threads client sched).log.countP
      (fun e => executes request_id e.2) = 0 := by
  have hpolite : ∀ i, (client i).Uses polite := fun i => (hclient i).mono fun c hc => hc.polite
  have hnone : (serve_clients host fault store threads client sched).log.countP
      (fun e => claims request_id e.2) = 0 := by
    rw [List.countP_eq_zero]
    intro e' he' hclaims
    rw [log_cancelled host fault store threads hpolite sched he he' hcancels] at hclaims
    cases hclaims
  have hle := log_executed_le host fault store threads hpolite sched request_id
  omega

omit hclient in
/-- An operation among a command's calls is an attempt of that command, or is of the request it has
put into the mailbox. -/
theorem own_operates {i : ℕ} {s : Source} {e : MachineEvent Req Val}
    (h : e ∈ Conf.own (.client i) (serve_clients host fault store threads client sched).log)
    (hs : asks s e = true) :
    s ∈ attempts (Conf.own (.client i) (serve_clients host fault store threads client sched).log) ∨
      ∃ request_id, s = .bridge request_id ∧
        ∃ e' ∈ (serve_clients host fault store threads client sched).log,
          cancels request_id e'.2 = true := by
  rcases attempted_of_asked h hs with hmem | ⟨request_id, rfl, e', he', hcancels⟩
  · exact .inl hmem
  · exact .inr ⟨request_id, rfl, (_, e'), Conf.mem_own.mp he', hcancels⟩

/-- The operation is applied for an attempt of the command that stands. -/
theorem applied_le_attempts {i : ℕ}
    (hone : (attempts (Conf.own (.client i)
      (serve_clients host fault store threads client sched).log)).length ≤ 1) :
    applied i (serve_clients host fault store threads client sched).log ≤ 1 := by
  -- an operation that counts has a source that was asked and not taken back
  have hsource : ∀ e ∈ (serve_clients host fault store threads client sched).log,
      applies i (serve_clients host fault store threads client sched).log e = true →
      ∃ s ∈ attempts (Conf.own (.client i)
          (serve_clients host fault store threads client sched).log),
        operates s e.2 = true ∧ (s ≠ .direct ∨ e.1 = .client i) := by
    rintro ⟨party, c, r⟩ hmem happlies
    cases c with
    | dispatch source payload =>
      simp only [applies, Bool.and_eq_true, Bool.or_eq_true, decide_eq_true_eq, List.any_eq_true]
        at happlies
      obtain ⟨⟨e, he, hasks⟩, hparty⟩ := happlies
      rcases own_operates host fault store threads sched he hasks with
        hattempt | ⟨request_id, rfl, e', he', hcancels⟩
      · exact ⟨source, hattempt, decide_eq_true rfl, hparty⟩
      · have hnever := log_taken_back host fault store threads hclient sched he' hcancels
        rw [List.countP_eq_zero] at hnever
        exact absurd (decide_eq_true rfl) (hnever _ hmem)
    | _ => cases happlies
  unfold applied
  cases hattempts : attempts (Conf.own (.client i)
      (serve_clients host fault store threads client sched).log) with
  | nil =>
    rw [hattempts] at hsource
    refine le_trans (Nat.le_of_eq (List.countP_eq_zero.mpr fun e he happlies => ?_)) (Nat.zero_le 1)
    obtain ⟨s, hs, -⟩ := hsource e he happlies
    cases hs
  | cons s rest =>
    rw [hattempts] at hsource hone
    obtain rfl : rest = [] := List.eq_nil_of_length_eq_zero (by simpa using hone)
    by_cases hs : s = .direct
    · subst hs
      have hdirect : (attempts (Conf.own (.client i)
          (serve_clients host fault store threads client sched).log)).count .direct ≤ 1 := by
        rw [hattempts]
        exact le_rfl
      rw [count_direct, Conf.countP_own] at hdirect
      refine le_trans (List.countP_mono_left fun e he happlies => ?_) hdirect
      obtain ⟨s, hmem, hoperates, hparty⟩ := hsource e he happlies
      obtain rfl : s = .direct := List.mem_singleton.mp hmem
      rw [Bool.and_eq_true]
      exact ⟨decide_eq_true (hparty.resolve_left fun h => h rfl), hoperates⟩
    · refine le_trans (List.countP_mono_left fun e he happlies => ?_)
        (log_operates_once host fault store threads hclient sched hs)
      obtain ⟨s', hmem, hoperates, -⟩ := hsource e he happlies
      rwa [List.mem_singleton.mp hmem] at hoperates

end schedules

/-- **At most once.** Commands run beside any daemons that start, stop and crash, with
any call failing and any timeout. Where a command that looks for the files of a daemon
after an attempt finds one, it makes one attempt, and its operation is applied at most once. -/
theorem applied_once (host : Host Req Val Store)
    (fault : Call Req Val → Machine Req Val Store → Option TransportError) (store : Store)
    (threads : Threads) (settings : ℕ → cli.Settings) (op : ℕ → String) (payload : ℕ → Req)
    (sched : List Party) (i : ℕ) :
    let c := serve_clients host fault store threads
      (fun i => cli.execute (settings i) (op i) (payload i)) sched
    FindsFiles i c.log →
      (attempts (Conf.own (.client i) c.log)).length ≤ 1 ∧ applied i c.log ≤ 1 := by
  intro c hfiles
  -- a client makes one attempt at most, and an attempt is applied once at most
  have htrace := (serve_clients_trace host fault store threads
    (fun i => cli.execute (settings i) (op i) (payload i)) sched).1 (.client i)
  have hone : (attempts (Conf.own (.client i) c.log)).length ≤ 1 := by
    exact Tally.wp_holds
      (Tally.wp_trace htrace (execute_safe (settings i) (op i) (payload i)) hfiles.expected)
  refine ⟨hone, ?_⟩
  exact applied_le_attempts host fault store threads
    (fun i => execute_commands (settings i) (op i) (payload i)) sched hone

/-- A machine for fixed inputs: reads time out, no daemon starts in time, and an
operation appends its text to the store. -/
def Machine.Host.plain : Machine.Host String String (List String) where
  now_iso := tally
  cutoff := fun _ => ""
  heartbeat_fresh := fun _ _ => true
  uuid4 := fun n => "r" ++ tally n
  uuid4_injective := tally_injective "r"
  json_request := id
  json_response := id
  json_status := fun _ => rfl
  dispatch := fun _ payload store => (.ok "done", store ++ [payload])
  read_failure := fun _ => .os_error "timed out"
  take_lock := fun _ => true
  start_daemon := fun _ => .error (.runtime_error "daemon exited during startup")
  finds_stale := fun _ => false

def cli.Settings.plain : cli.Settings where
  daemon_enabled := true
  autostart_enabled := true
  autostart_attempted := false
  daemon_spawn_safe := true
  timeout := "60.0"
  polls := 3
  retry_polls := 3

/-- One command of each client, with all calls succeeding. -/
def adding_run (sched : List Party) :
    Conf (Sys String String) Party (Option String) (Machine String String (List String)) :=
  serve_clients Machine.Host.plain (fun _ _ => none) [] ⟨fun _ => 1, fun _ => 1, tally⟩
    (fun _ => cli.execute .plain "add" "note") sched

/-- A daemon starts, reads the request and serves it; the command's read times out, and the command
finds the files of the daemon. -/
def served_late : List Party :=
  List.replicate 9 (.daemon 0) ++ List.replicate 3 (.client 0) ++
    List.replicate 2 (.connection 0) ++ List.replicate 3 (.client 0)

/-- The request was served after its reader had given up, and the command does not apply it
again. -/
theorem applied_once_late :
    let c := adding_run served_late
    c.state.store = ["note"] ∧ attempts (Conf.own (.client 0) c.log) = [.socket 0] ∧
      (attempts (Conf.own (.client 0) c.log)).length ≤ 1 ∧ applied 0 c.log ≤ 1 := by
  intro c
  exact ⟨by decide, by decide,
    applied_once .plain (fun _ _ => none) [] ⟨fun _ => 1, fun _ => 1, tally⟩
    (fun _ => .plain) (fun _ => "add") (fun _ => "note") served_late 0 (by decide)⟩

/-- A daemon starts and reads the request; it is told to stop and removes its files while
the request is being served; the command's read times out. -/
def draining : List Party :=
  List.replicate 9 (.daemon 0) ++ List.replicate 3 (.client 0) ++
    List.replicate 2 (.connection 0) ++ List.replicate 3 (.daemon 0) ++
    List.replicate 5 (.client 0)

/-- The operation has been applied twice. -/
theorem applied_twice :
    let c := adding_run draining
    c.state.store = ["note", "note"] ∧ applied 0 c.log = 2 ∧
      attempts (Conf.own (.client 0) c.log) = [.direct, .socket 0] := by
  decide

end Memline
