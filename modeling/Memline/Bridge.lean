/-
Requests through the mailbox.

A client queues its request and polls for the response; workers of whichever daemon is
alive claim requests and answer them; a daemon that starts settles what its predecessor
left in progress. The one statement that decides who executes a request is the
conditional update of `claim`, and the one that decides that nobody does is the same
update in `cancel_if_queued`: both need the row queued and leave it settled or claimed,
and a row never becomes queued again. So a request has a single chance to be taken.

Everything here holds for any schedule of any clients and threads, with any call
failing, and without assuming that one daemon is gone before the next one starts.
-/
import Memline.Daemon
import Memline.Lib.Counting

set_option autoImplicit false

namespace Memline

open Effect Effect.Prog Machine

variable {Req Val Store : Type}

/-! ## The client -/

namespace bridge

def bridge_exists : Code Req Val Bool := perform (I := Sys Req Val) .bridge_exists

/-- The part of `request` in which a failing database means that the bridge is down. -/
def submit (payload : Req) : Code Req Val Id :=
  try
    let ready ← bridge_queue.is_ready
    if ready then perform (I := Sys Req Val) (.enqueue payload none)
    else throw (.bridge_unavailable "sandbox bridge has no fresh host-daemon heartbeat")
  catch e =>
    match e with
    | .os_error msg | .sqlite_error msg =>
      throw (.bridge_unavailable s!"sandbox bridge database is unavailable: {msg}")
    | e => throw e

/-- The polling loop of `request`; `polls` is how often it comes round before the
deadline. -/
def await (request_id : Id) (timeout : String) : ℕ → Code Req Val (Option Val)
  | 0 => do
    let _ ← bridge_queue.cancel_if_queued request_id
      s!"sandbox bridge request timed out after {timeout}s"
    throw (.bridge_unavailable s!"sandbox bridge request timed out after {timeout}s")
  | polls + 1 => do
    let response ← perform (I := Sys Req Val) (.response request_id)
    match response with
    | some r => do
      perform (I := Sys Req Val) (.acknowledge request_id)
      if r.status ≠ "ok" then throw (.runtime_error (r.failure "daemon bridge request failed"))
      else pure r.result
    | none => do
      let ready ← bridge_queue.is_ready
      if ready then await request_id timeout polls
      else do
        let cancelled ← bridge_queue.cancel_if_queued request_id
          "host daemon stopped before bridge request was claimed"
        -- claimed work is waited for: a daemon that stops drains its workers
        if cancelled then
          throw (.bridge_unavailable "host daemon stopped while bridge request was pending")
        else await request_id timeout polls

def request (payload : Req) (timeout : String) (polls : ℕ) : Code Req Val (Option Val) := do
  let there ← bridge_exists
  if there then do
    let request_id ← submit payload
    await request_id timeout polls
  else throw (.bridge_unavailable "sandbox bridge database does not exist")

end bridge

/-- What a worker answers for the outcome of the operation. -/
def response_to : Except TransportError Val → DaemonResponse Val
  | .ok result => { status := "ok", result := some result }
  | .error e => daemon.error_response e

/-! ## Marked calls -/

/-- A call of the machine with its answer. -/
abbrev MachineEvent (Req Val : Type) : Type := Event (Sys Req Val)

/-- A statement that says it changed something. -/
def changed {ε : Type} : Except ε Bool → Bool
  | .ok b => b
  | .error _ => false

/-- A worker takes the request. -/
def claims (request_id : Id) : MachineEvent Req Val → Bool
  | ⟨.claim id, r⟩ => decide (id = request_id) && changed r
  | _ => false

/-- The client takes it back. -/
def cancels (request_id : Id) : MachineEvent Req Val → Bool
  | ⟨.cancel_if_queued id _, r⟩ => decide (id = request_id) && changed r
  | _ => false

/-- The operation of the request is applied. -/
def executes (request_id : Id) : MachineEvent Req Val → Bool
  | ⟨.dispatch source _, _⟩ => decide (source = .bridge request_id)
  | _ => false

/-- A statement that answers this id. -/
def answers {ε : Type} (request_id : Id) : Except ε Id → Bool
  | .ok id => decide (id = request_id)
  | .error _ => false

/-- The request is queued. -/
def enqueues (request_id : Id) : MachineEvent Req Val → Bool
  | ⟨.enqueue _ _, r⟩ => answers request_id r
  | _ => false

/-! ## One call -/

/-- New requests get new ids. -/
def names_anew : Call Req Val → Prop
  | .enqueue _ given => given = none
  | _ => True

/-- The ids in the mailbox were drawn. -/
def Named (host : Host Req Val Store) (m : Machine Req Val Store) : Prop :=
  ∀ row ∈ m.mailbox.rows, ∃ n < m.drawn, row.id = host.uuid4 n

/-- The request is still to be queued, or queued. -/
def Takeable (host : Host Req Val Store) (request_id : Id) (m : Machine Req Val Store) : Prop :=
  (∃ n ≥ m.drawn, host.uuid4 n = request_id) ∨
    ∃ row ∈ m.mailbox.rows, row.id = request_id ∧ row.status = .queued

section calls

variable {host : Host Req Val Store}
  {fault : Call Req Val → Machine Req Val Store → Option TransportError}
  {m : Machine Req Val Store} {c : Call Req Val}

/-- Ids are drawn one after the other, and none is given back. -/
theorem drawn_le : m.drawn ≤ (host.failing fault c m).2.drawn := by
  rcases host.failing_cases fault c m with ⟨e, h⟩ | h
  · rw [h]
  rw [h]
  cases c with
  | enqueue payload given => exact Nat.le_succ _
  | connect =>
    simp only [Host.answer]
    split
    · exact le_rfl
    · exact le_rfl
  | recv conn =>
    simp only [Host.answer]
    split
    · exact le_rfl
    · exact le_rfl
  | recv_request conn =>
    simp only [Host.answer]
    split
    · exact le_rfl
    · exact le_rfl
  | _ => exact le_rfl

/-- A call other than an insertion keeps the rows as `Kept` says. -/
theorem kept_of_call (hc : ∀ payload given, c ≠ .enqueue payload given) :
    BridgeQueue.Kept m.mailbox (host.failing fault c m).2.mailbox := by
  rcases host.failing_cases fault c m with ⟨e, h⟩ | h
  · rw [h]
    exact .refl _
  rw [h]
  -- rows are removed or settled, and none is made but by a request
  cases c with
  | enqueue payload given => exact absurd rfl (hc payload given)
  | acknowledge id => exact BridgeQueue.kept_remove _ _
  | purge => exact BridgeQueue.kept_remove _ _
  | cancel_if_queued id reason => exact BridgeQueue.kept_settle _ _ (by decide) _ _
  | claim id => exact BridgeQueue.kept_settle _ _ (by decide) _ _
  | complete id response =>
    refine BridgeQueue.kept_settle _ _ ?_ _ _
    split
    · decide
    · decide
  | recover_stale => exact BridgeQueue.kept_settle _ _ (by decide) _ _
  | connect =>
    simp only [Host.answer]
    split
    · exact .refl _
    · exact .refl _
  | recv conn =>
    simp only [Host.answer]
    split
    · exact .refl _
    · exact .refl _
  | recv_request conn =>
    simp only [Host.answer]
    split
    · exact .refl _
    · exact .refl _
  | _ => exact .refl _

/-- Where a row comes from: an earlier row, or the insertion of a new request. -/
theorem row_of_call (hc : names_anew c) {row' : BridgeRow Req Val}
    (h : row' ∈ (host.failing fault c m).2.mailbox.rows) :
    (∃ row ∈ m.mailbox.rows, row'.id = row.id ∧ row'.payload_json = row.payload_json ∧
        (row'.status = .queued → row.status = .queued)) ∨
      ∃ payload, (⟨c, (host.failing fault c m).1⟩ : MachineEvent Req Val) =
          ⟨.enqueue payload none, .ok (host.uuid4 m.drawn)⟩ ∧
        (host.failing fault c m).2.drawn = m.drawn + 1 ∧ row'.id = host.uuid4 m.drawn ∧
        row'.payload_json = host.json_request payload := by
  by_cases henqueue : ∃ payload given, c = .enqueue payload given
  · obtain ⟨payload, given, rfl⟩ := henqueue
    obtain rfl : given = none := hc
    rcases host.failing_cases fault (.enqueue payload none) m with ⟨e, hfail⟩ | hok
    · rw [hfail] at h
      exact .inl ⟨row', h, rfl, rfl, id⟩
    · rw [hok] at h ⊢
      rcases BridgeQueue.mem_enqueue h with h | rfl
      · exact .inl ⟨row', h, rfl, rfl, id⟩
      · exact .inr ⟨payload, rfl, rfl, rfl, rfl⟩
  · exact .inl (kept_of_call (fun payload given hc => henqueue ⟨payload, given, hc⟩) row' h)

/-- A call that names anew leaves the names unique. -/
theorem named_of_call (hc : names_anew c) (h : Named host m) :
    Named host (host.failing fault c m).2 := by
  intro row' hrow'
  rcases row_of_call hc hrow' with ⟨row, hrow, hid, -, -⟩ | ⟨payload, -, hdrawn, hid, -⟩
  · obtain ⟨n, hn, hname⟩ := h row hrow
    exact ⟨n, lt_of_lt_of_le hn drawn_le, hid.trans hname⟩
  · exact ⟨m.drawn, by omega, hid⟩

/-- No call makes a request takeable again. -/
theorem takeable_of_call (hc : names_anew c) {request_id : Id}
    (h : Takeable host request_id (host.failing fault c m).2) : Takeable host request_id m := by
  rcases h with ⟨n, hn, hname⟩ | ⟨row', hrow', hid, hqueued⟩
  · exact .inl ⟨n, le_trans drawn_le hn, hname⟩
  · rcases row_of_call hc hrow' with ⟨row, hrow, hsame, -, hstatus⟩ | ⟨payload, -, -, hname, -⟩
    · exact .inr ⟨row, hrow, hsame.symm.trans hid, hstatus hqueued⟩
    · exact .inl ⟨m.drawn, le_rfl, hname.symm.trans hid⟩

/-- Taking a request needs it takeable, and leaves it not so. -/
theorem takes_of_call (hm : Named host m) {request_id : Id}
    (h : claims request_id ⟨c, (host.failing fault c m).1⟩ = true ∨
      cancels request_id ⟨c, (host.failing fault c m).1⟩ = true) :
    Takeable host request_id m ∧ ¬ Takeable host request_id (host.failing fault c m).2 := by
  -- both statements need a queued row and leave none
  suffices hrow : (∃ row ∈ m.mailbox.rows, row.id = request_id ∧ row.status = .queued) ∧
      (host.failing fault c m).2.drawn = m.drawn ∧
      ∀ row ∈ (host.failing fault c m).2.mailbox.rows, row.id = request_id → row.status ≠ .queued by
    obtain ⟨⟨row, hrow, hid, hqueued⟩, hdrawn, hgone⟩ := hrow
    refine ⟨.inr ⟨row, hrow, hid, hqueued⟩, ?_⟩
    rintro (⟨n, hn, hname⟩ | ⟨row', hrow', hid', hqueued'⟩)
    · obtain ⟨k, hk, hdrawn'⟩ := hm row hrow
      have hkn : k = n := host.uuid4_injective (hdrawn'.symm.trans (hid.trans hname.symm))
      omega
    · exact hgone row' hrow' hid' hqueued'
  cases c with
  | claim id =>
    rcases h with h | h
    · simp only [claims, Bool.and_eq_true, decide_eq_true_eq] at h
      obtain ⟨rfl, hchanged⟩ := h
      rcases host.failing_cases fault (.claim id) m with ⟨e, hfail⟩ | hok
      · rw [hfail] at hchanged
        cases hchanged
      · rw [hok] at hchanged ⊢
        exact ⟨BridgeQueue.rowcount_queued hchanged, rfl,
          BridgeQueue.settle_queued _ id (by decide) _ _⟩
    · cases h
  | cancel_if_queued id reason =>
    rcases h with h | h
    · cases h
    · simp only [cancels, Bool.and_eq_true, decide_eq_true_eq] at h
      obtain ⟨rfl, hchanged⟩ := h
      rcases host.failing_cases fault (.cancel_if_queued id reason) m with ⟨e, hfail⟩ | hok
      · rw [hfail] at hchanged
        cases hchanged
      · rw [hok] at hchanged ⊢
        exact ⟨BridgeQueue.rowcount_queued hchanged, rfl,
          BridgeQueue.settle_queued _ id (by decide) _ _⟩
  | _ =>
    rcases h with h | h
    · cases h
    · cases h

/-- Where a successful response comes from: it was there, or a worker wrote it. -/
theorem response_of_call {row' : BridgeRow Req Val} {r : DaemonResponse Val}
    (h : row' ∈ (host.failing fault c m).2.mailbox.rows) (hr : row'.response_json = some r)
    (hok : r.status = "ok") :
    (∃ row ∈ m.mailbox.rows, row.id = row'.id ∧ row.response_json = some r) ∨
      ∃ r₀, c = .complete row'.id r₀ ∧ r = host.json_response r₀ := by
  -- an update that puts in no successful response leaves one that is there where it was
  have hsettle : ∀ {p : BridgeRow Req Val → Bool} {status : BridgeStatus}
      {response : BridgeRow Req Val → Option (DaemonResponse Val)} {now : String},
      (∀ row r, response row = some r → r.status = "ok" → row.response_json = some r) →
      row' ∈ (m.mailbox.settle p status response now).rows →
      ∃ row ∈ m.mailbox.rows, row.id = row'.id ∧ row.response_json = some r := by
    intro p status response now hresponse hrow'
    obtain ⟨row, hrow, rfl⟩ := BridgeQueue.mem_settle hrow'
    refine ⟨row, hrow, ?_⟩
    by_cases hp : p row = true
    · rw [if_pos hp] at hr ⊢
      exact ⟨rfl, hresponse row r hr hok⟩
    · rw [if_neg hp] at hr ⊢
      exact ⟨rfl, hr⟩
  rcases host.failing_cases fault c m with ⟨e, hfail⟩ | hanswer
  · rw [hfail] at h
    exact .inl ⟨row', h, rfl, hr⟩
  rw [hanswer] at h
  -- of all calls only a completion puts in a successful response
  cases c with
  | enqueue payload given =>
    rcases BridgeQueue.mem_enqueue h with h | rfl
    · exact .inl ⟨row', h, rfl, hr⟩
    · cases hr
  | acknowledge id => exact .inl ⟨row', BridgeQueue.mem_remove h, rfl, hr⟩
  | purge => exact .inl ⟨row', BridgeQueue.mem_remove h, rfl, hr⟩
  | claim id => exact .inl (hsettle (fun _ _ h _ => h) h)
  | cancel_if_queued id reason =>
    refine .inl (hsettle (fun row r h hr => ?_) h)
    injection h with h
    subst h
    simp at hr
  | recover_stale =>
    refine .inl (hsettle (fun row r h hr => ?_) h)
    injection h with h
    subst h
    simp [BridgeQueue.interrupted] at hr
  | complete id response =>
    obtain ⟨row, hrow, rfl⟩ := BridgeQueue.mem_settle h
    by_cases hid : decide (row.id = id) = true
    · rw [if_pos hid] at hr ⊢
      injection hr with hr
      exact .inr ⟨response, by rw [of_decide_eq_true hid], hr.symm⟩
    · rw [if_neg hid] at hr ⊢
      exact .inl ⟨row, hrow, rfl, hr⟩
  | connect =>
    simp only [Host.answer] at h
    split at h
    · exact .inl ⟨row', h, rfl, hr⟩
    · exact .inl ⟨row', h, rfl, hr⟩
  | recv conn =>
    simp only [Host.answer] at h
    split at h
    · exact .inl ⟨row', h, rfl, hr⟩
    · exact .inl ⟨row', h, rfl, hr⟩
  | recv_request conn =>
    simp only [Host.answer] at h
    split at h
    · exact .inl ⟨row', h, rfl, hr⟩
    · exact .inl ⟨row', h, rfl, hr⟩
  | _ => exact .inl ⟨row', h, rfl, hr⟩

end calls

/-! ## Any run of calls -/

section answered

variable {host : Host Req Val Store}
  {fault : Call Req Val → Machine Req Val Store → Option TransportError} {store : Store}
  {m : Machine Req Val Store} {es : List (MachineEvent Req Val)}

theorem named_start (host : Host Req Val Store) (store : Store) : Named host (start store) := by
  intro row hrow
  simp [start, BridgeQueue.empty] at hrow

/-- A request is taken at most once, by a worker or by its client. -/
theorem taken_once (hs : Answered (host.failing fault) (start store) es m)
    (hes : ∀ e ∈ es, names_anew e.1) (request_id : Id) :
    es.countP (fun e => claims request_id e || cancels request_id e) ≤ 1 := by
  refine (hs.once (C := Takeable host request_id) (named_start host store)
    fun e he t ht heq => ?_).1
  obtain ⟨c, r⟩ := e
  obtain rfl : r = (host.failing fault c t).1 := heq
  refine ⟨named_of_call (hes _ he) ht, takeable_of_call (hes _ he), fun htakes => ?_⟩
  rw [Bool.or_eq_true] at htakes
  exact takes_of_call ht htakes

/-- An id is given to one request. -/
theorem enqueued_once (hs : Answered (host.failing fault) (start store) es m)
    (hes : ∀ e ∈ es, names_anew e.1) (request_id : Id) : es.countP (enqueues request_id) ≤ 1 := by
  refine (hs.once (J := fun _ => True)
    (C := fun m => ∃ n ≥ m.drawn, host.uuid4 n = request_id) trivial
    fun e he t _ heq => ⟨trivial, ?_, fun hnames => ?_⟩).1
  · rintro ⟨n, hn, hname⟩
    exact ⟨n, le_trans drawn_le hn, hname⟩
  obtain ⟨c, r⟩ := e
  obtain rfl : r = (host.failing fault c t).1 := heq
  cases c with
  | enqueue payload given =>
    obtain rfl : given = none := hes _ he
    rcases host.failing_cases fault (.enqueue payload none) t with ⟨e, hfail⟩ | hok
    · rw [hfail] at hnames
      cases hnames
    · rw [hok] at hnames ⊢
      have hname : host.uuid4 t.drawn = request_id := of_decide_eq_true hnames
      refine ⟨⟨t.drawn, le_rfl, hname⟩, ?_⟩
      rintro ⟨n, hn, hname'⟩
      have hsame : n = t.drawn := host.uuid4_injective (hname'.trans hname.symm)
      have hlater : t.drawn + 1 ≤ n := hn
      omega
  | _ => cases hnames

/-- A row of the mailbox holds the payload that was queued under its id. -/
theorem row_enqueued (hs : Answered (host.failing fault) (start store) es m)
    (hes : ∀ e ∈ es, names_anew e.1) {row : BridgeRow Req Val} (hrow : row ∈ m.mailbox.rows) :
    ∃ payload, (⟨.enqueue payload none, .ok row.id⟩ : MachineEvent Req Val) ∈ es ∧
      row.payload_json = host.json_request payload := by
  obtain ⟨es₁, e, es₂, t, rfl, -, heq, hbefore, row', hrow', hid, hpayload⟩ := hs.origin
    (Q := fun m => ∃ r ∈ m.mailbox.rows, r.id = row.id ∧ r.payload_json = row.payload_json)
    (by simp [start, BridgeQueue.empty]) ⟨row, hrow, rfl, rfl⟩
  obtain ⟨c, r⟩ := e
  obtain rfl : r = (host.failing fault c t).1 := heq
  rcases row_of_call (hes _ (by simp)) hrow' with
    ⟨row₀, hrow₀, hid₀, hpayload₀, -⟩ | ⟨payload, hevent, -, hname, hjson⟩
  · exact absurd ⟨row₀, hrow₀, hid₀.symm.trans hid, hpayload₀.symm.trans hpayload⟩ hbefore
  · refine ⟨payload, ?_, hpayload.symm.trans hjson⟩
    rw [hevent, ← hid, hname]
    simp

/-- A successful response was written by whoever completed the request. -/
theorem response_completed (hs : Answered (host.failing fault) (start store) es m)
    {row : BridgeRow Req Val} (hrow : row ∈ m.mailbox.rows) {r : DaemonResponse Val}
    (hr : row.response_json = some r) (hok : r.status = "ok") :
    ∃ r₀ a, (⟨.complete row.id r₀, a⟩ : MachineEvent Req Val) ∈ es ∧ r = host.json_response r₀ := by
  obtain ⟨es₁, e, es₂, t, rfl, -, heq, hbefore, row', hrow', hid, hr'⟩ := hs.origin
    (Q := fun m => ∃ row' ∈ m.mailbox.rows, row'.id = row.id ∧ row'.response_json = some r)
    (by simp [start, BridgeQueue.empty]) ⟨row, hrow, rfl, hr⟩
  obtain ⟨c, a⟩ := e
  rcases response_of_call hrow' hr' hok with ⟨row₀, hrow₀, hid₀, hr₀⟩ | ⟨r₀, rfl, hjson⟩
  · exact absurd ⟨row₀, hrow₀, hid₀.trans hid, hr₀⟩ hbefore
  · refine ⟨r₀, a, ?_, hjson⟩
    rw [← hid]
    simp

variable (fault) in
/-- What a client reads is what the mailbox has. -/
theorem read_response {request_id : Id} {r : DaemonResponse Val}
    (h : (.ok (some r) : Except TransportError (Option (DaemonResponse Val))) =
      (host.failing fault (.response request_id) m).1) :
      m.mailbox.response request_id = some r := by
  rcases host.failing_cases fault (.response request_id) m with ⟨e, hfail⟩ | hok
  · rw [hfail] at h
    cases h
  · rw [hok] at h
    exact (Except.ok.inj h).symm

variable (fault) in
/-- A request that was handed out stood in the mailbox. -/
theorem read_next_queued {request_id : Id} {payload : Req}
    (h : (.ok (some (request_id, payload)) : Except TransportError (Option (Id × Req))) =
      (host.failing fault .next_queued m).1) :
    m.mailbox.next_queued = some (request_id, payload) := by
  rcases host.failing_cases fault .next_queued m with ⟨e, hfail⟩ | hok
  · rw [hfail] at h
    cases h
  · rw [hok] at h
    exact (Except.ok.inj h).symm

end answered

/-! ## The worker -/

/-- The calls a worker has made: rounds that claimed nothing, rounds that served a
request, and at the end a round that was broken off. -/
inductive Rounds : List (MachineEvent Req Val) → Prop where
  | nil : Rounds []
  | idle {r : Except TransportError (Option (Id × Req))} {es : List (MachineEvent Req Val)}
      (h : Rounds es) : Rounds (⟨.next_queued, r⟩ :: es)
  | lost {r : Except TransportError (Option (Id × Req))} {request_id : Id}
      {b : Except TransportError Bool} {es : List (MachineEvent Req Val)}
      (hb : changed b = false) (h : Rounds es) :
      Rounds (⟨.next_queued, r⟩ :: ⟨.claim request_id, b⟩ :: es)
  | claimed (request_id : Id) (payload : Req) :
      Rounds [⟨.next_queued, .ok (some (request_id, payload))⟩, ⟨.claim request_id, .ok true⟩]
  | executed (request_id : Id) (payload : Req) (a : Except TransportError Val) :
      Rounds [⟨.next_queued, .ok (some (request_id, payload))⟩, ⟨.claim request_id, .ok true⟩,
        ⟨.dispatch (.bridge request_id) payload, a⟩]
  | served (request_id : Id) (payload : Req) (a : Except TransportError Val)
      (b : Except TransportError Unit) {es : List (MachineEvent Req Val)} (h : Rounds es) :
      Rounds (⟨.next_queued, .ok (some (request_id, payload))⟩ :: ⟨.claim request_id, .ok true⟩ ::
        ⟨.dispatch (.bridge request_id) payload, a⟩ ::
        ⟨.complete request_id (response_to a), b⟩ :: es)

/-- Serving a claimed request is two calls: the operation, and the response to its outcome. -/
theorem process_bridge_request_eq (request_id : Id) (payload : Req)
    (f : Unit → Code Req Val Unit) :
    (daemon.process_bridge_request request_id payload >>= f) =
      .call (.dispatch (.bridge request_id) payload) fun a =>
        perform (I := Sys Req Val) (.complete request_id (response_to a)) >>= f := by
  refine congrArg (Prog.call (I := Sys Req Val) (.dispatch (.bridge request_id) payload))
    (funext fun a => ?_)
  cases a with
  | ok v => rfl
  | error e => rfl

theorem worker_rounds {rounds : ℕ} {es : List (MachineEvent Req Val)} {q : Code Req Val Unit}
    (h : Trace (daemon.bridge_worker_loop rounds) es q) : Rounds es := by
  -- a round is idle, has lost its claim, or serves the request it has claimed
  induction rounds generalizing es with
  | zero =>
    obtain ⟨rfl, -⟩ := h.of_done trivial
    exact .nil
  | succ rounds ih =>
    unfold daemon.bridge_worker_loop bridge_queue.claim_next at h
    rw [bind_assoc] at h
    rcases h.perform_bind with ⟨rfl, -⟩ | ⟨e, rfl, -⟩ | ⟨row, es₁, rfl, h₁⟩
    · exact .nil
    · exact .idle .nil
    cases row with
    | none => exact .idle (ih h₁)
    | some item =>
      obtain ⟨request_id, payload⟩ := item
      simp only at h₁
      rw [bind_assoc] at h₁
      rcases h₁.perform_bind with ⟨rfl, -⟩ | ⟨e, rfl, -⟩ | ⟨claimed, es₂, rfl, h₂⟩
      · exact .idle .nil
      · exact .lost rfl .nil
      cases claimed with
      | false => exact .lost rfl (ih h₂)
      | true =>
        change Trace (daemon.process_bridge_request request_id payload >>= fun _ =>
          daemon.bridge_worker_loop rounds) es₂ q at h₂
        rw [process_bridge_request_eq] at h₂
        cases h₂ with
        | nil => exact .claimed request_id payload
        | @cons _ _ a es₃ _ h₃ =>
          rcases h₃.perform_bind with ⟨rfl, -⟩ | ⟨e, rfl, -⟩ | ⟨u, es₄, rfl, h₄⟩
          · exact .executed request_id payload a
          · exact .served request_id payload a (.error e) .nil
          · exact .served request_id payload a (.ok u) (ih h₄)

/-- A worker executes a request only after each time it has claimed it. -/
theorem Rounds.executes_le {es : List (MachineEvent Req Val)} (h : Rounds es) (request_id : Id) :
    es.countP (executes request_id) ≤ es.countP (claims request_id) := by
  induction h with
  | nil => simp
  | idle _ ih => simpa [List.countP_cons, executes, claims] using ih
  | lost _ _ ih =>
    simp only [List.countP_cons, executes, claims]
    simp
    omega
  | claimed id payload => simp [List.countP_cons, executes]
  | executed id payload a =>
    simp only [List.countP_cons, executes, claims, changed]
    simp
  | served id payload a b _ ih =>
    simp only [List.countP_cons, executes, claims, changed]
    simp
    omega

/-- Another call stands further on. -/
theorem mem_tail {e e' : MachineEvent Req Val} {es : List (MachineEvent Req Val)}
    (h : e ∈ e' :: es) (hne : e.1 ≠ e'.1) : e ∈ es :=
  (List.mem_cons.mp h).resolve_left fun heq => hne (congrArg Sigma.fst heq)

/-- What a worker writes is its response to the outcome of the request it has claimed. -/
theorem Rounds.completed {es : List (MachineEvent Req Val)} (h : Rounds es) {request_id : Id}
    {r : DaemonResponse Val} {b : Except TransportError Unit}
    (hmem : (⟨.complete request_id r, b⟩ : MachineEvent Req Val) ∈ es) :
    ∃ payload a, r = response_to a ∧
      (⟨.next_queued, .ok (some (request_id, payload))⟩ : MachineEvent Req Val) ∈ es ∧
      (⟨.claim request_id, .ok true⟩ : MachineEvent Req Val) ∈ es ∧
      (⟨.dispatch (.bridge request_id) payload, a⟩ : MachineEvent Req Val) ∈ es := by
  induction h with
  | nil => simp at hmem
  | idle _ ih =>
    obtain ⟨payload, a, hr, hnext, hclaim, hdispatch⟩ := ih (mem_tail hmem (by simp))
    exact ⟨payload, a, hr, by simp [hnext], by simp [hclaim], by simp [hdispatch]⟩
  | lost _ _ ih =>
    have hmem' := mem_tail (mem_tail hmem (by simp)) (by simp)
    obtain ⟨payload, a, hr, hnext, hclaim, hdispatch⟩ := ih hmem'
    exact ⟨payload, a, hr, by simp [hnext], by simp [hclaim], by simp [hdispatch]⟩
  | claimed id payload =>
    have hmem' := mem_tail (mem_tail hmem (by simp)) (by simp)
    simp at hmem'
  | executed id payload a =>
    have hmem' := mem_tail (mem_tail (mem_tail hmem (by simp)) (by simp)) (by simp)
    simp at hmem'
  | served id payload a b' _ ih =>
    have hmem' := mem_tail (mem_tail (mem_tail hmem (by simp)) (by simp)) (by simp)
    rcases List.mem_cons.mp hmem' with h | h
    · cases h
      exact ⟨payload, a, rfl, by simp, by simp, by simp⟩
    · obtain ⟨payload', a', hr, hnext, hclaim, hdispatch⟩ := ih h
      exact ⟨payload', a', hr, by simp [hnext], by simp [hclaim], by simp [hdispatch]⟩

/-! ## The client -/

/-- Waiting returns what was stored as an ok response. -/
theorem await_ret {request_id : Id} {timeout : String} {polls : ℕ}
    {es : List (MachineEvent Req Val)} {v : Option Val}
    (h : Trace (bridge.await request_id timeout polls) es (.ret v)) :
    ∃ r, (⟨.response request_id, .ok (some r)⟩ : MachineEvent Req Val) ∈ es ∧ r.status = "ok" ∧
      v = r.result := by
  -- it returns in the round in which there is a response, and raises in the last
  induction polls generalizing es with
  | zero =>
    obtain ⟨b, es₁, es₂, -, -, h₂⟩ := Trace.bind_ret h
    exact (Trace.raise_ret h₂).elim
  | succ polls ih =>
    unfold bridge.await at h
    obtain ⟨response, es₁, es₂, rfl, h₁, h₂⟩ := Trace.bind_ret h
    obtain rfl := Trace.perform_ret h₁
    cases response with
    | some r =>
      obtain ⟨u, es₃, es₄, rfl, -, h₄⟩ := Trace.bind_ret h₂
      refine ⟨r, by simp, ?_⟩
      by_cases hr : r.status ≠ "ok"
      · rw [if_pos hr] at h₄
        exact (Trace.raise_ret h₄).elim
      · rw [if_neg hr] at h₄
        obtain ⟨-, rfl⟩ := Trace.ret_ret h₄
        exact ⟨not_not.mp hr, rfl⟩
    | none =>
      obtain ⟨ready, es₃, es₄, rfl, -, h₄⟩ := Trace.bind_ret h₂
      cases ready with
      | true =>
        obtain ⟨r, hr, hok⟩ := ih h₄
        exact ⟨r, by simp [hr], hok⟩
      | false =>
        obtain ⟨cancelled, es₅, es₆, rfl, -, h₆⟩ := Trace.bind_ret h₄
        cases cancelled with
        | true => exact (Trace.raise_ret h₆).elim
        | false =>
          obtain ⟨r, hr, hok⟩ := ih h₆
          exact ⟨r, by simp [hr], hok⟩

/-- The id of a submitted request is the answer of an insertion. -/
theorem submit_ret {payload : Req} {es : List (MachineEvent Req Val)} {request_id : Id}
    (h : Trace (bridge.submit payload) es (.ret request_id)) :
    (⟨.enqueue payload none, .ok request_id⟩ : MachineEvent Req Val) ∈ es := by
  rcases Trace.tryCatch_ret h with h | ⟨e, es₁, es₂, -, -, h₂⟩
  · obtain ⟨ready, es₁, es₂, rfl, -, h₂⟩ := Trace.bind_ret h
    cases ready with
    | true =>
      obtain rfl := Trace.perform_ret h₂
      simp
    | false => exact (Trace.raise_ret h₂).elim
  · cases e with
    | _ => exact (Trace.raise_ret h₂).elim

/-- A request returns what was stored under the id that it was given. -/
theorem request_ret {payload : Req} {timeout : String} {polls : ℕ}
    {es : List (MachineEvent Req Val)} {v : Option Val}
    (h : Trace (bridge.request payload timeout polls) es (.ret v)) :
    ∃ request_id r, (⟨.enqueue payload none, .ok request_id⟩ : MachineEvent Req Val) ∈ es ∧
      (⟨.response request_id, .ok (some r)⟩ : MachineEvent Req Val) ∈ es ∧ r.status = "ok" ∧
      v = r.result := by
  obtain ⟨there, es₁, es₂, rfl, -, h₂⟩ := Trace.bind_ret h
  cases there with
  | false => exact (Trace.raise_ret h₂).elim
  | true =>
    obtain ⟨request_id, es₃, es₄, rfl, h₃, h₄⟩ := Trace.bind_ret h₂
    obtain ⟨r, hr, hok⟩ := await_ret h₄
    exact ⟨request_id, r, by simp [submit_ret h₃], by simp [hr], hok⟩

/-! ## Who makes which calls -/

/-- The calls by which a worker serves a request. -/
def works : Call Req Val → Prop
  | .claim _ | .complete .. | .dispatch (.bridge _) _ => True
  | _ => False

/-- New ids for new requests, and no worker's calls. -/
def polite (c : Call Req Val) : Prop := names_anew c ∧ ¬ works c

/-- Neither queues a request nor serves one. -/
def housekeeping : Call Req Val → Prop
  | .enqueue .. | .claim _ | .complete .. | .dispatch .. => False
  | _ => True

/-- Serves no request, and queues new ones only. -/
def mails : Call Req Val → Prop
  | .enqueue _ given => given = none
  | .claim _ | .complete .. | .dispatch .. => False
  | _ => True

theorem housekeeping.mails {c : Call Req Val} (h : housekeeping c) : mails c := by
  cases c with
  | enqueue payload given => exact h.elim
  | _ => exact h

/-- Serving the mailbox is polite: it removes nothing that is not its own. -/
theorem mails.polite {c : Call Req Val} (h : mails c) : polite c := by
  cases c with
  | enqueue payload given => exact ⟨h, id⟩
  | claim id => exact h.elim
  | complete id response => exact h.elim
  | dispatch source payload => exact h.elim
  | _ => exact ⟨trivial, id⟩

theorem thread_uses {ok : Call Req Val → Prop} {p : Code Req Val Unit} (hp : p.Uses ok) :
    (thread p).Uses ok := uses_bind hp fun _ => uses_pure none

theorem bridge_request_mails (payload : Req) (timeout : String) (polls : ℕ) :
    (bridge.request payload timeout polls : Code Req Val (Option Val)).Uses mails := by
  have hsubmit : (bridge.submit payload : Code Req Val Id).Uses mails := by
    refine uses_tryCatch (uses_bind (uses_perform trivial) fun ready => ?_) fun e => ?_
    · cases ready with
      | true => exact uses_perform rfl
      | false => exact uses_throw _
    · split
      · exact uses_throw _
      · exact uses_throw _
      · exact uses_throw _
  -- waiting reads, and takes its own request back at most
  have hawait : ∀ request_id polls,
      (bridge.await request_id timeout polls : Code Req Val (Option Val)).Uses mails := by
    intro request_id polls
    induction polls with
    | zero => exact uses_bind (uses_perform trivial) fun _ => uses_throw _
    | succ polls ih =>
      refine uses_bind (uses_perform trivial) fun response => ?_
      cases response with
      | some r =>
        refine uses_bind (uses_perform trivial) fun _ => ?_
        split
        · exact uses_throw _
        · exact uses_pure _
      | none =>
        refine uses_bind (uses_perform trivial) fun ready => ?_
        split
        · exact ih
        · refine uses_bind (uses_perform trivial) fun cancelled => ?_
          split
          · exact uses_throw _
          · exact ih
  refine uses_bind (uses_perform trivial) fun there => ?_
  split
  · exact uses_bind hsubmit fun request_id => hawait request_id polls
  · exact uses_throw _

theorem startup_housekeeping (daemon_id : Id) :
    (daemon.startup daemon_id : Code Req Val Unit).Uses housekeeping := by
  refine uses_bind (uses_perform trivial) fun there => ?_
  have hrest : (do
      perform (I := Sys Req Val) .bind
      perform (I := Sys Req Val) .write_pid
      perform (I := Sys Req Val) .listen
      perform (I := Sys Req Val) .open_bridge
      let _ ← perform (I := Sys Req Val) .recover_stale
      let _ ← perform (I := Sys Req Val) .purge
      perform (I := Sys Req Val) (.mark_ready daemon_id) : Code Req Val Unit).Uses
        housekeeping := by
    refine uses_bind (uses_perform trivial) fun _ => ?_
    refine uses_bind (uses_perform trivial) fun _ => ?_
    refine uses_bind (uses_perform trivial) fun _ => ?_
    refine uses_bind (uses_perform trivial) fun _ => ?_
    refine uses_bind (uses_perform trivial) fun _ => ?_
    refine uses_bind (uses_perform trivial) fun _ => ?_
    exact uses_perform trivial
  cases there with
  | true => exact uses_bind (uses_perform trivial) fun _ => hrest
  | false => exact hrest

theorem serve_housekeeping (daemon_id : Id) :
    (daemon.serve daemon_id : Code Req Val Unit).Uses housekeeping := by
  refine uses_bind (uses_perform trivial) fun alone => ?_
  cases alone with
  | false => exact uses_pure ()
  | true =>
    refine uses_bind (startup_housekeeping daemon_id) fun _ => ?_
    refine uses_bind (uses_perform trivial) fun _ => ?_
    refine uses_bind (uses_perform trivial) fun _ => ?_
    refine uses_bind (uses_perform trivial) fun _ => ?_
    exact uses_perform trivial

theorem heartbeat_housekeeping (daemon_id : Id) (beats : ℕ) :
    (daemon.bridge_heartbeat_loop daemon_id beats : Code Req Val Unit).Uses housekeeping := by
  induction beats with
  | zero => exact uses_pure ()
  | succ beats ih =>
    refine uses_bind (uses_perform trivial) fun alive => ?_
    cases alive with
    | true => exact ih
    | false => exact uses_pure ()

/-- The calls of a thread that serves connections: operations are those of its own one. -/
def serves_connection (conn : ℕ) : Call Req Val → Prop
  | .dispatch source _ => source = .socket conn
  | .enqueue .. | .claim _ | .complete .. => False
  | _ => True

/-- A connection is served by the calls of its own thread. -/
theorem serve_connection_uses (conn : ℕ) :
    (daemon.serve_connection conn : Code Req Val Unit).Uses (serves_connection conn) := by
  refine uses_bind (uses_tryCatch ?_ fun _ => uses_pure _) fun response => ?_
  · refine uses_bind (uses_perform trivial) fun request => ?_
    exact uses_bind (uses_perform rfl) fun _ => uses_pure _
  · exact uses_tryCatch (uses_perform trivial) fun _ => uses_pure ()

/-- The calls of a worker: operations are those of requests in the mailbox. -/
def serves_mailbox : Call Req Val → Prop
  | .dispatch source _ => ∃ request_id, source = .bridge request_id
  | .enqueue .. => False
  | _ => True

theorem worker_uses (rounds : ℕ) :
    (daemon.bridge_worker_loop rounds : Code Req Val Unit).Uses serves_mailbox := by
  induction rounds with
  | zero => exact uses_pure ()
  | succ rounds ih =>
    refine uses_bind (uses_bind (uses_perform trivial) fun row => ?_) fun item => ?_
    · cases row with
      | none => exact uses_pure none
      | some item =>
        refine uses_bind (uses_perform trivial) fun claimed => ?_
        cases claimed with
        | true => exact uses_pure _
        | false => exact uses_pure none
    · cases item with
      | none => exact ih
      | some item =>
        refine uses_bind (uses_bind (uses_tryCatch ?_ fun _ => uses_pure _) fun _ => ?_) fun _ => ih
        · exact uses_bind (uses_perform ⟨_, rfl⟩) fun _ => uses_pure _
        · exact uses_perform trivial

/-- Only workers do a worker's calls. -/
theorem party_uses {threads : Threads} {client : ℕ → Code Req Val (Option Val)}
    (hclient : ∀ i, (client i).Uses polite) (party : Party) :
    (threads.code client party).Uses fun c =>
      names_anew c ∧ (works c → ∃ k, party = .worker k) := by
  have hpolite : ∀ {p : Code Req Val (Option Val)}, p.Uses polite →
      p.Uses fun c => names_anew c ∧ (works c → ∃ k, party = .worker k) :=
    fun hp => hp.mono fun c hc => ⟨hc.1, fun hworks => absurd hworks hc.2⟩
  cases party with
  | client i => exact hpolite (hclient i)
  | daemon k => exact hpolite ((thread_uses (serve_housekeeping _)).mono fun c hc =>
      hc.mails.polite)
  | heartbeat k =>
    exact hpolite ((thread_uses (heartbeat_housekeeping _ _)).mono fun c hc => hc.mails.polite)
  | connection conn =>
    refine hpolite ((thread_uses (serve_connection_uses conn)).mono fun c hc => ?_)
    cases c with
    | enqueue payload given => exact hc.elim
    | claim id => exact hc.elim
    | complete id response => exact hc.elim
    | dispatch source payload =>
      obtain rfl : source = .socket conn := hc
      exact ⟨trivial, id⟩
    | _ => exact ⟨trivial, id⟩
  | worker k =>
    refine (thread_uses (worker_uses _)).mono fun c hc => ⟨?_, fun _ => ⟨k, rfl⟩⟩
    cases c with
    | enqueue payload given => exact hc.elim
    | _ => trivial

/-! ## Any schedule -/

/-- The machine after a schedule, with the calls made so far. -/
def serve_clients (host : Host Req Val Store)
    (fault : Call Req Val → Machine Req Val Store → Option TransportError) (store : Store)
    (threads : Threads) (client : ℕ → Code Req Val (Option Val)) (sched : List Party) :
    Conf (Sys Req Val) Party (Option Val) (Machine Req Val Store) :=
  (Conf.start (threads.code client) (start store)).exec (host.failing fault) sched

/-- Each party follows its own code, and the machine answers in the order of the log. -/
theorem serve_clients_trace (host : Host Req Val Store)
    (fault : Call Req Val → Machine Req Val Store → Option TransportError) (store : Store)
    (threads : Threads) (client : ℕ → Code Req Val (Option Val)) (sched : List Party) :
    (∀ party, Trace (threads.code client party)
        (Conf.own party (serve_clients host fault store threads client sched).log)
        ((serve_clients host fault store threads client sched).prog party)) ∧
      Answered (host.failing fault) (start store)
        ((serve_clients host fault store threads client sched).log.map Prod.snd)
        (serve_clients host fault store threads client sched).state := by
  obtain ⟨l, hlog, htrace, hanswered⟩ :=
    Conf.exec_trace (host.failing fault) (Conf.start (threads.code client) (start store)) sched
  obtain rfl : (serve_clients host fault store threads client sched).log = l := hlog
  exact ⟨htrace, hanswered⟩

/-- The response to a request is its worker's, for its own payload. -/
def Fulfilled (host : Host Req Val Store) (log : List (Party × MachineEvent Req Val)) (i : ℕ)
    (payload : Req) (v : Option Val) : Prop :=
  ∃ request_id k result b,
    (Party.client i, (⟨.enqueue payload none, .ok request_id⟩ : MachineEvent Req Val)) ∈ log ∧
    (Party.worker k, (⟨.claim request_id, .ok true⟩ : MachineEvent Req Val)) ∈ log ∧
    (Party.worker k, (⟨.dispatch (.bridge request_id) (host.json_request payload), .ok result⟩ :
      MachineEvent Req Val)) ∈ log ∧
    (Party.worker k, (⟨.complete request_id ⟨"ok", some result, none⟩, b⟩ :
      MachineEvent Req Val)) ∈ log ∧
    v = (host.json_response ⟨"ok", some result, none⟩).result

section schedules

variable (host : Host Req Val Store)
  (fault : Call Req Val → Machine Req Val Store → Option TransportError) (store : Store)
  (threads : Threads) {client : ℕ → Code Req Val (Option Val)}
  (hclient : ∀ i, (client i).Uses polite) (sched : List Party)

include hclient

/-- Every entry of the log names anew, and work is done by workers only. -/
theorem log_uses {party : Party} {e : MachineEvent Req Val}
    (he : (party, e) ∈ (serve_clients host fault store threads client sched).log) :
    names_anew e.1 ∧ (works e.1 → ∃ k, party = .worker k) := by
  have htrace := (serve_clients_trace host fault store threads client sched).1 party
  exact (htrace.uses (party_uses hclient party)).1 e (Conf.mem_own.mpr he)

/-- No call of the log takes a name that was given. -/
theorem log_names_anew :
    ∀ e ∈ (serve_clients host fault store threads client sched).log.map Prod.snd,
      names_anew e.1 := by
  intro e he
  obtain ⟨⟨party, e'⟩, hlogged, rfl⟩ := List.mem_map.mp he
  exact (log_uses host fault store threads hclient sched hlogged).1

omit hclient in
/-- Own calls of a worker come in rounds. -/
theorem log_rounds (k : ℕ) :
    Rounds (Conf.own (.worker k) (serve_clients host fault store threads client sched).log) := by
  have htrace := (serve_clients_trace host fault store threads client sched).1 (.worker k)
  rcases htrace.bind_inv with ⟨p, hp, -, -⟩ | ⟨u, es₁, es₂, hes, h₁, h₂⟩
  · exact worker_rounds hp
  · obtain ⟨rfl, -⟩ := h₂.of_done trivial
    rw [hes, List.append_nil]
    exact worker_rounds h₁

/-- A request is claimed or cancelled once, by whomever. -/
theorem log_taken_once (request_id : Id) :
    (serve_clients host fault store threads client sched).log.countP
      (fun e => claims request_id e.2 || cancels request_id e.2) ≤ 1 := by
  have hanswered := (serve_clients_trace host fault store threads client sched).2
  have honce :=
    taken_once hanswered (log_names_anew host fault store threads hclient sched) request_id
  rwa [List.countP_map] at honce

theorem log_claimed_once (request_id : Id) :
    (serve_clients host fault store threads client sched).log.countP
      (fun e => claims request_id e.2) ≤ 1 := by
  refine le_trans (List.countP_mono_left fun e _ he => ?_)
    (log_taken_once host fault store threads hclient sched request_id)
  rw [he, Bool.true_or]

/-- Each execution of a request follows a claim of its own. -/
theorem log_executed_le (request_id : Id) :
    (serve_clients host fault store threads client sched).log.countP
        (fun e => executes request_id e.2) ≤
      (serve_clients host fault store threads client sched).log.countP
        (fun e => claims request_id e.2) := by
  refine Conf.countP_le_of_own fun party => ?_
  by_cases hworker : ∃ k, party = .worker k
  · obtain ⟨k, rfl⟩ := hworker
    exact (log_rounds host fault store threads sched k).executes_le request_id
  · -- nobody else executes requests of the mailbox
    have hnone : (Conf.own party (serve_clients host fault store threads client sched).log).countP
        (executes request_id) = 0 := by
      rw [List.countP_eq_zero]
      rintro ⟨c, r⟩ he hexecutes
      have huses := (log_uses host fault store threads hclient sched (Conf.mem_own.mp he)).2
      cases c with
      | dispatch source payload =>
        obtain rfl : source = .bridge request_id := of_decide_eq_true hexecutes
        exact hworker (huses trivial)
      | _ => cases hexecutes
    rw [hnone]
    exact Nat.zero_le _

theorem log_executed_once (request_id : Id) :
    (serve_clients host fault store threads client sched).log.countP
      (fun e => executes request_id e.2) ≤ 1 :=
  le_trans (log_executed_le host fault store threads hclient sched request_id)
    (log_claimed_once host fault store threads hclient sched request_id)

/-- Nobody claims a request that was cancelled. -/
theorem log_cancelled {request_id : Id} {e e' : Party × MachineEvent Req Val}
    (he : e ∈ (serve_clients host fault store threads client sched).log)
    (he' : e' ∈ (serve_clients host fault store threads client sched).log)
    (hcancels : cancels request_id e.2 = true) : claims request_id e'.2 = false := by
  rw [← Bool.not_eq_true]
  intro hclaims
  have hsame : e = e' := eq_of_countP_le_one
    (log_taken_once host fault store threads hclient sched request_id) he he'
    (by rw [hcancels, Bool.or_true]) (by rw [hclaims, Bool.true_or])
  subst hsame
  obtain ⟨party, c, r⟩ := e
  cases c with
  | claim id => cases hcancels
  | _ => cases hclaims

/-- A client that reads a successful response reads what a worker made of its payload. -/
theorem log_fulfilled {i : ℕ} {payload : Req} {request_id : Id} {r : DaemonResponse Val}
    (henqueue : (Party.client i, (⟨.enqueue payload none, .ok request_id⟩ : MachineEvent Req Val)) ∈
      (serve_clients host fault store threads client sched).log)
    (hresponse : (Party.client i, (⟨.response request_id, .ok (some r)⟩ : MachineEvent Req Val)) ∈
      (serve_clients host fault store threads client sched).log) (hok : r.status = "ok") :
    Fulfilled host (serve_clients host fault store threads client sched).log i payload
      r.result := by
  have hanswered := (serve_clients_trace host fault store threads client sched).2
  have hnames := log_names_anew host fault store threads hclient sched
  have hmem : ∀ {party : Party} {e : MachineEvent Req Val},
      (party, e) ∈ (serve_clients host fault store threads client sched).log →
      e ∈ (serve_clients host fault store threads client sched).log.map Prod.snd :=
    fun h => List.mem_map.mpr ⟨_, h, rfl⟩
  -- the response was read from a row, and a worker wrote it there
  obtain ⟨es₁, es₂, t, hes, h₁, hread, -⟩ := hanswered.mem (hmem hresponse)
  obtain ⟨row, hrow, rfl, hr⟩ := BridgeQueue.response_mem (read_response fault hread) hok
  obtain ⟨r₀, b, hcomplete, rfl⟩ := response_completed h₁ hrow hr hok
  have hcomplete' := hes ▸ List.mem_append_left _ hcomplete
  obtain ⟨⟨party, e⟩, hlogged, rfl⟩ := List.mem_map.mp hcomplete'
  obtain ⟨k, rfl⟩ := (log_uses host fault store threads hclient sched hlogged).2 trivial
  obtain ⟨payload', a, rfl, hnext, hclaim, hdispatch⟩ :=
    (log_rounds host fault store threads sched k).completed (Conf.mem_own.mpr hlogged)
  rw [Conf.mem_own] at hnext hclaim hdispatch
  -- its payload was read from a row, and the client put it there
  obtain ⟨es₃, es₄, t', hes', h₃, hread', -⟩ := hanswered.mem (hmem hnext)
  obtain ⟨row', hrow', hid', rfl⟩ := BridgeQueue.next_queued_mem (read_next_queued fault hread')
  obtain ⟨payload₀, henqueue₀, hjson⟩ := row_enqueued h₃
    (fun e he => hnames e (hes' ▸ List.mem_append_left _ he)) hrow'
  rw [hid'] at henqueue₀
  have hboth : (⟨.enqueue payload₀ none, .ok row.id⟩ : MachineEvent Req Val) =
      ⟨.enqueue payload none, .ok row.id⟩ :=
    eq_of_countP_le_one (enqueued_once hanswered hnames row.id)
      (hes' ▸ List.mem_append_left _ henqueue₀) (hmem henqueue) (decide_eq_true rfl)
      (decide_eq_true rfl)
  obtain rfl : payload₀ = payload := by
    injection congrArg Sigma.fst hboth
  rw [host.json_status] at hok
  cases a with
  | error e => simp [response_to, daemon.error_response] at hok
  | ok result =>
    rw [hjson] at hdispatch
    exact ⟨row.id, k, result, b, henqueue, hclaim, hdispatch, hlogged, rfl⟩

end schedules

/-- **Requests through the mailbox**, for any clients, workers, daemons, crashes and
failing calls in any order. A request is claimed at most once and executed at most
once; a request that its client has cancelled is never claimed; and what a client is
returned is the response that the worker who claimed its request wrote for its payload. -/
theorem mailbox_requests (host : Host Req Val Store)
    (fault : Call Req Val → Machine Req Val Store → Option TransportError) (store : Store)
    (threads : Threads) (payload : ℕ → Req) (timeout : ℕ → String) (polls : ℕ → ℕ)
    (sched : List Party) :
    let c := serve_clients host fault store threads
      (fun i => bridge.request (payload i) (timeout i) (polls i)) sched
    (∀ request_id, c.log.countP (fun e => claims request_id e.2) ≤ 1 ∧
        c.log.countP (fun e => executes request_id e.2) ≤ 1) ∧
      (∀ request_id, ∀ e ∈ c.log, cancels request_id e.2 = true →
        ∀ e' ∈ c.log, claims request_id e'.2 = false) ∧
      ∀ i v, c.prog (.client i) = .ret v → Fulfilled host c.log i (payload i) v := by
  intro c
  have hpolite : ∀ i, (bridge.request (payload i) (timeout i) (polls i) :
      Code Req Val (Option Val)).Uses polite := fun i =>
    (bridge_request_mails _ _ _).mono fun c hc => hc.polite
  refine ⟨fun request_id => ⟨?_, ?_⟩, fun request_id e he hcancels e' he' => ?_, fun i v hv => ?_⟩
  · exact log_claimed_once host fault store threads hpolite sched request_id
  · exact log_executed_once host fault store threads hpolite sched request_id
  · exact log_cancelled host fault store threads hpolite sched he he' hcancels
  · have htrace : Trace (bridge.request (payload i) (timeout i) (polls i))
        (Conf.own (.client i) c.log) (c.prog (.client i)) :=
      (serve_clients_trace host fault store threads (fun i => bridge.request (payload i) (timeout i)
        (polls i)) sched).1 (.client i)
    rw [hv] at htrace
    -- an answer is returned only for a response to the request that was enqueued
    obtain ⟨request_id, r, henqueue, hresponse, hok, rfl⟩ := request_ret htrace
    rw [Conf.mem_own] at henqueue hresponse
    exact log_fulfilled host fault store threads hpolite sched henqueue hresponse hok

end Memline
