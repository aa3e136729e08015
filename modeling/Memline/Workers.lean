/-
The event workers of a daemon: what one turn of a worker does with the event it claims.

A turn is a program over the calls a worker makes: statements on the queue, the
operation itself, the judge client, the alerts file and the audit manifest. Of an
exception only its text is read. The gate of the store and the slots for model calls
raise nothing and are left out.

What a call raises is up to `Luck`, and so is everything the code does not decide: the
clock, the choice among events of one moment, and what an operation returns.
-/
import Memline.EventQueue
import Memline.Lib.Effect

set_option autoImplicit false

namespace Memline.Workers

open Effect Effect.Prog

variable {Val : Type}

/-! ## Calls -/

/-- What a worker has of its operation: a result, or the text of what was raised. -/
abbrev Outcome (Val : Type) : Type := Except String Val

/-- What `append_live_audit` is given for an event. -/
structure AuditEntry (Val : Type) where
  operation : String
  content : Arg
  infer : Arg
  event_id : Id
  attempts : ℕ
  metadata : Arg
  result : Outcome Val
  scope : Args

inductive Call (Val : Type) where
  | claim_next
  | complete (event_id : Id) (result : Val)
  | fail (event_id : Id) (error : String) (attempts : ℕ)
  | refresh_alerts
  | recover_stale
  | purge
  | dispatch_add (args : Args)
  | get_judge_llm
  | run_stale_check (new_id session_id : Arg) (self_only : Bool)
  | append_live_audit (entry : AuditEntry Val)
  | print (text : String)

namespace Call

def Answer : Call Val → Type
  | claim_next => Option ClaimedItem
  | complete .. | refresh_alerts | get_judge_llm | append_live_audit _ | print _ => Unit
  | fail .. => Bool
  | recover_stale | purge => ℕ
  | dispatch_add _ | run_stale_check .. => Val

end Call

abbrev Work (Val : Type) : Interface := ⟨Call Val, Call.Answer, String⟩

abbrev Code (Val α : Type) : Type := Prog (Work Val) α

/-! ## A turn -/

def claim_next : Code Val (Option ClaimedItem) := perform (I := Work Val) .claim_next

def complete (event_id : Id) (result : Val) : Code Val Unit :=
  perform (I := Work Val) (.complete event_id result)

def fail (event_id : Id) (error : String) (attempts : ℕ) : Code Val Bool :=
  perform (I := Work Val) (.fail event_id error attempts)

def refresh_alerts : Code Val Unit := perform (I := Work Val) .refresh_alerts

def dispatch_add (args : Args) : Code Val Val := perform (I := Work Val) (.dispatch_add args)

def get_judge_llm : Code Val Unit := perform (I := Work Val) .get_judge_llm

def run_stale_check (new_id session_id : Arg) (self_only : Bool) : Code Val Val :=
  perform (I := Work Val) (.run_stale_check new_id session_id self_only)

def append_live_audit (entry : AuditEntry Val) : Code Val Unit :=
  perform (I := Work Val) (.append_live_audit entry)

def print (text : String) : Code Val Unit := perform (I := Work Val) (.print text)

/-- `bool(value)`. -/
def truthy : Arg → Bool
  | .value v => v.truthy
  | .dict d => d.truthy

/-- `args.get("infer", True)`. -/
def infer_of (args : Args) : Arg := (args.lookup "infer").getD (.value (.atom (.other "True" true)))

/-- `args.get("metadata") or {}`. -/
def metadata_of (args : Args) : Arg :=
  if truthy (args.get "metadata") then args.get "metadata" else .dict ∅

/-- `{k: v for k, v in {…}.items() if v}`. -/
def scope_of (args : Args) : Args :=
  .ofList ((["user_id", "agent_id", "run_id"].map fun k => (k, args.get k)).filter
    fun e => truthy e.2)

def audit_entry (item : ClaimedItem) (outcome : Outcome Val) : AuditEntry Val where
  operation := "add"
  content := item.args.get "content"
  infer := infer_of item.args
  event_id := item.id
  attempts := item.attempts
  metadata := metadata_of item.args
  result := outcome
  scope := scope_of item.args

/-- `try: … except Exception as exc: error = str(exc)`. -/
def outcome (p : Code Val Val) : Code Val (Outcome Val) :=
  try
    let result ← p
    pure (.ok result)
  catch exc => pure (.error exc)

/-- The event is completed, or failed; returns whether that is final. -/
def conclude (item : ClaimedItem) : Outcome Val → Code Val Bool
  | .ok result => do
    complete item.id result
    pure true
  | .error error => fail item.id error item.attempts

def audit_failure (item : ClaimedItem) (exc : String) : String :=
  s!"async add audit failed for {item.id}: {exc}"

/-- One manifest row per terminal outcome; a failure to write it is only printed. -/
def audit (item : ClaimedItem) (outcome : Outcome Val) : Code Val Unit :=
  try append_live_audit (audit_entry item outcome)
  catch exc => print (audit_failure item exc)

/-- What follows the operation of an add. -/
def finish_add (item : ClaimedItem) (outcome : Outcome Val) : Code Val Unit := do
  let terminal ← conclude item outcome
  refresh_alerts
  if terminal then audit item outcome else pure ()

/-- `args["new_id"]`. -/
def new_id_of (args : Args) : Code Val Arg :=
  match args.lookup "new_id" with
  | some new_id => pure new_id
  | none => throw "'new_id'"

/-- The judging, and what it is given. -/
def stale_check (args : Args) : Code Val Val := do
  let new_id ← new_id_of args
  run_stale_check new_id (args.get "session_id") (truthy (args.get "self_only"))

/-- What follows the judging. -/
def finish_check (item : ClaimedItem) (outcome : Outcome Val) : Code Val Unit := do
  let _ ← conclude item outcome
  refresh_alerts

def _process_stale_check (item : ClaimedItem) : Code Val Unit := do
  -- the client is built before the handler is entered
  get_judge_llm
  let result ← outcome (stale_check item.args)
  finish_check item result

def _process_event (item : ClaimedItem) : Code Val Unit :=
  if item.op = "stale_check" then _process_stale_check item
  else do
    let result ← outcome (dispatch_add item.args)
    finish_add item result

/-- One turn of `_worker_loop`. -/
def worker_turn : Code Val Unit := do
  let item ← claim_next
  match item with
  | none => pure ()
  | some item => _process_event item

/-- What a daemon does with the queue before it starts its workers. -/
def open_queue : Code Val Unit := do
  let _ ← perform (I := Work Val) .recover_stale
  let _ ← perform (I := Work Val) .purge
  refresh_alerts

/-! ## Answers -/

/-- What the workers of a daemon share. -/
structure Site (Val : Type) where
  queue : EventQueue Val
  alerts : Option EventQueue.Alerts
  manifest : List (AuditEntry Val)
  /-- `_judge_llm` has been built. -/
  judge_llm : Bool

structure Luck (Val : Type) where
  now : String
  cutoff : String
  tie : ℕ
  raises : Option String
  result : Val

/-- What a call does where it does not raise. -/
def Luck.answer (luck : Luck Val) : (c : Call Val) → Site Val → c.Answer × Site Val
  | .claim_next, s =>
    let r := s.queue.claim_next luck.tie luck.now
    (r.1, { s with queue := r.2 })
  | .complete event_id result, s =>
    ((), { s with queue := s.queue.complete event_id result luck.now })
  | .fail event_id error attempts, s =>
    let r := s.queue.fail event_id error attempts luck.now
    (r.1, { s with queue := r.2 })
  | .refresh_alerts, s => ((), { s with alerts := s.queue.alerts })
  | .recover_stale, s =>
    let r := s.queue.recover_stale luck.now
    (r.1, { s with queue := r.2 })
  | .purge, s =>
    let r := s.queue.purge luck.cutoff
    (r.1, { s with queue := r.2 })
  | .dispatch_add _, s => (luck.result, s)
  | .get_judge_llm, s => ((), { s with judge_llm := true })
  | .run_stale_check .., s => (luck.result, s)
  | .append_live_audit entry, s => ((), { s with manifest := s.manifest ++ [entry] })
  | .print _, s => ((), s)

/-- Whether a call can raise: a judge client that is built is handed out. -/
def can_raise (s : Site Val) : Call Val → Bool
  | .get_judge_llm => !s.judge_llm
  | _ => true

/-- What raises leaves everything as it was. -/
def answer (luck : Call Val → Luck Val) : Handler (Work Val) (Site Val) := fun c s =>
  match (luck c).raises, can_raise s c with
  | some exc, true => (.error exc, s)
  | _, _ => (.ok ((luck c).answer c s).1, ((luck c).answer c s).2)

/-- A call that does not raise, or cannot here, is answered as the luck has it. -/
theorem answer_ok {luck : Call Val → Luck Val} {c : Call Val} {s : Site Val}
    (h : (luck c).raises = none ∨ can_raise s c = false) :
    answer luck c s = (.ok ((luck c).answer c s).1, ((luck c).answer c s).2) := by
  unfold answer
  split
  · rename_i exc hraises hcan
    rw [hraises, hcan] at h
    simp at h
  · rfl

/-- A call that raises leaves the site as it is. -/
theorem answer_error {luck : Call Val → Luck Val} {c : Call Val} {s : Site Val} {exc : String}
    (h : (luck c).raises = some exc) (hcan : can_raise s c = true) :
    answer luck c s = (.error exc, s) := by
  unfold answer
  rw [h, hcan]

/-! ## One turn, whatever is raised -/

/-- Whether the event is over after this outcome. -/
def terminal_of (item : ClaimedItem) : Outcome Val → Bool
  | .ok _ => true
  | .error _ => EventQueue.terminal item.attempts

/-- What the operation of an add comes to. -/
def dispatched (luck : Call Val → Luck Val) (item : ClaimedItem) : Outcome Val :=
  match (luck (.dispatch_add item.args)).raises with
  | some exc => .error exc
  | none => .ok (luck (.dispatch_add item.args)).result

/-- The event was completed or failed. -/
def LeftThrough (item : ClaimedItem) (q q' : EventQueue Val) : Prop :=
  (∃ result now, q' = q.complete item.id result now) ∨
    ∃ error now, q' = (q.fail item.id error item.attempts now).2

/-- Nothing of the event is in progress. -/
def Settled (event_id : Id) (q : EventQueue Val) : Prop :=
  ∀ row ∈ q.rows, row.id = event_id → row.status ≠ .processing

theorem LeftThrough.settled {item : ClaimedItem} {q q' : EventQueue Val}
    (h : LeftThrough item q q') : Settled item.id q' := by
  have hsettle : ∀ f : Progress Val → Progress Val, (∀ p, (f p).status ≠ .processing) →
      Settled item.id (q.settle (fun r => decide (r.id = item.id)) f) := by
    intro f hf row' hrow' hid
    obtain ⟨row, -, rfl⟩ := EventQueue.mem_settle hrow'
    split
    · exact hf row.toProgress
    · rename_i hp
      rw [if_neg hp] at hid
      exact absurd (decide_eq_true hid) hp
  rcases h with ⟨result, now, rfl⟩ | ⟨error, now, rfl⟩
  · exact hsettle _ fun _ hstatus => by cases hstatus
  · refine hsettle _ fun _ => ?_
    simp only
    split
    · decide
    · decide

section turn

variable (luck : Call Val → Luck Val) (item : ClaimedItem) (s : Site Val)

/-- A handled operation comes back with its outcome. -/
theorem run_outcome (h : Handler (Work Val) (Site Val)) (p : Code Val Val) :
    (outcome p).run h s = (.ok (p.run h s).1, (p.run h s).2) := by
  unfold outcome
  rw [run_tryCatch, run_bind]
  rcases p.run h s with ⟨exc | result, s'⟩
  · rfl
  · rfl

/-- Settling an event, when neither of its two writes fails, settles it as its outcome says. -/
theorem run_conclude (hcomplete : ∀ id r, (luck (.complete id r)).raises = none)
    (hfail : ∀ id e n, (luck (.fail id e n)).raises = none) (o : Outcome Val) :
    ∃ s', (conclude item o).run (answer luck) s = (.ok (terminal_of item o), s') ∧
      LeftThrough item s.queue s'.queue ∧ s'.judge_llm = s.judge_llm := by
  cases o with
  | ok result =>
    refine ⟨_, run_bind_ok ((run_perform _ _ _).trans (answer_ok (.inl (hcomplete _ _)))), ?_, rfl⟩
    exact .inl ⟨result, _, rfl⟩
  | error error =>
    refine ⟨_, (run_perform _ _ _).trans (answer_ok (.inl (hfail _ _ _))), ?_, rfl⟩
    exact .inr ⟨error, _, rfl⟩

/-- Publishing the alerts raises what it raises; it touches no row. -/
theorem run_refresh_alerts :
    ∃ s', (refresh_alerts.run (answer luck) s =
        (match (luck .refresh_alerts).raises with
          | some exc => .error exc
          | none => .ok (), s')) ∧ s'.queue = s.queue := by
  unfold refresh_alerts
  cases hraises : (luck .refresh_alerts).raises with
  | none => exact ⟨_, (run_perform _ _ _).trans (answer_ok (.inl hraises)), rfl⟩
  | some exc => exact ⟨s, (run_perform _ _ _).trans (answer_error hraises rfl), rfl⟩

/-- What becomes of the audit row is at least printed. -/
def Told (luck : Call Val → Luck Val) (item : ClaimedItem) (o : Outcome Val) : Prop :=
  ∀ exc, (luck (.append_live_audit (audit_entry item o))).raises = some exc →
    (luck (.print (audit_failure item exc))).raises = none

/-- The manifest row: it is written or not, and the queue stays as it is. -/
theorem run_audit (o : Outcome Val) :
    ∃ r s', (audit item o).run (answer luck) s = (r, s') ∧ s'.queue = s.queue ∧
      (r = .ok () ↔ Told luck item o) := by
  have hrun : ∀ entry s, (append_live_audit entry).run (answer luck) s =
      answer luck (.append_live_audit entry) s := fun _ _ => run_perform _ _ _
  have hprinted : ∀ text s, (print text).run (answer luck) s = answer luck (.print text) s :=
    fun _ _ => run_perform _ _ _
  unfold audit
  rw [run_tryCatch, hrun]
  cases happend : (luck (.append_live_audit (audit_entry item o))).raises with
  | none =>
    rw [answer_ok (.inl happend)]
    refine ⟨_, _, rfl, rfl, fun _ exc hexc => ?_, fun _ => rfl⟩
    rw [happend] at hexc
    cases hexc
  | some exc =>
    rw [answer_error happend rfl]
    simp only [hprinted]
    cases hprint : (luck (.print (audit_failure item exc))).raises with
    | none =>
      rw [answer_ok (.inl hprint)]
      refine ⟨_, _, rfl, rfl, fun _ exc' hexc => ?_, fun _ => rfl⟩
      rw [happend] at hexc
      injection hexc with hexc
      rw [← hexc, hprint]
    | some exc' =>
      rw [answer_error hprint rfl]
      exact ⟨_, _, rfl, rfl, by simp [Told, happend, hprint]⟩

/-- The judging changes nothing on its own. -/
theorem run_judging (args : Args) :
    ∃ o, (stale_check args : Code Val Val).run (answer luck) s = (o, s) := by
  unfold stale_check new_id_of
  cases args.lookup "new_id" with
  | none => exact ⟨_, rfl⟩
  | some new_id =>
    refine ⟨_, (run_perform _ _ _).trans (Prod.ext rfl ?_)⟩
    unfold answer
    split
    · rfl
    · rfl

section finish

variable (hcomplete : ∀ id r, (luck (.complete id r)).raises = none)
  (hfail : ∀ id e n, (luck (.fail id e n)).raises = none)

include hcomplete hfail

/-- A finished check: it settles its event, and returns unless the alerts raise. -/
theorem run_finish_check (o : Outcome Val) :
    ∃ r s', (finish_check item o).run (answer luck) s = (r, s') ∧
      LeftThrough item s.queue s'.queue ∧ (r = .ok () ↔ (luck .refresh_alerts).raises = none) := by
  obtain ⟨s₁, hconclude, hleft, -⟩ := run_conclude luck item s hcomplete hfail o
  obtain ⟨s₂, hrefresh, hqueue⟩ := run_refresh_alerts luck s₁
  refine ⟨_, s₂, (run_bind_ok hconclude).trans hrefresh, hqueue ▸ hleft, ?_⟩
  cases (luck .refresh_alerts).raises with
  | none => simp
  | some exc => simp

/-- A finished add: it settles its event, and returns unless the alerts or, where it is terminal,
its manifest row raise. -/
theorem run_finish_add (o : Outcome Val) :
    ∃ r s', (finish_add item o).run (answer luck) s = (r, s') ∧
      LeftThrough item s.queue s'.queue ∧ (r = .ok () ↔
        (luck .refresh_alerts).raises = none ∧ (terminal_of item o = true → Told luck item o)) := by
  obtain ⟨s₁, hconclude, hleft, -⟩ := run_conclude luck item s hcomplete hfail o
  obtain ⟨s₂, hrefresh, hqueue⟩ := run_refresh_alerts luck s₁
  unfold finish_add
  rw [run_bind_ok hconclude]
  cases hraises : (luck .refresh_alerts).raises with
  | some exc =>
    rw [hraises] at hrefresh
    exact ⟨_, s₂, run_bind_error hrefresh, hqueue ▸ hleft, by simp⟩
  | none =>
    rw [hraises] at hrefresh
    rw [run_bind_ok hrefresh]
    by_cases hterminal : terminal_of item o = true
    · obtain ⟨r, s₃, haudit, hsame, hr⟩ := run_audit luck item s₂ o
      refine ⟨r, s₃, ?_, hsame ▸ hqueue ▸ hleft, ?_⟩
      · rw [if_pos hterminal]
        exact haudit
      · rw [hr]
        simp [hterminal]
    · refine ⟨.ok (), s₂, ?_, hqueue ▸ hleft, by simp [hterminal]⟩
      rw [if_neg hterminal]
      rfl

/-- **Every claimed event is settled, and its worker survives**, whatever its processing
raises, if and only if none of the three calls outside of every handler raises: building
the judge client for a staleness check, publishing the alerts, and printing that the
audit of an add failed. -/
theorem event_settled :
    (((_process_event item).run (answer luck) s).1 = .ok () ∧
        LeftThrough item s.queue ((_process_event item).run (answer luck) s).2.queue ∧
        Settled item.id ((_process_event item).run (answer luck) s).2.queue) ↔
      (luck .refresh_alerts).raises = none ∧
        (item.op = "stale_check" →
          s.judge_llm = true ∨ (luck .get_judge_llm).raises = none) ∧
        (item.op ≠ "stale_check" → terminal_of item (dispatched luck item) = true →
          Told luck item (dispatched luck item)) := by
  -- a completion or a failure leaves nothing in progress, so two parts remain
  have hsettled : ∀ {r : Except String Unit} {q : EventQueue Val},
      (r = .ok () ∧ LeftThrough item s.queue q ∧ Settled item.id q) ↔
        (r = .ok () ∧ LeftThrough item s.queue q) :=
    ⟨fun h => ⟨h.1, h.2.1⟩, fun h => ⟨h.1, h.2, h.2.settled⟩⟩
  rw [hsettled]
  unfold _process_event
  by_cases hop : item.op = "stale_check"
  · rw [if_pos hop]
    unfold _process_stale_check
    have hjudge : (get_judge_llm : Code Val Unit).run (answer luck) s =
      answer luck .get_judge_llm s := run_perform _ _ _
    by_cases hbuilt : s.judge_llm = true ∨ (luck .get_judge_llm).raises = none
    · have hok : (luck .get_judge_llm).raises = none ∨ can_raise s .get_judge_llm = false :=
        hbuilt.symm.imp_right fun h => by rw [can_raise, h, Bool.not_true]
      rw [answer_ok hok] at hjudge
      rw [run_bind_ok hjudge, run_bind_ok (run_outcome _ _ _)]
      obtain ⟨o, hjudged⟩ := run_judging luck { s with judge_llm := true } item.args
      obtain ⟨r, s', hfinish, hleft, hr⟩ :=
        run_finish_check luck item { s with judge_llm := true } hcomplete hfail o
      have hsame : (luck .get_judge_llm).answer .get_judge_llm s =
        ((), { s with judge_llm := true }) := rfl
      rw [hsame, hjudged, hfinish, hr]
      simp [hop, hleft, hbuilt]
    · obtain ⟨hnone, hraises⟩ := not_or.mp hbuilt
      obtain ⟨exc, hexc⟩ := Option.ne_none_iff_exists'.mp hraises
      have hcan : can_raise s .get_judge_llm = true := by
        rw [can_raise, Bool.eq_false_iff.mpr hnone, Bool.not_false]
      rw [answer_error hexc hcan] at hjudge
      rw [run_bind_error hjudge]
      simp [hop, hbuilt]
  · rw [if_neg hop, run_bind_ok (run_outcome _ _ _)]
    have hdispatch : (dispatch_add item.args).run (answer luck) s = (dispatched luck item, s) := by
      refine (run_perform _ _ _).trans ?_
      unfold dispatched
      cases hraises : (luck (.dispatch_add item.args)).raises with
      | none => exact answer_ok (.inl hraises)
      | some exc => exact answer_error hraises rfl
    rw [hdispatch]
    obtain ⟨r, s', hfinish, hleft, hr⟩ :=
      run_finish_add luck item s hcomplete hfail (dispatched luck item)
    rw [hfinish, hr]
    simp [hop, hleft]

end finish

end turn

/-- Luck with one sort of call, and everything else as it should be. -/
def unlucky (strikes : Call Unit → Bool) (c : Call Unit) : Luck Unit :=
  ⟨"2", "0", 0, if strikes c then some "out of luck" else none, ()⟩

/-- The third attempt of an add. -/
def third_attempt : ClaimedItem := ⟨"a", "add", ∅, 3⟩

/-- A queue with one event, which is in progress. -/
def in_progress (op : String) : Site Unit where
  queue := ((EventQueue.empty.enqueue "a" op ∅ "1").getD .empty).take "a" "1"
  alerts := none
  manifest := []
  judge_llm := false

/-- An add whose third attempt fails is settled as failed. -/
theorem event_settled_third_attempt :
    (((_process_event third_attempt).run
        (answer (unlucky fun c => c matches .dispatch_add _)) (in_progress "add")).1 = .ok () ∧
        LeftThrough third_attempt (in_progress "add").queue ((_process_event third_attempt).run
          (answer (unlucky fun c => c matches .dispatch_add _)) (in_progress "add")).2.queue ∧
        Settled third_attempt.id ((_process_event third_attempt).run
          (answer (unlucky fun c => c matches .dispatch_add _)) (in_progress "add")).2.queue) := by
  refine (event_settled _ _ _ (fun _ _ => rfl) fun _ _ _ => rfl).mpr ⟨rfl, ?_,
    fun _ _ exc hexc => ?_⟩
  · intro hop
    exact absurd hop (by decide)
  · rfl

/-- A judge client that cannot be built strands its event and ends the worker. -/
theorem event_stranded :
    ¬ ∀ (luck : Call Unit → Luck Unit) (s : Site Unit) (item : ClaimedItem),
      (∀ id r, (luck (.complete id r)).raises = none) →
      (∀ id e n, (luck (.fail id e n)).raises = none) →
      (∃ row ∈ s.queue.rows, row.id = item.id ∧ row.status = .processing) →
      ((_process_event item).run (answer luck) s).1 = .ok () ∧
        Settled item.id ((_process_event item).run (answer luck) s).2.queue := by
  intro h
  have hstranded := h (unlucky fun c => c matches .get_judge_llm) (in_progress "stale_check")
    ⟨"a", "stale_check", ∅, 1⟩ (fun _ _ => rfl) (fun _ _ _ => rfl)
    ⟨_, List.mem_singleton.mpr rfl, rfl, rfl⟩
  cases hstranded.1

end Memline.Workers
