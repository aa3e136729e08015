/-
A daemon and its workers, call by call, with clients beside them and crashes anywhere.

A `Shift` is what survives a crash (queue, alerts, manifest) and the programs of the one
daemon there is: the main thread on its way to open the queue, then the workers. Each
action is one call of one thread, one statement of a client, or the end of the process.

Whatever happens here happens at a `Desk`, in the same order (`shift_refines`). On top
of that stands the law about the manifest: a worker settles an add first and writes its
manifest row last, so what is settled is recorded, or some worker still owes the row.
-/
import Memline.Desk
import Memline.Workers

set_option autoImplicit false

namespace Memline

open SqlTable History Effect Effect.Prog Workers

variable {Val : Type}

/-- The threads of the daemon. -/
inductive Crew (Val : Type) where
  | down
  | opening (main : Workers.Code Val Unit)
  | working (threads : List (Workers.Code Val Unit))

structure Shift (Val : Type) where
  site : Site Val
  crew : Crew Val

namespace Shift

inductive Act (Val : Type) where
  | enqueue (event_id : Id) (op : String) (args : Args) (now : String)
  | retry (event_id : Id) (now : String)
  | ack (event_id : Option Id) (now : String)
  | boot
  | main (luck : Luck Val)
  | work (k : ℕ) (luck : Luck Val)
  | crash

def opened : Shift Val := ⟨⟨.empty, none, [], false⟩, .down⟩

/-- The next call of a program. -/
def advance (luck : Luck Val) (s : Site Val) :
    Workers.Code Val Unit → Option (Workers.Code Val Unit × Site Val)
  | .call c k => some (k (answer (fun _ => luck) c s).1, (answer (fun _ => luck) c s).2)
  | _ => none

def with_queue (sh : Shift Val) (q : EventQueue Val) : Shift Val :=
  { sh with site := { sh.site with queue := q } }

/-- What the process had in memory goes with it. -/
def ended (sh : Shift Val) : Shift Val := ⟨{ sh.site with judge_llm := false }, .down⟩

/-- The next move of a worker: one call, or the next turn. A thread that has raised is gone. -/
def work (luck : Luck Val) (s : Site Val) :
    Workers.Code Val Unit → Option (Workers.Code Val Unit × Site Val)
  | .ret _ => some (worker_turn, s)
  | p => advance luck s p

def step (workers : ℕ) (sh : Shift Val) : Act Val → Option (Shift Val)
  | .enqueue event_id op args now =>
    (sh.site.queue.enqueue event_id op args now).map sh.with_queue
  | .retry event_id now => some (sh.with_queue (sh.site.queue.retry event_id now).2)
  | .ack event_id now => some (sh.with_queue (sh.site.queue.ack event_id now).2)
  | .boot => match sh.crew with
    | .down => some { sh with crew := .opening open_queue }
    | _ => none
  | .main luck => match sh.crew with
    -- the workers start once the queue is open
    | .opening (.ret _) => some { sh with crew := .working (.replicate workers worker_turn) }
    | .opening p => (advance luck sh.site p).map fun r => ⟨r.2, .opening r.1⟩
    | _ => none
  | .work k luck => match sh.crew with
    | .working threads => threads[k]?.bind fun p =>
        (work luck sh.site p).map fun r => ⟨r.2, .working (threads.set k r.1)⟩
    | _ => none
  | .crash => match sh.crew with
    | .down => none
    | _ => some sh.ended

/-- The event whose manifest row this thread is about to write. -/
def due_audit : Workers.Code Val Unit → Option Id
  | .call (.append_live_audit entry) _ => some entry.event_id
  | .call .refresh_alerts k => match k (.ok ()) with
    | .call (.append_live_audit entry) _ => some entry.event_id
    | _ => none
  | _ => none

/-! ## How far a worker is -/

inductive Stage (Val : Type) where
  | idle
  | holding (item : ClaimedItem)
  /-- The add is settled, and its manifest row is still to be written. -/
  | owing (item : ClaimedItem) (outcome : Outcome Val)

/-- The event whose manifest row is due. -/
def Stage.owed : Stage Val → Option Id
  | .owing item _ => some item.id
  | _ => none

/-- What is left of a turn. -/
inductive At : Stage Val → Workers.Code Val Unit → Prop where
  | turn : At .idle worker_turn
  | finished : At .idle (.ret ())
  | gone {stage : Stage Val} (h : ∀ item o, stage ≠ .owing item o) (exc : String) :
    At stage (.raise exc)
  | begun (item : ClaimedItem) : At (.holding item) (_process_event item)
  | judging (item : ClaimedItem) (hop : item.op = "stale_check") :
    At (.holding item) (outcome (stale_check item.args) >>= finish_check item)
  | checked (item : ClaimedItem) (o : Outcome Val) (hop : item.op = "stale_check") :
    At (.holding item) (finish_check item o)
  | added (item : ClaimedItem) (o : Outcome Val) : At (.holding item) (finish_add item o)
  | refreshing : At .idle refresh_alerts
  | passing : At .idle (refresh_alerts >>= fun _ => pure ())
  | publishing (item : ClaimedItem) (o : Outcome Val) :
    At (.owing item o) (refresh_alerts >>= fun _ => audit item o)
  | auditing (item : ClaimedItem) (o : Outcome Val) : At (.owing item o) (audit item o)
  | complaining (text : String) : At .idle (print text)

/-- What one call of a worker does to the queue and the manifest, and where it gets. -/
inductive Advance (luck : Luck Val) (s s' : Site Val) : Stage Val → Stage Val → Prop where
  | quiet (stage : Stage Val) (hqueue : s'.queue = s.queue) (hmanifest : s'.manifest = s.manifest) :
    Advance luck s s' stage stage
  | claim {item : ClaimedItem}
    (h : s.queue.claim_next luck.tie luck.now = (some item, s'.queue))
    (hmanifest : s'.manifest = s.manifest) : Advance luck s s' .idle (.holding item)
  | complete {item : ClaimedItem} {stage' : Stage Val} (result : Val)
    (hqueue : s'.queue = s.queue.complete item.id result luck.now)
    (hmanifest : s'.manifest = s.manifest)
    (hstage : item.op = "stale_check" ∧ stage' = .idle ∨ stage' = .owing item (.ok result)) :
    Advance luck s s' (.holding item) stage'
  | fail {item : ClaimedItem} {stage' : Stage Val} (error : String)
    (hqueue : s'.queue = (s.queue.fail item.id error item.attempts luck.now).2)
    (hmanifest : s'.manifest = s.manifest)
    (hstage : (item.op = "stale_check" ∨ EventQueue.terminal item.attempts = false) ∧
      stage' = .idle ∨ stage' = .owing item (.error error)) :
    Advance luck s s' (.holding item) stage'
  | record (item : ClaimedItem) (o : Outcome Val) (hqueue : s'.queue = s.queue)
    (hmanifest : s'.manifest = s.manifest ++ [audit_entry item o]) :
    Advance luck s s' (.owing item o) .idle
  | lose (item : ClaimedItem) (o : Outcome Val) (hraises : luck.raises ≠ none)
    (hqueue : s'.queue = s.queue) (hmanifest : s'.manifest = s.manifest) :
    Advance luck s s' (.owing item o) .idle

/-- A call either raises and changes nothing, or does what it does. -/
theorem advance_call {luck : Luck Val} {s s' : Site Val} {c : Workers.Call Val}
    {k : Except String c.Answer → Workers.Code Val Unit} {p' : Workers.Code Val Unit}
    (h : advance luck s (.call c k) = some (p', s')) :
    (∃ exc, luck.raises = some exc ∧ p' = k (.error exc) ∧ s' = s) ∨
      p' = k (.ok (luck.answer c s).1) ∧ s' = (luck.answer c s).2 := by
  injection h with h
  obtain ⟨rfl, rfl⟩ := Prod.mk.inj h
  unfold answer
  split
  · rename_i exc hraises _
    exact .inl ⟨exc, hraises, rfl, rfl⟩
  · exact .inr ⟨rfl, rfl⟩

/-- One step of a program that begins with a call. -/
theorem advance_bind {luck : Luck Val} {s s' : Site Val} {c : Workers.Call Val}
    {f : c.Answer → Workers.Code Val Unit} {p' : Workers.Code Val Unit}
    (h : advance luck s (perform (I := Work Val) c >>= f) = some (p', s')) :
    (∃ exc, luck.raises = some exc ∧ p' = .raise exc ∧ s' = s) ∨
      p' = f (luck.answer c s).1 ∧ s' = (luck.answer c s).2 := advance_call h

theorem outcome_dispatch (args : Args) :
    outcome (dispatch_add args : Workers.Code Val Val) = .call (.dispatch_add args) fun r =>
      .ret r :=
  congrArg (Prog.call _) (funext fun r => by cases r <;> rfl)

/-- A check has its outcome already, or judges and nothing else. -/
theorem outcome_judging (Val : Type) (args : Args) :
    (∃ o : Outcome Val, outcome (stale_check args) = .ret o) ∨
      ∃ new_id, outcome (stale_check args : Workers.Code Val Val) =
        .call (.run_stale_check new_id (args.get "session_id") (truthy (args.get "self_only")))
          fun r => .ret r := by
  unfold stale_check new_id_of
  cases args.lookup "new_id" with
  | none => exact .inl ⟨.error "'new_id'", rfl⟩
  | some new_id =>
    exact .inr ⟨new_id, congrArg (Prog.call _) (funext fun r => by cases r <;> rfl)⟩

/-- Writing the manifest row is one call, after which nothing raises. -/
theorem audit_eq (item : ClaimedItem) (o : Outcome Val) :
    audit item o = .call (.append_live_audit (audit_entry item o)) fun r => match r with
      | .ok _ => .ret ()
      | .error exc => print (audit_failure item exc) :=
  congrArg (Prog.call _) (funext fun r => by cases r <;> rfl)

theorem finish_check_ok (item : ClaimedItem) (result : Val) :
    finish_check item (.ok result) =
      (perform (I := Work Val) (.complete item.id result) >>= fun _ => refresh_alerts) :=
  congrArg (Prog.call _) (funext fun r => by cases r <;> rfl)

theorem finish_check_error (item : ClaimedItem) (error : String) :
    (finish_check item (.error error) : Workers.Code Val Unit) =
      (perform (I := Work Val) (.fail item.id error item.attempts) >>= fun _ => refresh_alerts) :=
  congrArg (Prog.call _) (funext fun r => by cases r <;> rfl)

theorem finish_add_ok (item : ClaimedItem) (result : Val) :
    finish_add item (.ok result) =
      (perform (I := Work Val) (.complete item.id result) >>= fun _ =>
        refresh_alerts >>= fun _ => audit item (.ok result)) :=
  congrArg (Prog.call _) (funext fun r => by cases r <;> rfl)

theorem finish_add_error (item : ClaimedItem) (error : String) :
    (finish_add item (.error error) : Workers.Code Val Unit) =
      (perform (I := Work Val) (.fail item.id error item.attempts) >>= fun terminal : Bool =>
        refresh_alerts >>= fun _ =>
          if terminal = true then audit item (.error error) else pure ()) :=
  congrArg (Prog.call _) (funext fun r => by cases r <;> rfl)

theorem at_gone_idle (exc : String) : At (.idle : Stage Val) (.raise exc) :=
  .gone (fun _ _ h => by cases h) exc

/-- A worker that has gone with an event in its hands. -/
theorem at_gone_holding (item : ClaimedItem) (exc : String) :
    At (.holding item : Stage Val) (.raise exc) := .gone (fun _ _ h => by cases h) exc

/-- A staleness check that is judged: its event is completed or failed. -/
theorem advance_check {luck : Luck Val} {s s' : Site Val} {item : ClaimedItem} {o : Outcome Val}
    (hop : item.op = "stale_check") {p' : Workers.Code Val Unit}
    (h : advance luck s (finish_check item o) = some (p', s')) :
    ∃ stage', At stage' p' ∧ Advance luck s s' (.holding item) stage' := by
  cases o with
  | ok result =>
    rw [finish_check_ok] at h
    rcases advance_bind h with ⟨exc, -, rfl, rfl⟩ | ⟨rfl, rfl⟩
    · exact ⟨_, at_gone_holding item exc, .quiet _ rfl rfl⟩
    · exact ⟨.idle, .refreshing, .complete result rfl rfl (.inl ⟨hop, rfl⟩)⟩
  | error error =>
    rw [finish_check_error] at h
    rcases advance_bind h with ⟨exc, -, rfl, rfl⟩ | ⟨rfl, rfl⟩
    · exact ⟨_, at_gone_holding item exc, .quiet _ rfl rfl⟩
    · exact ⟨.idle, .refreshing, .fail error rfl rfl (.inl ⟨.inl hop, rfl⟩)⟩

/-- An add that was dispatched: its event is completed or failed, and if that is final
the manifest row is due. -/
theorem advance_add {luck : Luck Val} {s s' : Site Val} {item : ClaimedItem} {o : Outcome Val}
    {p' : Workers.Code Val Unit}
    (h : advance luck s (finish_add item o) = some (p', s')) :
    ∃ stage', At stage' p' ∧ Advance luck s s' (.holding item) stage' := by
  cases o with
  | ok result =>
    rw [finish_add_ok] at h
    rcases advance_bind h with ⟨exc, -, rfl, rfl⟩ | ⟨rfl, rfl⟩
    · exact ⟨_, at_gone_holding item exc, .quiet _ rfl rfl⟩
    · exact ⟨_, .publishing item _, .complete result rfl rfl (.inr rfl)⟩
  | error error =>
    rw [finish_add_error] at h
    rcases advance_bind h with ⟨exc, -, rfl, rfl⟩ | ⟨rfl, rfl⟩
    · exact ⟨_, at_gone_holding item exc, .quiet _ rfl rfl⟩
    · change ∃ stage', At stage' (refresh_alerts >>= fun _ =>
        if EventQueue.terminal item.attempts = true then audit item (.error error) else pure ()) ∧ _
      by_cases hterminal : EventQueue.terminal item.attempts = true
      · rw [if_pos hterminal]
        exact ⟨_, .publishing item _, .fail error rfl rfl (.inr rfl)⟩
      · rw [if_neg hterminal]
        refine ⟨_, .passing, .fail error rfl rfl (.inl ⟨.inr ?_, rfl⟩)⟩
        rwa [Bool.not_eq_true] at hterminal

/-- Everything that one call of a worker may do. -/
theorem advance_cases {luck : Luck Val} {s s' : Site Val} {stage : Stage Val}
    {p p' : Workers.Code Val Unit} (hat : At stage p) (h : advance luck s p = some (p', s')) :
    ∃ stage', At stage' p' ∧ Advance luck s s' stage stage' := by
  -- one case for each stage; what raises leaves the worker gone, or complaining
  cases hat with
  | turn =>
    obtain ⟨f, hturn, hnone, hsome⟩ : ∃ f : Option ClaimedItem → Workers.Code Val Unit,
        worker_turn = (perform (I := Work Val) .claim_next >>= f) ∧ f none = pure () ∧
          ∀ item, f (some item) = _process_event item :=
      ⟨_, rfl, rfl, fun _ => rfl⟩
    rw [hturn] at h
    rcases advance_bind h with ⟨exc, -, rfl, rfl⟩ | ⟨hp, hs⟩
    · exact ⟨_, at_gone_idle exc, .quiet _ rfl rfl⟩
    · change p' = f (s.queue.claim_next luck.tie luck.now).1 at hp
      change s' = { s with queue := (s.queue.claim_next luck.tie luck.now).2 } at hs
      rcases hclaim : s.queue.claim_next luck.tie luck.now with ⟨item, q⟩
      rw [hclaim] at hp hs
      subst hs
      cases item with
      | none => exact ⟨_, (hp.trans hnone) ▸ .finished,
          .quiet _ (EventQueue.claim_next_none hclaim) rfl⟩
      | some item => exact ⟨_, (hp.trans (hsome item)) ▸ .begun item, .claim hclaim rfl⟩
  | finished => cases h
  | gone _ exc => cases h
  | begun item =>
    unfold _process_event at h
    by_cases hop : item.op = "stale_check"
    · rw [if_pos hop] at h
      rcases advance_bind h with ⟨exc, -, rfl, rfl⟩ | ⟨rfl, rfl⟩
      · exact ⟨_, at_gone_holding item exc, .quiet _ rfl rfl⟩
      · exact ⟨_, .judging item hop, .quiet _ rfl rfl⟩
    · rw [if_neg hop, outcome_dispatch] at h
      rcases advance_call h with ⟨exc, -, rfl, rfl⟩ | ⟨rfl, rfl⟩
      · exact ⟨_, .added item (.error exc), .quiet _ rfl rfl⟩
      · exact ⟨_, .added item (.ok luck.result), .quiet _ rfl rfl⟩
  | judging item hop =>
    rcases outcome_judging Val item.args with ⟨o, hout⟩ | ⟨new_id, hout⟩
    · rw [hout] at h
      exact advance_check hop h
    · rw [hout] at h
      rcases advance_call h with ⟨exc, -, rfl, rfl⟩ | ⟨rfl, rfl⟩
      · exact ⟨_, .checked item (.error exc) hop, .quiet _ rfl rfl⟩
      · exact ⟨_, .checked item (.ok luck.result) hop, .quiet _ rfl rfl⟩
  | checked item o hop => exact advance_check hop h
  | added item o => exact advance_add h
  | refreshing =>
    rcases advance_call h with ⟨exc, -, rfl, rfl⟩ | ⟨rfl, rfl⟩
    · exact ⟨_, at_gone_idle exc, .quiet _ rfl rfl⟩
    · exact ⟨_, .finished, .quiet _ rfl rfl⟩
  | passing =>
    rcases advance_bind h with ⟨exc, -, rfl, rfl⟩ | ⟨rfl, rfl⟩
    · exact ⟨_, at_gone_idle exc, .quiet _ rfl rfl⟩
    · exact ⟨_, .finished, .quiet _ rfl rfl⟩
  | publishing item o =>
    rcases advance_bind h with ⟨exc, hraises, rfl, rfl⟩ | ⟨rfl, rfl⟩
    · exact ⟨_, at_gone_idle exc, .lose item o (by simp [hraises]) rfl rfl⟩
    · exact ⟨_, .auditing item o, .quiet _ rfl rfl⟩
  | auditing item o =>
    rw [audit_eq] at h
    rcases advance_call h with ⟨exc, hraises, rfl, rfl⟩ | ⟨rfl, rfl⟩
    · exact ⟨_, .complaining _, .lose item o (by simp [hraises]) rfl rfl⟩
    · exact ⟨_, .finished, .record item o rfl rfl⟩
  | complaining text =>
    rcases advance_call h with ⟨exc, -, rfl, rfl⟩ | ⟨rfl, rfl⟩
    · exact ⟨_, at_gone_idle exc, .quiet _ rfl rfl⟩
    · exact ⟨_, .finished, .quiet _ rfl rfl⟩

/-- A worker that has returned has no event in its hands. -/
theorem At.idle_of_returned {stage : Stage Val} {p : Workers.Code Val Unit} (hat : At stage p)
    (h : p.Returned) : stage = .idle := by
  cases hat with
  | turn | finished | refreshing | passing | complaining => rfl
  | gone => exact h.elim
  | begun item =>
    unfold _process_event at h
    by_cases hop : item.op = "stale_check"
    · rw [if_pos hop] at h
      exact h.elim
    · rw [if_neg hop, outcome_dispatch] at h
      exact h.elim
  | judging item =>
    rcases outcome_judging Val item.args with ⟨o, hout⟩ | ⟨new_id, hout⟩
    · rw [hout] at h
      cases o with
      | ok result => exact h.elim
      | error error => exact h.elim
    · rw [hout] at h
      exact h.elim
  | checked item o | added item o =>
    cases o with
    | ok result => exact h.elim
    | error error => exact h.elim
  | publishing item o => exact h.elim
  | auditing item o =>
    rw [audit_eq] at h
    exact h.elim

/-- The next move of a worker, at the top of its loop or inside. -/
theorem work_cases {luck : Luck Val} {s s' : Site Val} {stage : Stage Val}
    {p p' : Workers.Code Val Unit} (hat : At stage p) (h : work luck s p = some (p', s')) :
    ∃ stage', At stage' p' ∧ Advance luck s s' stage stage' := by
  cases p with
  | ret u =>
    injection h with h
    obtain ⟨rfl, rfl⟩ := Prod.mk.inj h
    obtain rfl := hat.idle_of_returned trivial
    exact ⟨.idle, .turn, .quiet _ rfl rfl⟩
  | raise exc => cases h
  | call c k => exact advance_cases hat h

/-- What a thread owes can be read off its program. -/
theorem At.due {stage : Stage Val} {p : Workers.Code Val Unit} (hat : At stage p) :
    due_audit p = stage.owed := by
  cases hat with
  | turn | finished | refreshing | passing | complaining => rfl
  | gone h exc =>
    cases stage with
    | owing item o => exact absurd rfl (h item o)
    | _ => rfl
  | begun item =>
    unfold _process_event
    by_cases hop : item.op = "stale_check"
    · rw [if_pos hop]
      rfl
    · rw [if_neg hop, outcome_dispatch]
      rfl
  | judging item =>
    rcases outcome_judging Val item.args with ⟨o, hout⟩ | ⟨new_id, hout⟩
    · rw [hout]
      cases o with
      | ok result => rfl
      | error error => rfl
    · rw [hout]
      rfl
  | checked item o | added item o =>
    cases o with
    | ok result => rfl
    | error error => rfl
  | publishing item o | auditing item o =>
    simp only [audit_eq]
    rfl

/-! ## Every shift happens at a desk -/

/-- The main thread on its way to the workers; the flag says whether it has recovered
what was in progress. -/
inductive Opening : Bool → Workers.Code Val Unit → Prop where
  | fresh : Opening false open_queue
  | recovered : Opening true (perform (I := Work Val) .purge >>= fun _ => refresh_alerts)
  | purged : Opening true refresh_alerts
  | ready : Opening true (.ret ())
  | gone (up : Bool) (exc : String) : Opening up (.raise exc)

/-- The workers are started once the queue is recovered. -/
theorem Opening.up_of_returned {up : Bool} {p : Workers.Code Val Unit} (h : Opening up p)
    (hret : p.Returned) : up = true := by
  cases h with
  | fresh | gone => exact hret.elim
  | _ => rfl

/-- The event of the item is claimed at the desk, and its row is of the same operation. -/
def Claimed (d : Desk Val) (item : ClaimedItem) : Prop :=
  ⟨item.id, item.attempts⟩ ∈ d.claims ∧ ∃ row ∈ d.queue.rows, row.id = item.id ∧ row.op = item.op

/-- Each thread is at a stage of its turn, and holds the claim that goes with it. -/
structure Manned (d : Desk Val) (stage : ℕ → Stage Val) (threads : List (Workers.Code Val Unit)) :
    Prop where
  up : d.up = true
  stages : ∀ k p, threads[k]? = some p → At (stage k) p
  held : ∀ k item, stage k = .holding item → Claimed d item
  once : ∀ k l item item', stage k = .holding item → stage l = .holding item' →
    item.id = item'.id → k = l

/-- Workers that have just been started. -/
theorem manned_fresh {d : Desk Val} (hup : d.up = true) (workers : ℕ) :
    Manned d (fun _ => .idle) (.replicate workers worker_turn) where
  up := hup
  stages := by
    intro k p hk
    rw [List.getElem?_replicate] at hk
    split at hk
    · injection hk with hk
      exact hk ▸ .turn
    · cases hk
  held := fun k item hk => by cases hk
  once := fun k l item item' hk => by cases hk

/-- The desk is where the shift is. -/
def Follows (sh : Shift Val) (d : Desk Val) (stage : ℕ → Stage Val) : Prop :=
  d.queue = sh.site.queue ∧
    match sh.crew with
    | .down => d.up = false
    | .opening p => Opening d.up p
    | .working threads => Manned d stage threads

/-- One worker goes on; the others stay at their stages as long as their claims stand. -/
theorem Manned.update {d d' : Desk Val} {stage : ℕ → Stage Val}
    {threads : List (Workers.Code Val Unit)} (hm : Manned d stage threads) (hup : d'.up = true)
    {k : ℕ} {st' : Stage Val} {p' : Workers.Code Val Unit} (hat : At st' p')
    (hothers : ∀ l item, l ≠ k → stage l = .holding item → Claimed d' item)
    (hnew : ∀ item, st' = .holding item → Claimed d' item ∧
      ∀ l item', l ≠ k → stage l = .holding item' → item.id ≠ item'.id) :
    Manned d' (Function.update stage k st') (threads.set k p') where
  up := hup
  stages := by
    intro l p hl
    by_cases hlk : l = k
    · subst hlk
      rw [List.getElem?_set_self'] at hl
      obtain ⟨_, -, rfl⟩ := Option.map_eq_some_iff.mp hl
      rwa [Function.update_self]
    · rw [List.getElem?_set_ne (Ne.symm hlk)] at hl
      rw [Function.update_of_ne hlk]
      exact hm.stages l p hl
  held := by
    intro l item hl
    by_cases hlk : l = k
    · subst hlk
      rw [Function.update_self] at hl
      exact (hnew item hl).1
    · rw [Function.update_of_ne hlk] at hl
      exact hothers l item hlk hl
  once := by
    intro l l' item item' hl hl' hid
    by_cases hlk : l = k
    · by_cases hlk' : l' = k
      · exact hlk.trans hlk'.symm
      · subst hlk
        rw [Function.update_self] at hl
        rw [Function.update_of_ne hlk'] at hl'
        exact absurd hid ((hnew item hl).2 l' item' hlk' hl')
    · rw [Function.update_of_ne hlk] at hl
      by_cases hlk' : l' = k
      · subst hlk'
        rw [Function.update_self] at hl'
        exact absurd hid.symm ((hnew item' hl').2 l item hlk hl)
      · rw [Function.update_of_ne hlk'] at hl'
        exact hm.once l l' item item' hl hl' hid

/-- A claim that an action leaves, on a row that it does not drop. -/
theorem Claimed.moves {d d' : Desk Val} {a : Desk.Act Val} {item : ClaimedItem} (h : Claimed d item)
    (hmoves : Desk.Moves d.queue a d'.queue) (hdrops : ∀ row, a.drops row = false)
    (hclaims : ⟨item.id, item.attempts⟩ ∈ d'.claims) : Claimed d' item := by
  obtain ⟨-, row, hrow, hid, hop⟩ := h
  rcases hmoves.kept row hrow with ⟨row', hrow', hmove⟩ | hdrop
  · exact ⟨hclaims, row', hrow', hmove.id.trans hid, (congrArg Intake.op hmove.intake).trans hop⟩
  · rw [hdrops] at hdrop
    cases hdrop

/-- The row of a claimed event is of the operation that the item says. -/
theorem Claimed.op {d : Desk Val} {item : ClaimedItem} (h : Claimed d item) {row : EventRow Val}
    (hrow : row ∈ d.queue.rows) (hid : row.id = item.id) : row.op = item.op := by
  obtain ⟨-, row', hrow', hid', hop⟩ := h
  obtain rfl := d.queue.eq_of_id_eq hrow hrow' (hid.trans hid'.symm)
  exact hop

/-- A claim on another event survives the end of this one. -/
theorem Claimed.released {d : Desk Val} {item : ClaimedItem} (h : Claimed d item) {event_id : Id}
    (hne : item.id ≠ event_id) : ⟨item.id, item.attempts⟩ ∈ d.released event_id :=
  Desk.mem_released.mpr ⟨h.1, hne⟩

/-- The desk can end the claim that a worker holds. -/
theorem Claimed.holds {d : Desk Val} (hd : Desk.Sound d) {item : ClaimedItem} (h : Claimed d item) :
    d.holds item.id = some ⟨item.id, item.attempts⟩ := by
  have hunique : Unique Claim.id d.claims := hd.held_once
  exact hunique.lookup_eq h.1

/-- A worker that claims an event does so at the desk. -/
theorem desk_claim {d : Desk Val} (hup : d.up = true) {luck : Luck Val} {item : ClaimedItem}
    {q : EventQueue Val} (h : d.queue.claim_next luck.tie luck.now = (some item, q)) :
    Desk.step d (.claim item.id luck.now)
        = some { d with queue := q, claims := ⟨item.id, item.attempts⟩ :: d.claims } ∧
      ∃ row ∈ d.queue.rows, row.id = item.id ∧ row.op = item.op ∧ row.status = .queued := by
  obtain ⟨row, hold, rfl, rfl⟩ := EventQueue.claim_next_some h
  have hrow := (EventQueue.mem_oldest.mp hold).1
  refine ⟨?_, row, hrow.1, rfl, rfl, hrow.2⟩
  cases hlookup : lookup (fun r : EventRow Val => r.id) row.id d.queue.oldest with
  | none =>
    have hnone := List.find?_eq_none.mp hlookup row hold
    simp at hnone
  | some row' =>
    obtain ⟨hrow', hid, -⟩ := Desk.claimable hlookup
    obtain rfl := d.queue.eq_of_id_eq hrow' hrow.1 hid
    simp only [Desk.step, hup, if_true]
    rw [show (row'.claimed).id = row'.id from rfl, hlookup]
    rfl

/-! ## What is settled is recorded, or owed -/

def Finished (row : EventRow Val) : Prop := row.status = .done ∨ row.status = .failed

/-- Some thread is about to write the manifest row of the event. -/
def Owed (threads : List (Workers.Code Val Unit)) (event_id : Id) : Prop :=
  ∃ p ∈ threads, due_audit p = some event_id

def owes (sh : Shift Val) (event_id : Id) : Prop :=
  match sh.crew with
  | .working threads => Owed threads event_id
  | _ => False

def Recorded (q : EventQueue Val) (manifest : List (AuditEntry Val)) (owed : Id → Prop) : Prop :=
  ∀ row ∈ q.rows, row.op ≠ "stale_check" → Finished row →
    (∃ entry ∈ manifest, entry.event_id = row.id) ∨ owed row.id

/-- The actions that finish a row. -/
def ends (row : EventRow Val) : Desk.Act Val → Bool
  | .complete id _ _ => decide (id = row.id)
  | .fail id _ _ => decide (id = row.id) && EventQueue.terminal row.attempts
  | _ => false

/-- An event that is finished after a move was so before, or is ended by it. -/
theorem finished_move {a : Desk.Act Val} {row row' : EventRow Val} (h : Desk.Move a row row')
    (hrow' : Finished row') : Finished row ∨ ends row a = true := by
  cases h with
  | same => exact .inl hrow'
  | complete => exact .inr (decide_eq_true rfl)
  | ack _ _ hstatus _ => exact .inl (.inr hstatus)
  | fail error now _ =>
    by_cases hterminal : EventQueue.terminal row.attempts = true
    · exact .inr (by simp [ends, hterminal])
    · rw [Bool.not_eq_true] at hterminal
      simp [Finished, hterminal] at hrow'
  | recover _ _ | claim _ _ | retry _ _ => simp [Finished] at hrow'

/-- A step at the desk keeps the law when the manifest only grows, what was owed is still
owed or recorded, and what the step finishes is owed. -/
theorem Recorded.moves {q q' : EventQueue Val} {a : Desk.Act Val}
    {manifest manifest' : List (AuditEntry Val)} {owed owed' : Id → Prop}
    (h : Recorded q manifest owed) (hmoves : Desk.Moves q a q') (hgrows : manifest ⊆ manifest')
    (howed : ∀ id, owed id → (∃ entry ∈ manifest', entry.event_id = id) ∨ owed' id)
    (hends : ∀ row ∈ q.rows, row.op ≠ "stale_check" → ends row a = true → owed' row.id) :
    Recorded q' manifest' owed' := by
  intro row' hrow' hop hfinished
  rcases hmoves.comes row' hrow' with ⟨row, hrow, hmove⟩ | hbrings
  · have hop₀ : row.op ≠ "stale_check" := (congrArg Intake.op hmove.intake) ▸ hop
    rw [hmove.id]
    rcases finished_move hmove hfinished with hbefore | hend
    · rcases h row hrow hop₀ hbefore with ⟨entry, hentry, hid⟩ | howes
      · exact .inl ⟨entry, hgrows hentry, hid⟩
      · exact howed row.id howes
    · exact .inr (hends row hrow hop₀ hend)
  · cases a with
    | enqueue event_id op args now =>
      obtain rfl : row' = _ := hbrings
      simp [Finished, EventQueue.queued_row] at hfinished
    | _ => exact hbrings.elim

/-- The same where the queue stays as it is. -/
theorem Recorded.same {q : EventQueue Val} {manifest manifest' : List (AuditEntry Val)}
    {owed owed' : Id → Prop} (h : Recorded q manifest owed) (hgrows : manifest ⊆ manifest')
    (howed : ∀ id, owed id → (∃ entry ∈ manifest', entry.event_id = id) ∨ owed' id) :
    Recorded q manifest' owed' := by
  intro row hrow hop hfinished
  rcases h row hrow hop hfinished with ⟨entry, hentry, hid⟩ | howes
  · exact .inl ⟨entry, hgrows hentry, hid⟩
  · exact howed row.id howes

/-- A crash while a manifest row is due, or a failure of what comes before it or of
writing it. -/
def loses (sh : Shift Val) : Act Val → Bool
  | .crash => match sh.crew with
    | .working threads => threads.any fun p => (due_audit p).isSome
    | _ => false
  | .work k luck => match sh.crew with
    | .working threads =>
      luck.raises.isSome && (threads[k]?.any fun p => (due_audit p).isSome)
    | _ => false
  | _ => false

/-- What the others owe stays owed when one thread moves. -/
theorem owed_set {threads : List (Workers.Code Val Unit)} {k : ℕ} {p p' : Workers.Code Val Unit}
    (hk : threads[k]? = some p) {event_id : Id} (h : Owed threads event_id) :
    due_audit p = some event_id ∨ Owed (threads.set k p') event_id := by
  obtain ⟨p₀, hmem, hdue⟩ := h
  obtain ⟨l, hl⟩ := List.mem_iff_getElem?.mp hmem
  by_cases hlk : l = k
  · subst hlk
    rw [hk] at hl
    injection hl with hl
    exact .inl (hl ▸ hdue)
  · refine .inr ⟨p₀, List.mem_iff_getElem?.mpr ⟨l, ?_⟩, hdue⟩
    rw [List.getElem?_set_ne (Ne.symm hlk), hl]

theorem owed_self {threads : List (Workers.Code Val Unit)} {k : ℕ} {p p' : Workers.Code Val Unit}
    (hk : threads[k]? = some p) {event_id : Id} (h : due_audit p' = some event_id) :
    Owed (threads.set k p') event_id := by
  refine ⟨p', List.mem_iff_getElem?.mpr ⟨k, ?_⟩, h⟩
  rw [List.getElem?_set_self', hk]
  rfl

section work

variable {d : Desk Val} (hd : Desk.Sound d) {stage : ℕ → Stage Val}
  {threads : List (Workers.Code Val Unit)} (hm : Manned d stage threads) {s s' : Site Val}
  (hq : d.queue = s.queue) {k : ℕ} {p p' : Workers.Code Val Unit} (hk : threads[k]? = some p)

/-- A move of a worker has its counterpart at the desk; it keeps the law about the
manifest if it loses nothing. -/
def Goes (d : Desk Val) (s s' : Site Val) (threads threads' : List (Workers.Code Val Unit))
    (loses_nothing : Prop) : Prop :=
  ∃ das d' stage', run Desk.step d das = some d' ∧ d'.queue = s'.queue ∧ Manned d' stage' threads' ∧
    (loses_nothing → Recorded s.queue s.manifest (Owed threads) →
      Recorded s'.queue s'.manifest (Owed threads'))

include hd hm hq hk

/-- A worker that ends its claim ends it at the desk, and owes the manifest row of an add
that is over. -/
theorem goes_end {item : ClaimedItem} (hstage : stage k = .holding item) {st' : Stage Val}
    (hat : At st' p') (hst' : ∀ item', st' ≠ .holding item') {a : Desk.Act Val}
    (hstep : Desk.step d a = some ⟨s'.queue, d.released item.id, d.up⟩)
    (hdrops : ∀ row, a.drops row = false) (hmanifest : s'.manifest = s.manifest)
    (hends : ∀ row ∈ d.queue.rows, row.op ≠ "stale_check" → ends row a = true →
      row.id = item.id ∧ st'.owed = some item.id) (loses_nothing : Prop) :
    Goes d s s' threads (threads.set k p') loses_nothing := by
  have hmoves := Desk.moves_step hd hstep
  have hdue : ∀ event_id, due_audit p ≠ some event_id := by
    intro event_id
    rw [(hm.stages k p hk).due, hstage]
    simp [Stage.owed]
  refine ⟨[a], _, Function.update stage k st', run_one hstep, rfl, ?_, fun _ hrec => ?_⟩
  · have hup : (⟨s'.queue, d.released item.id, d.up⟩ : Desk Val).up = true := hm.up
    refine hm.update hup hat (fun l item' hlk hl => ?_) fun item' hitem' =>
      absurd hitem' (hst' item')
    have hheld := hm.held l item' hl
    refine hheld.moves hmoves hdrops (hheld.released fun hid => hlk ?_)
    exact hm.once l k item' item hl hstage hid
  · rw [hmanifest]
    rw [hq] at hmoves hends
    refine hrec.moves hmoves (List.Subset.refl _) (fun id howes => ?_) fun row hrow hop hend => ?_
    · rcases owed_set hk howes with hp | howes'
      · exact absurd hp (hdue id)
      · exact .inr howes'
    · obtain ⟨hid, howed⟩ := hends row hrow hop hend
      refine owed_self hk ?_
      rw [hat.due, howed, hid]

omit hd in
/-- A move that is none at the desk. -/
theorem goes_quietly {st' : Stage Val} (hat : At st' p') (hst' : ∀ item, st' = .holding item →
      stage k = .holding item) (hqueue : s'.queue = s.queue) {loses_nothing : Prop}
    (hgrows : s.manifest ⊆ s'.manifest)
    (howed : loses_nothing → ∀ id, (stage k).owed = some id →
      (∃ entry ∈ s'.manifest, entry.event_id = id) ∨ st'.owed = some id) :
    Goes d s s' threads (threads.set k p') loses_nothing := by
  refine ⟨[], d, Function.update stage k st', rfl, hq.trans hqueue.symm, ?_, fun hloses hrec => ?_⟩
  · refine hm.update hm.up hat (fun l item _ hl => hm.held l item hl) fun item hitem => ?_
    refine ⟨hm.held k item (hst' item hitem), fun l item' hlk hl hid => hlk ?_⟩
    exact (hm.once k l item item' (hst' item hitem) hl hid).symm
  · rw [hqueue]
    refine hrec.same hgrows fun id howes => ?_
    rcases owed_set hk howes with hp | howes'
    · rw [(hm.stages k p hk).due] at hp
      rcases howed hloses id hp with hentry | howes'
      · exact .inl hentry
      · refine .inr (owed_self hk ?_)
        rw [hat.due, howes']
    · exact .inr howes'

/-- A worker's step, which owes a row only where the luck lets it go on. -/
theorem goes_work {luck : Luck Val} (h : work luck s p = some (p', s')) :
    Goes d s s' threads (threads.set k p') ((due_audit p).isSome = true → luck.raises = none) := by
  obtain ⟨st', hat', hadv⟩ := work_cases (hm.stages k p hk) h
  have hdue := (hm.stages k p hk).due
  generalize hstage : stage k = st at hadv hdue
  -- the worker's next call is a step of the desk on the item it holds, or none of the
  -- desk's business
  cases hadv with
  | quiet _ hqueue hmanifest =>
    refine goes_quietly hm hq hk hat' (fun item hitem => hstage.trans hitem) hqueue
      (hmanifest ▸ List.Subset.refl _) fun _ id howes => .inr ?_
    rwa [hstage] at howes
  | record item o hqueue hmanifest =>
    refine goes_quietly hm hq hk hat' (fun item hitem => by cases hitem) hqueue
      (hmanifest ▸ List.subset_append_left _ _) fun _ id howes => .inl ?_
    rw [hstage] at howes
    injection howes with howes
    rw [hmanifest]
    exact ⟨_, List.mem_append_right _ (List.mem_singleton.mpr rfl), howes⟩
  | lose item o hraises hqueue hmanifest =>
    refine goes_quietly hm hq hk hat' (fun item hitem => by cases hitem) hqueue
      (hmanifest ▸ List.Subset.refl _) fun hluck => ?_
    exact absurd (hluck (by rw [hdue]; rfl)) hraises
  | @complete item _ result hqueue hmanifest hst =>
    have hheld := hm.held k item hstage
    refine goes_end hd hm hq hk hstage hat' (fun item' h =>
      ?_) (a := .complete item.id result luck.now)
      ?_ (fun _ => rfl) hmanifest (fun row hrow hop hend => ?_) _
    · rcases hst with ⟨-, rfl⟩ | rfl
      · cases h
      · cases h
    · rw [hqueue, ← hq]
      simp only [Desk.step, hheld.holds hd, Option.map_some]
    · have hid : row.id = item.id := (of_decide_eq_true hend).symm
      rcases hst with ⟨hstale, rfl⟩ | rfl
      · exact absurd ((hheld.op hrow hid).trans hstale) hop
      · exact ⟨hid, rfl⟩
  | @fail item _ error hqueue hmanifest hst =>
    have hheld := hm.held k item hstage
    refine goes_end hd hm hq hk hstage hat' (fun item' h => ?_) (a := .fail item.id error luck.now)
      ?_ (fun _ => rfl) hmanifest (fun row hrow hop hend => ?_) _
    · rcases hst with ⟨-, rfl⟩ | rfl
      · cases h
      · cases h
    · rw [hqueue, ← hq]
      simp only [Desk.step, hheld.holds hd, Option.map_some]
    · rw [ends, Bool.and_eq_true] at hend
      have hid : row.id = item.id := (of_decide_eq_true hend.1).symm
      rcases hst with ⟨hstale | hagain, rfl⟩ | rfl
      · exact absurd ((hheld.op hrow hid).trans hstale) hop
      · -- a row that is over has no attempts left
        rw [(hd.held_row (hheld.holds hd) hrow hid).2, hagain] at hend
        exact absurd hend.2 (by decide)
      · exact ⟨hid, rfl⟩
  | @claim item hclaim hmanifest =>
    rw [← hq] at hclaim
    obtain ⟨hstep, row, hrow, hid, hop, -⟩ := desk_claim hm.up hclaim
    have hmoves := Desk.moves_step hd hstep
    -- the claims, the new one included, are for different rows: nobody else holds this one
    have honce := (Desk.sound_step hd hstep).held_once
    rw [List.map_cons, List.nodup_cons] at honce
    refine ⟨[_], _, Function.update stage k (.holding item), run_one hstep, rfl, ?_,
      fun _ hrec => ?_⟩
    · have hup : (⟨s'.queue, ⟨item.id, item.attempts⟩ :: d.claims, d.up⟩ : Desk Val).up = true :=
        hm.up
      refine hm.update hup hat' (fun l item' _ hl => ?_) fun item' hitem' => ?_
      · have hheld := hm.held l item' hl
        exact hheld.moves hmoves (fun _ => rfl) (List.mem_cons_of_mem _ hheld.1)
      · injection hitem' with hitem'
        subst hitem'
        refine ⟨⟨List.mem_cons_self, ?_⟩, fun l item' _ hl hsame => ?_⟩
        · rcases hmoves.kept row hrow with ⟨row', hrow', hmove⟩ | hdrop
          · exact ⟨row', hrow', hmove.id.trans hid, (congrArg Intake.op hmove.intake).trans hop⟩
          · cases hdrop
        · exact honce.1 (List.mem_map.mpr ⟨_, (hm.held l item' hl).1, hsame.symm⟩)
    · rw [hmanifest]
      rw [hq] at hmoves
      refine hrec.moves hmoves (List.Subset.refl _) (fun id howes => ?_) fun row _ _ hend => by
        cases hend
      rcases owed_set hk howes with hp | howes'
      · rw [hdue] at hp
        cases hp
      · exact .inr howes'

end work

/-- The law about the manifest, for a whole shift. -/
def Accounted (sh : Shift Val) : Prop :=
  Recorded sh.site.queue sh.site.manifest sh.owes

/-- A step of the shift has its counterpart at the desk; it keeps the law about the
manifest if it loses nothing. -/
def Simulated (d : Desk Val) (sh sh' : Shift Val) (loses_nothing : Prop) : Prop :=
  ∃ das d' stage', run Desk.step d das = some d' ∧ Follows sh' d' stage' ∧
    (loses_nothing → Accounted sh → Accounted sh')

section steps

variable {d : Desk Val} (hd : Desk.Sound d) {stage : ℕ → Stage Val} {sh sh' : Shift Val}
  (hf : Follows sh d stage)

include hd hf

/-- A statement of a client touches no claim and finishes nothing. -/
theorem simulated_client {q : EventQueue Val} {a : Desk.Act Val} (loses_nothing : Prop)
    (hstep : Desk.step d a = some { d with queue := q }) (hdrops : ∀ row, a.drops row = false)
    (hends : ∀ row, ends row a = false) : Simulated d sh (sh.with_queue q) loses_nothing := by
  obtain ⟨hq, hcrew⟩ := hf
  have hmoves := Desk.moves_step hd hstep
  refine ⟨[a], _, stage, run_one hstep, ⟨rfl, ?_⟩, fun _ hrec => ?_⟩
  · change match sh.crew with
      | .down => _
      | .opening p => _
      | .working threads => Manned { d with queue := q } stage threads
    cases hwho : sh.crew with
    | down =>
      rw [hwho] at hcrew
      exact hcrew
    | opening p =>
      rw [hwho] at hcrew
      exact hcrew
    | working threads =>
      rw [hwho] at hcrew
      refine ⟨hcrew.up, hcrew.stages, fun k item hk => ?_, hcrew.once⟩
      have hheld := hcrew.held k item hk
      exact hheld.moves hmoves hdrops hheld.1
  · rw [hq] at hmoves
    refine hrec.moves hmoves (List.Subset.refl _) (fun id howes => .inr howes)
      fun row _ _ hend => ?_
    rw [hends] at hend
    cases hend

/-- What the main thread does before there are workers. -/
theorem simulated_main {luck : Luck Val} {p p' : Workers.Code Val Unit} {s' : Site Val}
    (hwho : sh.crew = .opening p) (h : advance luck sh.site p = some (p', s'))
    (loses_nothing : Prop) : Simulated d sh ⟨s', .opening p'⟩ loses_nothing := by
  obtain ⟨hq, hopening⟩ := hf
  rw [hwho] at hopening
  -- no thread owes anything yet, so what matters is what happens to the rows
  have hnone : ∀ id, ¬ sh.owes id := by simp [owes, hwho]
  have hquiet : ∀ {up : Bool} {p' : Workers.Code Val Unit} {s' : Site Val}, Opening up p' →
      up = d.up → s'.queue = sh.site.queue → s'.manifest = sh.site.manifest →
      Simulated d sh ⟨s', .opening p'⟩ loses_nothing := by
    rintro up p' s' hp' rfl hqueue hmanifest
    refine ⟨[], d, stage, rfl, ⟨hq.trans hqueue.symm, hp'⟩, fun _ hrec => ?_⟩
    unfold Accounted
    rw [hqueue, hmanifest]
    exact hrec.same (List.Subset.refl _) fun id howes => absurd howes (hnone id)
  have hacts : ∀ {a : Desk.Act Val} {p' : Workers.Code Val Unit} {s' : Site Val}
      {claims : List Claim},
      Desk.step d a = some ⟨s'.queue, claims, true⟩ → Opening true p' →
      (∀ row, ends row a = false) → s'.manifest = sh.site.manifest →
      Simulated d sh ⟨s', .opening p'⟩ loses_nothing := by
    intro a p' s' claims hstep hp' hends hmanifest
    have hmoves := Desk.moves_step hd hstep
    refine ⟨[a], _, stage, run_one hstep, ⟨rfl, hp'⟩, fun _ hrec => ?_⟩
    unfold Accounted
    rw [hmanifest]
    rw [hq] at hmoves
    refine hrec.moves hmoves (List.Subset.refl _) (fun id howes => absurd howes (hnone id)) ?_
    intro row _ _ hend
    rw [hends] at hend
    cases hend
  generalize hup : d.up = up at hopening
  cases hopening with
  | fresh =>
    rcases advance_bind h with ⟨exc, -, rfl, rfl⟩ | ⟨rfl, rfl⟩
    · exact hquiet (.gone false exc) hup.symm rfl rfl
    · have hstart : Desk.step d (.start luck.now)
          = some ⟨(sh.site.queue.recover_stale luck.now).2, [], true⟩ := by
        rw [← hq]
        simp [Desk.step, hup]
      exact hacts hstart .recovered (fun _ => rfl) rfl
  | recovered =>
    rcases advance_bind h with ⟨exc, -, rfl, rfl⟩ | ⟨rfl, rfl⟩
    · exact hquiet (.gone true exc) hup.symm rfl rfl
    · have hpurge : Desk.step d (.purge luck.cutoff)
          = some ⟨(sh.site.queue.purge luck.cutoff).2, d.claims, true⟩ := by
        rw [← hq, ← hup]
        rfl
      exact hacts hpurge .purged (fun _ => rfl) rfl
  | purged =>
    rcases advance_call h with ⟨exc, -, rfl, rfl⟩ | ⟨rfl, rfl⟩
    · exact hquiet (.gone true exc) hup.symm rfl rfl
    · exact hquiet .ready hup.symm rfl rfl
  | ready => cases h
  | gone => cases h

omit hd in
/-- The end of the process takes the claims, and what was owed. -/
theorem simulated_crash (hwho : sh.crew ≠ .down) :
    Simulated d sh sh.ended (loses sh .crash = false) := by
  obtain ⟨hq, hcrew⟩ := hf
  have hrecorded : loses sh .crash = false → Accounted sh → Accounted sh.ended := by
    intro hloses hrec
    refine hrec.same (List.Subset.refl _) fun id howes => ?_
    unfold owes at howes
    unfold loses at hloses
    cases hthreads : sh.crew with
    | down => exact absurd hthreads hwho
    | opening p =>
      rw [hthreads] at howes
      exact howes.elim
    | working threads =>
      rw [hthreads] at howes hloses
      obtain ⟨p, hp, hdue⟩ := howes
      have hnot := List.any_eq_false.mp hloses p hp
      rw [hdue] at hnot
      exact absurd rfl hnot
  by_cases hup : d.up = true
  · have hstep : Desk.step d .crash = some ⟨d.queue, [], false⟩ := by simp [Desk.step, hup]
    exact ⟨[.crash], ⟨d.queue, [], false⟩, stage, run_one hstep, ⟨hq, rfl⟩, hrecorded⟩
  · exact ⟨[], d, stage, rfl, ⟨hq, Bool.not_eq_true _ ▸ hup⟩, hrecorded⟩

/-- Every step of the shift is one of the desk, and loses nothing that is owed unless it strikes a
worker. -/
theorem simulated_step {workers : ℕ} {a : Act Val} (h : step workers sh a = some sh') :
    Simulated d sh sh' (loses sh a = false) := by
  have hq := hf.1
  -- a client's statement is the same step of the desk; what the service does is matched by
  -- the steps the desk takes of it, if any
  cases a with
  | enqueue event_id op args now =>
    obtain ⟨q, henqueue, rfl⟩ := Option.map_eq_some_iff.mp h
    refine simulated_client hd hf (a := .enqueue event_id op args now) _ ?_ (fun _ => rfl) fun _ =>
      rfl
    rw [Desk.step, hq, henqueue]
    rfl
  | retry event_id now =>
    injection h with h
    subst h
    refine simulated_client hd hf (a := .retry event_id now) _ ?_ (fun _ => rfl) fun _ => rfl
    rw [Desk.step, hq]
  | ack event_id now =>
    injection h with h
    subst h
    refine simulated_client hd hf (a := .ack event_id now) _ ?_ (fun _ => rfl) fun _ => rfl
    rw [Desk.step, hq]
  | boot =>
    obtain ⟨-, hcrew⟩ := hf
    cases hwho : sh.crew with
    | down =>
      rw [step, hwho] at h
      rw [hwho] at hcrew
      injection h with h
      subst h
      have hopening : Opening d.up (open_queue : Workers.Code Val Unit) := hcrew.symm ▸ .fresh
      refine ⟨[], d, stage, rfl, ⟨hq, hopening⟩, fun _ hrec => hrec.same (List.Subset.refl _) ?_⟩
      intro id howes
      simp [owes, hwho] at howes
    | _ =>
      rw [step, hwho] at h
      cases h
  | main luck =>
    cases hwho : sh.crew with
    | opening p =>
      cases p with
      | ret u =>
        have hcrew := hf.2
        rw [hwho] at hcrew
        rw [step, hwho] at h
        injection h with h
        subst h
        -- the queue is open: the workers start, and nobody holds anything
        have hm := manned_fresh (hcrew.up_of_returned trivial) workers
        refine ⟨[], d, _, rfl, ⟨hq, hm⟩, fun _ hrec => hrec.same (List.Subset.refl _) ?_⟩
        intro id howes
        simp [owes, hwho] at howes
      | raise exc =>
        rw [step, hwho] at h
        cases h
      | call c k =>
        rw [step, hwho] at h
        obtain ⟨⟨p', s'⟩, hadv, rfl⟩ := Option.map_eq_some_iff.mp h
        exact simulated_main hd hf hwho hadv _
    | _ =>
      rw [step, hwho] at h
      cases h
  | work k luck =>
    cases hwho : sh.crew with
    | working threads =>
      rw [step, hwho] at h
      obtain ⟨p, hk, hmap⟩ := Option.bind_eq_some_iff.mp h
      obtain ⟨⟨p', s'⟩, hwork, rfl⟩ := Option.map_eq_some_iff.mp hmap
      have hm := hf.2
      rw [hwho] at hm
      obtain ⟨das, d', stage', hdas, hq', hm', hrec⟩ := goes_work hd hm hq hk hwork
      refine ⟨das, d', stage', hdas, ⟨hq', hm'⟩, fun hloses haccounted => ?_⟩
      refine hrec (fun hdue => ?_) ?_
      · simp only [loses, hwho, hk, Option.any_some, hdue, Bool.and_true] at hloses
        exact Option.not_isSome_iff_eq_none.mp (by rw [hloses]; decide)
      · unfold Accounted owes at haccounted
        rwa [hwho] at haccounted
    | _ =>
      rw [step, hwho] at h
      cases h
  | crash =>
    cases hwho : sh.crew with
    | down =>
      rw [step, hwho] at h
      cases h
    | opening p =>
      rw [step, hwho] at h
      injection h with h
      subst h
      exact simulated_crash hf (by rw [hwho]; simp)
    | working threads =>
      rw [step, hwho] at h
      injection h with h
      subst h
      exact simulated_crash hf (by rw [hwho]; simp)

end steps

/-! ## Whole runs -/

section runs

variable {workers : ℕ} {acts : List (Act Val)} {sh : Shift Val}
  (h : run (step workers) opened acts = some sh)

include h

/-- **Every run of a daemon and its workers is a run of the desk**, so that what holds at
a desk after any actions holds here. -/
theorem shift_refines :
    ∃ das d stage, run Desk.step Desk.opened das = some d ∧ Follows sh d stage := by
  refine run_invariant (J := fun _ sh => ∃ das d stage,
    run Desk.step Desk.opened das = some d ∧ Follows sh d stage) ?_ ?_ h
  · exact ⟨[], Desk.opened, fun _ => .idle, rfl, rfl, rfl⟩
  · rintro pre a t t' - ⟨das, d, stage, hdas, hf⟩ hstep
    obtain ⟨das', d', stage', hdas', hf', -⟩ := simulated_step (Desk.sound_run hdas) hf hstep
    refine ⟨das ++ das', d', stage', ?_, hf'⟩
    rw [run_append, hdas]
    exact hdas'

/-- No event is lost, or held by two workers, on any shift. -/
theorem shift_sound : ∃ d stage, Desk.Sound d ∧ Follows sh d stage := by
  obtain ⟨das, d, stage, hdas, hf⟩ := shift_refines h
  exact ⟨d, stage, Desk.sound_run hdas, hf⟩

/-- Every add of a run without strikes is accounted for. -/
theorem accounted_run (hok : Each (step workers) (fun sh a => loses sh a = false) opened acts) :
    Accounted sh := by
  refine run_invariant_of_each (J := fun _ sh => Accounted sh) ?_ ?_ h hok
  · intro row hrow
    simp [opened, EventQueue.empty] at hrow
  · intro pre a t t' hpre hloses hrec hstep
    obtain ⟨d, stage, hd, hf⟩ := shift_sound hpre
    obtain ⟨-, -, -, -, -, hkeeps⟩ := simulated_step hd hf hstep
    exact hkeeps hloses hrec

/-- **Every add that a purge may drop is in the manifest**, in every run in which nothing
strikes a worker between the settling of an add and its manifest row: there the row is
written, or the worker that has settled the add is about to write it. So it is written
whenever no worker is there, as when a daemon that starts purges the queue. -/
theorem adds_recorded (hok : Each (step workers) (fun sh a => loses sh a = false) opened acts) :
    (∀ row ∈ sh.site.queue.rows, row.op = "add" →
        (row.status = .done ∨ row.status = .failed ∧ row.acked = true) →
        (∃ entry ∈ sh.site.manifest, entry.event_id = row.id) ∨
          ∃ threads, sh.crew = .working threads ∧ ∃ p ∈ threads, due_audit p = some row.id) ∧
      ((∀ threads, sh.crew ≠ .working threads) →
        ∀ row ∈ sh.site.queue.rows, row.op = "add" →
        (row.status = .done ∨ row.status = .failed ∧ row.acked = true) →
        ∃ entry ∈ sh.site.manifest, entry.event_id = row.id) := by
  -- a settled add is in the manifest, or its record is owed by a worker that is still at it
  have hrec : ∀ row ∈ sh.site.queue.rows, row.op = "add" →
      (row.status = .done ∨ row.status = .failed ∧ row.acked = true) →
      (∃ entry ∈ sh.site.manifest, entry.event_id = row.id) ∨ sh.owes row.id := by
    intro row hrow hop hstatus
    refine accounted_run h hok row hrow ?_ (hstatus.imp_right And.left)
    rw [hop]
    decide
  refine ⟨fun row hrow hop hstatus => ?_, fun hcrew row hrow hop hstatus => ?_⟩
  · refine (hrec row hrow hop hstatus).imp_right fun howes => ?_
    unfold owes at howes
    cases hwho : sh.crew with
    | working threads =>
      rw [hwho] at howes
      exact ⟨threads, rfl, howes⟩
    | _ =>
      rw [hwho] at howes
      exact howes.elim
  · rcases hrec row hrow hop hstatus with hentry | howes
    · exact hentry
    · unfold owes at howes
      cases hwho : sh.crew with
      | working threads => exact absurd hwho (hcrew threads)
      | _ =>
        rw [hwho] at howes
        exact howes.elim

end runs

/-- Nothing raises, and every operation returns. -/
def smooth (now : String) : Luck Unit := ⟨now, "0", 0, none, ()⟩

/-- A daemon starts with one worker, which settles an add. -/
def settled : List (Act Unit) :=
  [.enqueue "a" "add" ∅ "1", .boot, .main (smooth "2"), .main (smooth "2"), .main (smooth "2"),
    .main (smooth "2"), .work 0 (smooth "3"), .work 0 (smooth "4"), .work 0 (smooth "5")]

/-- The worker goes on to write the manifest row, and then the process ends. -/
def recorded : List (Act Unit) :=
  settled ++ [.work 0 (smooth "6"), .work 0 (smooth "6"), .crash]

/-- The process ends after the row was written, which stays. -/
theorem adds_recorded_recorded :
    ∃ entry ∈ ((run (step 1) opened recorded).getD opened).site.manifest, entry.event_id = "a" := by
  have hrun : run (step 1) (opened : Shift Unit) recorded = some _ := rfl
  exact (adds_recorded hrun (by decide +kernel)).2 (fun threads hcrew => by cases hcrew) _
    (List.mem_singleton.mpr rfl) rfl (.inl rfl)

/-- The process ends between the settling of an add and its manifest row: the event is
done, nobody will record it, and the next purge drops it. -/
theorem add_unrecorded :
    ¬ ∀ (workers : ℕ) (acts : List (Act Unit)) (sh : Shift Unit),
      run (step workers) opened acts = some sh → ∀ row ∈ sh.site.queue.rows, row.op = "add" →
      (row.status = .done ∨ row.status = .failed ∧ row.acked = true) →
      ∃ entry ∈ sh.site.manifest, entry.event_id = row.id := by
  intro h
  have hrun : run (step 1) (opened : Shift Unit) (settled ++ [.crash]) = some _ := rfl
  obtain ⟨entry, hentry, -⟩ := h 1 _ _ hrun _ (List.mem_singleton.mpr rfl) rfl (.inl rfl)
  have hnone : entry ∈ ([] : List (AuditEntry Unit)) := hentry
  exact absurd hnone List.not_mem_nil

end Shift

end Memline
