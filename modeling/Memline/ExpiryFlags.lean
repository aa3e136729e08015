/-
Expiry flags over runs of the store.

A harvest stamps a memory that has left the pool and flags it for review. The flag
has to stay open until somebody decides: the pair is confirmed, dismissed or renewed,
or the memory is given another deadline, cleared, expired, invalidated or deleted.
`Awaits` follows the memories that still await such a decision through a run, and a
run is `Watched` with the set it ends in.

Two things break it. `update` closes what was judged against another text, and an
expiry pair is keyed by the text with the deadline appended, so no text is the right
one. And the pair of a second harvest for the same text and deadline is ignored. In
the runs without the two, every memory that awaits a decision has an open flag.
-/
import Memline.Harvest
import Memline.Commands

set_option autoImplicit false

namespace Memline

open Effect Effect.Prog SqlTable

/-! ## Steps -/

inductive ReviewStep where
  | request (r : ops.Request)
  | delete (client : cli.Client) (memory_id : Id) (force : Bool)
  | harvest (now : Option String) (limit : ℕ)
  | stale_check (new_id : Id) (session_id judge_model : Option String) (top_k : ℕ)
      (self_only : Bool)
  | dispose (pair_id : Id) (disposition : String) (disposed_by : Option String)
  | reopen (pair_id : Id)

namespace ReviewStep

/-- `p`, for what it does. -/
def discard {α : Type} (p : Code α) : Code Unit := do
  let _ ← p

def code (host : Host) : ReviewStep → Code Unit
  | request r => discard (ops.dispatch host r)
  | delete client memory_id force => discard (cli.delete host client memory_id force)
  | harvest now limit => discard (harvest_expired host now limit)
  | stale_check new_id session_id judge_model top_k self_only =>
    discard (run_stale_check new_id session_id judge_model top_k self_only)
  | dispose pair_id disposition disposed_by =>
    discard (pair_store.dispose pair_id disposition disposed_by)
  | reopen pair_id => discard (pair_store.reopen pair_id)

/-- The world after a step, given which calls fail in it. -/
def run (host : Host) (fault : Call → World → Option Exn) (w : World) (s : ReviewStep) : World :=
  ((s.code host).run (host.failing fault) w).2

/-- The step does not raise. -/
def Returns (host : Host) (fault : Call → World → Option Exn) (w : World) (s : ReviewStep) : Prop :=
  ((s.code host).run (host.failing fault) w).1 = .ok ()

/-- The dispositions the commands ask for; a merge only of a displacement. -/
def Admissible (w : World) : ReviewStep → Prop
  | dispose pair_id disposition _ =>
    disposition ∈ ["confirmed", "dismissed", "merged", "ttl"] ∧
      (disposition = "merged" →
        ∀ row, w.pairs.get pair_id = some row → cli.kind_of row = KIND_DISPLACEMENT)
  | _ => True

/-- The memory whose exit from the pool a step decides on. -/
def decides : ReviewStep → Option Id
  | request (.set_ttl memory_id _ _) | request (.invalidate memory_id _ _ _ _)
  | request (.delete memory_id _) | delete _ memory_id _ => some memory_id
  | _ => none

/-- The step is a disposition of a pair with this row. -/
def disposes_of (row : PairRow) : ReviewStep → Prop
  | dispose pair_id disposition _ =>
    pair_id = row.pair_id ∧ disposition ∈ ["confirmed", "dismissed", "ttl"]
  | _ => False

/-- A harvest stamps the memory. -/
def Stamps (host : Host) (fault : Call → World → Option Exn) (w : World) (s : ReviewStep)
    (x : Id) : Prop :=
  match s with
  | harvest _ _ => ∃ p p', w.payload x = some p ∧ (s.run host fault w).payload x = some p' ∧
      (p.get TTL_EXPIRED_AT).truthy = false ∧ (p'.get TTL_EXPIRED_AT).truthy = true
  | _ => False

/-- Somebody decides: on the memory, or on an expiry flag of it. -/
def Decides (host : Host) (fault : Call → World → Option Exn) (w : World) (s : ReviewStep)
    (x : Id) : Prop :=
  (s.decides = some x ∧ s.Returns host fault w) ∨
    ∃ row ∈ w.pairs.rows, IsFlag x row ∧ s.disposes_of row

end ReviewStep

/-! ## Runs -/

/-- The memories that await a decision after a step, given those that did before. -/
def Awaits (host : Host) (fault : Call → World → Option Exn) (P : Id → Prop) (w : World)
    (s : ReviewStep) (x : Id) : Prop :=
  s.Stamps host fault w x ∨ (P x ∧ ¬ s.Decides host fault w x)

/-- The worlds that runs of admitted steps lead to, with the memories that await a
decision there. No write fails; anything else may. -/
inductive Watched (host : Host)
    (allow : (Call → World → Option Exn) → World → (Id → Prop) → ReviewStep → Prop) :
    World → (Id → Prop) → Prop where
  | start : Watched host allow .empty fun _ => False
  | step {w : World} {P : Id → Prop} (h : Watched host allow w P) (s : ReviewStep)
      (fault : Call → World → Option Exn) (hfault : WritesSucceed fault) (hs : s.Admissible w)
      (hallow : allow fault w P s) :
      Watched host allow (s.run host fault w) (Awaits host fault P w s)

/-- An update of a memory that awaits a decision leaves a flag with the hash of the
new text, and no due memory has a pair for its text and deadline. -/
def KeepsFlags (host : Host) (fault : Call → World → Option Exn) (w : World) (P : Id → Prop) :
    ReviewStep → Prop
  | .request (.update memory_id text _) => P memory_id →
    ∃ row ∈ w.pairs.rows, IsFlag memory_id row ∧ row.old_text_hash = host.text_hash text
  | .harvest now limit => ∀ item ∈ due host fault now limit w, Unjudged host w item
  | _ => True

variable {host : Host} {fault : Call → World → Option Exn} {w : World}

/-! ## One call -/

/-- The call does not close this row. -/
def spares (host : Host) (row : PairRow) : Call → Prop
  | .pairs (.dispose pair_id _ _ _) => pair_id ≠ row.pair_id
  | .pairs (.close_for_old old_id _ _ _ _) => old_id ≠ row.old_id
  | .pairs (.close_for_deleted_memory memory_id _) =>
    memory_id ≠ row.old_id ∧ memory_id ≠ row.new_id
  | .pairs (.close_for_updated_text memory_id current_text _) =>
    memory_id ≠ row.old_id ∨ row.old_text_hash = host.text_hash current_text
  | _ => True

theorem spares_of_inert {row : PairRow} (c : Call) (h : inert c) : spares host row c := by
  cases c with
  | pairs op =>
    cases op with
    | has_judgment _ _ _ _ | judged_either _ _ _ | get _ => trivial
    | consecutive_dismissed_displacement_evidence _ _ _ => trivial
    | _ => exact h.elim
  | _ => trivial

/-- An open row that a call spares is still there. -/
theorem spared {row : PairRow} {c : Call} (hc : spares host row c)
    (hopen : row.disposition = "open") (hrow : row ∈ w.pairs.rows) :
    row ∈ (host.failing fault c w).2.pairs.rows := by
  rcases host.failing_pairs fault c w with hsame | ⟨op, rfl, -, hop⟩
  · rwa [hsame]
  rw [hop]
  cases op with
  | record_judgment j pair_id judged_at => exact PairStore.mem_insert_of_mem hrow
  | dispose pair_id d by_ now =>
    have hne : row.pair_id ≠ pair_id := Ne.symm hc
    simp only [PairOp.apply, PairStore.dispose]
    split
    · exact PairStore.mem_settle_of_mem hrow (by simp [hne])
    · exact hrow
  | reopen pair_id => exact PairStore.mem_settle_of_mem hrow (by simp [hopen, REOPENABLE])
  | close_for_old old_id d by_ kind now =>
    have hne : row.old_id ≠ old_id := Ne.symm hc
    exact PairStore.mem_settle_of_mem hrow (by simp [hne])
  | close_for_deleted_memory memory_id now =>
    have hold : row.old_id ≠ memory_id := Ne.symm hc.1
    have hnew : row.new_id ≠ memory_id := Ne.symm hc.2
    refine PairStore.mem_settle_of_mem (PairStore.mem_settle_of_mem hrow ?_) ?_
    · simp [hold]
    · simp [hnew]
  | close_for_updated_text memory_id text now =>
    refine PairStore.mem_settle_of_mem hrow ?_
    rcases hc with hne | hhash
    · simp [Ne.symm hne]
    · simp [hhash]
  | has_judgment _ _ _ _ | judged_either _ _ _ | get _ => exact hrow
  | consecutive_dismissed_displacement_evidence _ _ _ => exact hrow

/-- The call inserts a pair. -/
def records : Call → Prop
  | .pairs (.record_judgment ..) => True
  | _ => False

theorem not_records_of_inert (c : Call) (h : inert c) : ¬ records c := by
  cases c with
  | pairs op =>
    cases op with
    | record_judgment _ _ _ => exact h.elim
    | _ => exact id
  | _ => exact id

/-- Without an insertion every row was there before. -/
theorem evidence_of_mem {row : PairRow} {c : Call} (hc : ¬ records c)
    (hrow : row ∈ (host.failing fault c w).2.pairs.rows) :
    ∃ row₀ ∈ w.pairs.rows, row.toEvidence = row₀.toEvidence := by
  rcases host.failing_pairs fault c w with hsame | ⟨op, rfl, -, hop⟩
  · rw [hsame] at hrow
    exact ⟨row, hrow, rfl⟩
  rw [hop] at hrow
  cases op with
  | record_judgment j pair_id judged_at => exact absurd trivial hc
  | dispose pair_id d by_ now =>
    simp only [PairOp.apply, PairStore.dispose] at hrow
    split at hrow
    · exact PairStore.evidence_of_mem_settle hrow
    · exact ⟨row, hrow, rfl⟩
  | reopen pair_id => exact PairStore.evidence_of_mem_settle hrow
  | close_for_old old_id d by_ kind now => exact PairStore.evidence_of_mem_settle hrow
  | close_for_deleted_memory memory_id now =>
    obtain ⟨row₁, hrow₁, h₁⟩ := PairStore.evidence_of_mem_settle hrow
    obtain ⟨row₀, hrow₀, h₀⟩ := PairStore.evidence_of_mem_settle hrow₁
    exact ⟨row₀, hrow₀, h₁.trans h₀⟩
  | close_for_updated_text memory_id text now => exact PairStore.evidence_of_mem_settle hrow
  | has_judgment _ _ _ _ | judged_either _ _ _ | get _ => exact ⟨row, hrow, rfl⟩
  | consecutive_dismissed_displacement_evidence _ _ _ => exact ⟨row, hrow, rfl⟩

theorem fresh_of_not_records {c : Call} (hc : ¬ records c) (h : FreshIds host w) :
    FreshIds host (host.failing fault c w).2 := by
  intro row hrow
  obtain ⟨row₀, hrow₀, hevidence⟩ := evidence_of_mem hc hrow
  obtain ⟨n, hn, hid⟩ := h row₀ hrow₀
  refine ⟨n, lt_of_lt_of_le hn (host.failing_drawn fault c w), ?_⟩
  exact (congrArg Evidence.pair_id hevidence).trans hid

/-- Recording a judgment draws the id of its pair. -/
theorem record_judgment_run (host : Host) (fault : Call → World → Option Exn) (w : World)
    (j : Judgment) :
    ((pair_store.record_judgment j).run (host.failing fault) w).2 =
      (host.failing fault (.pairs (.record_judgment j (host.uuid4 w.drawn) (host.now_iso w.ticks)))
        { w with ticks := w.ticks + 1, drawn := w.drawn + 1 }).2 := by
  refine congrArg Prod.snd ((run_bind_ok rfl).trans ((run_bind_ok rfl).trans ?_))
  exact run_perform _ _ _

theorem record_judgment_fresh (j : Judgment) :
    (pair_store.record_judgment j).Keeps (host.failing fault) (FreshIds host) := by
  intro w hw
  rw [record_judgment_run]
  have hold : ∀ row ∈ w.pairs.rows, ∃ n < w.drawn + 1, row.pair_id = host.uuid4 n := by
    intro row hrow
    obtain ⟨n, hn, hid⟩ := hw row hrow
    exact ⟨n, Nat.lt_succ_of_lt hn, hid⟩
  rcases host.failing_cases fault (.pairs (.record_judgment j (host.uuid4 w.drawn)
    (host.now_iso w.ticks))) { w with ticks := w.ticks + 1, drawn := w.drawn + 1 } with ⟨e, h⟩ | h
  · rw [h]
    exact hold
  · rw [h]
    intro row hrow
    rcases PairStore.mem_of_mem_insert hrow with hrow | rfl
    · exact hold row hrow
    · exact ⟨w.drawn, Nat.lt_succ_self _, rfl⟩

/-- Recording a judgment leaves an open flag where it is. -/
theorem record_judgment_keeps_row {row : PairRow} (hopen : row.disposition = "open")
    (j : Judgment) :
    (pair_store.record_judgment j).Keeps (host.failing fault) fun w => row ∈ w.pairs.rows := by
  intro w hw
  have hspares : spares host row (.pairs (.record_judgment j (host.uuid4 w.drawn)
    (host.now_iso w.ticks))) := trivial
  rw [record_judgment_run]
  exact spared hspares hopen hw

/-! ## A step that raises -/

/-- A row stays under calls that spare it. -/
theorem keeps_row {α : Type} {p : Code α} {row : PairRow} (hopen : row.disposition = "open")
    (hp : p.Uses (spares host row)) : p.Keeps (host.failing fault) fun w => row ∈ w.pairs.rows :=
  hp.keeps fun _ _ hc hrow => spared hc hopen hrow

theorem attempt_total (p : Code Unit) : (attempt p).Total (host.failing fault) :=
  total_tryCatch fun _ => total_pure ()

/-- The outcome of a program is returned, whatever it is. -/
theorem outcome_run {α : Type} (p : Code α) (h : Handler Api World) (w : World) :
    (cli.outcome p).run h w = (.ok (p.run h w).1, (p.run h w).2) := by
  refine (run_tryCatch _ _ _ _).trans ?_
  rw [run_bind]
  rcases p.run h w with ⟨e | a, w'⟩
  · rfl
  · rfl

section raising

variable {row : PairRow} (hopen : row.disposition = "open")
include hopen

theorem set_ttl_raises (id : Id) (mode : TtlMode) (actor_id : Option String) :
    (set_ttl id mode actor_id).RaisesKeeping (host.failing fault) fun w => row ∈ w.pairs.rows := by
  unfold set_ttl
  refine raises_bind (keeps_row hopen ((point_payload_inert id).mono spares_of_inert)) fun _ => ?_
  refine raises_bind (keeps_row hopen (expect_uses _ _)) fun payload => ?_
  refine raises_bind (keeps_row hopen (now_iso_inert.mono spares_of_inert)) fun now => ?_
  refine raises_bind (keeps_row hopen ((ttl_deadline_inert mode).mono spares_of_inert))
    fun expires_at => ?_
  -- the write is the last thing that can fail
  refine raises_bind (keeps_row hopen (uses_perform trivial)) fun _ => raises_total ?_
  exact total_bind (attempt_total _) fun _ => total_bind (attempt_total _) fun _ => total_pure _

theorem delete_raises (id : Id) (actor_id : Option String) :
    (ops.delete host id actor_id).RaisesKeeping (host.failing fault) fun w =>
      row ∈ w.pairs.rows := by
  unfold ops.delete
  refine raises_bind (keeps_row hopen ((delete_guard_inert id).mono spares_of_inert))
    fun guard => ?_
  split
  · exact raises_bind_total (set_ttl_raises hopen _ _ _) fun _ => total_pure _
  · refine Keeps.raises (keeps_row hopen ?_)
    exact uses_bind (mem0_delete_uses spares_of_inert trivial) fun _ => uses_pure _

variable (hfault : WritesSucceed fault)
include hfault

omit hopen in
/-- Closing pairs fails without effect or goes through, and is answered either way. -/
theorem close_for_old_total (old_id : Id) (d : String) (by_ kind : Option String) :
    (pair_store.close_for_old old_id d by_ kind).Total (host.failing fault) := by
  refine total_bind (total_perform fun w => ⟨_, _, rfl⟩) fun now => total_perform fun w => ?_
  have hwrites : mutates (.pairs (.close_for_old old_id d by_ kind now)) := id
  exact ⟨_, _, hfault.answer hwrites w⟩

theorem invalidate_raises (id : Id) (by_ids : List Id)
    (reason actor_id session_id : Option String) :
    (invalidate id by_ids reason actor_id session_id).RaisesKeeping (host.failing fault)
      fun w => row ∈ w.pairs.rows := by
  unfold invalidate
  refine raises_bind (keeps_row hopen ((check_invalidate_looks_up id (distinct_ids by_ids)).mono
    fun c hc => spares_of_inert c (inert_of_looks_up hc))) fun payload => ?_
  refine raises_bind (keeps_row hopen (now_iso_inert.mono spares_of_inert)) fun now => ?_
  refine raises_bind (keeps_row hopen (uses_perform trivial)) fun _ => raises_total ?_
  refine total_bind (attempt_total _) fun _ => ?_
  exact total_bind (close_for_old_total hfault _ _ _ _) fun _ => total_pure _

/-- The audit row of a command is no pair. -/
theorem audited_raises {α : Type} {operation : String} {p : Code α}
    (hp : p.RaisesKeeping (host.failing fault) fun w => row ∈ w.pairs.rows) :
    (cli.audited operation p).RaisesKeeping (host.failing fault) fun w => row ∈ w.pairs.rows := by
  intro w hw e s' hrun
  unfold cli.audited at hrun
  rw [run_bind_ok (outcome_run p _ w)] at hrun
  rcases hend : p.run (host.failing fault) w with ⟨e₁ | a, w₁⟩
  · rw [hend] at hrun
    have hrest : ((attempt (perform (I := Api) (.audit operation)) >>= fun _ =>
        throw e₁ : Code α)).Keeps (host.failing fault) fun w => row ∈ w.pairs.rows := by
      refine keeps_row hopen (uses_bind (attempt_uses (uses_perform trivial)) fun _ => ?_)
      exact uses_throw (I := Api) e₁
    have hkept := hrest w₁ (hp w hw e₁ w₁ hend)
    simp only at hrun
    rwa [hrun] at hkept
  · rw [hend] at hrun
    have hwrites : mutates (.audit operation) := trivial
    have htotal : ((perform (I := Api) (.audit operation) >>= fun _ => pure a : Code α)).Total
        (host.failing fault) :=
      total_bind (total_perform fun w => ⟨_, _, hfault.answer hwrites w⟩) fun _ => total_pure a
    obtain ⟨b, w₂, hok⟩ := htotal w₁
    have hclash := hok.symm.trans hrun
    cases hclash

/-- The command `delete`, when it fails, leaves the flag. -/
theorem cli_delete_raises (client : cli.Client) (id : Id) (force : Bool) :
    (cli.delete host client id force).RaisesKeeping (host.failing fault)
      fun w => row ∈ w.pairs.rows := by
  unfold cli.delete
  refine raises_bind (keeps_row hopen ((mem0_get_inert id).mono spares_of_inert)) fun _ => ?_
  refine raises_bind (keeps_row hopen (cli.confirm_destructive_uses client force)) fun _ => ?_
  refine audited_raises hopen hfault ?_
  refine raises_bind_total (delete_raises hopen id _) fun result => ?_
  refine total_bind ?_ fun _ => total_pure result
  cases result with
  | downgraded_to_expiry _ _ => exact total_pure ()
  | _ => exact attempt_total _

end raising

/-! ## One step -/

/-- What a program keeps is kept when its outcome does not matter. -/
theorem keeps_discard {α : Type} {p : Code α} {h : Handler Api World} {P : World → Prop}
    (hp : p.Keeps h P) : (ReviewStep.discard p).Keeps h P :=
  keeps_bind hp fun _ => keeps_pure ()

theorem fresh_step (hfault : WritesSucceed fault) (huuid : Function.Injective host.uuid4)
    (h : FreshIds host w) (s : ReviewStep) : FreshIds host (s.run host fault w) := by
  have hcalls : ∀ {α : Type} {p : Code α}, (p.Uses fun c => ¬ records c) →
      p.Keeps (host.failing fault) (FreshIds host) :=
    fun hp => hp.keeps fun _ _ hc hw => fresh_of_not_records hc hw
  cases s with
  | request r =>
    refine keeps_discard (hcalls (dispatch_uses not_records_of_inert ?_ host r ?_)) w h
    · intro c hc hrecords
      cases c with
      | pairs op => cases hc
      | _ => exact hrecords
    · intro op hop hrecords
      cases op with
      | record_judgment _ _ _ => cases r <;> exact hop
      | _ => exact hrecords
  | delete client memory_id force =>
    refine keeps_discard (hcalls (cli.delete_uses not_records_of_inert ?_ fun _ => id)) w h
    exact delete_uses not_records_of_inert id (fun _ _ => id) fun _ => id
  | harvest now limit =>
    obtain ⟨t, items, -, -, hharvested⟩ := harvest_expired_run hfault huuid now limit w
    refine (congrArg (FreshIds host) ?_).mpr (hharvested.fresh h)
    exact run_map _ _ _ _
  | stale_check new_id session_id judge_model top_k self_only =>
    refine keeps_discard (run_stale_check_keeps (fun c w hc => ?_) record_judgment_fresh new_id
      session_id judge_model top_k self_only) w h
    exact fresh_of_not_records (not_records_of_inert c hc)
  | dispose pair_id d by_ =>
    refine keeps_discard (hcalls (dispose_uses not_records_of_inert fun _ => id)) w h
  | reopen pair_id => exact keeps_discard (hcalls (uses_perform id)) w h

/-- The text of an update of the memory is the one this row was judged against. -/
def MatchesText (host : Host) (x : Id) (row : PairRow) (s : ReviewStep) : Prop :=
  ∀ text metadata, s = .request (.update x text metadata) → row.old_text_hash = host.text_hash text

/-- The statements of a request about another memory spare the flag. -/
theorem spares_of_closes {x : Id} {row : PairRow} {r : ops.Request} {op : PairOp}
    (hflag : IsFlag x row) (hother : (ReviewStep.request r).decides ≠ some x)
    (htext : MatchesText host x row (.request r)) (hop : r.closes op) :
    spares host row (.pairs op) := by
  obtain ⟨-, -, hold, -⟩ := hflag
  cases op with
  | close_for_updated_text id text now =>
    cases r with
    | update memory_id text' metadata =>
      obtain ⟨rfl, rfl⟩ := hop
      by_cases hx : id = x
      · subst hx
        exact .inr (htext _ metadata rfl)
      · exact .inl fun h => hx (h.trans hold)
    | _ => exact hop.elim
  | close_for_old old_id d by_ kind now =>
    cases r with
    | delete memory_id actor_id | invalidate memory_id by_ids reason actor_id session_id
    | set_ttl memory_id mode actor_id =>
      obtain rfl : old_id = memory_id := hop
      exact fun h => hother (congrArg some (h.trans hold))
    | _ => exact hop.elim
  | close_for_deleted_memory memory_id now => cases r <;> exact hop.elim
  | dispose pair_id d by_ now => cases r <;> exact hop.elim
  | _ => trivial

/-- A step that neither decides on the memory nor rewords it leaves its flag. -/
theorem flag_step (hfault : WritesSucceed fault) {x : Id} {row : PairRow} {s : ReviewStep}
    (hs : s.Admissible w) (hrow : row ∈ w.pairs.rows) (hflag : IsFlag x row)
    (hundecided : ¬ s.Decides host fault w x) (htext : MatchesText host x row s)
    (hharvest : ∀ now limit, s ≠ .harvest now limit) : row ∈ (s.run host fault w).pairs.rows := by
  obtain ⟨hkind, hnew, hold, hopen⟩ := hflag
  have hspared : ∀ {α : Type} {p : Code α}, p.Uses (spares host row) →
      row ∈ ((ReviewStep.discard p).run (host.failing fault) w).2.pairs.rows :=
    fun hp => keeps_discard (keeps_row hopen hp) w hrow
  -- a step that decides on this memory has raised
  have hraised : ∀ {α : Type} {p : Code α}, s.code host = ReviewStep.discard p →
      s.decides = some x →
      p.RaisesKeeping (host.failing fault) (fun w => row ∈ w.pairs.rows) →
      row ∈ (s.run host fault w).pairs.rows := by
    intro α p hcode hdecides hp
    have hdiscard : (s.code host).RaisesKeeping (host.failing fault) fun w =>
        row ∈ w.pairs.rows := by
      rw [hcode]
      exact raises_bind_total hp fun _ => total_pure ()
    rcases hrun : (s.code host).run (host.failing fault) w with ⟨e | ⟨⟩, w'⟩
    · unfold ReviewStep.run
      rw [hrun]
      exact hdiscard w hrow e w' hrun
    · refine absurd (.inl ⟨hdecides, ?_⟩) hundecided
      unfold ReviewStep.Returns
      rw [hrun]
  cases s with
  | request r =>
    by_cases hdecides : (ReviewStep.request r).decides = some x
    · cases r with
      | set_ttl memory_id mode actor_id =>
        exact hraised rfl hdecides (raises_bind_total (set_ttl_raises hopen _ _ _) fun _ =>
          total_pure _)
      | invalidate memory_id by_ids reason actor_id session_id =>
        refine hraised rfl hdecides (raises_bind_total ?_ fun _ => total_pure _)
        exact invalidate_raises hopen hfault _ _ _ _ _
      | delete memory_id actor_id => exact hraised rfl hdecides (delete_raises hopen _ _)
      | _ => cases hdecides
    · refine hspared (dispatch_uses spares_of_inert ?_ host r fun op hop => ?_)
      · intro c hc
        cases c with
        | pairs op => cases hc
        | _ => trivial
      · exact spares_of_closes ⟨hkind, hnew, hold, hopen⟩ hdecides htext hop
  | delete client memory_id force =>
    by_cases hx : memory_id = x
    · subst hx
      exact hraised rfl rfl (cli_delete_raises hopen hfault _ _ _)
    · have hne : memory_id ≠ row.old_id := fun h => hx (h.trans hold)
      refine hspared (cli.delete_uses spares_of_inert (delete_uses spares_of_inert trivial
        (fun _ _ => trivial) fun _ => hne) fun _ => ⟨hne, fun h => hx (h.trans hnew)⟩)
  | harvest now limit => exact absurd rfl (hharvest now limit)
  | stale_check new_id session_id judge_model top_k self_only =>
    refine keeps_discard (run_stale_check_keeps (fun c w hc hw => ?_)
      (record_judgment_keeps_row hopen) new_id session_id judge_model top_k self_only) w hrow
    exact spared (spares_of_inert c hc) hopen hw
  | dispose pair_id d by_ =>
    refine hspared (dispose_uses spares_of_inert fun now hid => ?_)
    -- the commands merge displacements only
    refine hundecided (.inr ⟨row, hrow, ⟨hkind, hnew, hold, hopen⟩, hid, ?_⟩)
    obtain ⟨hd, hmerged⟩ := hs
    have hfound : w.pairs.get pair_id = some row := by
      rw [hid]
      exact w.pairs.pair_id_unique.lookup_eq hrow
    have hne : d ≠ "merged" := by
      intro hd
      have hdisplacement := hmerged hd row hfound
      rw [cli.kind_of, hkind] at hdisplacement
      revert hdisplacement
      decide
    simp only [List.mem_cons, List.not_mem_nil, or_false] at hd ⊢
    tauto
  | reopen pair_id => exact hspared (uses_perform trivial)

/-! ## Runs -/

/-- **A flag stays until somebody decides.** In every run in which no update rewords a
flagged memory and no due memory was flagged for the same text and deadline before,
every memory a harvest has stamped has an open expiry pair until a decision. -/
theorem expiry_flag_kept (host : Host) (huuid : Function.Injective host.uuid4) {w : World}
    {P : Id → Prop} (h : Watched host (KeepsFlags host) w P) : ∀ x, P x → Flagged w x := by
  -- by induction on the run; that every pair id was drawn is kept along with it
  suffices hboth : FreshIds host w ∧ ∀ x, P x → Flagged w x from hboth.2
  induction h with
  | start => exact ⟨by simp [FreshIds, World.empty, PairStore.empty], fun x hx => hx.elim⟩
  | @step w P _ s fault hfault hs hallow ih =>
    obtain ⟨hfresh, hflagged⟩ := ih
    refine ⟨fresh_step hfault huuid hfresh s, fun x hx => ?_⟩
    by_cases hharvest : ∃ now limit, s = .harvest now limit
    · obtain ⟨now, limit, rfl⟩ := hharvest
      obtain ⟨t, items, -, hdue, hharvested⟩ := harvest_expired_run hfault huuid now limit w
      have hend : ReviewStep.run host fault w (.harvest now limit) =
          ((harvest_expired host now limit).run (host.failing fault) w).2 := run_map _ _ _ _
      -- a harvest flags what it takes, and leaves the rest as it was
      by_cases htaken : ∃ item ∈ items, Taken t item ∧ item.id = x
      · obtain ⟨item, hitem, htaken, rfl⟩ := htaken
        rw [hend]
        refine hharvested.flagged hfresh item hitem htaken (hallow item ?_)
        rw [hdue]
        exact List.mem_filter.mpr ⟨hitem, decide_eq_true htaken⟩
      · have huntouched := hharvested.untouched x fun item hitem heq htaken' =>
          htaken ⟨item, hitem, htaken', heq⟩
        rw [← hend] at huntouched
        rcases hx with ⟨p, p', hp, hp', hbefore, hafter⟩ | ⟨hx, -⟩
        · -- a memory that was not taken keeps its payload, stamped or not
          rw [huntouched.1, hp] at hp'
          injection hp' with hp'
          rw [hp', hafter] at hbefore
          cases hbefore
        · exact huntouched.2 (hflagged x hx)
    -- any other step that does not decide on the memory keeps the row of its flag
    · have hother : ∀ now limit, s ≠ .harvest now limit :=
        fun now limit hs => hharvest ⟨now, limit, hs⟩
      obtain ⟨hawaits, hundecided⟩ : P x ∧ ¬ s.Decides host fault w x := by
        rcases hx with hstamps | hx
        · cases s with
          | harvest now limit => exact absurd rfl (hother now limit)
          | _ => exact hstamps.elim
        · exact hx
      obtain ⟨row, hrow, hflag, htext⟩ : ∃ row ∈ w.pairs.rows, IsFlag x row ∧
          MatchesText host x row s := by
        by_cases hreword : ∃ text metadata, s = .request (.update x text metadata)
        · obtain ⟨text, metadata, rfl⟩ := hreword
          obtain ⟨row, hrow, hflag, hhash⟩ := hallow hawaits
          refine ⟨row, hrow, hflag, fun text' metadata' heq => ?_⟩
          cases heq
          exact hhash
        · obtain ⟨row, hrow, hflag⟩ := hflagged x hawaits
          exact ⟨row, hrow, hflag, fun text metadata heq => absurd ⟨text, metadata, heq⟩ hreword⟩
      exact ⟨row, flag_step hfault hs hrow hflag hundecided htext hother, hflag⟩

/-! ## Fixed runs -/

/-- Several steps in which nothing fails, from a world with its awaiting memories. -/
def ReviewStep.runs (host : Host) (c : World × (Id → Prop)) (steps : List ReviewStep) :
    World × (Id → Prop) :=
  steps.foldl (fun c s =>
    (s.run host (fun _ _ => none) c.1, Awaits host (fun _ _ => none) c.2 c.1 s)) c

/-- A stronger condition watches over the flags as well. -/
theorem Watched.mono {host : Host}
    {allow allow' : (Call → World → Option Exn) → World → (Id → Prop) → ReviewStep → Prop}
    {w : World} {P : Id → Prop} (h : Watched host allow w P)
    (hallow : ∀ fault w P s, allow fault w P s → allow' fault w P s) : Watched host allow' w P := by
  induction h with
  | start => exact .start
  | step _ s fault hfault hs ha ih => exact ih.step s fault hfault hs (hallow _ _ _ _ ha)

def adding : ReviewStep :=
  .request (.add [{ role := some "user", content := some "A" }] (some "workspace")
    none none ∅ false)

def scheduling : ReviewStep := .request (.set_ttl "m1" (.deadline none (some "1")) none)

/-- A memory with a deadline. -/
def lapsing : World × (Id → Prop) :=
  ReviewStep.runs .plain (.empty, fun _ => False) [adding, scheduling]

theorem lapsing_watched : Watched .plain (KeepsFlags .plain) lapsing.1 lapsing.2 :=
  (Watched.start.step adding (fun _ _ => none) (fun _ _ _ => rfl) trivial trivial).step scheduling
    (fun _ _ => none) (fun _ _ _ => rfl) trivial trivial

/-- A harvest after the deadline. -/
def lapsed : ReviewStep := .harvest (some "9") 10

theorem lapsed_stamps : lapsed.Stamps .plain (fun _ _ => none) lapsing.1 "m1" :=
  ⟨_, _, rfl, rfl, rfl, rfl⟩

theorem lapsed_keeps_flags :
    KeepsFlags .plain (fun _ _ => none) lapsing.1 lapsing.2 lapsed := by
  intro item _ row hrow
  have hnone : lapsing.1.pairs.rows = [] := by decide
  rw [hnone] at hrow
  simp at hrow

/-- The memory is flagged once its deadline has passed. -/
theorem expiry_flag_kept_lapsed :
    Flagged (lapsed.run .plain (fun _ _ => none) lapsing.1) "m1" := by
  exact expiry_flag_kept .plain (tally_injective "m") (lapsing_watched.step lapsed (fun _ _ => none)
    (fun _ _ _ => rfl) trivial lapsed_keeps_flags) "m1" (.inl lapsed_stamps)

/-- An update that repeats the text. -/
def repeating : ReviewStep := .request (.update "m1" "A" ∅)

/-- It closes the flag; the memory stays out of the pool. -/
theorem expiry_flag_lost :
    ∃ w P p, Watched .plain (fun _ _ _ _ => True) w P ∧ P "m1" ∧ ¬ Flagged w "m1" ∧
      w.payload "m1" = some p ∧ is_ttl_expired p "9" = true := by
  have hlapsed : Watched .plain (fun _ _ _ _ => True)
      (lapsed.run .plain (fun _ _ => none) lapsing.1) _ :=
    (lapsing_watched.mono fun _ _ _ _ _ => trivial).step lapsed (fun _ _ => none)
      (fun _ _ _ => rfl) trivial trivial
  refine ⟨_, _, _, hlapsed.step repeating (fun _ _ => none) (fun _ _ _ => rfl) trivial trivial,
    .inr ⟨.inl lapsed_stamps, ?_⟩, ?_, rfl, ?_⟩
  · rintro (⟨h, -⟩ | ⟨row, -, -, h⟩)
    · cases h
    · exact h
  · have hclosed : ∀ row ∈ (repeating.run .plain (fun _ _ => none)
        (lapsed.run .plain (fun _ _ => none) lapsing.1)).pairs.rows, row.disposition ≠ "open" := by
      decide +kernel
    rintro ⟨row, hrow, -, -, -, hopen⟩
    exact hclosed row hrow hopen
  · decide +kernel

end Memline
