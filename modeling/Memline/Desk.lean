/-
Who works on which event: the queue under clients, workers, restarts and crashes.

`Desk` is the queue together with the claims its live workers hold. An action is one
statement on the queue, issued by whomever may issue it: clients at any time, a worker
on the event it holds, a daemon that starts once its predecessor is gone; purging is
allowed at any time. A crash takes the claims and leaves the rows.

Two results about any run. Every event is accounted for until a purge drops it, and no
event is held twice. How often an event is claimed is another matter: `fail` counts the
attempts, `recover_stale` does not look at them, so the bound holds for the runs in which
no restart finds an event whose attempts are spent.
-/
import Memline.EventQueue
import Memline.Lib.History

set_option autoImplicit false

namespace Memline

open SqlTable History

variable {Val : Type}

/-- The hold of a worker on an event, and the attempt it is. -/
structure Claim where
  id : Id
  attempts : ℕ
  deriving DecidableEq

structure Desk (Val : Type) where
  queue : EventQueue Val
  claims : List Claim
  up : Bool

namespace Desk

inductive Act (Val : Type) where
  | start (now : String)
  | crash
  | enqueue (event_id : Id) (op : String) (args : Args) (now : String)
  | claim (event_id : Id) (now : String)
  | complete (event_id : Id) (result : Val) (now : String)
  | fail (event_id : Id) (error now : String)
  | retry (event_id : Id) (now : String)
  | ack (event_id : Option Id) (now : String)
  | purge (cutoff : String)

/-- Before anything is enqueued. -/
def opened : Desk Val := ⟨.empty, [], false⟩

def holds (d : Desk Val) (event_id : Id) : Option Claim :=
  lookup Claim.id event_id d.claims

/-- The claims other than those of this event. -/
def released (d : Desk Val) (event_id : Id) : List Claim :=
  d.claims.filter fun c => decide (c.id ≠ event_id)

def step (d : Desk Val) : Act Val → Option (Desk Val)
  -- nobody is left to hold a row: every running one is recovered
  | .start now => if d.up then none else some ⟨(d.queue.recover_stale now).2, [], true⟩
  | .crash => if d.up then some ⟨d.queue, [], false⟩ else none
  | .enqueue event_id op args now =>
    (d.queue.enqueue event_id op args now).map fun q => { d with queue := q }
  -- of queued rows that are as old as each other, any may be the one
  | .claim event_id now =>
    if d.up then
      (lookup (fun r : EventRow Val => r.id) event_id d.queue.oldest).map fun row =>
        { d with queue := d.queue.take event_id now
                 claims := ⟨event_id, row.attempts + 1⟩ :: d.claims }
    else none
  | .complete event_id result now =>
    (d.holds event_id).map fun _ =>
      { d with queue := d.queue.complete event_id result now, claims := d.released event_id }
  -- by the attempts the worker has seen, which are those of its claim
  | .fail event_id error now =>
    (d.holds event_id).map fun c =>
      { d with queue := (d.queue.fail event_id error c.attempts now).2
               claims := d.released event_id }
  | .retry event_id now => some { d with queue := (d.queue.retry event_id now).2 }
  | .ack event_id now => some { d with queue := (d.queue.ack event_id now).2 }
  | .purge cutoff => some { d with queue := (d.queue.purge cutoff).2 }

/-! ## What an action may do to a row -/

namespace Act

/-- A purge that drops the row. -/
def drops (row : EventRow Val) : Act Val → Bool
  | .purge cutoff => row.purgeable cutoff
  | _ => false

/-- The enqueueing that the row comes from. -/
def brings (row : EventRow Val) : Act Val → Prop
  | .enqueue event_id op args now => row = EventQueue.queued_row Val event_id op args now
  | _ => False

/-- A worker claims the event. -/
def claims (event_id : Id) : Act Val → Bool
  | .claim id _ => decide (id = event_id)
  | _ => false

/-- What ends a live claim on the event. -/
def frees (event_id : Id) : Act Val → Bool
  | .start _ => true
  | .complete id _ _ | .fail id _ _ => decide (id = event_id)
  | _ => false

/-- An acknowledgement that covers the event: its own, or of all. -/
def acks (event_id : Id) : Act Val → Bool
  | .ack given _ => decide (given = some event_id ∨ given.getD "" = "")
  | _ => false

end Act

/-- What an action may do to a row that stays. -/
inductive Move : Act Val → EventRow Val → EventRow Val → Prop where
  | same {a : Act Val} {row : EventRow Val} (h : a.claims row.id = false) : Move a row row
  | recover {row : EventRow Val} (now : String) (h : row.status = .processing) :
    Move (.start now) row (row.settle fun p => { p with status := .queued, updated_at := now })
  | claim {row : EventRow Val} (now : String) (h : row.status = .queued) :
    Move (.claim row.id now) row (row.settle fun p =>
      { p with status := .processing, attempts := p.attempts + 1, updated_at := now })
  | complete {row : EventRow Val} (result : Val) (now : String) (h : row.status = .processing) :
    Move (.complete row.id result now) row (row.settle fun p =>
      { p with status := .done, result := some result, error := none, updated_at := now })
  | fail {row : EventRow Val} (error now : String) (h : row.status = .processing) :
    Move (.fail row.id error now) row (row.settle fun p =>
      { p with status := if EventQueue.terminal row.attempts then .failed else .queued
               error := some error, updated_at := now })
  | retry {row : EventRow Val} (now : String) (h : row.status = .failed) :
    Move (.retry row.id now) row (row.settle fun p =>
      { p with status := .queued, attempts := 0, acked := false, error := none, updated_at := now })
  | ack {row : EventRow Val} (given : Option Id) (now : String) (h : row.status = .failed)
    (hgiven : given = some row.id ∨ given.getD "" = "") :
    Move (.ack given now) row (row.settle fun p => { p with acked := true, updated_at := now })

theorem Move.intake {a : Act Val} {row row' : EventRow Val} (h : Move a row row') :
    row'.toIntake = row.toIntake := by
  cases h with
  | _ => rfl

theorem Move.id {a : Act Val} {row row' : EventRow Val} (h : Move a row row') :
    row'.id = row.id := congrArg Intake.id h.intake

/-- The rows after an action: moved ones, and the one it brings; all but what it drops. -/
structure Moves (q : EventQueue Val) (a : Act Val) (q' : EventQueue Val) : Prop where
  kept : ∀ row ∈ q.rows, (∃ row' ∈ q'.rows, Move a row row') ∨ a.drops row = true
  comes : ∀ row' ∈ q'.rows, (∃ row ∈ q.rows, Move a row row') ∨ a.brings row'

/-- A settlement moves the queue when it moves each of its rows. -/
theorem moves_settle {q : EventQueue Val} {a : Act Val} {p : EventRow Val → Bool}
    {f : Progress Val → Progress Val}
    (h : ∀ row ∈ q.rows, Move a row (if p row then row.settle f else row)) :
    Moves q a (q.settle p f) where
  kept := fun row hrow => .inl ⟨_, EventQueue.settle_mem p f hrow, h row hrow⟩
  comes := by
    intro row' hrow'
    obtain ⟨row, hrow, rfl⟩ := EventQueue.mem_settle hrow'
    exact .inl ⟨row, hrow, h row hrow⟩

/-! ## What holds at a desk -/

/-- A claim is on a row in progress, which counts the same attempts. -/
def Holds (q : EventQueue Val) (c : Claim) : Prop :=
  ∃ row ∈ q.rows, row.id = c.id ∧ row.status = .processing ∧ row.attempts = c.attempts

structure Sound (d : Desk Val) : Prop where
  held_once : (d.claims.map Claim.id).Nodup
  held : ∀ c ∈ d.claims, Holds d.queue c
  acked : ∀ row ∈ d.queue.rows, row.acked = true → row.status = .failed

theorem sound_opened : Sound (opened : Desk Val) where
  held_once := List.nodup_nil
  held := by simp [opened]
  acked := by simp [opened, EventQueue.empty]

/-- The row of an event that a worker holds. -/
theorem Sound.held_row {d : Desk Val} (hd : Sound d) {event_id : Id} {c : Claim}
    (hc : d.holds event_id = some c) {row : EventRow Val} (hrow : row ∈ d.queue.rows)
    (hid : row.id = event_id) : row.status = .processing ∧ row.attempts = c.attempts := by
  obtain ⟨hmem, hclaim⟩ := mem_of_lookup hc
  obtain ⟨row', hrow', hid', hstatus, hattempts⟩ := hd.held c hmem
  obtain rfl := d.queue.eq_of_id_eq hrow hrow' (hid.trans (hclaim.symm.trans hid'.symm))
  exact ⟨hstatus, hattempts⟩

/-- The row that `claim` takes. -/
theorem claimable {d : Desk Val} {event_id : Id} {row : EventRow Val}
    (h : lookup (fun r : EventRow Val => r.id) event_id d.queue.oldest = some row) :
    row ∈ d.queue.rows ∧ row.id = event_id ∧ row.status = .queued := by
  obtain ⟨hmem, hid⟩ := mem_of_lookup h
  obtain ⟨⟨hrow, hqueued⟩, -⟩ := EventQueue.mem_oldest.mp hmem
  exact ⟨hrow, hid, hqueued⟩

/-- What each action does to the rows. -/
theorem moves_step {d d' : Desk Val} {a : Act Val} (hd : Sound d) (h : step d a = some d') :
    Moves d.queue a d'.queue := by
  -- a statement moves the rows its condition picks and leaves the others as they are
  cases a with
  | start now =>
    simp only [step] at h
    split at h
    · cases h
    · injection h with h
      subst h
      refine moves_settle fun row _ => ?_
      split
      · rename_i hp
        exact .recover now (of_decide_eq_true hp)
      · exact .same rfl
  | crash =>
    simp only [step] at h
    split at h
    · injection h with h
      subst h
      exact ⟨fun row hrow => .inl ⟨row, hrow, .same rfl⟩,
        fun row hrow => .inl ⟨row, hrow, .same rfl⟩⟩
    · cases h
  | enqueue event_id op args now =>
    obtain ⟨q, hq, rfl⟩ := Option.map_eq_some_iff.mp h
    refine ⟨fun row hrow => .inl ⟨row, (EventQueue.mem_enqueue hq).mpr (.inl hrow), .same rfl⟩, ?_⟩
    intro row' hrow'
    rcases (EventQueue.mem_enqueue hq).mp hrow' with hrow' | hnew
    · exact .inl ⟨row', hrow', .same rfl⟩
    · exact .inr hnew
  | claim event_id now =>
    simp only [step] at h
    split at h
    · obtain ⟨oldest, hlookup, rfl⟩ := Option.map_eq_some_iff.mp h
      obtain ⟨hmem, hoid, hqueued⟩ := claimable hlookup
      refine moves_settle fun row hrow => ?_
      split
      · rename_i hp
        have hid : row.id = event_id := of_decide_eq_true hp
        -- ids are unique, so the row that is updated is the one that was looked up
        obtain rfl := d.queue.eq_of_id_eq hrow hmem (hid.trans hoid.symm)
        rw [← hid]
        exact .claim now hqueued
      · rename_i hp
        exact .same (decide_eq_false fun hid => hp (decide_eq_true hid.symm))
    · cases h
  | complete event_id result now =>
    obtain ⟨c, hc, rfl⟩ := Option.map_eq_some_iff.mp h
    refine moves_settle fun row hrow => ?_
    split
    · rename_i hp
      have hid : row.id = event_id := of_decide_eq_true hp
      -- whoever completes holds a claim, under which the row has not moved
      have hheld := hd.held_row hc hrow hid
      rw [← hid]
      exact .complete result now hheld.1
    · exact .same rfl
  | fail event_id error now =>
    obtain ⟨c, hc, rfl⟩ := Option.map_eq_some_iff.mp h
    refine moves_settle fun row hrow => ?_
    split
    · rename_i hp
      have hid : row.id = event_id := of_decide_eq_true hp
      obtain ⟨hstatus, hattempts⟩ := hd.held_row hc hrow hid
      rw [← hid, ← hattempts]
      exact .fail error now hstatus
    · exact .same rfl
  | retry event_id now =>
    injection h with h
    subst h
    refine moves_settle fun row _ => ?_
    split
    · rename_i hp
      rw [Bool.and_eq_true] at hp
      have hid : row.id = event_id := of_decide_eq_true hp.1
      rw [← hid]
      exact .retry now (of_decide_eq_true hp.2)
    · exact .same rfl
  | ack event_id now =>
    injection h with h
    subst h
    refine moves_settle fun row _ => ?_
    by_cases hgiven : event_id.getD "" = ""
    · -- every failure that is not acknowledged yet
      rw [if_neg (not_not_intro hgiven)]
      split
      · rename_i hp
        rw [Bool.and_eq_true] at hp
        exact .ack event_id now (of_decide_eq_true hp.1) (.inr hgiven)
      · exact .same rfl
    · rw [if_pos hgiven]
      split
      · rename_i hp
        rw [Bool.and_eq_true] at hp
        exact .ack event_id now (of_decide_eq_true hp.2) (.inl (of_decide_eq_true hp.1).symm)
      · exact .same rfl
  | purge cutoff =>
    injection h with h
    subst h
    refine ⟨fun row hrow => ?_,
      fun row hrow => .inl ⟨row, (EventQueue.mem_purge.mp hrow).1, .same rfl⟩⟩
    by_cases hdrop : row.purgeable cutoff = true
    · exact .inr hdrop
    · refine .inl ⟨row, EventQueue.mem_purge.mpr ⟨hrow, ?_⟩, .same rfl⟩
      rwa [Bool.not_eq_true] at hdrop

/-- A row that is acknowledged has failed, and was acknowledged before or is by this action. -/
theorem Move.acked {a : Act Val} {row row' : EventRow Val} (h : Move a row row')
    (hrow : row.acked = true → row.status = .failed) (hacked : row'.acked = true) :
    row'.status = .failed ∧ (row.acked = true ∨ a.acks row.id = true) := by
  cases h with
  | same => exact ⟨hrow hacked, .inl hacked⟩
  | retry => cases hacked
  | ack given now hfailed hgiven => exact ⟨hfailed, .inr (decide_eq_true hgiven)⟩
  | recover _ hstatus | claim _ hstatus | complete _ _ hstatus | fail _ _ hstatus =>
    have hfailed := hrow hacked
    rw [hstatus] at hfailed
    cases hfailed

/-- A row in progress stays so until its claim ends. -/
theorem Move.processing {a : Act Val} {row row' : EventRow Val} (h : Move a row row')
    (hrow : row.status = .processing) :
    row'.status = .processing ∧ row'.attempts = row.attempts ∨ a.frees row.id = true := by
  cases h with
  | same => exact .inl ⟨hrow, rfl⟩
  | recover => exact .inr rfl
  | complete | fail => exact .inr (decide_eq_true rfl)
  | claim _ hstatus | retry _ hstatus | ack _ _ hstatus _ =>
    rw [hrow] at hstatus
    cases hstatus

/-- A claim takes a queued row and counts the attempt. -/
theorem Move.claimed {a : Act Val} {row row' : EventRow Val} (h : Move a row row')
    (ha : a.claims row.id = true) :
    row.status = .queued ∧ row'.status = .processing ∧ row'.attempts = row.attempts + 1 := by
  cases h with
  | same hclaims =>
    rw [ha] at hclaims
    cases hclaims
  | claim _ hstatus => exact ⟨hstatus, rfl, rfl⟩
  | _ => cases ha

/-- A claim holds on as long as the action does not free its row. -/
theorem Holds.moves {q q' : EventQueue Val} {a : Act Val} {c : Claim} (hc : Holds q c)
    (h : Moves q a q') (hfree : a.frees c.id = false) : Holds q' c := by
  obtain ⟨row, hrow, hid, hstatus, hattempts⟩ := hc
  rcases h.kept row hrow with ⟨row', hrow', hmove⟩ | hdrops
  · rcases hmove.processing hstatus with ⟨hstatus', hattempts'⟩ | hfrees
    · exact ⟨row', hrow', hmove.id.trans hid, hstatus', hattempts'.trans hattempts⟩
    · rw [hid, hfree] at hfrees
      cases hfrees
  · -- a purge leaves what is in progress
    cases a with
    | purge cutoff =>
      have hpurge := (EventRow.purgeable_iff.mp hdrops).2
      rw [hstatus] at hpurge
      simp at hpurge
    | _ => cases hdrops

theorem mem_released {d : Desk Val} {event_id : Id} {c : Claim} :
    c ∈ d.released event_id ↔ c ∈ d.claims ∧ c.id ≠ event_id := by
  simp [released]

/-- Which claims there are after an action: earlier ones that it does not end, and the
one that a `claim` brings. -/
theorem claims_step {d d' : Desk Val} {a : Act Val} (h : step d a = some d') :
    (d'.claims.Sublist d.claims ∧ ∀ c ∈ d'.claims, a.frees c.id = false) ∨
      ∃ row ∈ d.queue.rows, row.status = .queued ∧ (∃ now, a = .claim row.id now) ∧
        d'.claims = ⟨row.id, row.attempts + 1⟩ :: d.claims := by
  -- only a claim adds one; a row that is completed or fails gives its claim back, and a
  -- start or crash drops them all
  cases a with
  | start now =>
    simp only [step] at h
    split at h
    · cases h
    · injection h with h
      subst h
      exact .inl ⟨List.nil_sublist _, by simp⟩
  | crash =>
    simp only [step] at h
    split at h
    · injection h with h
      subst h
      exact .inl ⟨List.nil_sublist _, by simp⟩
    · cases h
  | enqueue event_id op args now =>
    obtain ⟨q, -, rfl⟩ := Option.map_eq_some_iff.mp h
    exact .inl ⟨.refl _, fun _ _ => rfl⟩
  | claim event_id now =>
    simp only [step] at h
    split at h
    · obtain ⟨row, hlookup, rfl⟩ := Option.map_eq_some_iff.mp h
      obtain ⟨hrow, rfl, hqueued⟩ := claimable hlookup
      exact .inr ⟨row, hrow, hqueued, ⟨now, rfl⟩, rfl⟩
    · cases h
  | complete event_id result now =>
    obtain ⟨_, -, rfl⟩ := Option.map_eq_some_iff.mp h
    exact .inl ⟨List.filter_sublist, fun c hc => decide_eq_false (mem_released.mp hc).2.symm⟩
  | fail event_id error now =>
    obtain ⟨_, -, rfl⟩ := Option.map_eq_some_iff.mp h
    exact .inl ⟨List.filter_sublist, fun c hc => decide_eq_false (mem_released.mp hc).2.symm⟩
  | retry event_id now | ack event_id now | purge cutoff =>
    injection h with h
    subst h
    exact .inl ⟨.refl _, fun _ _ => rfl⟩

/-- **The step lemma**: whatever happens at the desk next, it stays sound. -/
theorem sound_step {d d' : Desk Val} {a : Act Val} (hd : Sound d) (h : step d a = some d') :
    Sound d' := by
  have hmoves := moves_step hd h
  have hacked : ∀ row ∈ d'.queue.rows, row.acked = true → row.status = .failed := by
    intro row' hrow' hacked
    rcases hmoves.comes row' hrow' with ⟨row, hrow, hmove⟩ | hbrings
    · exact (hmove.acked (hd.acked row hrow) hacked).1
    · cases a with
      | enqueue event_id op args now =>
        obtain rfl : row' = _ := hbrings
        cases hacked
      | _ => exact hbrings.elim
  rcases claims_step h with ⟨hsub, hfree⟩ | ⟨row, hrow, hqueued, ⟨now, rfl⟩, hclaims⟩
  · refine ⟨(hsub.map Claim.id).nodup hd.held_once, fun c hc => ?_, hacked⟩
    exact (hd.held c (hsub.subset hc)).moves hmoves (hfree c hc)
  · refine ⟨?_, fun c hc => ?_, hacked⟩
    · rw [hclaims, List.map_cons, List.nodup_cons]
      refine ⟨fun hmem => ?_, hd.held_once⟩
      -- whoever held it already would have its row in progress
      obtain ⟨c, hc, hid⟩ := List.mem_map.mp hmem
      obtain ⟨row', hrow', hid', hstatus, -⟩ := hd.held c hc
      obtain rfl := d.queue.eq_of_id_eq hrow' hrow (hid'.trans hid)
      rw [hqueued] at hstatus
      cases hstatus
    · rw [hclaims] at hc
      rcases List.mem_cons.mp hc with rfl | hc
      · rcases hmoves.kept row hrow with ⟨row', hrow', hmove⟩ | hdrops
        · exact ⟨row', hrow', hmove.id, (hmove.claimed (decide_eq_true rfl)).2⟩
        · cases hdrops
      · exact (hd.held c hc).moves hmoves rfl

/-- **The run lemma**: the desk is sound after any actions. -/
theorem sound_run {acts : List (Act Val)} {d : Desk Val} (h : run step opened acts = some d) :
    Sound d := run_keeps (fun _ _ _ => sound_step) sound_opened h

/-! ## No event is lost -/

/-- An action drops a row only by a purge for which the row is old enough and settled. -/
theorem Act.drops_iff {row : EventRow Val} {a : Act Val} :
    a.drops row = true ↔ ∃ cutoff, a = .purge cutoff ∧ row.updated_at < cutoff ∧
      (row.status = .done ∨ row.status = .failed ∧ row.acked = true) := by
  cases a with
  | purge cutoff =>
    constructor
    · exact fun h => ⟨cutoff, rfl, EventRow.purgeable_iff.mp h⟩
    · rintro ⟨cutoff', heq, h⟩
      injection heq with heq
      subst heq
      exact EventRow.purgeable_iff.mpr h
  | _ => simp [Act.drops]

/-- Nothing is acknowledged by itself. -/
theorem acked_run {acts : List (Act Val)} {d : Desk Val} (h : run step opened acts = some d) :
    ∀ row ∈ d.queue.rows, row.acked = true → ∃ a ∈ acts, a.acks row.id = true := by
  refine run_invariant (J := fun acts d => ∀ row ∈ d.queue.rows, row.acked = true →
    ∃ a ∈ acts, a.acks row.id = true) (by simp [opened, EventQueue.empty]) ?_ h
  intro pre a t t' hpre ih hstep row' hrow' hacked
  have ht := sound_run hpre
  rcases (moves_step ht hstep).comes row' hrow' with ⟨row, hrow, hmove⟩ | hbrings
  · rcases (hmove.acked (ht.acked row hrow) hacked).2 with hbefore | hacks
    · obtain ⟨b, hb, hacks⟩ := ih row hrow hbefore
      exact ⟨b, List.mem_append_left _ hb, hmove.id ▸ hacks⟩
    · exact ⟨a, List.mem_append_right _ (List.mem_singleton.mpr rfl), hmove.id ▸ hacks⟩
  · cases a with
    | enqueue event_id op args now =>
      obtain rfl : row' = _ := hbrings
      cases hacked
    | _ => exact hbrings.elim

/-- Every row was enqueued as it is. -/
theorem row_run {acts : List (Act Val)} {d : Desk Val} (h : run step opened acts = some d) :
    ∀ row ∈ d.queue.rows, .enqueue row.id row.op row.args row.created_at ∈ acts := by
  refine run_invariant (J := fun acts d => ∀ row ∈ d.queue.rows,
    .enqueue row.id row.op row.args row.created_at ∈ acts) (by simp [opened, EventQueue.empty]) ?_ h
  intro pre a t t' hpre ih hstep row' hrow'
  rcases (moves_step (sound_run hpre) hstep).comes row' hrow' with ⟨row, hrow, hmove⟩ | hbrings
  · have hbefore := ih row hrow
    rw [hmove.intake]
    exact List.mem_append_left _ hbefore
  · cases a with
    | enqueue event_id op args now =>
      obtain rfl : row' = _ := hbrings
      exact List.mem_append_right _ (List.mem_singleton.mpr rfl)
    | _ => exact hbrings.elim

/-- A row stays, as what was enqueued, unless the action drops it. -/
theorem row_step {d d' : Desk Val} {a : Act Val} (hd : Sound d) (h : step d a = some d')
    {row : EventRow Val} (hrow : row ∈ d.queue.rows) :
    (∃ row' ∈ d'.queue.rows, row'.toIntake = row.toIntake) ∨ a.drops row = true := by
  refine ((moves_step hd h).kept row hrow).imp_left ?_
  rintro ⟨row', hrow', hmove⟩
  exact ⟨row', hrow', hmove.intake⟩

/-- What was enqueued is in the table, unless a later purge dropped it. -/
theorem enqueued_run {pre post : List (Act Val)} {event_id : Id} {op : String} {args : Args}
    {now : String} {d : Desk Val}
    (h : run step opened (pre ++ .enqueue event_id op args now :: post) = some d) :
    (∃ row ∈ d.queue.rows, row.toIntake = ⟨event_id, op, args, now⟩) ∨
      ∃ mid a rest t, post = mid ++ a :: rest ∧
        run step opened (pre ++ .enqueue event_id op args now :: mid) = some t ∧
        ∃ row ∈ t.queue.rows, row.toIntake = ⟨event_id, op, args, now⟩ ∧ a.drops row = true := by
  obtain ⟨t, ht, hrest⟩ := run_append_inv h
  obtain ⟨t', hstep, hpost⟩ := run_cons_inv hrest
  have hsound := sound_step (sound_run ht) hstep
  have hthere : ∃ row ∈ t'.queue.rows, row.toIntake = ⟨event_id, op, args, now⟩ := by
    obtain ⟨q, hq, rfl⟩ := Option.map_eq_some_iff.mp hstep
    exact ⟨_, (EventQueue.mem_enqueue hq).mpr (.inr rfl), rfl⟩
  have huntil := run_until
    (P := fun d => Sound d ∧ ∃ row ∈ d.queue.rows, row.toIntake = ⟨event_id, op, args, now⟩)
    (B := fun d a => ∃ row ∈ d.queue.rows, row.toIntake = ⟨event_id, op, args, now⟩ ∧
      a.drops row = true) ?_ ⟨hsound, hthere⟩ hpost
  · rcases huntil with ⟨-, hkept⟩ | ⟨mid, a, rest, u, rfl, hu, hdrops⟩
    · exact .inl hkept
    · refine .inr ⟨mid, a, rest, u, rfl, ?_, hdrops⟩
      rw [run_append, ht, Option.bind_some, run_cons, hstep]
      exact hu
  · rintro d a d' ⟨hd, row, hrow, hintake⟩ hnext
    rcases row_step hd hnext hrow with ⟨row', hrow', hsame⟩ | hdrops
    · exact .inl ⟨sound_step hd hnext, row', hrow', hsame.trans hintake⟩
    · exact .inr ⟨row, hrow, hintake, hdrops⟩

/-- **Every event is accounted for**, after any actions in any order. An enqueued event
has exactly one row, with what was enqueued, until a purge drops it; a purge drops only
rows that are done, or failed and acknowledged, and past retention, and nothing else
drops any; an acknowledged row is a failed one that somebody has acknowledged; and each
live claim is on a row in progress that no other claim is on. -/
theorem events_accounted {acts : List (Act Val)} {d : Desk Val}
    (h : run step opened acts = some d) :
    (∀ pre event_id op args now post, acts = pre ++ .enqueue event_id op args now :: post →
      (∃! row, row ∈ d.queue.rows ∧ row.id = event_id) ∨
        ∃ mid cutoff rest t, post = mid ++ .purge cutoff :: rest ∧
          run step opened (pre ++ .enqueue event_id op args now :: mid) = some t ∧
          ∃ row ∈ t.queue.rows, row.toIntake = ⟨event_id, op, args, now⟩ ∧
            row.updated_at < cutoff ∧
              (row.status = .done ∨ row.status = .failed ∧ row.acked = true)) ∧
      (∀ row ∈ d.queue.rows, ∀ a d', step d a = some d' →
        (∃ row' ∈ d'.queue.rows, row'.toIntake = row.toIntake) ∨
          ∃ cutoff, a = .purge cutoff ∧ row.updated_at < cutoff ∧
            (row.status = .done ∨ row.status = .failed ∧ row.acked = true)) ∧
      (∀ row ∈ d.queue.rows, row.acked = true →
        row.status = .failed ∧ ∃ a ∈ acts, a.acks row.id = true) ∧
      (d.claims.map Claim.id).Nodup ∧
      ∀ c ∈ d.claims, ∃ row ∈ d.queue.rows, row.id = c.id ∧ row.status = .processing ∧
        row.attempts = c.attempts := by
  -- the claims of a desk are of rows in processing, and each row is claimed once
  have hsound := sound_run h
  refine ⟨?_, fun row hrow a d' hstep => ?_, fun row hrow hacked => ?_,
    hsound.held_once, hsound.held⟩
  · rintro pre event_id op args now post rfl
    rcases enqueued_run h with ⟨row, hrow, hintake⟩ |
      ⟨mid, a, rest, t, hpost, ht, row, hrow, hsame, hdrops⟩
    · have hid : row.id = event_id := congrArg Intake.id hintake
      refine .inl ⟨row, ⟨hrow, hid⟩, ?_⟩
      rintro row' ⟨hrow', hid'⟩
      exact d.queue.eq_of_id_eq hrow' hrow (hid'.trans hid.symm)
    · obtain ⟨cutoff, rfl, hpurge⟩ := Act.drops_iff.mp hdrops
      exact .inr ⟨mid, cutoff, rest, t, hpost, ht, row, hrow, hsame, hpurge⟩
  · exact (row_step hsound hstep hrow).imp_right Act.drops_iff.mp
  · exact ⟨hsound.acked row hrow hacked, acked_run h row hrow hacked⟩

/-- A failure that is retried and acknowledged, a crash and a purge. -/
def busy : List (Act Unit) :=
  [.enqueue "a" "add" ∅ "1", .enqueue "b" "add" ∅ "1", .start "2", .claim "b" "3", .claim "a" "3",
    .complete "b" () "4", .crash, .start "5", .claim "a" "6", .fail "a" "no answer" "7",
    .retry "a" "8", .claim "a" "8", .fail "a" "no answer" "9", .ack none "9", .purge "9",
    .enqueue "c" "add" ∅ "9", .claim "c" "9"]

def busy_desk : Desk Unit := (run step opened busy).getD opened

/-- A crash, a failure that is retried and acknowledged, a purge: every claim has its row. -/
theorem events_accounted_busy :
    (∀ row ∈ busy_desk.queue.rows, row.acked = true →
        row.status = .failed ∧ ∃ a ∈ busy, a.acks row.id = true) ∧
      (busy_desk.claims.map Claim.id).Nodup ∧
      ∀ c ∈ busy_desk.claims, ∃ row ∈ busy_desk.queue.rows, row.id = c.id ∧
        row.status = .processing ∧ row.attempts = c.attempts :=
  (events_accounted (show run step opened busy = some busy_desk from rfl)).2.2

/-! ## How often an event is claimed -/

/-- The event starts over: it is enqueued, or retried with effect. -/
def renews (event_id : Id) (d : Desk Val) : Act Val → Bool
  | .enqueue id _ _ _ => decide (id = event_id)
  | .retry id now => decide (id = event_id) && (d.queue.retry id now).1
  | _ => false

/-- A daemon starts and finds an event in progress whose attempts are spent. -/
def recovers_spent (d : Desk Val) : Act Val → Bool
  | .start _ => d.queue.rows.any fun r =>
      decide (r.status = .processing) && decide (MAX_ATTEMPTS ≤ r.attempts)
  | _ => false

/-- No row has more attempts than it may, and a queued one has some left. -/
def Bounded (q : EventQueue Val) : Prop :=
  ∀ row ∈ q.rows, row.attempts ≤ MAX_ATTEMPTS ∧
    (row.status = .queued → row.attempts < MAX_ATTEMPTS)

/-- The step that breaks the bound is the recovery of a row without attempts left. -/
theorem Move.bounded {a : Act Val} {row row' : EventRow Val} (h : Move a row row')
    (hrow : row.attempts ≤ MAX_ATTEMPTS ∧ (row.status = .queued → row.attempts < MAX_ATTEMPTS))
    (hspent : ∀ now, a = .start now → row.status = .processing → row.attempts < MAX_ATTEMPTS) :
    row'.attempts ≤ MAX_ATTEMPTS ∧ (row'.status = .queued → row'.attempts < MAX_ATTEMPTS) := by
  cases h with
  | same => exact hrow
  | recover now hstatus =>
    have hleft := hspent now rfl hstatus
    exact ⟨hleft.le, fun _ => hleft⟩
  | claim _ hstatus =>
    have hleft := hrow.2 hstatus
    exact ⟨hleft, fun h => by cases h⟩
  | complete => exact ⟨hrow.1, fun h => by cases h⟩
  | fail error now _ =>
    refine ⟨hrow.1, fun h => ?_⟩
    -- a failure is queued again while attempts remain
    by_contra hmany
    have hterminal : EventQueue.terminal row.attempts = true := decide_eq_true (not_lt.mp hmany)
    simp only [EventRow.settle_toProgress, hterminal, if_true] at h
    cases h
  | retry => exact ⟨Nat.zero_le _, fun _ => Nat.succ_pos _⟩
  | ack _ _ hstatus _ =>
    refine ⟨hrow.1, fun h => ?_⟩
    rw [EventRow.settle_toProgress] at h
    simp only [hstatus] at h
    cases h

/-- A step keeps attempts within the limit unless it takes back a row that has spent them. -/
theorem bounded_step {d d' : Desk Val} {a : Act Val} (hd : Sound d) (hbound : Bounded d.queue)
    (hspent : recovers_spent d a = false) (h : step d a = some d') : Bounded d'.queue := by
  intro row' hrow'
  rcases (moves_step hd h).comes row' hrow' with ⟨row, hrow, hmove⟩ | hbrings
  · refine hmove.bounded (hbound row hrow) ?_
    rintro now rfl hstatus
    simp only [recovers_spent, List.any_eq_false, Bool.and_eq_true, decide_eq_true_eq] at hspent
    exact not_le.mp fun hmany => hspent row hrow ⟨hstatus, hmany⟩
  · cases a with
    | enqueue event_id op args now =>
      obtain rfl : row' = _ := hbrings
      exact ⟨Nat.zero_le _, fun _ => Nat.succ_pos _⟩
    | _ => exact hbrings.elim

/-- A run of such steps keeps attempts within the limit. -/
theorem bounded_run {acts : List (Act Val)} {d : Desk Val} (h : run step opened acts = some d)
    (hspent : Each step (fun d a => recovers_spent d a = false) opened acts) : Bounded d.queue := by
  refine run_invariant_of_each (J := fun _ d => Bounded d.queue)
    (by simp [Bounded, opened, EventQueue.empty]) ?_ h hspent
  intro pre a t t' hpre hok ih hstep
  exact bounded_step (sound_run hpre) ih hok hstep

/-- An action that does not renew the event counts its claims. -/
theorem Move.attempts {d : Desk Val} {a : Act Val} {row row' : EventRow Val} (h : Move a row row')
    (hrow : row ∈ d.queue.rows) (hrenew : renews row.id d a = false) :
    row.attempts + (if a.claims row.id then 1 else 0) ≤ row'.attempts := by
  cases h with
  | same hclaims => simp [hclaims]
  | claim => simp [Act.claims]
  | retry now hstatus =>
    have hcount : 0 < rowcount (fun r : EventRow Val =>
        decide (r.id = row.id) && decide (r.status = .failed)) d.queue.rows :=
      rowcount_pos.mpr ⟨row, hrow, by simp [hstatus]⟩
    simp [renews, EventQueue.retry, hcount] at hrenew
  | _ => exact le_rfl

/-- The row that an event is claimed with. -/
theorem claimed_row {d d' : Desk Val} {a : Act Val} (h : step d a = some d') {event_id : Id}
    (ha : a.claims event_id = true) :
    ∃ row ∈ d.queue.rows, row.id = event_id ∧ row.status = .queued := by
  cases a with
  | claim id now =>
    obtain rfl : id = event_id := of_decide_eq_true ha
    simp only [step] at h
    split at h
    · obtain ⟨row, hlookup, -⟩ := Option.map_eq_some_iff.mp h
      exact ⟨row, claimable hlookup⟩
    · cases h
  | _ => cases ha

/-- What the claims so far say about the row: it has counted them all. -/
def Counted (event_id : Id) (n : ℕ) (q : EventQueue Val) : Prop :=
  n ≤ MAX_ATTEMPTS ∧ ∀ row ∈ q.rows, row.id = event_id → n ≤ row.attempts

/-- A step that does not let the event start over counts each claim of it. -/
theorem counted_step {d d' : Desk Val} {a : Act Val} (hd : Sound d) (hbound : Bounded d.queue)
    (h : step d a = some d') {event_id : Id} {n : ℕ} (hrenew : renews event_id d a = false)
    (hcount : Counted event_id n d.queue) :
    Counted event_id (n + if a.claims event_id then 1 else 0) d'.queue := by
  constructor
  · split
    · rename_i hclaims
      -- a queued row has an attempt left, and has counted the claims so far
      obtain ⟨row, hrow, hid, hqueued⟩ := claimed_row h hclaims
      have hleft := (hbound row hrow).2 hqueued
      have hcounted := hcount.2 row hrow hid
      omega
    · exact hcount.1
  · intro row' hrow' hid'
    rcases (moves_step hd h).comes row' hrow' with ⟨row, hrow, hmove⟩ | hbrings
    · have hid : row.id = event_id := hmove.id.symm.trans hid'
      have hattempts := hmove.attempts hrow (hid.symm ▸ hrenew)
      rw [hid] at hattempts
      have hcounted := hcount.2 row hrow hid
      omega
    · cases a with
      | enqueue id op args now =>
        obtain rfl : row' = _ := hbrings
        exact absurd (decide_eq_true hid') (Bool.not_eq_true _ ▸ hrenew)
      | _ => exact hbrings.elim

/-- **An event is claimed at most `MAX_ATTEMPTS` times** between two actions that let it
start over, in every run in which no restart recovers an event whose attempts are spent.
An event that has been claimed as often is not queued again. -/
theorem claims_bounded {pre mid : List (Act Val)} {t d : Desk Val}
    (hpre : run step opened pre = some t) (hmid : run step t mid = some d)
    (hspent : Each step (fun d a => recovers_spent d a = false) opened (pre ++ mid)) (event_id : Id)
    (hrenew : Each step (fun d a => renews event_id d a = false) t mid) :
    mid.countP (Act.claims event_id) ≤ MAX_ATTEMPTS ∧
      ∀ row ∈ d.queue.rows, row.attempts = MAX_ATTEMPTS → row.status ≠ .queued := by
  have hall : run step opened (pre ++ mid) = some d := by
    rw [run_append, hpre]
    exact hmid
  refine ⟨?_, fun row hrow hmany hqueued => ?_⟩
  · obtain ⟨hbefore, hafter⟩ := each_append hpre hspent
    have hinv := run_invariant_of_each
      (J := fun acts d => Sound d ∧ Bounded d.queue ∧
        Counted event_id (acts.countP (Act.claims event_id)) d.queue)
      ⟨sound_run hpre, bounded_run hpre hbefore, Nat.zero_le _, fun _ _ _ => Nat.zero_le _⟩ ?_ hmid
      (hafter.and hrenew)
    · exact hinv.2.2.1
    · rintro acts a d d' - ⟨hok, hkeep⟩ ⟨hd, hbound, hcount⟩ hstep
      refine ⟨sound_step hd hstep, bounded_step hd hbound hok hstep, ?_⟩
      rw [List.countP_append, List.countP_singleton]
      exact counted_step hd hbound hstep hkeep hcount
  · have hleft := (bounded_run hall hspent row hrow).2 hqueued
    omega

/-- An event that fails twice, and is retried with success after the third failure. -/
def tried : List (Act Unit) :=
  [.start "1", .enqueue "a" "add" ∅ "1", .claim "a" "2", .fail "a" "no answer" "3",
    .claim "a" "4", .crash, .start "5", .claim "a" "6", .fail "a" "no answer" "7"]

def tried_again : List (Act Unit) :=
  [.claim "a" "9", .crash, .start "9", .claim "a" "9", .complete "a" () "9"]

/-- After the retry the event is claimed twice, and settled the second time. -/
theorem claims_bounded_tried :
    tried_again.countP (Act.claims "a") ≤ MAX_ATTEMPTS ∧
      ∀ row ∈ ((run step opened (tried ++ .retry "a" "8" :: tried_again)).getD opened).queue.rows,
        row.attempts = MAX_ATTEMPTS → row.status ≠ .queued := by
  have hpre : run step opened (tried ++ [.retry "a" "8"]) = some _ := rfl
  exact claims_bounded hpre rfl (by decide +kernel) "a" (by decide +kernel)

/-- An event whose processing kills the daemon is claimed each time the daemon is back:
what fails gracefully is counted, what is recovered is not. -/
def fatal : List (Act Unit) :=
  [.start "1", .claim "a" "1", .crash, .start "2", .claim "a" "2", .crash,
    .start "3", .claim "a" "3", .crash, .start "4", .claim "a" "4"]

/-- Four claims, with no retry between them. -/
theorem claims_unbounded :
    ¬ ∀ (pre mid : List (Act Unit)) (t d : Desk Unit), run step opened pre = some t →
      run step t mid = some d → ∀ event_id,
      Each step (fun d a => renews event_id d a = false) t mid →
      mid.countP (Act.claims event_id) ≤ MAX_ATTEMPTS := by
  intro h
  have hmany := h [.enqueue "a" "add" ∅ "0"] fatal _ _ rfl rfl "a" (by decide +kernel)
  exact absurd hmany (by decide)

end Desk

end Memline
