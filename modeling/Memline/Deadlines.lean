/-
Deadlines and moments kept as text.

A deadline is stored as the text of a moment, and whether it has passed is asked by comparing texts;
the tables of pairs, events and requests are ordered by such texts as well. Texts of moments are in
the order of the moments, so every such comparison is one of instants.
-/
import Memline.BridgeQueue
import Memline.EventQueue
import Memline.Lib.Instants
import Memline.Reversal

set_option autoImplicit false

namespace Memline

open Effect Effect.Prog Py

/-- A host whose clock shows moments: at each reading, and so many days after it. -/
def Host.timed (host : Host) (clock : ℕ → Datetime) (later : ℕ → ℚ → Datetime) : Host :=
  { host with
    now_iso := fun n => (clock n).isoformat
    now_after := fun n days => (later n days).isoformat }

/-- The deadlines that `set_ttl` computes itself. -/
def ComputedDeadline (clock : ℕ → Datetime) (later : ℕ → ℚ → Datetime) : TtlMode → Datetime → Prop
  | .expire_now, deadline => ∃ n, deadline = clock n
  | .deadline days none, deadline => ∃ n, deadline = later n (days.getD DEFAULT_TTL_DAYS)
  | _, _ => False

/-- The mode has `set_ttl` compute the deadline. -/
def Computes : TtlMode → Prop
  | .expire_now | .deadline _ none => True
  | _ => False

/-! ## Texts as deadlines -/

theorem truthy_isoformat (t : Datetime) : (Value.str t.isoformat).truthy = true := by
  simp [Value.truthy, Atom.truthy, t.isoformat_ne_empty]

/-- The string comparison of an expiry is one of instants. -/
theorem is_ttl_expired_of_deadline {p : Payload} {deadline : Datetime}
    (h : p.get TTL_EXPIRES_AT = .str deadline.isoformat) (now : Datetime) :
    is_ttl_expired p now.isoformat = decide (deadline.instant ≤ now.instant) := by
  have hle := @Datetime.isoformat_le_iff deadline now
  rw [is_ttl_expired, h]
  simp only [truthy_isoformat, Bool.true_and]
  exact decide_eq_decide.mpr hle

theorem is_displacement_protected_of_deadline {p : Payload} {deadline : Datetime}
    (h : p.get DISPLACEMENT_PROTECTED_UNTIL = .str deadline.isoformat) (now : Datetime) :
    is_displacement_protected p now.isoformat = decide (now.instant < deadline.instant) := by
  have hlt := @Datetime.isoformat_lt_iff now deadline
  rw [is_displacement_protected, h]
  simp only [truthy_isoformat, Bool.true_and]
  exact decide_eq_decide.mpr hlt

/-! ## What is stored -/

section stored

variable {host : Host} {fault : Call → World → Option Exn} {id : Id}

/-- Code that goes on with a payload goes on where one is stored. -/
theorem found_triple {α : Type} {R : α → World → Prop} {exc : Exn} {k : Payload → Code α}
    (hk : ∀ p, Triple (host.failing fault) (StoredAs id fun _ => True) (k p) R fun _ => True) :
    Triple (host.failing fault) (fun _ => True)
      (do let found ← point_payload id
          let payload ← expect found exc
          k payload) R fun _ => True := by
  refine triple_bind (point_payload_triple (fun _ => True) id) fun found => ?_
  cases found with
  | none =>
    refine triple_bind (S := fun _ _ => False) ?_ fun _ => ?_
    · exact triple_throw (I := Api) exc fun _ _ => trivial
    · exact Triple.of_fact (fun _ hw => hw) False.elim
  | some payload =>
    refine triple_bind (S := fun _ => StoredAs id fun _ => True) ?_ hk
    exact triple_pure payload fun w hw =>
      ⟨payload, stored_of_point_payload hw.2 rfl, trivial⟩

/-- Writing a patch leaves the field as the patch has it. -/
theorem write_field_triple {patch : Payload} {key : String} {v : Value}
    (h : patch.lookup key = some v) :
    Triple (host.failing fault) (StoredAs id fun _ =>
      True) (perform (I := Api) (.vs_set_payload id patch))
      (fun _ => StoredAs id fun p => p.get key = v) fun _ => True :=
  (patch_triple fun _ _ => Payload.get_merge_of_lookup h).mono (fun _ h => h) (fun _ _ h =>
    h) fun _ _ => trivial

variable {clock : ℕ → Datetime} {later : ℕ → ℚ → Datetime}

theorem stored_tick {φ : Payload → Prop} (w : World) (hw : StoredAs id φ w) :
    StoredAs id φ w.tick := hw

/-- The clock shows a moment. -/
theorem now_triple :
    Triple ((host.timed clock later).failing fault) (StoredAs id fun _ => True) now_iso
    (fun now w => (∃ n, now = (clock n).isoformat) ∧ StoredAs id (fun _ => True) w) fun _ =>
      True := by
  refine triple_perform (fun w a w' hw heq => ?_) fun _ _ _ _ _ => trivial
  cases heq
  exact ⟨⟨w.ticks, rfl⟩, stored_tick w hw⟩

/-- A deadline some days ahead is a printed moment. -/
theorem later_triple (days : ℚ) :
    Triple ((host.timed clock later).failing fault) (StoredAs id fun _ => True)
      (perform (I := Api) (.now_after days))
      (fun until_ w => (∃ n, until_ = (later n days).isoformat) ∧
        StoredAs id (fun _ => True) w) fun _ => True := by
  refine triple_perform (fun w a w' hw heq => ?_) fun _ _ _ _ _ => trivial
  cases heq
  exact ⟨⟨w.ticks, rfl⟩, stored_tick w hw⟩

/-- **What `set_ttl` schedules.** The deadline that is stored is a moment of the clock. -/
theorem set_ttl_triple {mode : TtlMode} (hmode : Computes mode) (actor_id : Option String) :
    Triple ((host.timed clock later).failing fault) (fun _ => True) (set_ttl id mode actor_id)
      (fun _ => StoredAs id fun p => ∃ deadline, ComputedDeadline clock later mode deadline ∧
        p.get TTL_EXPIRES_AT = .str deadline.isoformat) fun _ => True := by
  refine found_triple fun payload => ?_
  refine triple_bind now_triple fun now => ?_
  refine Triple.of_fact (fun w hw => hw.1) fun hnow => Triple.of_pre ?_ fun w hw => hw.2
  -- the deadline is a reading of the clock, or one so many days on
  have hdeadline : Triple ((host.timed clock later).failing fault) (StoredAs id fun _ =>
      True) (ttl_deadline mode)
      (fun expires_at w => (∃ deadline, ComputedDeadline clock later mode deadline ∧
        (ttl_patch mode now expires_at actor_id).lookup TTL_EXPIRES_AT =
          some (.str deadline.isoformat)) ∧
          StoredAs id (fun _ => True) w) fun _ => True := by
    obtain ⟨n, rfl⟩ := hnow
    cases mode with
    | clear => exact hmode.elim
    | expire_now => exact triple_pure "" fun w hw => ⟨⟨clock n, ⟨n, rfl⟩, rfl⟩, hw⟩
    | deadline days expires_at =>
      cases expires_at with
      | some _ => exact hmode.elim
      | none =>
        refine (later_triple _).mono (fun _ h => h) (fun until_ w hw => ⟨?_, hw.2⟩) fun _ h => h
        obtain ⟨m, rfl⟩ := hw.1
        exact ⟨later m (days.getD DEFAULT_TTL_DAYS), ⟨m, rfl⟩, rfl⟩
  refine triple_bind hdeadline fun expires_at => ?_
  refine Triple.of_fact (fun w hw => hw.1) fun hpatch => Triple.of_pre ?_ fun w hw => hw.2
  obtain ⟨deadline, hcomputed, hlookup⟩ := hpatch
  have hread : ∀ p : Payload, p.get TTL_EXPIRES_AT = .str deadline.isoformat →
      ∃ deadline, ComputedDeadline clock later mode deadline ∧
        p.get TTL_EXPIRES_AT = .str deadline.isoformat :=
    fun p hp => ⟨deadline, hcomputed, hp⟩
  refine triple_bind (write_field_triple hlookup) fun _ => ?_
  refine triple_bind (attempt_stored ?_) fun _ => ?_
  · exact uses_bind (close_for_old_uses (fun _ => quiet_of_inert) fun _ => rfl)
      fun _ => uses_pure ()
  refine triple_bind (note_history_stored payload _ now _) fun _ => ?_
  exact triple_pure _ fun w hw => hw.imp fun p hp => ⟨hp.1, hread p hp.2⟩

/-- Code that writes nothing leaves a stored memory stored. -/
theorem inert_stored {α : Type} {c : Code α} (hc : c.Uses inert) :
    Triple (host.failing fault) (StoredAs id fun _ => True) c (fun _ => StoredAs id fun _ =>
      True) fun _ => True := by
  refine (triple_of_keeps (hc.keeps fun call w hcall hw => ?_)).mono (fun _ h => h) (fun _ _ h =>
    h) fun _ _ => trivial
  exact stored_of_quiet (quiet_of_inert hcall) w hw

/-- The checks pass for a memory that is stored. -/
theorem check_protection_stored (days : ℚ) (reason : String) (actor_id session_id : Option String) :
    Triple (host.failing fault) (fun _ =>
      True) (check_protection id days reason actor_id session_id)
      (fun _ => StoredAs id fun _ => True) fun _ => True := by
  refine found_triple fun payload => inert_stored ?_
  refine uses_bind (refuse_if_uses _ _) fun _ => ?_
  refine uses_bind ?_ fun _ => ?_
  · unfold ttl_expired_now
    split
    · exact uses_bind now_iso_inert fun _ => uses_pure _
    · exact uses_pure _
  refine uses_bind (refuse_if_uses _ _) fun _ => ?_
  refine uses_bind (refuse_if_uses _ _) fun _ => ?_
  refine uses_bind (refuse_if_uses _ _) fun _ => ?_
  refine uses_bind (refuse_if_uses _ _) fun _ => ?_
  exact uses_bind (refuse_if_uses _ _) fun _ => uses_pure _

/-- **What a protection lasts until.** -/
theorem set_displacement_protection_triple (days : ℚ) (reason : String)
    (actor_id session_id : Option String) :
    Triple ((host.timed clock later).failing fault) (fun _ => True)
      (set_displacement_protection id days reason actor_id session_id)
      (fun _ => StoredAs id fun p => ∃ n, p.get DISPLACEMENT_PROTECTED_UNTIL =
        .str (later n days).isoformat)
      fun _ => True := by
  refine triple_bind (check_protection_stored days reason actor_id session_id) fun checked => ?_
  obtain ⟨payload, reason, actor_id, session_id⟩ := checked
  refine triple_bind (inert_stored (uses_perform trivial)) fun evidence => ?_
  refine triple_bind (inert_stored (refuse_if_uses _ _)) fun _ => ?_
  refine triple_bind (inert_stored now_iso_inert) fun now => ?_
  refine triple_bind (later_triple days) fun until_ => ?_
  refine Triple.of_fact (fun w hw => hw.1) fun hlater => Triple.of_pre ?_ fun w hw => hw.2
  obtain ⟨n, rfl⟩ := hlater
  have hlookup : (protection_patch (later n days).isoformat reason now actor_id session_id).lookup
      DISPLACEMENT_PROTECTED_UNTIL = some (.str (later n days).isoformat) := rfl
  refine triple_bind (write_field_triple hlookup) fun _ => ?_
  refine triple_bind (note_history_stored payload _ now _) fun _ => ?_
  exact triple_pure _ fun w hw => hw.imp fun p hp => ⟨hp.1, n, hp.2⟩

end stored

/-! ## Tables in time -/

/-- Rows whose stamps are texts of moments come from the newest to the oldest. -/
def NewestInTime {α : Type} (stamp : α → String) (rows : List α) : Prop :=
  rows.Pairwise fun a b => ∀ t u : Datetime, stamp a = t.isoformat → stamp b = u.isoformat →
    u.instant ≤ t.instant

/-- A row is no younger than any of some rows. -/
def OldestInTime {α : Type} (stamp : α → String) (row : α) (rows : List α) : Prop :=
  ∀ r ∈ rows, ∀ t u : Datetime, stamp row = t.isoformat → stamp r = u.isoformat →
    t.instant ≤ u.instant

/-- Rows by falling stamps are newest first in time. -/
theorem newest_in_time {α : Type} {stamp : α → String} {rows : List α}
    (h : rows.Pairwise fun a b => stamp b ≤ stamp a) : NewestInTime stamp rows := by
  refine h.imp fun hle t u ht hu => ?_
  rw [ht, hu] at hle
  exact Datetime.isoformat_le_iff.mp hle

/-- The row with the least stamp is the oldest in time. -/
theorem oldest_in_time {α : Type} {stamp : α → String} {row : α} {rows : List α}
    (h : ∀ r ∈ rows, stamp row ≤ stamp r) : OldestInTime stamp row rows := by
  intro r hr t u ht hu
  have hle := h r hr
  rw [ht, hu] at hle
  exact Datetime.isoformat_le_iff.mp hle

/-- The rows of a displacement are sorted by their stamps. -/
theorem displacement_rows_sorted (s : PairStore) (old_id : Id) (old_text_hash : String)
    (limit : ℕ) :
    (s.displacement_rows old_id old_text_hash limit).Pairwise fun a b =>
      b.judged_at ≤ a.judged_at := by
  have htotal : Std.Total fun a b : PairRow => b.judged_at ≤ a.judged_at :=
    ⟨fun a b => le_total b.judged_at a.judged_at⟩
  have htrans : IsTrans PairRow fun a b => b.judged_at ≤ a.judged_at :=
    ⟨fun _ _ _ h h' => le_trans h' h⟩
  exact (List.pairwise_insertionSort _ _).sublist (List.take_sublist limit _)

theorem list_sorted {Val : Type} (q : EventQueue Val) (order : EventQueue.NewestFirst Val)
    (status : Option EventStatus) (limit offset : ℕ) :
    (q.list order status limit offset).Pairwise fun a b => b.created_at ≤ a.created_at :=
  (order.sorted _).sublist ((List.take_sublist _ _).trans (List.drop_sublist _ _))

/-- The request that is handed out next is the oldest of those queued. -/
theorem next_queued_oldest {Req Val : Type} {q : BridgeQueue Req Val} {request : Id × Req}
    (h : q.next_queued = some request) :
    ∃ row ∈ q.rows, row.id = request.1 ∧ ∀ r ∈ q.rows, r.status = .queued →
      r.protocol_version = PROTOCOL_VERSION →
      row.created_at ≤ r.created_at := by
  rw [BridgeQueue.next_queued, Option.map_eq_some_iff] at h
  obtain ⟨row, hrow, rfl⟩ := h
  refine ⟨row, (List.mem_filter.mp (List.argmin_mem hrow)).1, rfl, fun r hr hstatus hversion => ?_⟩
  exact List.le_of_mem_argmin (List.mem_filter.mpr ⟨hr, by simp [hstatus, hversion]⟩) hrow

/-- **Comparing texts is comparing moments.** Of any two moments; at every deadline that `set_ttl`
or `set_displacement_protection` computes, on whatever clock; and in the tables that are ordered by
such texts. -/
theorem stamps_in_time (host : Host) (fault : Call → World → Option Exn) (clock : ℕ → Datetime)
    (later : ℕ → ℚ → Datetime) (Val Req : Type) :
    (∀ t u : Datetime, (t.isoformat ≤ u.isoformat ↔ t.instant ≤ u.instant) ∧
        (t.isoformat < u.isoformat ↔ t.instant < u.instant)) ∧
      (∀ id mode actor_id w w' r, Computes mode →
        (set_ttl id mode actor_id).run ((host.timed clock later).failing fault) w = (.ok r, w') →
        ∃ deadline p, ComputedDeadline clock later mode deadline ∧ w'.payload id = some p ∧
          ∀ now : Datetime, is_ttl_expired p now.isoformat =
            decide (deadline.instant ≤ now.instant)) ∧
      (∀ id days reason actor_id session_id w w' r,
        (set_displacement_protection id days reason actor_id session_id).run
            ((host.timed clock later).failing fault) w = (.ok r, w') →
        ∃ n p, w'.payload id = some p ∧
          ∀ now : Datetime, is_displacement_protected p now.isoformat
            = decide (now.instant < (later n days).instant)) ∧
      (∀ (s : PairStore) old_id old_text_hash limit,
        NewestInTime (fun r : PairRow =>
          r.judged_at) (s.displacement_rows old_id old_text_hash limit)) ∧
      (∀ (q : EventQueue Val) order status limit offset,
        NewestInTime (fun r : EventRow Val => r.created_at) (q.list order status limit offset)) ∧
      (∀ (q : EventQueue Val), ∀ row ∈ q.oldest,
        OldestInTime (fun r : EventRow Val => r.created_at) row
        (q.rows.filter fun r => decide (r.status = .queued))) ∧
      ∀ (q : BridgeQueue Req Val) request, q.next_queued = some request →
        ∃ row ∈ q.rows, row.id = request.1 ∧
        OldestInTime (fun r : BridgeRow Req Val => r.created_at) row
          (q.rows.filter fun r => decide (r.status = .queued) &&
            decide (r.protocol_version = PROTOCOL_VERSION)) := by
  -- every comparison of two stamps is one of the instants they stand for
  refine ⟨fun t u => ⟨Datetime.isoformat_le_iff, Datetime.isoformat_lt_iff⟩, ?_, ?_, ?_, ?_, ?_, ?_⟩
  · intro id mode actor_id w w' r hmode hrun
    obtain ⟨p, hp, deadline, hdeadline, hget⟩ :=
      (set_ttl_triple hmode actor_id w trivial).1 r w' hrun
    exact ⟨deadline, p, hdeadline, hp, is_ttl_expired_of_deadline hget⟩
  · intro id days reason actor_id session_id w w' r hrun
    obtain ⟨p, hp, n, hget⟩ :=
      (set_displacement_protection_triple days reason actor_id session_id w trivial).1 r w' hrun
    exact ⟨n, p, hp, is_displacement_protected_of_deadline hget⟩
  · exact fun s old_id old_text_hash limit =>
      newest_in_time (displacement_rows_sorted s old_id old_text_hash limit)
  · exact fun q order status limit offset =>
      newest_in_time (list_sorted q order status limit offset)
  · intro q row hrow
    refine oldest_in_time fun r hr => ?_
    obtain ⟨hmem, hqueued⟩ := List.mem_filter.mp hr
    exact (EventQueue.mem_oldest.mp hrow).2 r hmem (of_decide_eq_true hqueued)
  · intro q request hnext
    obtain ⟨row, hrow, hid, holdest⟩ := next_queued_oldest hnext
    refine ⟨row, hrow, hid, oldest_in_time fun r hr => ?_⟩
    obtain ⟨hmem, hboth⟩ := List.mem_filter.mp hr
    rw [Bool.and_eq_true, decide_eq_true_eq, decide_eq_true_eq] at hboth
    exact holdest r hmem hboth.1 hboth.2

end Memline
