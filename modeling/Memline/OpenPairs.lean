/-
Open suspicions over runs of the store.

A suspicion is about a memory that somebody may still find: its `old_id` is stored and,
unless it is the flag of an expiry, in the pool. A memory leaves the pool by being
superseded, expired or deleted, and whatever takes it out has to close its suspicions;
whatever opens one has to look first.

`Tidy` is that law with an exemption, for the moments between a payload write and the
statement that closes the rows it has made moot. Every operation is shown to lead from
no exemption to none, where it does: an immediate expiry closes expiry flags only, a
deletion of a whole scope closes nothing, a check does not look whether a memory has
expired, and an update may carry the fields that take a memory out of the pool.
-/
import Memline.Checks
import Memline.ExpiryFlags
import Memline.Triples
import Memline.UpdateRace

set_option autoImplicit false

namespace Memline

open Effect Effect.Prog SqlTable

/-! ## Deleting a whole scope -/

namespace Mem0

/-- The number of rows `vector_store.list` returns unless told otherwise. -/
def LIST_TOP_K : ℕ := 100

/-- The entity ids of a scope as filters; an empty id is none. -/
def scope_filters (user_id agent_id run_id : Option String) : Except Exn Filters := do
  let provided ← provided_ids user_id agent_id run_id
  if provided.isEmpty then
    .error
      (.value_error ("At least one filter is required to delete all memories. If you want to " ++
      "delete all memories, use the \x60reset()\x60 method."))
  else .ok (provided.map fun e => (e.1, .value e.2))

/-- `Memory.delete_all`. -/
def delete_all (host : Host) (user_id agent_id run_id : Option String) : Code Unit := do
  let filters ← lift_except (scope_filters user_id agent_id run_id)
  let memories ← Prog.perform (I := Api) (.vs_list filters LIST_TOP_K)
  memories.foldlM (fun _ m => delete host m.1) ()

end Mem0

/-- `delete --all`. -/
def cli.delete_all (host : Host) (user_id agent_id run_id : Option String) (force : Bool) :
    Code Unit := do
  refuse_if (force = false) (.other "--all requires --force.")
  cli.audited "delete_all" (Mem0.delete_all host user_id agent_id run_id)

/-! ## Steps -/

inductive PoolStep where
  | add (content : List Message) (user_id agent_id run_id : Option String) (metadata : Payload)
      (infer : Bool)
  | update (client : cli.Client) (memory_id : Id) (text : String) (extra : Payload)
  | delete (client : cli.Client) (memory_id : Id) (force : Bool)
  | delete_all (user_id agent_id run_id : Option String) (force : Bool)
  | invalidate (memory_id : Id) (by_ids : List Id) (reason actor_id session_id : Option String)
  | revive (memory_id : Id) (actor_id session_id : Option String)
  | set_ttl (memory_id : Id) (mode : TtlMode) (actor_id : Option String)
  | harvest (now : Option String) (limit : ℕ)
  | stale_check (new_id : Id) (session_id judge_model : Option String) (top_k : ℕ)
      (self_only : Bool)

namespace PoolStep

def code (host : Host) : PoolStep → Code Unit
  | add content user_id agent_id run_id metadata infer =>
    ReviewStep.discard (ops.dispatch host (.add content user_id agent_id run_id metadata infer))
  | update client memory_id text extra =>
    ReviewStep.discard (cli.update host client memory_id text extra)
  | delete client memory_id force => ReviewStep.discard (cli.delete host client memory_id force)
  | delete_all user_id agent_id run_id force => cli.delete_all host user_id agent_id run_id force
  | invalidate memory_id by_ids reason actor_id session_id =>
    ReviewStep.discard (ops.dispatch host (.invalidate memory_id by_ids reason actor_id session_id))
  | revive memory_id actor_id session_id =>
    ReviewStep.discard (ops.dispatch host (.revive memory_id actor_id session_id))
  | set_ttl memory_id mode actor_id =>
    ReviewStep.discard (ops.dispatch host (.set_ttl memory_id mode actor_id))
  | harvest now limit => ReviewStep.discard (harvest_expired host now limit)
  | stale_check new_id session_id judge_model top_k self_only =>
    ReviewStep.discard (run_stale_check new_id session_id judge_model top_k self_only)

/-- The world after a step, given which calls fail in it. -/
def run (host : Host) (fault : Call → World → Option Exn) (w : World) (s : PoolStep) : World :=
  ((s.code host).run (host.failing fault) w).2

end PoolStep

/-! ## The law -/

/-- Neither superseded nor stamped as expired. -/
def InPool (p : Payload) : Prop := superseded_ids p = [] ∧ (p.get TTL_EXPIRED_AT).truthy = false

/-- The memory a suspicion is about is stored, and in the pool unless this is an expiry flag. -/
def Rightful (w : World) (kind : String) (old_id : Id) : Prop :=
  ∃ p, w.payload old_id = some p ∧ (kind ≠ KIND_TTL_EXPIRY → InPool p)

/-- Every open suspicion that is not exempt is rightful. Memories have drawn ids, and
no open suspicion is about the ids that are still to be stored. -/
structure Tidy (host : Host) (exempt : Evidence → Prop) (ids : List Id) (w : World) : Prop where
  drawn : ∀ id p, w.payload id = some p → ∃ n < w.drawn, id = host.uuid4 n
  fresh : ∀ id ∈ ids, (∃ n < w.drawn, id = host.uuid4 n) ∧
    ∀ row ∈ w.pairs.rows, row.disposition = "open" → row.old_id ≠ id
  rightful : ∀ row ∈ w.pairs.rows, row.disposition = "open" → ¬ exempt row.toEvidence →
    Rightful w row.kind row.old_id

/-- No exemption. -/
def nobody : Evidence → Prop := fun _ => False

/-- Suspicions about one memory. -/
def about (x : Id) : Evidence → Prop := fun e => e.old_id = x

/-! ## One call -/

section calls

variable {host : Host} {fault : Call → World → Option Exn} {w : World}
  {exempt exempt' : Evidence → Prop} {ids : List Id}

theorem Tidy.mono (h : Tidy host exempt ids w) (hexempt : ∀ e, exempt e → exempt' e) :
    Tidy host exempt' ids w where
  drawn := h.drawn
  fresh := h.fresh
  rightful row hrow hopen hnot := h.rightful row hrow hopen fun he => hnot (hexempt _ he)

theorem Tidy.subset {ids' : List Id} (h : Tidy host exempt ids w) (hids : ids' ⊆ ids) :
    Tidy host exempt ids' w where
  drawn := h.drawn
  fresh := fun id hid => h.fresh id (hids hid)
  rightful := h.rightful

/-- What keeps the points, and opens nothing, keeps the law. -/
theorem Tidy.closed (h : Tidy host exempt ids w) {w' : World} (hpoints : w'.points = w.points)
    (hdrawn : w.drawn ≤ w'.drawn)
    (hrows : ∀ row ∈ w'.pairs.rows, row.disposition = "open" → row ∈ w.pairs.rows) :
    Tidy host exempt ids w' where
  drawn id p hp := by
    rw [payload_congr hpoints] at hp
    obtain ⟨n, hn, hid⟩ := h.drawn id p hp
    exact ⟨n, lt_of_lt_of_le hn hdrawn, hid⟩
  fresh id hid := by
    obtain ⟨⟨n, hn, hname⟩, hfree⟩ := h.fresh id hid
    refine ⟨⟨n, lt_of_lt_of_le hn hdrawn, hname⟩, fun row hrow hopen => ?_⟩
    exact hfree row (hrows row hrow hopen) hopen
  rightful row hrow hopen hnot := by
    obtain ⟨p, hp, hpool⟩ := h.rightful row (hrows row hrow hopen) hopen hnot
    exact ⟨p, (payload_congr hpoints _).trans hp, hpool⟩

theorem tidy_inert {c : Call} (hc : inert c) (h : Tidy host exempt ids w) :
    Tidy host exempt ids (host.failing fault c w).2 := by
  refine h.closed (inert_same hc).1 (host.failing_drawn fault c w) fun row hrow _ => ?_
  rwa [(inert_same hc).2] at hrow

/-- Programs of inert calls keep the store tidy. -/
theorem keeps_tidy {α : Type} {p : Code α} (hp : p.Uses inert) :
    p.Keeps (host.failing fault) (Tidy host exempt ids) :=
  hp.keeps fun _ _ hc hw => tidy_inert hc hw

/-- A row that is open after a settling was there before, and did not match. -/
theorem mem_settle_open {s : PairStore} {p : PairRow → Bool} {d : Disposal → Disposal}
    (hd : ∀ x, (d x).disposition ≠ "open") {row : PairRow} (hrow : row ∈ (s.settle p d).rows)
    (hopen : row.disposition = "open") : row ∈ s.rows ∧ p row = false := by
  obtain ⟨row₀, hrow₀, rfl⟩ := mem_update.mp hrow
  by_cases hp : p row₀ = true
  · rw [if_pos hp] at hopen
    exact absurd hopen (hd _)
  · rw [if_neg hp]
    exact ⟨hrow₀, by simpa using hp⟩

/-- Rows that leave their memory as they found it. -/
theorem Rightful.of_payload {w' : World} {kind : String} {old_id : Id} (h : Rightful w kind old_id)
    (hsame : w'.payload old_id = w.payload old_id) : Rightful w' kind old_id := by
  obtain ⟨p, hp, hpool⟩ := h
  exact ⟨p, hsame.trans hp, hpool⟩

/-- Storing a payload under the id of a known memory: its suspicions have to be rightful
for the new payload, unless they are exempt. -/
theorem Tidy.put (h : Tidy host exempt ids w) {id : Id} {p p' : Payload}
    (hp : w.payload id = some p)
    (hpool : ∀ row ∈ w.pairs.rows, row.disposition = "open" → row.old_id = id →
      ¬ exempt' row.toEvidence → row.kind ≠ KIND_TTL_EXPIRY → InPool p')
    (hexempt : ∀ e, exempt e → exempt' e) : Tidy host exempt' ids (w.put id p') where
  drawn x q hq := by
    by_cases hx : x = id
    · subst hx
      exact h.drawn x p hp
    · rw [w.payload_put_ne p' hx] at hq
      exact h.drawn x q hq
  fresh := h.fresh
  rightful row hrow hopen hnot := by
    by_cases hx : row.old_id = id
    · refine ⟨p', ?_, hpool row hrow hopen hx hnot⟩
      rw [hx]
      exact w.payload_put_self id p'
    · refine (h.rightful row hrow hopen fun he => hnot (hexempt _ he)).of_payload ?_
      exact w.payload_put_ne p' hx

variable (fault) in
/-- A patch keeps the law when what it leaves in the pool of a suspected memory does. -/
theorem tidy_set_payload (id : Id) (patch : Payload)
    (hpatch : ∀ p, w.payload id = some p → ∀ row ∈ w.pairs.rows, row.disposition = "open" →
      row.old_id = id → ¬ exempt' row.toEvidence → row.kind ≠ KIND_TTL_EXPIRY → InPool p →
      InPool (p.merge patch))
    (hexempt : ∀ e, exempt e → exempt' e) (h : Tidy host exempt ids w) :
    Tidy host exempt' ids (host.failing fault (.vs_set_payload id patch) w).2 := by
  rcases host.failing_cases fault (.vs_set_payload id patch) w with ⟨e, hfail⟩ | hok
  · rw [hfail]
    exact h.mono hexempt
  rw [hok]
  simp only [Host.answer]
  cases hp : w.payload id with
  | none => exact h.mono hexempt
  | some p =>
    refine h.put hp (fun row hrow hopen hx hnot hkind => ?_) hexempt
    obtain ⟨q, hq, hpool⟩ := h.rightful row hrow hopen fun he => hnot (hexempt _ he)
    have hold : w.payload row.old_id = some p := hx ▸ hp
    rw [hold] at hq
    injection hq with hq
    exact hpatch p hp row hrow hopen hx hnot hkind (hq ▸ hpool hkind)

/-- Storing memories under ids that were drawn for them. -/
theorem tidy_insert {points : List (Id × Payload)} (hpoints : ∀ p ∈ points, p.1 ∈ ids)
    (h : Tidy host exempt ids w) :
    Tidy host exempt ids (points.foldl (fun w p => w.put p.1 p.2) w) := by
  induction points generalizing w with
  | nil => exact h
  | cons point points ih =>
    refine ih (fun p hp => hpoints p (List.mem_cons_of_mem _ hp)) ?_
    obtain ⟨hdrawn, hfree⟩ := h.fresh point.1 (hpoints point List.mem_cons_self)
    refine ⟨fun x q hq => ?_, h.fresh, fun row hrow hopen hnot => ?_⟩
    · by_cases hx : x = point.1
      · subst hx
        exact hdrawn
      · rw [w.payload_put_ne point.2 hx] at hq
        exact h.drawn x q hq
    · exact (h.rightful row hrow hopen hnot).of_payload
        (w.payload_put_ne point.2 (hfree row hrow hopen))

/-- Removing a memory: the suspicions about it become exempt. -/
theorem tidy_remove (id : Id) (h : Tidy host nobody ids w) :
    Tidy host (about id) ids (w.remove id) where
  drawn x q hq := by
    by_cases hx : x = id
    · subst hx
      rw [w.payload_remove_self] at hq
      cases hq
    · rw [w.payload_remove_ne hx] at hq
      exact h.drawn x q hq
  fresh := h.fresh
  rightful row hrow hopen hnot :=
    (h.rightful row hrow hopen fun he => he.elim).of_payload (w.payload_remove_ne hnot)

/-- Closing what is open about a memory. -/
theorem tidy_close_for_old {id : Id} {d now : String} {by_ : Option String} (hd : d ≠ "open")
    (h : Tidy host (about id) ids w) : Tidy host nobody ids
      { w with pairs := (w.pairs.close_for_old id d by_ none now).2 } := by
  have hrows : ∀ row ∈ (w.pairs.close_for_old id d by_ none now).2.rows, row.disposition = "open" →
      row ∈ w.pairs.rows ∧ row.old_id ≠ id := by
    intro row hrow hopen
    obtain ⟨hmem, hfree⟩ := mem_settle_open (fun _ => hd) hrow hopen
    refine ⟨hmem, fun hid => ?_⟩
    simp [hid, PairRow.is_open, hopen] at hfree
  have hclosed : Tidy host (about id) ids
      { w with pairs := (w.pairs.close_for_old id d by_ none now).2 } :=
    h.closed rfl le_rfl fun row hrow hopen => (hrows row hrow hopen).1
  exact ⟨hclosed.drawn, hclosed.fresh, fun row hrow hopen _ =>
    hclosed.rightful row hrow hopen (hrows row hrow hopen).2⟩

/-- Closing keeps the law. -/
theorem tidy_closes (op : PairOp) (hop : match op with
      | .close_for_old _ d _ _ _ => d ≠ "open"
      | .close_for_updated_text .. | .close_for_deleted_memory .. => True
      | _ => False) (h : Tidy host exempt ids w) :
    Tidy host exempt ids { w with pairs := (op.apply host.text_hash w.pairs).2 } := by
  refine h.closed rfl le_rfl fun row hrow hopen => ?_
  cases op with
  | close_for_old id d by_ kind now => exact (mem_settle_open (fun _ => hop) hrow hopen).1
  | close_for_updated_text id text now => exact (mem_settle_open (fun _ => by simp) hrow hopen).1
  | close_for_deleted_memory id now =>
    obtain ⟨hrow', -⟩ := mem_settle_open (fun _ => by simp) hrow hopen
    exact (mem_settle_open (fun _ => by simp) hrow' hopen).1
  | _ => exact hop.elim

/-- Recording a judgment about a memory that may be suspected. -/
theorem record_judgment_tidy {j : Judgment} {points : AList fun _ : Id => Payload}
    (hj : ∀ w : World, w.points = points → Rightful w j.kind j.old_id) :
    (pair_store.record_judgment j).Keeps (host.failing fault) fun w =>
      Tidy host exempt [] w ∧ w.points = points := by
  rintro w ⟨hw, hpoints⟩
  rw [record_judgment_run]
  have hdrawn : Tidy host exempt [] { w with ticks := w.ticks + 1, drawn := w.drawn + 1 } :=
    hw.closed rfl (Nat.le_succ _) fun _ hrow _ => hrow
  rcases host.failing_cases fault (.pairs (.record_judgment j (host.uuid4 w.drawn)
    (host.now_iso w.ticks))) { w with ticks := w.ticks + 1, drawn := w.drawn + 1 } with ⟨e, h⟩ | h
  · rw [h]
    exact ⟨hdrawn, hpoints⟩
  rw [h]
  refine ⟨⟨hdrawn.drawn, fun id hid => by simp at hid, fun row hrow hopen hnot => ?_⟩, hpoints⟩
  rcases PairStore.mem_of_mem_insert hrow with hrow | rfl
  · exact hdrawn.rightful row hrow hopen hnot
  · exact hj w hpoints

end calls

/-! ## Pieces -/

/-- A payload in the pool stays there under a patch that is. -/
theorem InPool.merge {p patch : Payload} (h : InPool p) (hpatch : InPool patch) :
    InPool (p.merge patch) := by
  constructor
  · rcases superseded_ids_merge (p := p) hpatch.1 with hsame | hnone
    · rw [hsame, h.1]
    · exact hnone
  · rcases p.get_merge_cases patch TTL_EXPIRED_AT with hold | hnew
    · rw [hold, h.2]
    · rw [hnew, hpatch.2]

/-- Only the two fields of the pool count. -/
theorem InPool.of_gets {p q r : Payload} (hp : InPool p) (hq : InPool q)
    (h : ∀ key ∈ [SUPERSEDED_BY, TTL_EXPIRED_AT], r.get key = p.get key ∨ r.get key = q.get key) :
    InPool r := by
  constructor
  · rcases h SUPERSEDED_BY (by simp) with h | h
    · rw [superseded_ids_congr h, hp.1]
    · rw [superseded_ids_congr h, hq.1]
  · rcases h TTL_EXPIRED_AT (by simp) with h | h
    · rw [h, hp.2]
    · rw [h, hq.2]

/-- A patch of fields is in the pool when it neither supersedes nor stamps. -/
theorem inPool_ofList {entries : List (String × Value)}
    (h : ∀ e ∈ entries, e.1 = SUPERSEDED_BY ∨ e.1 = TTL_EXPIRED_AT → e.2 = .none) :
    InPool (.ofList entries) := by
  refine ⟨superseded_ids_ofList fun e he hkey => h e he (.inl hkey), ?_⟩
  rw [Payload.get_ofList_none fun e he hkey => h e he (.inr hkey)]
  rfl

section pieces

variable {host : Host} {fault : Call → World → Option Exn} {exempt : Evidence → Prop}
    {ids : List Id}
  {E : World → Prop}

/-- Reading, closing and recording leave the law as it is. -/
def mild : Call → Prop
  | .pairs (.close_for_old _ d _ _ _) => d ≠ "open"
  | .pairs (.close_for_updated_text ..) | .pairs (.close_for_deleted_memory ..) => True
  | c => inert c

theorem mild_of_inert (c : Call) (h : inert c) : mild c := by
  cases c with
  | pairs op =>
    cases op with
    | close_for_old _ _ _ _ _ => exact h.elim
    | close_for_updated_text _ _ _ | close_for_deleted_memory _ _ => trivial
    | _ => exact h
  | _ => exact h

theorem mild_tidy {α : Type} {p : Code α} (hp : p.Uses mild) :
    p.Keeps (host.failing fault) (Tidy host exempt ids) := by
  refine hp.keeps fun c w hc hw => ?_
  have hclosing : ∀ op, c = .pairs op → (match op with
      | .close_for_old _ d _ _ _ => d ≠ "open"
      | .close_for_updated_text .. | .close_for_deleted_memory .. => True
      | _ => False) → Tidy host exempt ids (host.failing fault c w).2 := by
    rintro op rfl hop
    rcases host.failing_cases fault (.pairs op) w with ⟨e, h⟩ | h
    · rw [h]
      exact hw
    · rw [h]
      exact tidy_closes op hop hw
  cases c with
  | pairs op =>
    cases op with
    | close_for_old _ _ _ _ _ => exact hclosing _ rfl hc
    | close_for_updated_text _ _ _ => exact hclosing _ rfl trivial
    | close_for_deleted_memory _ _ => exact hclosing _ rfl trivial
    | _ => exact tidy_inert hc hw
  | _ => exact tidy_inert hc hw

theorem attempt_tidy {p : Code Unit} (hp : p.Uses mild) :
    Triple (host.failing fault) (Tidy host exempt ids) (attempt p)
      (fun _ => Tidy host exempt ids) E :=
  triple_attempt (triple_of_keeps (mild_tidy hp))

/-- Closing the pairs of a memory that has left the pool makes the store tidy again. -/
theorem close_for_old_triple (hfault : WritesSucceed fault) {id : Id} {d : String}
    {by_ : Option String} (hd : d ≠ "open") :
    Triple (host.failing fault) (Tidy host (about id) ids) (pair_store.close_for_old id d by_)
      (fun _ => Tidy host nobody ids) E := by
  refine triple_bind (now_iso_total _ fun w hw => hw.closed rfl le_rfl fun _ h _ => h) fun now => ?_
  refine triple_perform (fun w a w' hw heq => ?_) fun w e w' hw heq => ?_
  · rw [pairs_answer hfault (.close_for_old id d by_ none now) not_false] at heq
    cases heq
    exact tidy_close_for_old hd hw
  · rw [pairs_answer hfault (.close_for_old id d by_ none now) not_false] at heq
    cases heq

end pieces

/-! ## Operations -/

section operations

variable {host : Host} {fault : Call → World → Option Exn}

/-- Invalidation keeps the store tidy: it closes the pairs of the memory that it takes out. -/
theorem invalidate_tidy (hfault : WritesSucceed fault) (memory_id : Id) (by_ids : List Id)
    (reason actor_id session_id : Option String) :
    (invalidate memory_id by_ids reason actor_id session_id).Keeps (host.failing fault)
      (Tidy host nobody []) := by
  refine Triple.keeps ?_
  refine triple_bind (triple_of_keeps (keeps_tidy ((check_invalidate_looks_up _ _).mono
    fun c hc => inert_of_looks_up hc))) fun payload => ?_
  refine triple_bind (triple_of_keeps (keeps_tidy now_iso_inert)) fun now => ?_
  refine triple_bind (S := fun _ => Tidy host (about memory_id) []) (triple_perform
    (fun w a w' hw heq => ?_) fun w e w' hw heq => ?_) fun _ => ?_
  · have hend : Tidy host (about memory_id) [] (host.failing fault (.vs_set_payload memory_id
        (invalidate_patch (distinct_ids by_ids) now reason actor_id session_id)) w).2 :=
      tidy_set_payload fault _ _ (fun p _ row _ _ hx hnot =>
        absurd hx hnot) (fun _ he => he.elim) hw
    rwa [heq] at hend
  · rwa [set_payload_error heq]
  refine triple_bind (attempt_tidy (uses_perform trivial)) fun _ => ?_
  exact triple_bind (close_for_old_triple hfault (by decide)) fun closed =>
    triple_pure _ fun _ hw => hw

theorem revive_tidy (memory_id : Id) (actor_id session_id : Option String) :
    (revive memory_id actor_id session_id).Keeps (host.failing fault) (Tidy host nobody []) := by
  have hpatch : ∀ now, InPool (revive_patch now actor_id session_id) := by
    intro now
    refine inPool_ofList ?_
    simp [SUPERSEDED_BY, SUPERSEDED_AT, SUPERSEDED_REASON, TTL_EXPIRED_AT]
  have huses : (revive memory_id actor_id session_id).Uses fun c : Call => inert c ∨ ∃ now,
      c = .vs_set_payload memory_id (revive_patch now actor_id session_id) :=
    revive_uses (fun c hc => .inl hc) fun now => .inr ⟨now, rfl⟩
  refine huses.keeps ?_
  rintro c w (hc | ⟨now, rfl⟩) hw
  · exact tidy_inert hc hw
  · exact tidy_set_payload fault _ _ (fun p _ _ _ _ _ _ _ hp =>
      hp.merge (hpatch now)) (fun _ he => he) hw

/-- Open suspicions about the memory are expiry flags. -/
def OnlyFlags (x : Id) (w : World) : Prop :=
  ∀ row ∈ w.pairs.rows, row.disposition = "open" → row.old_id = x → row.kind = KIND_TTL_EXPIRY

/-- What `set_ttl` may start from. -/
def TtlPre (host : Host) (memory_id : Id) (mode : TtlMode) (w : World) : Prop :=
  Tidy host nobody [] w ∧ (mode = .expire_now → OnlyFlags memory_id w)

/-- Inert calls before the write of a deadline change nothing of what it needs. -/
theorem inert_ttl_pre {α : Type} {memory_id : Id} {mode : TtlMode} {p : Code α}
    (hp : p.Uses inert) :
    Triple (host.failing fault) (TtlPre host memory_id mode) p
      (fun _ => TtlPre host memory_id mode) (Tidy host nobody []) := by
  have hkeeps : p.Keeps (host.failing fault) (TtlPre host memory_id mode) := by
    refine hp.keeps fun c w hc hw => ⟨tidy_inert hc hw.1, fun hmode row hrow => ?_⟩
    rw [(inert_same hc).2] at hrow
    exact hw.2 hmode row hrow
  exact (triple_of_keeps hkeeps).mono (fun _ h => h) (fun _ _ h => h) fun _ h => h.1

theorem set_ttl_tidy (memory_id : Id) (mode : TtlMode) (actor_id : Option String) :
    Triple (host.failing fault) (TtlPre host memory_id mode) (set_ttl memory_id mode actor_id)
      (fun _ => Tidy host nobody []) (Tidy host nobody []) := by
  have hpatch : ∀ now expires_at, mode ≠ .expire_now →
      InPool (ttl_patch mode now expires_at actor_id) := by
    intro now expires_at hmode
    cases mode with
    | clear => exact inPool_ofList (by simp [SUPERSEDED_BY, TTL_EXPIRES_AT, TTL_EXPIRED_AT])
    | expire_now => exact absurd rfl hmode
    | deadline _ _ => exact inPool_ofList (by simp [SUPERSEDED_BY, TTL_EXPIRES_AT, TTL_EXPIRED_AT])
  refine triple_bind (inert_ttl_pre (point_payload_inert memory_id)) fun found => ?_
  refine triple_bind (inert_ttl_pre (expect_uses _ _)) fun payload => ?_
  refine triple_bind (inert_ttl_pre now_iso_inert) fun now => ?_
  refine triple_bind (inert_ttl_pre (ttl_deadline_inert mode)) fun expires_at => ?_
  refine triple_bind (S := fun _ => Tidy host nobody []) (triple_perform
    (fun w a w' hw heq => ?_) fun w e w' hw heq => ?_) fun _ => ?_
  · have hend : Tidy host nobody [] (host.failing fault (.vs_set_payload memory_id
        (ttl_patch mode now expires_at actor_id)) w).2 := by
      refine tidy_set_payload fault _ _ (fun p _ row hrow hopen hx _ hkind hp => ?_)
        (fun _ he => he) hw.1
      -- an immediate expiry finds expiry flags only
      by_cases hmode : mode = .expire_now
      · exact absurd (hw.2 hmode row hrow hopen hx) hkind
      · exact hp.merge (hpatch now expires_at hmode)
    rwa [heq] at hend
  · rw [set_payload_error heq]
    exact hw.1
  refine triple_bind (attempt_tidy (uses_bind ?_ fun _ => uses_pure ())) fun _ => ?_
  · exact close_for_old_uses mild_of_inert fun now => (by decide : "ttl" ≠ "open")
  · exact triple_bind (attempt_tidy (uses_perform trivial)) fun _ => triple_pure _ fun _ hw => hw

/-- Suspicions about the memory that were judged against another text. -/
def outdated (host : Host) (x : Id) (text : String) : Evidence → Prop :=
  fun e => e.old_id = x ∧ e.old_text_hash ≠ host.text_hash text

/-- A point read of the memory fails once it has the text. -/
def UnreadWith (fault : Call → World → Option Exn) (x : Id) (text : String) : Prop :=
  ∃ w p, w.payload x = some p ∧ payload_text p = text ∧ fault (.vs_get x) w ≠ none

/-- What `update` may start from: where a suspicion stays open, the metadata does not take
the memory out of the pool. -/
def UpdatePre (host : Host) (fault : Call → World → Option Exn) (x : Id) (text : String)
    (metadata : Payload) (w : World) : Prop :=
  Tidy host nobody [] w ∧ ∀ row ∈ w.pairs.rows, row.disposition = "open" → row.old_id = x →
    row.kind ≠ KIND_TTL_EXPIRY →
    row.old_text_hash = host.text_hash text ∨ UnreadWith fault x text → InPool metadata

/-- The text is written, and what is excepted is still open. -/
def Rewritten (host : Host) (exc : Evidence → Prop) (x : Id) (text : String) (w : World) : Prop :=
  Tidy host exc [] w ∧ ∃ p, w.payload x = some p ∧ payload_text p = text

/-- An updated payload is in the pool when the old one and the metadata are. -/
theorem InPool.updated {p metadata : Payload} {text now : String} (hp : InPool p)
    (hmeta : InPool metadata) : InPool (Mem0.updated_payload host p text metadata now) := by
  refine hp.of_gets hmeta fun key hkey => Mem0.get_updated_payload ?_
  revert key
  decide

/-- What an update needs holds as long as points and pairs stay. -/
theorem UpdatePre.same {x : Id} {text : String} {metadata : Payload} {w w' : World}
    (h : UpdatePre host fault x text metadata w) (hpoints : w'.points = w.points)
    (hpairs : w'.pairs = w.pairs) (hdrawn : w.drawn ≤ w'.drawn) :
    UpdatePre host fault x text metadata w' := by
  refine ⟨h.1.closed hpoints hdrawn fun row hrow _ => hpairs ▸ hrow, fun row hrow => ?_⟩
  exact h.2 row (hpairs ▸ hrow)

/-- Inert calls behind the write of an update leave what is to be tidied. -/
theorem keeps_rewritten {α : Type} {exc : Evidence → Prop} {x : Id} {text : String} {p : Code α}
    (hp : p.Uses inert) : p.Keeps (host.failing fault) (Rewritten host exc x text) := by
  refine hp.keeps fun c w hc hw => ⟨tidy_inert hc hw.1, ?_⟩
  obtain ⟨p, hp, htext⟩ := hw.2
  exact ⟨p, (payload_congr (inert_same hc).1 x).trans hp, htext⟩

/-- What was judged against another text is excepted, or the metadata is harmless. -/
theorem mem0_update_tidy (hfault : WritesSucceed fault) (exc : Evidence → Prop) {memory_id : Id}
    {text : String} (hexc : ∀ e : Evidence, e.old_id = memory_id → ¬ exc e →
      e.old_text_hash = host.text_hash text ∨ UnreadWith fault memory_id text)
    (metadata : Payload) :
    Triple (host.failing fault) (UpdatePre host fault memory_id text metadata)
      (Mem0.update host memory_id text metadata) (fun _ => Rewritten host exc memory_id text)
      (Tidy host nobody []) := by
  have hE : ∀ w, UpdatePre host fault memory_id text metadata w → Tidy host nobody [] w :=
    fun w hw => hw.1
  refine triple_bind ((vs_get_triple (UpdatePre host fault memory_id text metadata) memory_id).mono
    (fun _ h => h) (fun _ _ h => h) fun w hw => hE w hw.1) fun found => ?_
  refine triple_bind ((expect_triple _ found _).mono (fun _ h => h) (fun _ _ h => h)
    fun w hw => hE w hw.1) fun existing => ?_
  refine triple_bind (now_iso_total _ fun w hw => ⟨⟨hw.1.1.same rfl rfl le_rfl, hw.1.2⟩, hw.2⟩)
    fun now => ?_
  refine triple_bind (S := fun _ => Rewritten host exc memory_id text) (write_triple hfault _
    (by trivial) fun w hw => ⟨⟨(), rfl⟩, ?_⟩) fun _ => ?_
  · obtain ⟨⟨⟨hw, hpool⟩, rfl⟩, hfound⟩ := hw
    refine ⟨hw.put hfound (fun row hrow hopen hx hnot hkind => ?_) fun _ he => he.elim,
      _, w.payload_put_self memory_id _, updated_payload_text existing text metadata now⟩
    obtain ⟨q, hq, hinpool⟩ := hw.rightful row hrow hopen fun he => he.elim
    rw [hx, hfound] at hq
    injection hq with hq
    subst hq
    exact (hinpool hkind).updated (hpool row hrow hopen hx hkind (hexc _ hx hnot))
  · refine write_triple hfault _ (by trivial) fun w hw => ⟨⟨(), rfl⟩, ?_, hw.2⟩
    exact hw.1.closed rfl le_rfl fun _ h _ => h

/-- Clearing a protection of a stored memory fails only where it cannot be read. -/
theorem clear_protection_tidy (hfault : WritesSucceed fault) {exc : Evidence → Prop}
    (memory_id : Id) (text : String) (actor_id : Option String) (cause : String) :
    Triple (host.failing fault) (Rewritten host exc memory_id text)
      (clear_displacement_protection memory_id actor_id cause)
      (fun _ => Rewritten host exc memory_id text)
      (fun w => Tidy host exc [] w ∧ UnreadWith fault memory_id text) := by
  refine triple_bind (point_payload_triple _ memory_id) fun found => ?_
  -- the memory is stored, so that nothing found means that the read has failed
  cases found with
  | none =>
    refine triple_bind (S := fun _ _ => False) (triple_throw (I := Api) _ fun w hw => ?_) fun _ =>
      Triple.of_fact (fun _ hw => hw) False.elim
    obtain ⟨⟨hw, p, hp, htext⟩, hnone⟩ := hw
    rcases hnone with hnone | ⟨-, hstruck⟩
    · rw [hp] at hnone
      cases hnone
    · exact ⟨hw, w, p, hp, htext, hstruck⟩
  | some p =>
  refine Triple.of_pre (P := Rewritten host exc memory_id text) ?_ fun w hw => hw.1
  simp only [expect, pure_eq, ret_bind]
  split
  · refine triple_bind (S := fun _ => Rewritten host exc memory_id text) (write_triple hfault _
      (by trivial) fun w hw => ?_) fun _ => ?_
    · obtain ⟨hw, q, hq, htext⟩ := hw
      have hanswer : host.answer (.vs_set_payload memory_id cleared_protection) w =
          (.ok (), w.put memory_id (q.merge cleared_protection)) := by
        simp only [Host.answer, hq]
      have hpatch : InPool cleared_protection := inPool_ofList fun e he _ => by
        obtain ⟨f, -, rfl⟩ := List.mem_map.mp he
        rfl
      have hdata : payload_text (q.merge cleared_protection) = payload_text q := by
        rw [payload_text, payload_text, Payload.get_merge_of_notMem (by decide)]
      rw [hanswer]
      refine ⟨⟨(), rfl⟩, hw.put hq (fun row hrow hopen hx hnot hkind => ?_) fun _ he => he,
        _, w.payload_put_self memory_id _, hdata.trans htext⟩
      obtain ⟨p', hp', hpool⟩ := hw.rightful row hrow hopen hnot
      rw [hx, hq] at hp'
      injection hp' with hp'
      subst hp'
      exact (hpool hkind).merge hpatch
    · refine triple_bind (now_iso_total _ fun w hw =>
        ⟨hw.1.closed rfl le_rfl fun _ h _ => h, hw.2⟩) fun now => ?_
      refine triple_bind (triple_tryCatch (triple_of_keeps (keeps_rewritten ?_)) fun _ =>
        triple_pure () fun _ hw => hw) fun _ => triple_pure _ fun _ hw => hw
      exact uses_perform trivial
  · exact triple_pure _ fun w hw => hw

/-- Closing what was judged against another text. -/
theorem close_outdated_triple (hfault : WritesSucceed fault) {x : Id} {text : String}
    {E : World → Prop} :
    Triple (host.failing fault) (Tidy host (outdated host x text) [])
      (pair_store.close_for_updated_text x text) (fun _ => Tidy host nobody []) E := by
  refine triple_bind (now_iso_total _ fun w hw => hw.closed rfl le_rfl fun _ h _ => h) fun now => ?_
  refine triple_perform (fun w a w' hw heq => ?_) fun w e w' hw heq => ?_
  · rw [pairs_answer hfault (.close_for_updated_text x text now) not_false] at heq
    cases heq
    have hclosed := tidy_closes (.close_for_updated_text x text now) trivial hw
    refine ⟨hclosed.drawn, hclosed.fresh,
      fun row hrow hopen _ => hclosed.rightful row hrow hopen ?_⟩
    rintro ⟨hx, hhash⟩
    obtain ⟨-, hfree⟩ := mem_settle_open (fun _ => by simp) hrow hopen
    simp [hx, hhash, PairRow.is_open, hopen] at hfree
  · rw [pairs_answer hfault (.close_for_updated_text x text now) not_false] at heq
    cases heq

/-- What `update` does once the text is written. -/
theorem clear_if_changed_tidy (hfault : WritesSucceed fault) {exc : Evidence → Prop}
    (text_changed : Bool) (memory_id : Id) (text : String) (actor_id : Value) :
    Triple (host.failing fault) (Rewritten host exc memory_id text)
      (ops.clear_if_changed text_changed memory_id actor_id) (fun _ =>
        Rewritten host exc memory_id text)
      (fun w => Tidy host exc [] w ∧ UnreadWith fault memory_id text) := by
  unfold ops.clear_if_changed
  split
  · exact triple_bind (clear_protection_tidy hfault memory_id text _ _) fun _ =>
      triple_pure _ fun _ hw => hw
  · exact triple_pure _ fun _ hw => hw

/-- An update keeps the store tidy: it closes the pairs about the old text. -/
theorem ops_update_tidy (hfault : WritesSucceed fault) (memory_id : Id) (text : String)
    (metadata : Payload) :
    Triple (host.failing fault) (UpdatePre host fault memory_id text metadata)
      (ops.update host memory_id text metadata) (fun _ => Tidy host nobody [])
      (Tidy host nobody []) := by
  refine triple_bind ((vs_get_triple (UpdatePre host fault memory_id text metadata) memory_id).mono
    (fun _ h => h) (fun _ _ h => h.1) fun w hw => hw.1.1) fun point => ?_
  by_cases hunread : UnreadWith fault memory_id text
  -- whatever is open may stay open, and the update may break off
  · refine triple_bind (mem0_update_tidy hfault nobody (fun _ _ _ => .inr hunread)
      metadata) fun _ => ?_
    refine triple_bind ((clear_if_changed_tidy hfault _ memory_id text _).mono (fun _ h => h)
      (fun _ _ h => h.1) fun _ h => h.1) fun cleared => ?_
    exact triple_bind (attempt_tidy (uses_bind (close_for_updated_text_uses mild_of_inert
      fun _ => trivial) fun _ => uses_pure ())) fun _ => triple_pure _ fun _ hw => hw
  -- what was judged against another text is closed at the end
  · refine triple_bind (mem0_update_tidy hfault (outdated host memory_id text)
      (fun e hx hnot => .inl (by_contra fun hne => hnot ⟨hx, hne⟩)) metadata) fun _ => ?_
    refine triple_bind ((clear_if_changed_tidy hfault _ memory_id text _).mono (fun _ h => h)
      (fun _ _ h => h) fun _ h => absurd h.2 hunread) fun cleared => ?_
    exact triple_bind (S := fun _ => Tidy host nobody []) (triple_attempt (triple_bind
      ((close_outdated_triple hfault).of_pre fun w hw => hw.1) fun _ =>
        triple_pure () fun _ hw => hw)) fun _ => triple_pure _ fun _ hw => hw

/-- The metadata that the command sends has the pool fields of the snapshot, unless the
caller gives them. -/
theorem updated_memory_metadata_pool {client : cli.Client} {id : Id} {p extra metadata : Payload}
    {es : List Ev} (hp : InPool p) (hextra : InPool extra)
    (h : Trace (cli.updated_memory_metadata client (Mem0.item_of id p) extra) es (.ret metadata)) :
    InPool metadata := by
  have hget : ∀ key ∈ [SUPERSEDED_BY, TTL_EXPIRED_AT],
      metadata.get key = p.get key ∨ metadata.get key = extra.get key := by
    intro key hkey
    have hfields : key ∈ lifecycle_fields := by
      revert key
      decide
    have hlookup := (updated_memory_metadata_ret h).2 key (lifecycle_not_command key hfields)
    rw [Mem0.get_item_metadata (lifecycle_not_core key hfields)] at hlookup
    rw [Payload.get, hlookup]
    cases hv : extra.lookup key with
    | none => exact .inl rfl
    | some v => exact .inr (by rw [Payload.get, hv]; rfl)
  exact hp.of_gets hextra hget

/-- Inert calls before the write of an update change nothing of what it needs. -/
theorem keeps_update_pre {α : Type} {x : Id} {text : String} {metadata p : Payload} {q : Code α}
    (hq : q.Uses inert) : Triple (host.failing fault)
      (fun w => UpdatePre host fault x text metadata w ∧ w.payload x = some p) q
      (fun _ w => UpdatePre host fault x text metadata w ∧
        w.payload x = some p) (Tidy host nobody []) := by
  have hkeeps : q.Keeps (host.failing fault)
      fun w => UpdatePre host fault x text metadata w ∧ w.payload x = some p := by
    refine hq.keeps fun c w hc hw => ⟨?_, ?_⟩
    · exact hw.1.same (inert_same hc).1 (inert_same hc).2 (host.failing_drawn fault c w)
    · rw [payload_congr (inert_same hc).1]
      exact hw.2
  exact (triple_of_keeps hkeeps).mono (fun _ h => h) (fun _ _ h => h) fun _ h => h.1.1

/-- An audited program keeps the store tidy when the program does. -/
theorem audited_tidy {α : Type} {P : World → Prop} {operation : String} {p : Code α}
    (hp : Triple (host.failing fault) P p (fun _ => Tidy host nobody []) (Tidy host nobody [])) :
    Triple (host.failing fault) P (cli.audited operation p) (fun _ => Tidy host nobody [])
      (Tidy host nobody []) := by
  refine triple_bind (S := fun _ => Tidy host nobody []) ?_ fun result => ?_
  · exact triple_tryCatch (triple_bind hp fun a => triple_pure _ fun _ hw => hw) fun e =>
      triple_pure _ fun _ hw => hw
  cases result with
  | error e =>
    exact triple_bind (attempt_tidy (uses_perform trivial)) fun _ =>
      triple_throw (I := Api) e fun _ hw => hw
  | ok a =>
    exact triple_bind (triple_of_keeps (keeps_tidy (uses_perform trivial))) fun _ =>
      triple_pure a fun _ hw => hw

/-- What `get` hands out is what is stored. -/
theorem cli_get_triple (P : World → Prop) (memory_id : Id) :
    Triple (host.failing fault) P (cli.get memory_id)
      (fun item w => ∃ p, (P w ∧ w.payload memory_id = some p) ∧ item = Mem0.item_of memory_id p)
      P := by
  have hlookup : Triple (host.failing fault) P (perform (I := Api) (.vs_get memory_id))
      (fun found w => P w ∧ found = w.payload memory_id) P :=
    (vs_get_triple P memory_id).mono (fun _ h => h) (fun _ _ h => h) fun w hw => hw.1
  refine triple_bind (S := fun found w => P w ∧ found = (w.payload memory_id).map
    (Mem0.item_of memory_id)) (triple_bind hlookup fun memory => ?_) fun found => ?_
  · exact triple_pure _ fun w hw => ⟨hw.1, congrArg _ hw.2⟩
  · refine (expect_triple _ found _).mono (fun _ h => h) (fun item w hw => ?_) fun w hw => hw.1
    obtain ⟨p, hp, hitem⟩ := Option.map_eq_some_iff.mp (hw.1.2.symm.trans hw.2)
    exact ⟨p, ⟨hw.1.1, hp⟩, hitem.symm⟩

theorem cli_update_tidy (hfault : WritesSucceed fault) (client : cli.Client) (memory_id : Id)
    (text : String) (extra : Payload) :
    Triple (host.failing fault) (UpdatePre host fault memory_id text extra)
      (cli.update host client memory_id text extra) (fun _ => Tidy host nobody [])
      (Tidy host nobody []) := by
  refine triple_bind ((cli_get_triple _ memory_id).mono (fun _ h => h) (fun _ _ h => h)
    fun w hw => hw.1) fun existing => ?_
  refine triple_exists fun p => Triple.of_fact (fun w hw => hw.2) ?_
  rintro rfl
  refine Triple.of_pre ?_ fun w hw => hw.1
  refine triple_bind (keeps_update_pre (refuse_if_uses _ _)) fun _ => ?_
  refine triple_bind (triple_of_ret (keeps_update_pre (cli.updated_memory_metadata_inert _ _ _))
    fun es metadata h hp hextra => updated_memory_metadata_pool hp hextra h) fun metadata => ?_
  refine audited_tidy ((ops_update_tidy hfault memory_id text metadata).of_pre ?_)
  rintro w ⟨⟨⟨hw, hpool⟩, hp⟩, hmetadata⟩
  refine ⟨hw, fun row hrow hopen hx hkind hhash => ?_⟩
  obtain ⟨q, hq, hinpool⟩ := hw.rightful row hrow hopen fun he => he.elim
  rw [hx, hp] at hq
  injection hq with hq
  exact hmetadata (hq ▸ hinpool hkind) (hpool row hrow hopen hx hkind hhash)

/-! ### Deleting -/

/-- What supersedes other memories is looked for without a scope, and never found. -/
theorem get_all_superseded (memory_id : Id) :
    Mem0.get_all [(SUPERSEDED_BY, .value memory_id)] 1 = throw Mem0.missing_scope := rfl

/-- Only a superseded memory is kept, and its suspicions are expiry flags. -/
theorem delete_guard_triple (memory_id : Id) {E : World → Prop} :
    Triple (host.failing fault) (Tidy host nobody []) (delete_guard memory_id)
      (fun guard w => Tidy host nobody [] w ∧ (guard.participates = true → OnlyFlags memory_id w))
      E := by
  refine triple_bind (point_payload_triple _ memory_id) fun found => ?_
  cases found with
  | none => exact triple_pure _ fun w hw => ⟨hw.1, fun h => by simp at h⟩
  | some p =>
    simp only
    split
    · rename_i hids
      refine triple_pure _ fun w hw => ⟨hw.1, fun _ row hrow hopen hx => ?_⟩
      by_contra hkind
      obtain ⟨q, hq, hpool⟩ := hw.1.rightful row hrow hopen fun he => he.elim
      rw [hx, stored_of_point_payload hw.2 rfl] at hq
      injection hq with hq
      exact hids (hq ▸ (hpool hkind).1)
    · rw [get_all_superseded]
      exact triple_pure _ fun w hw => ⟨hw.1, fun h => by simp at h⟩

/-- A deletion of the store leaves the pairs of the memory to be closed. -/
theorem mem0_delete_tidy (hfault : WritesSucceed fault) (memory_id : Id) :
    Triple (host.failing fault) (Tidy host nobody []) (Mem0.delete host memory_id)
      (fun _ => Tidy host (about memory_id) []) (Tidy host nobody []) := by
  refine triple_bind (triple_of_keeps (keeps_tidy (vs_get_inert memory_id))) fun found => ?_
  refine triple_bind (triple_of_keeps (keeps_tidy (expect_uses _ _))) fun existing => ?_
  refine triple_bind (triple_of_keeps (keeps_tidy now_iso_inert)) fun now => ?_
  refine triple_bind (S := fun _ => Tidy host (about memory_id) [])
    (write_triple hfault _ (by trivial)
    fun w hw => ⟨⟨(), rfl⟩, tidy_remove memory_id hw⟩) fun _ => ?_
  exact write_triple hfault _ (by trivial) fun w hw =>
    ⟨⟨(), rfl⟩, hw.closed rfl le_rfl fun _ h _ => h⟩

/-- A deletion leaves the pairs of the memory to be closed, unless it has expired it. -/
theorem ops_delete_tidy (hfault : WritesSucceed fault) (memory_id : Id) (actor_id : Option String) :
    Triple (host.failing fault) (Tidy host nobody []) (ops.delete host memory_id actor_id)
      (fun result => match result with
        | .downgraded_to_expiry _ _ => Tidy host nobody []
        | _ => Tidy host (about memory_id) []) (Tidy host nobody []) := by
  refine triple_bind (delete_guard_triple memory_id) fun guard => ?_
  split
  · rename_i hparticipates
    refine triple_bind ((set_ttl_tidy memory_id .expire_now actor_id).of_pre fun w hw =>
      ?_) fun result =>
      triple_pure _ fun _ hw => hw
    exact ⟨hw.1, fun _ => hw.2 hparticipates⟩
  · exact triple_bind ((mem0_delete_tidy hfault memory_id).of_pre fun w hw => hw.1) fun _ =>
      triple_pure _ fun _ hw => hw

/-- Closing the pairs of a deleted memory makes the store tidy again. -/
theorem close_deleted_triple (hfault : WritesSucceed fault) (memory_id : Id) {E : World → Prop} :
    Triple (host.failing fault) (Tidy host (about memory_id) [])
      (pair_store.close_for_deleted_memory memory_id) (fun _ => Tidy host nobody []) E := by
  refine triple_bind (now_iso_total _ fun w hw => hw.closed rfl le_rfl fun _ h _ => h) fun now => ?_
  refine triple_perform (fun w a w' hw heq => ?_) fun w e w' hw heq => ?_
  · rw [pairs_answer hfault (.close_for_deleted_memory memory_id now) not_false] at heq
    cases heq
    have hclosed := tidy_closes (.close_for_deleted_memory memory_id now) trivial hw
    refine ⟨hclosed.drawn, hclosed.fresh,
      fun row hrow hopen _ => hclosed.rightful row hrow hopen ?_⟩
    intro hx
    obtain ⟨hrow', -⟩ := mem_settle_open (fun _ => by simp) hrow hopen
    obtain ⟨-, hfree⟩ := mem_settle_open (fun _ => by simp) hrow' hopen
    have hx : row.old_id = memory_id := hx
    simp [hx, PairRow.is_open, hopen] at hfree
  · rw [pairs_answer hfault (.close_for_deleted_memory memory_id now) not_false] at heq
    cases heq

theorem cli_delete_tidy (hfault : WritesSucceed fault) (client : cli.Client) (memory_id : Id)
    (force : Bool) :
    Triple (host.failing fault) (Tidy host nobody []) (cli.delete host client memory_id force)
      (fun _ => Tidy host nobody []) (Tidy host nobody []) := by
  refine triple_bind (triple_of_keeps (keeps_tidy (mem0_get_inert memory_id))) fun _ => ?_
  refine triple_bind (triple_of_keeps (keeps_tidy (cli.confirm_destructive_uses _ _))) fun _ => ?_
  refine audited_tidy (triple_bind (ops_delete_tidy hfault memory_id _) fun result => ?_)
  refine triple_bind (S := fun _ => Tidy host nobody []) ?_ fun _ => triple_pure _ fun _ hw => hw
  have hclose : Triple (host.failing fault) (Tidy host (about memory_id) []) (attempt (do
      let _ ← pair_store.close_for_deleted_memory memory_id)) (fun _ => Tidy host nobody [])
      (Tidy host nobody []) :=
    triple_attempt (triple_bind (close_deleted_triple hfault memory_id) fun _ =>
      triple_pure () fun _ hw => hw)
  cases result with
  | downgraded_to_expiry reason ttl => exact triple_pure () fun _ hw => hw
  | _ => exact hclose

/-- What reads keeps the law, and whatever else is said about the pairs. -/
theorem inert_tidy_pairs {α : Type} (Q : PairStore → Prop) {p : Code α} (hp : p.Uses inert) :
    Triple (host.failing fault) (fun w => Tidy host nobody [] w ∧ Q w.pairs) p
      (fun _ w => Tidy host nobody [] w ∧ Q w.pairs) (Tidy host nobody []) := by
  have hkeeps : p.Keeps (host.failing fault) fun w => Tidy host nobody [] w ∧ Q w.pairs := by
    refine hp.keeps fun c w hc hw => ⟨tidy_inert hc hw.1, ?_⟩
    rw [(inert_same hc).2]
    exact hw.2
  exact (triple_of_keeps hkeeps).mono (fun _ h => h) (fun _ _ h => h) fun _ h => h.1

/-- Nothing suspects these memories. -/
def Clear (ids : List Id) (s : PairStore) : Prop :=
  ∀ row ∈ s.rows, row.disposition = "open" → row.old_id ∉ ids

/-- The memories of a scope that one deletion reaches. -/
def in_scope (host : Host) (filters : Filters) (w : World) : List (Id × Payload) :=
  ((host.scrolled w).filter fun p => host.matches_filters filters p.2).take Mem0.LIST_TOP_K

/-- What `delete --all` may start from: no memory that it reaches is suspected. -/
def ScopePre (host : Host) (user_id agent_id run_id : Option String) (w : World) : Prop :=
  Tidy host nobody [] w ∧ ∀ filters, Mem0.scope_filters user_id agent_id run_id = .ok filters →
    Clear ((in_scope host filters w).map Prod.fst) w.pairs

/-- Deleting a memory that nothing suspects. -/
theorem mem0_delete_clear (hfault : WritesSucceed fault) {ids : List Id} {memory_id : Id}
    (hid : memory_id ∈ ids) :
    Triple (host.failing fault) (fun w => Tidy host nobody [] w ∧ Clear ids w.pairs)
      (Mem0.delete host memory_id) (fun _ w => Tidy host nobody [] w ∧ Clear ids w.pairs)
      (Tidy host nobody []) := by
  refine triple_bind (inert_tidy_pairs (Clear ids) (vs_get_inert memory_id)) fun found => ?_
  refine triple_bind (inert_tidy_pairs (Clear ids) (expect_uses _ _)) fun existing => ?_
  refine triple_bind (inert_tidy_pairs (Clear ids) now_iso_inert) fun now => ?_
  refine triple_bind (S := fun _ w => Tidy host nobody [] w ∧ Clear ids w.pairs)
    (write_triple hfault _ (by trivial) fun w hw => ⟨⟨(), rfl⟩, ?_, hw.2⟩) fun _ => ?_
  · have hgone := tidy_remove memory_id hw.1
    refine ⟨hgone.drawn, hgone.fresh, fun row hrow hopen _ => hgone.rightful row hrow hopen ?_⟩
    rintro rfl
    exact hw.2 row hrow hopen hid
  · exact inert_tidy_pairs (Clear ids) (uses_perform trivial)

/-- The memories that are listed are the ones the scope reaches. -/
theorem list_scope_triple {filters : Filters} :
    Triple (host.failing fault)
      (fun w => Tidy host nobody [] w ∧ Clear ((in_scope host filters w).map Prod.fst) w.pairs)
      (perform (I := Api) (.vs_list filters Mem0.LIST_TOP_K))
      (fun memories w => Tidy host nobody [] w ∧ Clear (memories.map Prod.fst) w.pairs)
      (Tidy host nobody []) := by
  refine triple_perform (fun w a w' hw heq => ?_) fun w e w' hw heq => ?_
  · rcases host.failing_cases fault (.vs_list filters Mem0.LIST_TOP_K) w with ⟨e, h⟩ | h
    · rw [h] at heq
      cases heq
    · rw [h] at heq
      simp only [Host.answer] at heq
      split at heq
      · cases heq
        exact hw
      · cases heq
  · have hend : Tidy host nobody []
        (host.failing fault (.vs_list filters Mem0.LIST_TOP_K) w).2 := tidy_inert trivial hw.1
    rwa [heq] at hend

/-- Deleting a scope keeps the store tidy when no memory of it is suspected. -/
theorem delete_all_tidy (hfault : WritesSucceed fault) (user_id agent_id run_id : Option String)
    (force : Bool) :
    Triple (host.failing fault)
      (fun w => Tidy host nobody [] w ∧ (force = true → ScopePre host user_id agent_id run_id w))
      (cli.delete_all host user_id agent_id run_id force) (fun _ => Tidy host nobody [])
      (Tidy host nobody []) := by
  unfold cli.delete_all refuse_if
  cases force with
  | false => exact triple_throw (I := Api) _ fun w hw => hw.1
  | true =>
    rw [if_neg (by simp)]
    refine audited_tidy (Triple.of_pre (P := ScopePre host user_id agent_id run_id) ?_
      fun w hw => hw.2 rfl)
    unfold Mem0.delete_all
    cases hscope : Mem0.scope_filters user_id agent_id run_id with
    | error e => exact triple_throw (I := Api) e fun w hw => hw.1
    | ok filters =>
      simp only [lift_except, pure_eq, ret_bind]
      refine triple_bind (list_scope_triple.of_pre fun w hw => ⟨hw.1, hw.2 filters hscope⟩)
        fun memories => ?_
      refine (triple_foldlM (P := fun _ w => Tidy host nobody [] w ∧
        Clear (memories.map Prod.fst) w.pairs) (fun _ m hm => ?_) ()).mono
        (fun _ h => h) (fun _ _ h => h.1) fun _ h => h
      exact mem0_delete_clear hfault (List.mem_map_of_mem hm)

/-! ### Harvesting -/

/-- The law, with the items of a scan still stored. -/
def Scanned (host : Host) (items : List Item) (w : World) : Prop :=
  Tidy host nobody [] w ∧ ∀ item ∈ items, ∃ p, w.payload item.id = some p

/-- Taking an item closes what is open about it, and opens an expiry flag. -/
theorem harvested_tidy {now : String} {item : Item} {p : Payload} {w : World}
    (hp : w.payload item.id = some p) (h : Tidy host nobody [] w) :
    Tidy host nobody [] (harvested host now item p w) := by
  have hstamped : Tidy host (about item.id) [] (w.put item.id (p.merge (stamp now))) :=
    h.put hp (fun _ _ _ hx hnot => absurd hx hnot) fun _ he => he.elim
  have hclosed : Tidy host nobody [] { w.put item.id (p.merge (stamp now)) with
      pairs := (w.pairs.close_for_old item.id "expired" none none (host.now_iso w.ticks)).2 } :=
    tidy_close_for_old (by decide) hstamped
  refine ⟨fun x q hq => ?_, fun x hx => by simp at hx, fun row hrow hopen hnot => ?_⟩
  · obtain ⟨n, hn, hx⟩ := hclosed.drawn x q hq
    exact ⟨n, Nat.lt_succ_of_lt hn, hx⟩
  · rcases PairStore.mem_of_mem_insert hrow with hrow | rfl
    · exact hclosed.rightful row hrow hopen hnot
    · exact ⟨p.merge (stamp now), AList.lookup_insert _, fun hkind => absurd rfl hkind⟩

/-- A harvest of one item keeps the store tidy, and what was scanned. -/
theorem harvest_item_tidy (hfault : WritesSucceed fault) {now : String} {items : List Item}
    {item : Item} (hitem : item ∈ items) (n : ℕ) :
    Triple (host.failing fault) (Scanned host items) (harvest_item now n item)
      (fun _ => Scanned host items) (Tidy host nobody []) := by
  intro w hw
  by_cases htaken : Taken now item
  · obtain ⟨p, hp⟩ := hw.2 item hitem
    rw [harvest_item_takes hfault htaken hp]
    refine ⟨fun _ w' heq => ?_, fun _ _ heq => by cases heq⟩
    cases heq
    refine ⟨harvested_tidy hp hw.1, fun item' hitem' => ?_⟩
    by_cases hid : item'.id = item.id
    · exact ⟨p.merge (stamp now), by rw [hid]; exact AList.lookup_insert _⟩
    · obtain ⟨p', hp'⟩ := hw.2 item' hitem'
      exact ⟨p', (AList.lookup_insert_ne hid).trans hp'⟩
  · rw [harvest_item_skips htaken]
    refine ⟨fun _ w' heq => ?_, fun _ _ heq => by cases heq⟩
    cases heq
    exact hw

theorem harvest_expired_tidy (hfault : WritesSucceed fault) (now : Option String) (limit : ℕ) :
    Triple (host.failing fault) (Tidy host nobody []) (harvest_expired host now limit)
      (fun _ => Tidy host nobody []) (Tidy host nobody []) := by
  refine triple_bind (triple_of_keeps (keeps_tidy (given_now_inert now))) fun t => ?_
  refine triple_bind (S := fun scan w => Scanned host (match scan with
    | .ok items => items
    | .error _ => []) w) (fun w hw => ?_) fun scan => ?_
  · rcases scan_expired_run host fault w t limit with ⟨e, he⟩ | ⟨items, hitems, hlisted⟩
    · rw [he]
      refine ⟨fun _ w' heq => ?_, fun _ _ heq => by cases heq⟩
      cases heq
      exact ⟨hw, fun item hitem => by simp at hitem⟩
    · rw [hitems]
      refine ⟨fun _ w' heq => ?_, fun _ _ heq => by cases heq⟩
      cases heq
      refine ⟨hw, fun item hitem => ?_⟩
      obtain ⟨p, hp, -⟩ := hlisted.2 item hitem
      exact ⟨p, hp⟩
  cases scan with
  | error e => exact triple_pure _ fun w hw => hw.1
  | ok items =>
    refine triple_bind (triple_foldlM (P := fun _ => Scanned host items) (fun n item hitem =>
      harvest_item_tidy hfault hitem n) 0) fun _ => triple_pure _ fun w hw => hw.1

/-! ### Checking -/

/-- The search hands out stored memories with the successors they have. -/
def FindsStored (host : Host) : Prop :=
  ∀ w query top_k filters, ∀ item ∈ host.search w query top_k filters,
    ∃ p, w.payload item.id = some p ∧ item.metadata.get SUPERSEDED_BY = p.get SUPERSEDED_BY

/-- The hits of the search of a check, on these points. -/
def hits (host : Host) (points : AList fun _ : Id => Payload) (p : Payload)
    (top_k : ℕ) : Set (List Item) :=
  { items | ∃ w filters, w.points = points ∧
      Mem0.validate_filters (if (p.get "user_id").truthy then
        [("user_id", .value (p.get "user_id").toStr)] else []) = .ok filters ∧
      items = host.search w (Mem0.strip (payload_text p)) (max (top_k * 2) (top_k + 10)) filters }

/-- What a check may start from: neither the memory nor a neighbour that it would judge
carries the stamp of an expiry. -/
def CheckPre (host : Host) (new_id : Id) (top_k : ℕ) (self_only : Bool) (w : World) : Prop :=
  ∀ p, w.payload new_id = some p → superseded_ids p = [] → payload_text p ≠ "" →
    (p.get TTL_EXPIRED_AT).truthy = false ∧
    (self_only = false → ∀ items ∈ hits host w.points p top_k, ∀ now,
      ∀ c ∈ displacement_candidates new_id now top_k items [], ∀ q, w.payload c.id = some q →
        (q.get TTL_EXPIRED_AT).truthy = false)

/-- The law, on these points. -/
def TidyOn (host : Host) (points : AList fun _ : Id => Payload) (w : World) : Prop :=
  Tidy host nobody [] w ∧ w.points = points

/-- An inert call keeps the store tidy over given points. -/
theorem inert_tidyOn {points : AList fun _ : Id => Payload} (c : Call) (w : World) (hc : inert c)
    (hw : TidyOn host points w) : TidyOn host points (host.failing fault c w).2 :=
  ⟨tidy_inert hc hw.1, (inert_same hc).1.trans hw.2⟩

/-- Programs of inert calls keep the store tidy over given points. -/
theorem keeps_tidyOn {α : Type} {points : AList fun _ : Id => Payload} {p : Code α}
    (hp : p.Uses inert) : Triple (host.failing fault) (TidyOn host points) p
      (fun _ => TidyOn host points) (TidyOn host points) :=
  triple_of_keeps (keeps_of_inert inert_tidyOn hp)

/-- What an inert call answers, when it answers. -/
theorem inert_answer {points : AList fun _ : Id => Payload} (c : Call) (hc : inert c)
    {φ : c.Answer → Prop}
    (hφ : ∀ w, TidyOn host points w → ∀ a, (host.answer c w).1 = .ok a → φ a) :
    Triple (host.failing fault) (TidyOn host points) (perform (I := Api) c)
      (fun a w => TidyOn host points w ∧ φ a) (TidyOn host points) := by
  refine triple_perform (fun w a w' hw heq => ?_) fun w e w' hw heq => ?_
  · have hend : TidyOn host points (host.failing fault c w).2 := inert_tidyOn c w hc hw
    rcases host.failing_cases fault c w with ⟨e, h⟩ | h
    · rw [h] at heq
      cases heq
    · rw [heq] at hend
      refine ⟨hend, hφ w hw a ?_⟩
      rw [← h, heq]
  · have hend : TidyOn host points (host.failing fault c w).2 := inert_tidyOn c w hc hw
    rwa [heq] at hend

/-- The search of a check answers with hits. -/
theorem search_triple {points : AList fun _ : Id => Payload} (p : Payload) (top_k : ℕ) :
    Triple (host.failing fault) (TidyOn host points)
      (Mem0.search (payload_text p) (max (top_k * 2) (top_k + 10))
        (if (p.get "user_id").truthy then [("user_id", .value (p.get "user_id").toStr)] else []))
      (fun items w => TidyOn host points w ∧ items ∈ hits host points p top_k)
      (TidyOn host points) := by
  refine triple_bind (keeps_tidyOn (refuse_if_uses _ _)) fun _ => ?_
  refine triple_bind (lift_except_triple _ _) fun filters => ?_
  refine Triple.of_fact (fun w hw => hw.2) fun hfilters => Triple.of_pre ?_ fun w hw => hw.1
  refine triple_bind (keeps_tidyOn (refuse_if_uses _ _)) fun _ => ?_
  refine inert_answer (.search _ _ filters) trivial fun w hw items heq => ?_
  cases heq
  exact ⟨w, filters, hw.2, hfilters, rfl⟩

/-- What is said about something else than a candidate is not heard. -/
theorem judge_triple {points : AList fun _ : Id => Payload} (entry : JudgeEntry)
    (candidates : List JudgeEntry) :
    Triple (host.failing fault) (TidyOn host points) (perform (I := Api) (.judge entry candidates))
      (fun (judgments : List (Id × Verdict)) w => TidyOn host points w ∧
        ∀ v ∈ judgments, v.1 ∈ candidates.map JudgeEntry.id) (TidyOn host points) := by
  refine inert_answer (.judge entry candidates) trivial fun w hw judgments heq => ?_
  cases heq
  exact fun v hv => of_decide_eq_true (List.mem_filter.mp hv).2

/-- A check keeps the store tidy when it is about memories in the pool. -/
theorem run_stale_check_tidy (hsearch : FindsStored host) {w₀ : World} {new_id : Id} {top_k : ℕ}
    {self_only : Bool} (hpre : CheckPre host new_id top_k self_only w₀)
    (session_id judge_model : Option String) :
    Triple (host.failing fault) (TidyOn host w₀.points)
      (run_stale_check new_id session_id judge_model top_k self_only)
      (fun _ => TidyOn host w₀.points) (TidyOn host w₀.points) := by
  refine triple_bind (point_payload_triple _ new_id) fun found => ?_
  cases found with
  | none => exact triple_pure _ fun w hw => hw.1
  | some p =>
    refine Triple.of_fact (φ := w₀.payload new_id = some p) (fun w hw =>
      (payload_congr hw.1.2 new_id).symm.trans (stored_of_point_payload hw.2 rfl)) fun hfound => ?_
    refine Triple.of_pre (P := TidyOn host w₀.points) ?_ fun w hw => hw.1
    simp only
    split
    · exact triple_pure _ fun w hw => hw
    rename_i hactive
    split
    · exact triple_pure _ fun w hw => hw
    rename_i htext
    have hids : superseded_ids p = [] := by simpa [is_invalidated] using hactive
    obtain ⟨hstamp, hneighbours⟩ := hpre p hfound hids htext
    -- the suspicions of the self checks are about the memory itself
    have hself : ∀ j : Judgment, j.old_id = new_id →
        (pair_store.record_judgment j).Keeps (host.failing fault) (TidyOn host w₀.points) := by
      intro j hj
      refine record_judgment_tidy fun w hw => ⟨p, ?_, fun _ => ⟨hids, hstamp⟩⟩
      rw [hj, payload_congr hw]
      exact hfound
    refine triple_bind (triple_of_keeps (run_self_checks_keeps inert_tidyOn hself)) fun _ => ?_
    split
    · exact triple_pure _ fun w hw => hw
    rename_i hself_only
    refine triple_bind (search_triple p top_k) fun items => ?_
    refine Triple.of_fact (φ := items ∈ hits host w₀.points p top_k) (fun w hw =>
      hw.2) fun hitems => ?_
    refine Triple.of_pre (P := TidyOn host w₀.points) ?_ fun w hw => hw.1
    refine triple_bind (keeps_tidyOn now_iso_inert) fun now => ?_
    have hcandidate : ∀ c ∈ displacement_candidates new_id now top_k items [],
        ∀ w, w.points = w₀.points → Rightful w KIND_DISPLACEMENT c.id := by
      intro c hc w hw
      rcases mem_displacement_candidates hc with hnil | ⟨item, hitem, hid, -, -, hactive⟩
      · cases hnil
      have hstored : ∃ q, w₀.payload c.id = some q ∧ superseded_ids q = [] := by
        obtain ⟨w₁, filters, hpoints, -, rfl⟩ := hitems
        obtain ⟨q, hq, hsame⟩ := hsearch _ _ _ _ item hitem
        refine ⟨q, ?_, ?_⟩
        · rw [hid, ← payload_congr hpoints]
          exact hq
        · rw [← superseded_ids_congr hsame]
          by_contra hne
          rw [result_item_superseded, if_pos hne] at hactive
          exact hne hactive
      obtain ⟨q, hq, hids⟩ := hstored
      refine ⟨q, (payload_congr hw _).trans hq, fun _ => ⟨hids, ?_⟩⟩
      exact hneighbours (by simpa using hself_only) items hitems now c hc q hq
    refine triple_bind (keeps_tidyOn (uses_perform trivial)) fun already => ?_
    split
    · exact triple_pure _ fun w hw => hw
    refine triple_bind (judge_triple _ _) fun judgments => ?_
    refine Triple.of_fact (fun w hw => hw.2) fun hjudged => ?_
    refine Triple.of_pre (P := TidyOn host w₀.points) ?_ fun w hw => hw.1
    refine triple_bind (triple_foldlM (P := fun _ =>
      TidyOn host w₀.points) (fun opened v hv => ?_) 0)
      fun _ => triple_pure _ fun _ hw => hw
    refine triple_bind (keeps_tidyOn (uses_perform trivial)) fun model => ?_
    refine triple_bind (triple_of_keeps (record_judgment_tidy fun w hw => ?_)) fun _ =>
      triple_pure _ fun _ hw => hw
    obtain ⟨c, hc, hid⟩ := List.mem_map.mp (hjudged v hv)
    have hrightful := hcandidate c (List.mem_filter.mp hc).1 w hw
    rwa [hid] at hrightful

/-! ### Adding -/

/-- Programs of inert calls keep the store tidy but for new memories. -/
theorem inert_tidy {α : Type} {ids : List Id} {p : Code α} (hp : p.Uses inert) :
    Triple (host.failing fault) (Tidy host nobody ids) p (fun _ => Tidy host nobody ids)
      (Tidy host nobody []) :=
  (triple_of_keeps (keeps_tidy hp)).mono (fun _ h => h) (fun _ _ h => h) fun _ h =>
    h.subset (by simp)

/-- Nothing suspects a memory whose id was just drawn. -/
theorem draw_triple (huuid : Function.Injective host.uuid4) (ids : List Id) :
    Triple (host.failing fault) (Tidy host nobody ids) (perform (I := Api) .uuid4)
      (fun id => Tidy host nobody (id :: ids)) (Tidy host nobody []) := by
  refine triple_perform (fun w id w' hw heq => ?_) fun w e w' hw heq => by cases heq
  cases heq
  have hdrawn : Tidy host nobody ids { w with drawn := w.drawn + 1 } :=
    hw.closed rfl (Nat.le_succ _) fun _ h _ => h
  refine ⟨hdrawn.drawn, fun x hx => ?_, hdrawn.rightful⟩
  rcases List.mem_cons.mp hx with rfl | hx
  · refine ⟨⟨w.drawn, Nat.lt_succ_self _, rfl⟩, fun row hrow hopen hid => ?_⟩
    obtain ⟨p, hp, -⟩ := hw.rightful row hrow hopen fun he => he.elim
    obtain ⟨n, hn, hname⟩ := hw.drawn row.old_id p hp
    exact absurd (huuid (hname.symm.trans hid)) (Nat.ne_of_lt hn)
  · exact hdrawn.fresh x hx

/-- Inserting new memories keeps the store tidy but for them. -/
theorem insert_keeps_tidy {ids : List Id} {points : List (Id × Payload)} {w : World}
    (h : ∀ p ∈ points, p.1 ∈ ids) (hw : Tidy host nobody ids w) :
    Tidy host nobody ids (host.failing fault (.vs_insert points) w).2 := by
  rcases host.failing_cases fault (.vs_insert points) w with ⟨e, hfail⟩ | hok
  · rw [hfail]
    exact hw
  · rw [hok]
    exact tidy_insert h hw

/-- Creating a memory keeps the store tidy: its id is fresh, so no pair is about it. -/
theorem create_memory_tidy (huuid : Function.Injective host.uuid4) (data : String)
    (metadata : Payload) :
    Triple (host.failing fault) (Tidy host nobody []) (Mem0.create_memory host data metadata)
      (fun _ => Tidy host nobody []) (Tidy host nobody []) := by
  refine triple_bind (draw_triple huuid []) fun memory_id => ?_
  refine triple_bind (inert_tidy (stamp_created_inert _)) fun stamped => ?_
  have hinsert : (perform (I := Api) (.vs_insert [(memory_id, stamped.set "text_lemmatized"
      (.str (host.lemmatize data)))])).Keeps (host.failing fault)
        (Tidy host nobody [memory_id]) := by
    intro w hw
    rw [run_perform]
    refine insert_keeps_tidy (fun p hp => ?_) hw
    rw [List.mem_singleton.mp hp]
    exact List.mem_cons_self
  refine triple_bind ((triple_of_keeps hinsert).mono (fun _ h => h) (fun _ _ h => h)
    fun _ h => h.subset (by simp)) fun _ => ?_
  refine triple_bind (inert_tidy (uses_perform trivial)) fun _ => ?_
  exact triple_pure _ fun _ h => h.subset (by simp)

theorem add_message_tidy (huuid : Function.Injective host.uuid4) (metadata : Payload)
    (filters : Filters) (m : Message) :
    Triple (host.failing fault) (Tidy host nobody []) (Mem0.add_message host metadata filters m)
      (fun _ => Tidy host nobody []) (Tidy host nobody []) := by
  unfold Mem0.add_message
  split
  · split
    · exact triple_pure _ fun _ h => h
    refine triple_bind (inert_tidy (uses_tryCatch (uses_perform trivial) fun _ => uses_pure _))
      fun rows => ?_
    cases rows with
    | cons row rows => exact triple_pure _ fun _ h => h
    | nil =>
      refine triple_bind (inert_tidy (uses_tryCatch (uses_perform trivial) fun _ => uses_pure _))
        fun hits => ?_
      exact triple_bind (create_memory_tidy huuid _ _) fun _ => triple_pure _ fun _ h => h
  · exact triple_pure _ fun _ h => h

/-- The ids of the records made so far. -/
def record_ids (acc : List Mem0.Record × List String) : List Id := acc.1.map Mem0.Record.id

/-- Making a record draws a fresh id and keeps the store tidy but for it. -/
theorem record_of_tidy (huuid : Function.Injective host.uuid4) (metadata : Payload)
    (existing_hashes : List Value) (acc : List Mem0.Record × List String) (mem : Extracted) :
    Triple (host.failing fault) (Tidy host nobody (record_ids acc))
      (Mem0.record_of host metadata existing_hashes acc mem)
      (fun acc => Tidy host nobody (record_ids acc)) (Tidy host nobody []) := by
  unfold Mem0.record_of
  simp only
  split
  · exact triple_pure _ fun _ h => h
  refine triple_bind (draw_triple huuid (record_ids acc)) fun memory_id => ?_
  refine triple_bind (inert_tidy (stamp_created_inert _)) fun stamped => ?_
  refine triple_pure _ fun w hw => hw.subset fun id hid => ?_
  simp only [record_ids, List.map_append, List.mem_append, List.map_cons, List.map_nil] at hid
  rcases hid with hid | hid
  · exact List.mem_cons_of_mem _ hid
  · rw [List.mem_singleton.mp hid]
    exact List.mem_cons_self

/-- Storing records keeps the store tidy but for their ids. -/
theorem persist_tidy {ids : List Id} {records : List Mem0.Record} (h : ∀ r ∈ records, r.id ∈ ids) :
    (Mem0.persist records).Keeps (host.failing fault) (Tidy host nobody ids) := by
  have huses : (Mem0.persist records).Uses fun c : Call =>
      ∃ points, c = .vs_insert points ∧ ∀ p ∈ points, p.1 ∈ ids := by
    refine uses_tryCatch (uses_perform ⟨_, rfl, fun p hp => ?_⟩) fun _ => uses_forM fun r hr =>
      attempt_uses (uses_perform ⟨_, rfl, fun p hp => ?_⟩)
    · obtain ⟨r, hr, rfl⟩ := List.mem_map.mp hp
      exact h r hr
    · rw [List.mem_singleton.mp hp]
      exact h r hr
  refine huses.keeps ?_
  rintro c w ⟨points, rfl, hpoints⟩ hw
  exact insert_keeps_tidy hpoints hw

/-- Adding what was extracted keeps the store tidy. -/
theorem add_extracted_tidy (huuid : Function.Injective host.uuid4) (messages : List Message)
    (metadata : Payload) (filters : Filters) :
    Triple (host.failing fault) (Tidy host nobody [])
      (Mem0.add_extracted host messages metadata filters) (fun _ => Tidy host nobody [])
      (Tidy host nobody []) := by
  refine triple_bind (inert_tidy (uses_perform trivial)) fun existing_results => ?_
  refine triple_bind (inert_tidy (uses_perform trivial)) fun extracted => ?_
  refine triple_bind (triple_foldlM (P := fun acc => Tidy host nobody (record_ids acc))
    (fun acc mem _ => record_of_tidy huuid metadata _ acc mem) ([], [])) fun acc => ?_
  simp only
  split
  · exact triple_pure _ fun _ h => h.subset (by simp)
  refine triple_bind ((triple_of_keeps (persist_tidy fun r hr => List.mem_map_of_mem hr)).mono
    (fun _ h => h) (fun _ _ h => h) fun _ h => h.subset (by simp)) fun _ => ?_
  refine triple_bind (inert_tidy (persist_history_inert _)) fun _ => ?_
  exact triple_pure _ fun _ h => h.subset (by simp)

theorem add_tidy (huuid : Function.Injective host.uuid4) (content : List Message)
    (user_id agent_id run_id : Option String) (metadata : Payload) (infer : Bool) :
    Triple (host.failing fault) (Tidy host nobody [])
      (Mem0.add host content user_id agent_id run_id metadata infer) (fun _ => Tidy host nobody [])
      (Tidy host nobody []) := by
  refine triple_bind (inert_tidy (lift_except_uses _)) fun built => ?_
  obtain ⟨processed_metadata, effective_filters⟩ := built
  simp only
  split
  · exact add_extracted_tidy huuid content processed_metadata effective_filters
  · refine triple_foldlM (P := fun _ => Tidy host nobody []) (fun acc m _ => ?_) []
    exact triple_bind (add_message_tidy huuid processed_metadata effective_filters m) fun _ =>
      triple_pure _ fun _ h => h

end operations

/-! ## Runs -/

/-- What a step leaves to its caller. An immediate expiry needs a memory without other
suspicions than expiry flags, and `delete --all` a scope without any; a check must not
meet the stamp of an expiry, and an update that leaves a suspicion open, because it
confirms its text or because the memory cannot be read once it is rewritten, must not
set the fields of the pool. -/
def PoolStep.KeepsPool (host : Host) (fault : Call → World → Option Exn) (w : World) :
    PoolStep → Prop
  | .update _ memory_id text extra =>
    ∀ row ∈ w.pairs.rows, row.disposition = "open" → row.old_id = memory_id →
      row.kind ≠ KIND_TTL_EXPIRY →
      row.old_text_hash = host.text_hash text ∨ UnreadWith fault memory_id text → InPool extra
  | .delete_all user_id agent_id run_id force =>
    force = true → ∀ filters, Mem0.scope_filters user_id agent_id run_id = .ok filters →
      Clear ((in_scope host filters w).map Prod.fst) w.pairs
  | .set_ttl memory_id mode _ => mode = .expire_now → OnlyFlags memory_id w
  | .stale_check new_id _ _ top_k self_only => CheckPre host new_id top_k self_only w
  | _ => True

/-- A run of steps on one store, one after the other, in which no write fails. -/
inductive PoolRun (host : Host)
    (allow : (Call → World → Option Exn) → World → PoolStep → Prop) : World → Prop
  | start : PoolRun host allow .empty
  | step {w : World} (h : PoolRun host allow w) (s : PoolStep)
      (fault : Call → World → Option Exn) (hfault : WritesSucceed fault) (ha : allow fault w s) :
      PoolRun host allow (s.run host fault w)

/-- Whoever is suspected is stored, and in the pool unless an expiry is flagged. -/
def Lawful (w : World) : Prop :=
  ∀ row ∈ w.pairs.rows, row.disposition = "open" → Rightful w row.kind row.old_id

/-- A step whose result does not matter keeps the store tidy. -/
theorem discard_tidy {host : Host} {fault : Call → World → Option Exn} {α : Type} {p : Code α}
    {P : World → Prop}
    (hp : Triple (host.failing fault) P p (fun _ => Tidy host nobody []) (Tidy host nobody [])) :
    Triple (host.failing fault) P (ReviewStep.discard p) (fun _ => Tidy host nobody [])
      (Tidy host nobody []) :=
  triple_bind hp fun _ => triple_pure () fun _ hw => hw

/-- One step. -/
theorem pool_step {host : Host} (huuid : Function.Injective host.uuid4) (hsearch : FindsStored host)
    {fault : Call → World → Option Exn} (hfault : WritesSucceed fault) {w : World} (s : PoolStep)
    (hs : s.KeepsPool host fault w) (hw : Tidy host nobody [] w) :
    Tidy host nobody [] (s.run host fault w) := by
  have hdone : ∀ {α β : Type} {p : Code α} {f : α → Code β} {P : World → Prop},
      Triple (host.failing fault) P p (fun _ => Tidy host nobody []) (Tidy host nobody []) →
      (∀ a, ∃ b, f a = pure b) →
      Triple (host.failing fault) P (p >>=
        f) (fun _ => Tidy host nobody []) (Tidy host nobody []) := by
    intro α β p f P hp hf
    refine triple_bind hp fun a => ?_
    obtain ⟨b, hb⟩ := hf a
    rw [hb]
    exact triple_pure b fun _ hw => hw
  -- each operation keeps the law by its own triple, most of them on no condition
  cases s with
  | add content user_id agent_id run_id metadata infer =>
    exact (discard_tidy (hdone (add_tidy huuid content user_id agent_id run_id metadata infer)
      fun _ => ⟨_, rfl⟩)).run hw
  | update client memory_id text extra =>
    exact (discard_tidy (cli_update_tidy hfault client memory_id text extra)).run ⟨hw, hs⟩
  | delete client memory_id force =>
    exact (discard_tidy (cli_delete_tidy hfault client memory_id force)).run hw
  | delete_all user_id agent_id run_id force =>
    exact (delete_all_tidy hfault user_id agent_id run_id force).run
      ⟨hw, fun hforce => ⟨hw, hs hforce⟩⟩
  | invalidate memory_id by_ids reason actor_id session_id =>
    exact (discard_tidy (hdone (triple_of_keeps
      (invalidate_tidy hfault memory_id by_ids reason actor_id session_id)) fun _ => ⟨_, rfl⟩)).run
        hw
  | revive memory_id actor_id session_id =>
    exact (discard_tidy (hdone (triple_of_keeps (revive_tidy memory_id actor_id session_id))
      fun _ => ⟨_, rfl⟩)).run hw
  | set_ttl memory_id mode actor_id =>
    exact (discard_tidy (hdone (set_ttl_tidy memory_id mode actor_id) fun _ => ⟨_, rfl⟩)).run ⟨hw,
      hs⟩
  | harvest now limit =>
    exact (discard_tidy (harvest_expired_tidy hfault now limit)).run hw
  | stale_check new_id session_id judge_model top_k self_only =>
    exact (discard_tidy ((run_stale_check_tidy hsearch hs session_id judge_model).mono
      (fun _ h => h) (fun _ _ h => h.1) fun _ h => h.1)).run ⟨hw, rfl⟩

/-- **No suspicion outside the pool.** In every run whose steps meet their conditions, the
memory of every open suspicion is stored, and in the pool unless an expiry is flagged. -/
theorem open_pairs_lawful (host : Host) (huuid : Function.Injective host.uuid4)
    (hsearch : FindsStored host) {w : World} (h : PoolRun host (PoolStep.KeepsPool host) w) :
    Lawful w := by
  suffices htidy : Tidy host nobody [] w from fun row hrow hopen =>
    htidy.rightful row hrow hopen fun he => he.elim
  induction h with
  | start =>
    refine ⟨fun id p hp => ?_, fun id hid => by simp at hid, fun row hrow => ?_⟩
    · cases hp
    · simp [World.empty, PairStore.empty] at hrow
  | step _ s fault hfault hs ih => exact pool_step huuid hsearch hfault s hs ih

/-! ## Fixed runs -/

/-- A host whose judge finds that a text will not last. -/
def doubting : Host := { Host.plain with
  judge_self := fun _ kind _ _ =>
    ⟨if kind = KIND_NECESSITY then "EPHEMERAL"
      else if kind = KIND_CORRECTNESS then "CONSISTENT" else "CLEAN", some 1, none⟩ }

def storing : PoolStep :=
  .add [{ role := some "user", content := some "A" }] (some "workspace") none none ∅ false

def checking : PoolStep := .stale_check "m1" none none STALE_CHECK_TOP_K false

/-- A memory with an open suspicion. -/
def doubted : World :=
  [storing, checking].foldl (fun w s => s.run doubting (fun _ _ => none) w) .empty

/-- The search of the doubting store finds what is stored. -/
theorem doubting_finds : FindsStored doubting :=
  fun _ _ _ _ _ hitem => by simp [doubting, Host.plain] at hitem

/-- The memory gets another text, and cannot be read after that. -/
def retold : PoolStep := .update ⟨none, none, "manual", "manual", .none, 0, false, false⟩ "m1" "B" ∅

def unread_again : Call → World → Option Exn
  | .vs_get id, w =>
    if (w.payload id).any (payload_text · ≠ "A") then some (.other "timed out") else none
  | _, _ => none

/-- The memory is suspected, and in the pool, and stays there when it is reworded. -/
theorem open_pairs_lawful_doubted :
    (∃ row ∈ doubted.pairs.rows, row.disposition = "open") ∧ Lawful doubted ∧
      Lawful (retold.run doubting unread_again doubted) := by
  have hdoubted : PoolRun doubting (PoolStep.KeepsPool doubting) doubted := by
    refine (PoolRun.start.step storing (fun _ _ => none) (fun _ _ _ => rfl) trivial).step checking
      (fun _ _ => none) (fun _ _ _ => rfl) ?_
    intro p hp _ _
    have hstamp : ((storing.run doubting (fun _ _ => none) .empty).payload "m1").map
        (fun q => (q.get TTL_EXPIRED_AT).truthy) = some false := by decide
    rw [hp] at hstamp
    refine ⟨by simpa using hstamp, fun _ items hitems now c hc => ?_⟩
    obtain ⟨_, _, -, -, rfl⟩ := hitems
    cases hc
  have huuid : Function.Injective doubting.uuid4 := tally_injective "m"
  have hwritten : WritesSucceed unread_again := by
    intro c hc w
    cases c with
    | vs_get id => exact hc.elim
    | _ => rfl
  refine ⟨by decide +kernel, open_pairs_lawful doubting huuid doubting_finds hdoubted,
    open_pairs_lawful doubting huuid doubting_finds
      (hdoubted.step retold unread_again hwritten fun _ _ _ _ _ _ => ⟨rfl, rfl⟩)⟩

def emptying : PoolStep := .delete_all (some "workspace") none none true

/-- Nobody closes the suspicions about the memories of a deleted scope. -/
theorem scope_deleted : ∃ w, PoolRun doubting (fun _ _ _ => True) w ∧ ¬ Lawful w := by
  have hrun :
      PoolRun doubting (fun _ _ _ => True) (emptying.run doubting (fun _ _ => none) doubted) :=
    ((PoolRun.start.step storing (fun _ _ => none) (fun _ _ _ => rfl) trivial).step checking
      (fun _ _ => none) (fun _ _ _ => rfl) trivial).step emptying (fun _ _ => none)
      (fun _ _ _ => rfl) trivial
  have hdangling : ∃ row ∈ (emptying.run doubting (fun _ _ => none) doubted).pairs.rows,
      row.disposition = "open" ∧
        ((emptying.run doubting (fun _ _ => none) doubted).payload row.old_id).isNone = true := by
    decide +kernel
  refine ⟨_, hrun, fun hlawful => ?_⟩
  obtain ⟨row, hrow, hopen, hnone⟩ := hdangling
  obtain ⟨p, hp, -⟩ := hlawful row hrow hopen
  rw [hp] at hnone
  cases hnone

end Memline
