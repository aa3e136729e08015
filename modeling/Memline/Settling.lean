/-
Several processes that settle the same pair.

A process loads the pair, sees that it is open, and later disposes of it.
`dispose` is a compare-and-set and answers whether it took effect, but the answer
is dropped: a process that came too late goes on with its mutation, and when that
fails it rolls back a disposition that is not its own. Processes stay out of each
other's way as long as none of them disposes of a pair that is no longer open
with a mutation still to come.
-/
import Memline.Commands
import Memline.Mutations
import Mathlib.Data.List.Induction

set_option autoImplicit false

namespace Memline

open Effect Effect.Prog SqlTable

variable {host : Host} {fault : Call → World → Option Exn} {pair_id : Id}

/-! ## Whose disposition is in effect -/

def accepted : Except Exn Bool → Bool
  | .ok b => b
  | .error _ => false

/-- A disposition of the pair that took effect. -/
def took_effect (pair_id : Id) : Ev → Bool
  | ⟨.pairs (.dispose id _ _ _), r⟩ => decide (id = pair_id) && accepted r
  | _ => false

/-- A reopening of the pair that took effect. -/
def reopened (pair_id : Id) : Ev → Bool
  | ⟨.pairs (.reopen id), r⟩ => decide (id = pair_id) && accepted r
  | _ => false

/-- The process whose disposition is in effect after a log. -/
def settler {ι : Type} (pair_id : Id) (log : List (ι × Ev)) : Option ι :=
  log.foldl (fun s ie =>
    if took_effect pair_id ie.2 then some ie.1
    else if reopened pair_id ie.2 then none else s) none

/-- The call disposes of the pair. -/
def disposes (pair_id : Id) (c : Call) : Prop :=
  ∃ d by_ now, c = .pairs (.dispose pair_id d by_ now)

/-- One disposition at a time takes effect; what a process does after its own call of
`dispose`, the mutation and the reopening, it does while its own disposition is in
effect; and only then it reopens the pair. -/
structure Orderly {ι : Type} [DecidableEq ι] (pair_id : Id) (log : List (ι × Ev)) : Prop where
  one_effect : ∀ l₁ i e l₂, log = l₁ ++ (i, e) :: l₂ → took_effect pair_id e = true →
    settler pair_id l₁ = none
  own_mutation : ∀ l₁ i e l₂, log = l₁ ++ (i, e) :: l₂ →
    (∃ e' ∈ Conf.own i l₁, disposes pair_id e'.1) → settler pair_id l₁ = some i
  own_reopening : ∀ l₁ i e l₂, log = l₁ ++ (i, e) :: l₂ → e.1 = .pairs (.reopen pair_id) →
    settler pair_id l₁ = some i

/-- There is a mutation after the disposition: always but for a dismissal and the
confirmation of an expiry. -/
def follows_up (disposition : String) (pair : PairRow) : Prop :=
  disposition ≠ "dismissed" ∧
    (disposition = "confirmed" → cli.kind_of pair ≠ KIND_TTL_EXPIRY)

instance (disposition : String) (pair : PairRow) : Decidable (follows_up disposition pair) := by
  unfold follows_up
  infer_instance

/-- If process `i` is about to dispose of the pair with a mutation to come, the pair
is still open. -/
def InTime {ι : Type} (pair_id : Id) (c : Conf Api ι cli.FollowUp World) (i : ι) : Prop :=
  match c.prog i with
  | .call (.pairs (.dispose id d _ _)) _ =>
    id = pair_id → ∀ row ∈ c.state.pairs.get pair_id, follows_up d row → row.disposition = "open"
  | _ => True

instance {ι : Type} (pair_id : Id) (c : Conf Api ι cli.FollowUp World) (i : ι) :
    Decidable (InTime pair_id c i) := by
  unfold InTime
  split
  · infer_instance
  · infer_instance

/-! ## One process -/

theorem not_disposes_of_apart {c : Call} (h : apart c) : ¬ disposes pair_id c := by
  rintro ⟨d, by_, now, rfl⟩
  exact h

/-- Calls that stay apart. -/
def Apart (es : List Ev) : Prop := ∀ e ∈ es, apart e.1

/-- Two stretches apart from the pair are apart from it. -/
theorem Apart.append {es fs : List Ev} (h : Apart es) (h' : Apart fs) : Apart (es ++ fs) := by
  intro e he
  rcases List.mem_append.mp he with he | he
  · exact h e he
  · exact h' e he

/-- The process has disposed of the pair, with a mutation to come, and has not
reopened it. -/
def Mutating (pair_id : Id) (es : List Ev) : Prop :=
  ∃ (pre mid : List Ev) (d now : String) (by_ : Option String) (b : Bool) (row : PairRow),
    es = pre ++ ⟨.pairs (.dispose pair_id d by_ now), .ok b⟩ :: mid ∧ Apart pre ∧
      ⟨.pairs (.get pair_id), .ok (some row)⟩ ∈ pre ∧ follows_up d row ∧ Apart mid

/-- How far a process has come with the pair. -/
inductive Stage (pair_id : Id) : List Ev → Prop where
  | before {es : List Ev} (h : Apart es) : Stage pair_id es
  | disposed {es : List Ev} {d now : String} {by_ : Option String} {r : Except Exn Bool}
      (h : Apart es) : Stage pair_id (es ++ [⟨.pairs (.dispose pair_id d by_ now), r⟩])
  | mutating {es : List Ev} (h : Mutating pair_id es) : Stage pair_id es
  | rolled_back {es : List Ev} {r : Except Exn Bool} (h : Mutating pair_id es) :
      Stage pair_id (es ++ [⟨.pairs (.reopen pair_id), r⟩])

/-- Code that stays apart first: what counts comes after it has returned. -/
theorem Stage.after {α β : Type} {p : Code α} {f : α → Code β} {pre es : List Ev} {q : Code β}
    (h : Trace (p >>= f) es q) (hpre : Apart pre) (hp : p.Uses apart)
    (hf : ∀ a es₂ es₃, Trace p es₂ (.ret a) → Apart (pre ++ es₂) → Trace (f a) es₃ q →
      Stage pair_id (pre ++ es₂ ++ es₃)) : Stage pair_id (pre ++ es) := by
  rcases h.bind_uses hp with ⟨hes, -⟩ | ⟨a, es₂, es₃, rfl, h₂, hes, h₃⟩
  · exact .before (hpre.append hes)
  · rw [← List.append_assoc]
    exact hf a es₂ es₃ h₂ (hpre.append hes) h₃

/-- The call of `dispose`, answered or not, and what comes after it. -/
theorem Stage.dispose {α : Type} {f : Bool → Code α} {pre es : List Ev} {q : Code α} {d : String}
    {by_ : Option String} (h : Trace (pair_store.dispose pair_id d by_ >>= f) es q)
    (hpre : Apart pre)
    (hf : ∀ pre' now b es', Apart pre' → (∀ e ∈ pre, e ∈ pre') → Trace (f b) es' q →
      Stage pair_id (pre' ++ ⟨.pairs (.dispose pair_id d by_ now), .ok b⟩ :: es')) :
    Stage pair_id (pre ++ es) := by
  have hassoc : (pair_store.dispose pair_id d by_ >>= f) =
      now_iso >>= fun now => perform (I := Api) (.pairs (.dispose pair_id d by_ now)) >>= f :=
    bind_assoc now_iso _ f
  rw [hassoc] at h
  refine Stage.after h hpre (now_iso_inert.mono apart_of_inert) fun now es₂ es₃ _ hpre' h => ?_
  rcases h.perform_bind with ⟨rfl, -⟩ | ⟨e, rfl, -⟩ | ⟨b, es', rfl, hrest⟩
  · rw [List.append_nil]
    exact .before hpre'
  · exact .disposed hpre'
  · exact hf _ now b es' hpre' (fun e he => List.mem_append_left _ he) hrest

/-- **Disposing with rollback.** After the call of `dispose`, and only when there is
a mutation to run, the mutation, and the reopening when that raises. -/
theorem Stage.dispose_with_rollback {α : Type} {mutate : Code α} {pre es : List Ev} {q : Code α}
    {d actor : String} {row : PairRow}
    (h : Trace (cli.dispose_with_rollback pair_id d actor mutate) es q) (hpre : Apart pre)
    (hload : ⟨.pairs (.get pair_id), .ok (some row)⟩ ∈ pre) (hm : mutate.Uses apart)
    (hd : follows_up d row ∨ mutate.Returned) : Stage pair_id (pre ++ es) := by
  unfold cli.dispose_with_rollback at h
  refine Stage.dispose h hpre fun pre' now b es' hpre' hmem h => ?_
  have hload' := hmem _ hload
  rcases hd with hd | hret
  · rcases h.tryCatch_inv with ⟨p', hp', -⟩ | ⟨e, es₁, es₂, rfl, hmut, hcatch⟩
    · exact .mutating ⟨pre', es', d, now, _, b, row, rfl, hpre', hload', hd, (hp'.uses hm).1⟩
    · have hmut : Mutating pair_id
          (pre' ++ ⟨.pairs (.dispose pair_id d (some actor) now), .ok b⟩ :: es₁) :=
        ⟨pre', es₁, d, now, _, b, row, rfl, hpre', hload', hd, (hmut.uses hm).1⟩
      unfold pair_store.reopen at hcatch
      rcases hcatch.perform_bind with ⟨rfl, -⟩ | ⟨e', rfl, -⟩ | ⟨b', es₃, rfl, hraise⟩
      · rw [List.append_nil]
        exact .mutating hmut
      · have hlast := Stage.rolled_back (r := .error e') hmut
        rw [List.append_assoc] at hlast
        exact hlast
      · obtain ⟨rfl, -⟩ := hraise.of_done trivial
        have hlast := Stage.rolled_back (r := .ok b') hmut
        rw [List.append_assoc] at hlast
        exact hlast
  · -- nothing to run: the disposition was the last call
    cases mutate with
    | ret a =>
      obtain ⟨rfl, -⟩ := h.of_done trivial
      exact .disposed hpre'
    | _ => exact hret.elim

/-- Loading an open pair is one call, which has found it. -/
theorem load_open_pair_ret {es : List Ev} {row : PairRow}
    (h : Trace (cli.load_open_pair pair_id) es (.ret row)) :
    es = [⟨.pairs (.get pair_id), .ok (some row)⟩] := by
  unfold cli.load_open_pair pair_store.get at h
  obtain ⟨found, es₁, es₂, rfl, h₁, k₁⟩ := h.bind_ret
  obtain rfl := Trace.perform_ret h₁
  obtain ⟨pair, es₃, es₄, rfl, h₂, k₂⟩ := k₁.bind_ret
  obtain ⟨rfl, rfl⟩ := expect_ret h₂
  obtain ⟨u, es₅, es₆, rfl, h₃, k₃⟩ := k₂.bind_ret
  obtain ⟨rfl, -⟩ := refuse_if_ret h₃
  obtain ⟨rfl, rfl⟩ := k₃.ret_ret
  rfl

/-- **One command.** -/
theorem Stage.run {client : cli.Client} {cmd : cli.Stale} {es : List Ev} {q : Code cli.FollowUp}
    (h : Trace (cmd.run host client pair_id) es q) : Stage pair_id es := by
  have hload : (cli.load_open_pair pair_id).Uses apart :=
    (cli.load_open_pair_inert pair_id).mono apart_of_inert
  have hnil : Apart [] := by simp [Apart]
  have hauth : ∀ pair force action,
      (cli.require_disposition_authority client pair force action).Uses apart :=
    fun pair force action => cli.require_disposition_authority_uses client pair force action
  -- every command is checks first and its settling last; nothing before that touches the
  -- pair
  cases cmd with
  | confirm force =>
    refine Stage.after h hnil hload fun pair es₂ es hpair hpre h => ?_
    obtain rfl := load_open_pair_ret hpair
    refine Stage.after h hpre (refuse_if_uses _ _) fun _ es₂ es _ hpre h => ?_
    refine Stage.after h hpre (hauth _ _ _) fun _ es₃ es _ hpre h => ?_
    refine Stage.dispose_with_rollback h hpre
      (by simp : (⟨.pairs (.get pair_id), .ok (some pair)⟩ : Ev) ∈ _)
      (cli.confirm_mutation_uses apart_of_inert (fun _ => trivial) fun _ _ _ _ => trivial) ?_
    by_cases hkind : cli.kind_of pair = KIND_TTL_EXPIRY
    · refine .inr ?_
      rw [cli.confirm_mutation, if_pos hkind]
      trivial
    · exact .inl ⟨by decide, fun _ => hkind⟩
  | ttl days =>
    refine Stage.after h hnil hload fun pair es₂ es hpair hpre h => ?_
    obtain rfl := load_open_pair_ret hpair
    refine Stage.after h hpre (refuse_if_uses _ _) fun _ es₂ es _ hpre h => ?_
    refine Stage.dispose_with_rollback h hpre
      (by simp : (⟨.pairs (.get pair_id), .ok (some pair)⟩ : Ev) ∈ _)
      (uses_bind ttl_apart fun _ => uses_pure _) (.inl ⟨by decide, fun h => ?_⟩)
    exact absurd h (by decide)
  | dismiss force =>
    refine Stage.after h hnil hload fun pair es₂ es _ hpre h => ?_
    refine Stage.after h hpre (hauth _ _ _) fun _ es₂ es _ hpre h => ?_
    refine Stage.dispose h hpre fun pre' now b es' hpre' _ h => ?_
    obtain ⟨rfl, -⟩ := h.of_done trivial
    exact .disposed hpre'
  | merge merged_text force =>
    refine Stage.after h hnil hload fun pair es₂ es hpair hpre h => ?_
    obtain rfl := load_open_pair_ret hpair
    refine Stage.after h hpre (refuse_if_uses _ _) fun _ es₂ es _ hpre h => ?_
    refine Stage.after h hpre (hauth _ _ _) fun _ es₃ es _ hpre h => ?_
    refine Stage.after h hpre ((cli.get_inert _).mono apart_of_inert) fun _ es₄ es _ hpre h => ?_
    refine Stage.after h hpre ((cli.updated_memory_metadata_inert _ _ _).mono apart_of_inert)
      fun _ es₅ es _ hpre h => ?_
    refine Stage.after h hpre (cli.audited_uses apart_of_inert ?_) fun _ es₆ es _ hpre h => ?_
    · exact update_uses apart_of_inert (fun _ _ => trivial) trivial fun _ => trivial
    · refine Stage.dispose_with_rollback h hpre
        (by simp : (⟨.pairs (.get pair_id), .ok (some pair)⟩ : Ev) ∈ _)
        (uses_bind invalidate_apart fun _ => uses_pure _) (.inl ⟨by decide, fun h => ?_⟩)
      exact absurd h (by decide)

/-! ## All processes -/

/-- Where an element of an extended list lies: at the end, or in the list. -/
theorem concat_eq_append_cons {α : Type} {l l₁ l₂ : List α} {x y : α}
    (h : l ++ [x] = l₁ ++ y :: l₂) :
    (l₂ = [] ∧ l₁ = l ∧ y = x) ∨ ∃ l₃, l₂ = l₃ ++ [x] ∧ l = l₁ ++ y :: l₃ := by
  rcases List.eq_nil_or_concat l₂ with rfl | ⟨l₃, z, rfl⟩
  · obtain ⟨rfl, hxy⟩ := List.append_inj' h rfl
    exact .inl ⟨rfl, rfl, (List.cons.inj hxy).1.symm⟩
  · rw [List.concat_eq_append, ← List.cons_append, ← List.append_assoc] at h
    obtain ⟨rfl, hxz⟩ := List.append_inj' h rfl
    refine .inr ⟨l₃, ?_, rfl⟩
    rw [List.concat_eq_append, hxz]

/-- The last event of a mutation is its settlement, or apart from the pair. -/
theorem Mutating.last {es : List Ev} {e : Ev} (h : Mutating pair_id (es ++ [e])) :
    (Mutating pair_id es ∧ apart e.1) ∨
      (Apart es ∧ ∃ d by_ now b row, e = ⟨.pairs (.dispose pair_id d by_ now), .ok b⟩ ∧
        ⟨.pairs (.get pair_id), .ok (some row)⟩ ∈ es ∧ follows_up d row) := by
  obtain ⟨pre, mid, d, now, by_, b, row, heq, hpre, hload, hd, hmid⟩ := h
  rcases concat_eq_append_cons heq with ⟨rfl, rfl, he⟩ | ⟨mid', rfl, rfl⟩
  · exact .inr ⟨hpre, d, by_, now, b, row, he.symm, hload, hd⟩
  · refine .inl ⟨⟨pre, mid', d, now, by_, b, row, rfl, hpre, hload, hd, fun e he => ?_⟩, ?_⟩
    · exact hmid e (List.mem_append_left _ he)
    · exact hmid e (by simp)

/-- What the last call of a process may be. -/
theorem Stage.last {es : List Ev} {e : Ev} (h : Stage pair_id (es ++ [e])) :
    (apart e.1 ∧ (Apart es ∨ Mutating pair_id es)) ∨ (disposes pair_id e.1 ∧ Apart es) ∨
      (e.1 = .pairs (.reopen pair_id) ∧ Mutating pair_id es) := by
  generalize hes : es ++ [e] = fs at h
  cases h with
  | before h =>
    subst hes
    exact .inl ⟨h e (by simp), .inl fun x hx => h x (List.mem_append_left _ hx)⟩
  | disposed h =>
    obtain ⟨rfl, heq⟩ := List.append_inj' hes rfl
    obtain ⟨rfl, -⟩ := List.cons.inj heq
    exact .inr (.inl ⟨⟨_, _, _, rfl⟩, h⟩)
  | mutating h =>
    subst hes
    rcases h.last with ⟨hmut, he⟩ | ⟨hapart, d, by_, now, b, row, rfl, -⟩
    · exact .inl ⟨he, .inr hmut⟩
    · exact .inr (.inl ⟨⟨d, by_, now, rfl⟩, hapart⟩)
  | rolled_back h =>
    obtain ⟨rfl, heq⟩ := List.append_inj' hes rfl
    obtain ⟨rfl, -⟩ := List.cons.inj heq
    exact .inr (.inr ⟨rfl, h⟩)

/-! ### The invariant of all processes -/

variable {w : World}

theorem settler_concat {ι : Type} (log : List (ι × Ev)) (i : ι) (e : Ev) :
    settler pair_id (log ++ [(i, e)]) =
      if took_effect pair_id e then some i
      else if reopened pair_id e then none else settler pair_id log := by
  simp only [settler, List.foldl_append, List.foldl_cons, List.foldl_nil]

/-- What is apart from the pair neither settles nor reopens it. -/
theorem apart_no_effect {e : Ev} (h : apart e.1) :
    took_effect pair_id e = false ∧ reopened pair_id e = false := by
  obtain ⟨c, r⟩ := e
  cases c with
  | pairs op =>
    cases op with
    | dispose _ _ _ _ | reopen _ => exact h.elim
    | _ => exact ⟨rfl, rfl⟩
  | _ => exact ⟨rfl, rfl⟩

/-- What is apart from the pair leaves its settler. -/
theorem settler_apart {ι : Type} {log : List (ι × Ev)} {i : ι} {e : Ev} (h : apart e.1) :
    settler pair_id (log ++ [(i, e)]) = settler pair_id log := by
  have hnone : took_effect pair_id e = false ∧ reopened pair_id e = false := apart_no_effect h
  rw [settler_concat, hnone.1, hnone.2]
  rfl

variable {ι : Type} [DecidableEq ι]

/-- An orderly log stays so with one more call that finds the right settler. -/
theorem Orderly.concat {log : List (ι × Ev)} {i : ι} {e : Ev} (h : Orderly pair_id log)
    (h₁ : took_effect pair_id e = true → settler pair_id log = none)
    (h₂ : (∃ e' ∈ Conf.own i log, disposes pair_id e'.1) → settler pair_id log = some i)
    (h₃ : e.1 = .pairs (.reopen pair_id) → settler pair_id log = some i) :
    Orderly pair_id (log ++ [(i, e)]) where
  one_effect := by
    intro l₁ j e' l₂ hl he
    rcases concat_eq_append_cons hl with ⟨rfl, rfl, heq⟩ | ⟨l₃, rfl, rfl⟩
    · cases heq
      exact h₁ he
    · exact h.one_effect l₁ j e' l₃ rfl he
  own_mutation := by
    intro l₁ j e' l₂ hl he
    rcases concat_eq_append_cons hl with ⟨rfl, rfl, heq⟩ | ⟨l₃, rfl, rfl⟩
    · cases heq
      exact h₂ he
    · exact h.own_mutation l₁ j e' l₃ rfl he
  own_reopening := by
    intro l₁ j e' l₂ hl he
    rcases concat_eq_append_cons hl with ⟨rfl, rfl, heq⟩ | ⟨l₃, rfl, rfl⟩
    · cases heq
      exact h₃ he
    · exact h.own_reopening l₁ j e' l₃ rfl he

/-- What holds of processes that have stayed in time: the pair is not open while a
disposition is in effect, a process that is running its mutation is the settler,
and the pairs that were loaded are still there. -/
structure Settling (pair_id : Id) (log : List (ι × Ev)) (w : World) : Prop where
  closed : ∀ i, settler pair_id log = some i →
    ∃ row, w.pairs.get pair_id = some row ∧ row.disposition ≠ "open"
  holds : ∀ i, Mutating pair_id (Conf.own i log) → settler pair_id log = some i
  loaded : ∀ i row, ⟨.pairs (.get pair_id), .ok (some row)⟩ ∈ Conf.own i log →
    ∃ row', w.pairs.get pair_id = some row' ∧ row'.toEvidence = row.toEvidence
  orderly : Orderly pair_id log

/-- What is apart from the pair does not settle it. -/
theorem Apart.not_disposes {es : List Ev} (h : Apart es) :
    ¬ ∃ e ∈ es, disposes pair_id e.1 := by
  rintro ⟨e, he, hd⟩
  exact not_disposes_of_apart (h e he) hd

theorem Mutating.not_apart {es : List Ev} (h : Mutating pair_id es) : ¬ Apart es := by
  obtain ⟨pre, mid, d, now, by_, b, row, rfl, -⟩ := h
  exact fun hes => hes _ (List.mem_append_right _ List.mem_cons_self)

/-- The row that was answered is the one in the store. -/
theorem get_answer {row : PairRow}
    (h : (host.failing fault (.pairs (.get pair_id)) w).1 = .ok (some row)) :
    w.pairs.get pair_id = some row := by
  rcases host.failing_cases fault (.pairs (.get pair_id)) w with ⟨e, he⟩ | he
  · rw [he] at h
    cases h
  · rw [he] at h
    exact Except.ok.inj h

/-- An answered call is the statement on the pairs. -/
theorem pairs_answered {op : PairOp} {a : op.Answer}
    (h : (host.failing fault (.pairs op) w).1 = .ok a) :
    (op.apply host.text_hash w.pairs).1 = .ok a ∧
      (host.failing fault (.pairs op) w).2.pairs = (op.apply host.text_hash w.pairs).2 := by
  rcases host.failing_cases fault (.pairs op) w with ⟨e, he⟩ | he
  · rw [he] at h
    cases h
  · rw [he] at h ⊢
    exact ⟨h, rfl⟩

/-- Accepted means that the settlement took effect. -/
theorem accepted_iff {r : Except Exn Bool} : accepted r = true ↔ r = .ok true := by
  cases r with
  | error e => simp [accepted]
  | ok b => simp [accepted]

namespace Settling

variable {log : List (ι × Ev)} {i : ι} {q : Call}

/-- What was loaded is still there after one more call. -/
theorem loaded_step (h : Settling pair_id log w) {j : ι} {row : PairRow}
    (hrow : (⟨.pairs (.get pair_id), .ok (some row)⟩ : Ev) ∈
      Conf.own j (log ++ [(i, ⟨q, (host.failing fault q w).1⟩)])) :
    ∃ row', (host.failing fault q w).2.pairs.get pair_id = some row' ∧
      row'.toEvidence = row.toEvidence := by
  rw [Conf.mem_own, List.mem_append, List.mem_singleton] at hrow
  rcases hrow with hrow | heq
  · obtain ⟨row₁, hrow₁, hevidence⟩ := h.loaded j row (Conf.mem_own.mpr hrow)
    obtain ⟨row₂, hrow₂, hsame⟩ := host.get_keeps_evidence fault q hrow₁
    exact ⟨row₂, hrow₂, hsame.trans hevidence⟩
  · obtain ⟨-, heq⟩ := Prod.mk.inj heq
    obtain ⟨rfl, hans⟩ := Sigma.mk.inj heq
    exact host.get_keeps_evidence fault _ (get_answer (eq_of_heq hans).symm)

/-- A process is where it was when another one makes a call. -/
theorem holds_other (h : Settling pair_id log w) {j : ι} {e : Ev} (hij : i ≠ j)
    (hmut : Mutating pair_id (Conf.own j (log ++ [(i, e)]))) : settler pair_id log = some j := by
  rw [Conf.own_concat_ne hij] at hmut
  exact h.holds j hmut

/-- A call that stays apart. -/
theorem step_apart (h : Settling pair_id log w) (hq : apart q)
    (hown : Apart (Conf.own i log) ∨ Mutating pair_id (Conf.own i log)) :
    Settling pair_id (log ++ [(i, ⟨q, (host.failing fault q w).1⟩)])
      (host.failing fault q w).2 := by
  have hnot : ∀ id, q ≠ .pairs (.reopen id) := fun id hid => by
    rw [hid] at hq
    exact hq
  constructor
  · intro j hj
    rw [settler_apart hq] at hj
    obtain ⟨row, hrow, hclosed⟩ := h.closed j hj
    exact ⟨row, host.get_keeps_closed fault hnot hrow hclosed, hclosed⟩
  · intro j hj
    rw [settler_apart hq]
    by_cases hij : i = j
    · subst hij
      rw [Conf.own_concat_self] at hj
      rcases hj.last with ⟨hmut, -⟩ | ⟨-, d, by_, now, b, row, heq, -⟩
      · exact h.holds i hmut
      · obtain ⟨rfl, -⟩ := Sigma.mk.inj heq
        exact hq.elim
    · exact h.holds_other hij hj
  · exact fun j row => h.loaded_step
  · refine h.orderly.concat (fun htook => ?_) (fun hdisposed => ?_) fun hreopen => ?_
    · rw [(apart_no_effect hq).1] at htook
      cases htook
    · exact h.holds i (hown.resolve_left fun hapart => hapart.not_disposes hdisposed)
    · exact absurd hreopen (hnot pair_id)

section dispose

variable {d now : String} {by_ : Option String} {r : Except Exn Bool}
  (hr : (host.failing fault (.pairs (.dispose pair_id d by_ now)) w).1 = r)
include hr

/-- Only an open pair is disposed of, and then nobody's disposition is in effect. -/
theorem settler_of_accepted (h : Settling pair_id log w) (haccepted : accepted r = true) :
    settler pair_id log = none := by
  obtain ⟨hans, -⟩ := pairs_answered (hr.trans (accepted_iff.mp haccepted))
  obtain ⟨row, hrow, hopen⟩ := (PairStore.dispose_answer hans).mp rfl
  cases hs : settler pair_id log with
  | none => rfl
  | some j =>
    obtain ⟨row', hrow', hclosed⟩ := h.closed j hs
    rw [hrow] at hrow'
    cases hrow'
    exact absurd hopen hclosed

/-- A process with a mutation to come was in time, so its disposition took effect. -/
theorem accepted_of_mutating (h : Settling pair_id log w) (hown : Apart (Conf.own i log))
    (htime : ∀ row, w.pairs.get pair_id = some row → follows_up d row → row.disposition = "open")
    (hmut : Mutating pair_id (Conf.own i log ++ [⟨.pairs (.dispose pair_id d by_ now), r⟩])) :
    accepted r = true := by
  rcases hmut.last with ⟨hmut, -⟩ | ⟨-, d', by', now', b, row, heq, hload, hd⟩
  · exact absurd hown hmut.not_apart
  · obtain ⟨hcall, hans⟩ := Sigma.mk.inj heq
    cases hcall
    have hans := eq_of_heq hans
    obtain ⟨row', hrow', hevidence⟩ := h.loaded i row hload
    have hd' : follows_up d row' := by
      unfold follows_up cli.kind_of at hd ⊢
      rw [congrArg Evidence.kind hevidence]
      exact hd
    obtain ⟨hdispose, -⟩ := pairs_answered (hr.trans hans)
    have hb : b = true :=
      (PairStore.dispose_answer hdispose).mpr ⟨row', hrow', htime row' hrow' hd'⟩
    rw [hans, hb]
    rfl

/-- The call of `dispose`, while the pair is open or with nothing to come. -/
theorem step_disposes (h : Settling pair_id log w) (hown : Apart (Conf.own i log))
    (htime : ∀ row, w.pairs.get pair_id = some row → follows_up d row → row.disposition = "open") :
    Settling pair_id (log ++ [(i, ⟨.pairs (.dispose pair_id d by_ now), r⟩)])
      (host.failing fault (.pairs (.dispose pair_id d by_ now)) w).2 := by
  have hnone := h.settler_of_accepted hr
  have hself := h.accepted_of_mutating hr hown htime
  -- the settler changes only when this disposal is accepted
  have hsettler : settler pair_id (log ++ [(i, ⟨.pairs (.dispose pair_id d by_ now), r⟩)]) =
      if accepted r then some i else settler pair_id log := by
    rw [settler_concat]
    simp [took_effect, reopened]
  have hloaded : ∀ j row, (⟨.pairs (.get pair_id), .ok (some row)⟩ : Ev) ∈
      Conf.own j (log ++ [(i, ⟨.pairs (.dispose pair_id d by_ now), r⟩)]) →
      ∃ row', (host.failing fault (.pairs (.dispose pair_id d by_ now)) w).2.pairs.get pair_id =
        some row' ∧
        row'.toEvidence = row.toEvidence := by
    subst hr
    exact fun j row => h.loaded_step
  refine ⟨fun j hj => ?_, fun j hj => ?_, hloaded, ?_⟩
  · rw [hsettler] at hj
    by_cases haccepted : accepted r = true
    · obtain ⟨hans, hpairs⟩ := pairs_answered (hr.trans (accepted_iff.mp haccepted))
      rw [hpairs]
      exact PairStore.dispose_closes hans
    · rw [if_neg haccepted] at hj
      obtain ⟨row, hrow, hclosed⟩ := h.closed j hj
      exact ⟨row, host.get_keeps_closed fault (fun id hid => by cases hid) hrow hclosed, hclosed⟩
  · rw [hsettler]
    by_cases hij : i = j
    · subst hij
      rw [Conf.own_concat_self] at hj
      rw [if_pos (hself hj)]
    · -- another process has settled the pair: then this disposal is not accepted
      have hother := h.holds_other hij hj
      by_cases haccepted : accepted r = true
      · rw [hnone haccepted] at hother
        cases hother
      · rw [if_neg haccepted, hother]
  · refine h.orderly.concat (fun htook => ?_) (fun hd => absurd hd hown.not_disposes) fun heq => ?_
    · refine hnone ?_
      simpa [took_effect] using htook
    · cases heq

end dispose

/-- The call of `reopen`, after a mutation of its own. -/
theorem step_reopens (h : Settling pair_id log w) {r : Except Exn Bool}
    (hr : (host.failing fault (.pairs (.reopen pair_id)) w).1 = r)
    (hown : Mutating pair_id (Conf.own i log)) :
    Settling pair_id (log ++ [(i, ⟨.pairs (.reopen pair_id), r⟩)])
      (host.failing fault (.pairs (.reopen pair_id)) w).2 := by
  have hi := h.holds i hown
  have hsettler : settler pair_id (log ++ [(i, ⟨.pairs (.reopen pair_id), r⟩)]) =
      if accepted r then none else some i := by
    rw [settler_concat, hi]
    simp [took_effect, reopened]
  have hloaded : ∀ j row, (⟨.pairs (.get pair_id), .ok (some row)⟩ : Ev) ∈
      Conf.own j (log ++ [(i, ⟨.pairs (.reopen pair_id), r⟩)]) →
      ∃ row', (host.failing fault (.pairs (.reopen pair_id)) w).2.pairs.get pair_id = some row' ∧
        row'.toEvidence = row.toEvidence := by
    subst hr
    exact fun j row => h.loaded_step
  refine ⟨fun j hj => ?_, fun j hj => ?_, hloaded, ?_⟩
  · rw [hsettler] at hj
    split at hj
    · cases hj
    · rename_i hrefused
      -- a reopening that failed or found nothing to roll back has changed nothing
      obtain ⟨row, hrow, hclosed⟩ := h.closed i hi
      refine ⟨row, ?_, hclosed⟩
      rcases host.failing_cases fault (.pairs (.reopen pair_id)) w with ⟨e, he⟩ | he
      · rw [he]
        exact hrow
      · rw [he] at hr ⊢
        have hfalse : (w.pairs.reopen pair_id).1 = false := by
          rw [← hr, Bool.not_eq_true] at hrefused
          exact hrefused
        change (w.pairs.reopen pair_id).2.get pair_id = some row
        rw [PairStore.reopen_refused hfalse, hrow]
  · by_cases hij : i = j
    · subst hij
      rw [Conf.own_concat_self] at hj
      rcases hj.last with ⟨-, hapart⟩ | ⟨-, d, by_, now, b, row, heq, -⟩
      · exact hapart.elim
      · cases (Sigma.mk.inj heq).1
    · have hother := h.holds_other hij hj
      rw [hi] at hother
      exact absurd (Option.some.inj hother) hij
  · exact h.orderly.concat (fun htook => by cases htook) (fun _ => hi) fun _ => hi

/-- Before anything has happened the pair is in order. -/
theorem start (pair_id : Id) (w : World) : Settling (ι := ι) pair_id [] w where
  closed := fun _ h => by cases h
  holds := by
    rintro i ⟨pre, mid, d, now, by_, b, row, heq, -⟩
    simp at heq
  loaded := fun _ _ h => by simp at h
  orderly := ⟨by simp, by simp, by simp⟩

end Settling

/-- The run of the commands of several processes on one pair. -/
abbrev settling (host : Host) (fault : Call → World → Option Exn) (client : ι → cli.Client)
    (pair_id : Id) (cmd : ι → cli.Stale) (w : World) (sched : List ι) :
    Conf Api ι cli.FollowUp World :=
  Conf.exec (host.failing fault) (.start (fun i => (cmd i).run host (client i) pair_id) w) sched

/-- After any schedule in time, the pair is in order. -/
theorem settling_run {client : ι → cli.Client} {cmd : ι → cli.Stale} {sched : List ι}
    (h : ∀ pre i post, sched = pre ++ i :: post →
      InTime pair_id (settling host fault client pair_id cmd w pre) i) :
    Settling pair_id (settling host fault client pair_id cmd w sched).log
      (settling host fault client pair_id cmd w sched).state := by
  induction sched using List.reverseRecOn with
  | nil => exact .start pair_id w
  | append_singleton sched i ih =>
    have hinv := ih fun pre j post hsched => h pre j (post ++ [i]) (by simp [hsched])
    have hintime := h sched i [] rfl
    obtain ⟨l, hlog, htrace, -⟩ := Conf.exec_trace (host.failing fault)
      (.start (fun i => (cmd i).run host (client i) pair_id) w) (sched ++ [i])
    have hstage : Stage pair_id (Conf.own i l) := Stage.run (htrace i)
    unfold settling at *
    rw [Conf.exec_concat] at hlog ⊢
    rcases Conf.step_cases (host.failing fault) _ i with hsame | ⟨q, k, hq, hc⟩
    · rw [hsame]
      exact hinv
    · rw [hc] at hlog ⊢
      obtain rfl : l = _ ++ [_] := hlog.symm
      rw [Conf.own_concat_self] at hstage
      rcases hstage.last with ⟨hapart, hown⟩ | ⟨⟨d, by_, now, rfl⟩, hown⟩ | ⟨rfl, hown⟩
      · exact hinv.step_apart hapart hown
      · refine hinv.step_disposes rfl hown fun row hrow hd => ?_
        simp only [InTime, hq] at hintime
        exact hintime trivial row hrow hd
      · exact hinv.step_reopens rfl hown

/-- **Settling one pair.** As long as every process that disposes of the pair with a
mutation to come finds it still open, one disposition at a time takes effect, only
the process whose disposition is in effect runs its mutation, and no process reopens
what another one settled. Any fallible call may fail. -/
theorem settling_orderly (host : Host) (fault : Call → World → Option Exn)
    (client : ι → cli.Client) (pair_id : Id) (cmd : ι → cli.Stale) (w : World) (sched : List ι)
    (h : ∀ pre i post, sched = pre ++ i :: post →
      InTime pair_id (settling host fault client pair_id cmd w pre) i) :
    Orderly pair_id (settling host fault client pair_id cmd w sched).log :=
  (settling_run h).orderly

/-! ### A dismissal and a confirmation -/

/-- An open suspicion that a newer memory supersedes an older one. -/
def suspicion : PairRow where
  pair_id := "p"
  kind := KIND_DISPLACEMENT
  new_id := "n"
  old_id := "o"
  old_text_hash := "old"
  verdict := "SUPERSEDED"
  confidence := some 1
  reason := none
  judged_at := "t"
  judge_model := none
  new_session_id := none
  disposition := "open"
  disposed_by := none
  disposed_at := none

def suspected : World :=
  { (World.empty.put "o" (.ofList [("data", .str "old")])).put "n" (.ofList [("data", .str "new")])
    with pairs := PairStore.empty.insert suspicion }

/-- One process confirms, the other one dismisses; the user has approved both. -/
def confirm_and_dismiss : Bool → cli.Stale
  | true => .dismiss true
  | false => .confirm true

abbrev two_sessions (sched : List Bool) : Conf Api Bool cli.FollowUp World :=
  settling .plain (fun _ _ => none) (fun _ => .plain "s") "p" confirm_and_dismiss suspected sched

/-- The confirmation loads the pair, the dismissal runs as a whole, and the
confirmation goes on. -/
def late_confirmation : List Bool := false :: List.replicate 3 true ++ List.replicate 11 false

/-- The pair ends up dismissed, and its memory invalidated all the same. -/
theorem settled_twice :
    (two_sessions late_confirmation).Finished ∧
      ((two_sessions late_confirmation).state.pairs.get "p").map (·.disposition) =
        some "dismissed" ∧
      ((two_sessions late_confirmation).state.payload "o").map superseded_ids = some ["n"] ∧
      ¬ Orderly "p" (two_sessions late_confirmation).log := by
  refine ⟨fun i => ?_, by decide, by decide, fun h => ?_⟩
  · cases i
    · trivial
    · trivial
  · -- the first call of the confirmation after its own, refused, disposition
    have hlate := h.own_mutation ((two_sessions late_confirmation).log.take 6) false _
      ((two_sessions late_confirmation).log.drop 7) rfl
      ⟨_, List.getElem_mem (n := 2) (by decide), "confirmed", some "agent", _, rfl⟩
    exact absurd hlate (by decide)

/-- The dismissal loads the pair, too, but comes to dispose of it after the
confirmation, and has nothing to do then. -/
def late_dismissal : List Bool := true :: List.replicate 12 false ++ List.replicate 2 true

/-- One session dismisses the pair after the other one has settled it. -/
theorem settling_orderly_late_dismissal : Orderly "p" (two_sessions late_dismissal).log := by
  refine settling_orderly .plain (fun _ _ => none) (fun _ => .plain "s") "p" confirm_and_dismiss
    suspected late_dismissal fun pre i post hsched => ?_
  have hprefixes : ∀ n, ∀ hn : n < late_dismissal.length,
      InTime "p" (two_sessions (late_dismissal.take n)) (late_dismissal.get ⟨n, hn⟩) := by
    decide
  have hpre := hprefixes pre.length (by simp [hsched])
  simpa [hsched] using hpre

end Memline
