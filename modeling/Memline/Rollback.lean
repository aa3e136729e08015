/-
A failing call in the middle of an invalidation, and of the commands around it.

`invalidate` writes the payload and closes the pairs of the memory afterwards. When the
closing fails it raises with the payload written; `_dispose_with_rollback` takes any
exception for a mutation that has not happened and reopens the pair. The audit row of a
command comes after the invalidation as well, and does the same damage. Every other call
may fail without leaving anything half done.
-/
import Memline.Commands
import Memline.Supersession
import Memline.UpdateRace
import Memline.Triples
import Memline.Lib.Striking

set_option autoImplicit false

namespace Memline

open Effect Effect.Prog Effect.Handler

/-! ## One call fails -/

/-- Every call to a store, a judge or the manifest can fail. -/
def breakable : Call → Bool
  | .now_iso | .now_after _ | .uuid4 | .date_past _ | .active_model _ => false
  | _ => true

/-- A run from `w` in which call number `n` fails: how it ends, and where. -/
def run_broken {α : Type} (host : Host) (n : ℕ) (exc : Exn) (p : Code α) (w : World) :
    Except Exn α × World :=
  let r := p.run (host.answer.striking breakable n exc) (w, [])
  (r.1, r.2.1)

/-- It raises and leaves the payload of the memory as it was, or succeeds. -/
def AllOrNothing {α : Type} (w : World) (id : Id) (r : Except Exn α × World) : Prop :=
  ∀ e, r.1 = .error e → r.2.payload id = w.payload id

/-- When it raises and the pair is open again, the old memory has not been superseded. -/
def RollsBack {α : Type} (w : World) (pair : PairRow) (r : Except Exn α × World) : Prop :=
  ∀ e, r.1 = .error e → (∃ row, r.2.pairs.get pair.pair_id = some row ∧ row.disposition = "open") →
    successors w pair.old_id = [] → successors r.2 pair.old_id = []

/-- The memory is marked as superseded. -/
def Supersedes (id : Id) (e : Ev) : Prop :=
  ∃ patch, e = ⟨.vs_set_payload id patch, .ok ()⟩ ∧ superseded_ids patch ≠ []

/-- The call closes the pairs of an invalidated memory, or reports an invalidation. -/
def Concludes (id : Id) (c : Call) : Prop :=
  c = .audit "invalidate" ∨
    ∃ by_ kind now, c = .pairs (.close_for_old id "obsoleted" by_ kind now)

/-- Call number `n` comes after the memory has been superseded, and its failure raises. -/
def Strands (id : Id) (n : ℕ) (es : List Ev) : Prop :=
  (∃ e ∈ es.take n, Supersedes id e) ∧ ∃ c, es[n]?.map Sigma.fst = some c ∧ Concludes id c

theorem breakable_of_concludes {id : Id} {c : Call} (h : Concludes id c) : breakable c = true := by
  rcases h with rfl | ⟨by_, kind, now, rfl⟩
  · rfl
  · rfl

/-- Reading the clock concludes nothing. -/
example (id : Id) : ¬ Concludes id .now_iso := by
  simp [Concludes]

/-- What a log with one more entry strands. -/
theorem strands_concat (id : Id) (n : ℕ) (es : List Ev) (e : Ev) :
    Strands id n (es ++ [e]) ↔ Strands id n es ∨
      (es.length = n ∧ (∃ e' ∈ es, Supersedes id e') ∧ Concludes id e.1) := by
  unfold Strands
  -- the struck call was made before the new one, is the new one, or has not been made
  rcases lt_trichotomy n es.length with hlt | rfl | hgt
  · rw [List.take_append_of_le_length hlt.le, List.getElem?_append_left hlt]
    exact ⟨.inl, fun h => h.resolve_right fun heq => absurd heq.1 hlt.ne'⟩
  · rw [List.take_left, List.take_length, List.getElem?_concat_length,
      List.getElem?_eq_none le_rfl]
    simp only [Option.map_some, Option.map_none, Option.some.injEq, exists_eq_left', reduceCtorEq,
      false_and, exists_false, and_false, false_or, true_and]
  · have hlength : (es ++ [e]).length ≤ n := by
      rw [List.length_append, List.length_singleton]
      exact hgt
    rw [List.getElem?_eq_none hlength, List.getElem?_eq_none hgt.le]
    simp only [Option.map_none, reduceCtorEq, false_and, exists_false, and_false, hgt.ne, or_self]

/-- A run that is stranded has gone beyond the call that broke. -/
theorem strands_length {id : Id} {n : ℕ} {es : List Ev} (h : Strands id n es) : n < es.length := by
  obtain ⟨-, c, hc, -⟩ := h
  by_contra hle
  rw [List.getElem?_eq_none (not_lt.mp hle)] at hc
  cases hc

/-- Where nothing was superseded nothing is stranded. -/
theorem not_strands_of_none {id : Id} {n : ℕ} {es : List Ev} (h : ∀ e ∈ es, ¬ Supersedes id e) :
    ¬ Strands id n es := by
  rintro ⟨⟨e, he, hsup⟩, -⟩
  exact h e (List.mem_of_mem_take he) hsup

/-! ## The state of an invalidation -/

/-- A world, and the calls that have led to it. -/
abbrev Recorded : Type := World × List Ev

section states

variable (w : World) (id : Id) (n : ℕ)

/-- The memory has the payload it had. -/
def Untouched (t : Recorded) : Prop :=
  t.1.payload id = w.payload id ∧ ∀ e ∈ t.2, ¬ Supersedes id e

/-- The memory has the successors it had. -/
def Unmarked (t : Recorded) : Prop :=
  successors t.1 id = successors w id ∧ ∀ e ∈ t.2, ¬ Supersedes id e

/-- The memory has been taken out of the pool. -/
def Marked (t : Recorded) : Prop :=
  successors w id = [] ∧ successors t.1 id ≠ [] ∧ ∃ e ∈ t.2, Supersedes id e

/-- It has, and nothing after it has failed that raises. -/
def Superseded (t : Recorded) : Prop := Marked w id t ∧ ¬ Strands id n t.2

/-- It has, and something after it has failed. -/
def Stranded (t : Recorded) : Prop := Marked w id t ∧ Strands id n t.2

end states

/-! ### One call -/

section calls

variable {host : Host} {w : World} {id : Id} {n : ℕ} {exc : Exn}

/-- What one call adds to the log, and where it leads. -/
theorem striking_cases (host : Host) (n : ℕ) (exc : Exn) (c : Call) (t : Recorded) :
    ((host.answer.striking breakable n exc c t).2 = (t.1, t.2 ++ [⟨c, .error exc⟩]) ∧
        t.2.length = n ∧ breakable c = true) ∨
      ((host.answer.striking breakable n exc c t).2 =
          ((host.answer c t.1).2, t.2 ++ [⟨c, (host.answer c t.1).1⟩]) ∧
        ¬ (t.2.length = n ∧ breakable c = true)) := by
  unfold striking
  split
  · rename_i hstruck
    exact .inl ⟨rfl, hstruck⟩
  · rename_i hnot
    exact .inr ⟨rfl, hnot⟩

theorem inert_answer_same (host : Host) {c : Call} (hc : inert c) (w : World) :
    (host.answer c w).2.points = w.points ∧ (host.answer c w).2.pairs = w.pairs := by
  rw [← host.failing_none]
  exact inert_same hc

/-- An inert call, answered or not, leaves the memories and the pairs alone. -/
theorem striking_inert (host : Host) (n : ℕ) (exc : Exn) {c : Call} (hc : inert c) (t : Recorded) :
    ∃ t' e, (host.answer.striking breakable n exc c t).2 = (t', t.2 ++ [e]) ∧ e.1 = c ∧
      t'.points = t.1.points ∧ t'.pairs = t.1.pairs := by
  rcases striking_cases host n exc c t with ⟨heq, -⟩ | ⟨heq, -⟩
  · exact ⟨_, _, heq, rfl, rfl, rfl⟩
  · have hsame := inert_answer_same host hc t.1
    exact ⟨_, _, heq, rfl, hsame.1, hsame.2⟩

theorem not_supersedes_of_inert {e : Ev} (he : inert e.1) : ¬ Supersedes id e := by
  rintro ⟨patch, rfl, -⟩
  exact he

theorem log_concat {es : List Ev} {e : Ev} (hes : ∀ e ∈ es, ¬ Supersedes id e)
    (he : ¬ Supersedes id e) : ∀ e' ∈ es ++ [e], ¬ Supersedes id e' := by
  intro e' he'
  rcases List.mem_append.mp he' with he' | he'
  · exact hes e' he'
  · rw [List.mem_singleton.mp he']
    exact he

theorem untouched_inert {α : Type} {p : Code α} (hp : p.Uses inert) :
    p.Keeps (host.answer.striking breakable n exc) (Untouched w id) := by
  refine hp.keeps fun c t hc ht => ?_
  obtain ⟨t', e, heq, rfl, hpoints, -⟩ := striking_inert host n exc hc t
  rw [heq]
  exact ⟨(payload_congr hpoints id).trans ht.1, log_concat ht.2 (not_supersedes_of_inert hc)⟩

/-- One more call that leaves the points keeps the mark. -/
theorem Marked.concat {t : Recorded} (h : Marked w id t) {t' : World} {e : Ev}
    (hpoints : t'.points = t.1.points) : Marked w id (t', t.2 ++ [e]) := by
  obtain ⟨hactive, hsup, e', he', hmark⟩ := h
  exact ⟨hactive, by rwa [successors_congr (payload_congr hpoints id)], e',
    List.mem_append_left _ he', hmark⟩

/-- An inert call that concludes nothing. -/
theorem superseded_inert {α : Type} {p : Code α} (hp : p.Uses fun c => inert c ∧ ¬ Concludes id c) :
    p.Keeps (host.answer.striking breakable n exc) (Superseded w id n) := by
  refine hp.keeps fun c t hc ht => ?_
  obtain ⟨t', e, heq, rfl, hpoints, -⟩ := striking_inert host n exc hc.1 t
  rw [heq]
  refine ⟨ht.1.concat hpoints, fun hstrands => ?_⟩
  rcases (strands_concat id n t.2 e).mp hstrands with hstrands | ⟨-, -, hconcludes⟩
  · exact ht.2 hstrands
  · exact hc.2 hconcludes

/-- A call that concludes the invalidation succeeds, or strands it. -/
theorem conclude_triple {c : Call} (hc : Concludes id c)
    (hpoints : ∀ t, (host.answer c t).2.points = t.points)
    (hok : ∀ t, ∃ a, (host.answer c t).1 = .ok a) :
    Triple (host.answer.striking breakable n exc) (Superseded w id n) (perform (I := Api) c)
      (fun _ => Superseded w id n) (Stranded w id n) := by
  refine triple_striking (fun t es ht hlength _ => ?_) (fun t es a t' ht hnot hrun => ?_)
    fun t es e t' _ _ hrun => ?_
  · refine ⟨ht.1.concat (e := ⟨c, .error exc⟩) rfl,
      (strands_concat id n es ⟨c, .error exc⟩).mpr (.inr ⟨hlength, ?_, hc⟩)⟩
    exact ht.1.2.2
  · have hend : t'.points = t.points := by
      have hsame := hpoints t
      rwa [hrun] at hsame
    refine ⟨ht.1.concat (e := ⟨c, .ok a⟩) hend, fun hstrands => ?_⟩
    rcases (strands_concat id n es ⟨c, .ok a⟩).mp hstrands with hstrands | ⟨hlength, -⟩
    · exact ht.2 hstrands
    · exact hnot ⟨hlength, breakable_of_concludes hc⟩
  · obtain ⟨a, ha⟩ := hok t
    rw [hrun] at ha
    cases ha

/-! ### Invalidating -/

/-- A lookup finds what is stored, or raises. -/
theorem lookup_triple {P : Recorded → Prop} {x : Id}
    (hP : ∀ t es r, P (t, es) → P (t, es ++ [⟨.vs_get x, r⟩])) :
    Triple (host.answer.striking breakable n exc) P (perform (I := Api) (.vs_get x))
      (fun (found : Option Payload) t => P t ∧ found = t.1.payload x) P := by
  refine triple_striking (fun t es ht _ _ => hP t es _ ht) (fun t es a t' ht _ hrun => ?_)
    fun t es e t' ht _ hrun => ?_
  all_goals
    simp only [Host.answer, Prod.mk.injEq] at hrun
    obtain ⟨hrun, rfl⟩ := hrun
  · refine ⟨hP _ es _ ht, ?_⟩
    split at hrun
    · cases hrun
    · injection hrun with hrun
      exact hrun.symm
  · exact hP _ es _ ht

/-- Reading the memory leaves it untouched, and tells its payload. -/
theorem look_triple :
    Triple (host.answer.striking breakable n exc) (Untouched w id) (point_payload id)
      (fun found t => Untouched w id t ∧ ∀ p ∈ found, w.payload id = some p) (Untouched w id) := by
  have hlook : Triple (host.answer.striking breakable n exc) (Untouched w id)
      (perform (I := Api) (.vs_get id))
      (fun (found : Option Payload) t => Untouched w id t ∧
        found = t.1.payload id) (Untouched w id) :=
    lookup_triple fun t es r ht => ⟨ht.1, log_concat ht.2 (not_supersedes_of_inert trivial)⟩
  refine triple_tryCatch (hlook.mono (fun _ h => h) (fun found t ht => ⟨ht.1, fun p hp => ?_⟩)
    fun _ h => h) fun e => triple_pure none fun t ht => ⟨ht, fun p hp => ?_⟩
  · rw [← ht.1.1, ← ht.2]
    exact hp
  · cases hp

/-- A program of inert calls leaves the memory untouched. -/
theorem keeps_untouched {α : Type} {p : Code α} (hp : p.Uses inert) {E : Recorded → Prop}
    (hE : ∀ t, Untouched w id t → E t) :
    Triple (host.answer.striking breakable n exc) (Untouched w id) p (fun _ => Untouched w id) E :=
  (triple_of_keeps (untouched_inert hp)).mono (fun _ h => h) (fun _ _ h => h) hE

/-- The checks find the memory active, and write nothing. -/
theorem check_triple (by_ids : List Id) :
    Triple (host.answer.striking breakable n exc) (Untouched w id) (check_invalidate id by_ids)
      (fun p t => Untouched w id t ∧ w.payload id = some p ∧ superseded_ids p = [] ∧ by_ids ≠ [])
      (Untouched w id) := by
  have hkeep : ∀ {α : Type} {p : Code α}, p.Uses inert →
      Triple (host.answer.striking breakable n exc) (Untouched w id) p (fun _ => Untouched w id)
        (Untouched w id) := fun hp => keeps_untouched hp fun _ h => h
  unfold check_invalidate
  refine triple_bind (triple_of_ret (hkeep (refuse_if_uses _ _)) fun es u h => (refuse_if_ret h).2)
    fun _ => ?_
  refine Triple.of_fact (fun _ h => h.2) fun hne => Triple.of_pre ?_ fun _ h => h.1
  refine triple_bind (hkeep (refuse_if_uses _ _)) fun _ => ?_
  refine triple_bind look_triple fun found => ?_
  refine Triple.of_fact (fun _ h => h.2) fun hfound => Triple.of_pre ?_ fun _ h => h.1
  cases found with
  | none => exact triple_throw (I := Api) _ fun _ h => h
  | some payload =>
    simp only [expect, pure_eq, ret_bind]
    refine triple_bind (triple_of_ret (hkeep (refuse_if_uses _ _)) fun es u h =>
      not_not.mp (refuse_if_ret h).2) fun _ => ?_
    refine Triple.of_fact (fun _ h => h.2) fun hactive => Triple.of_pre ?_ fun _ h => h.1
    refine triple_bind (hkeep ((require_superseders_looks_up by_ids).mono fun _ =>
      inert_of_looks_up))
      fun _ => ?_
    refine triple_bind (hkeep ((assert_no_cycle_looks_up id by_ids).mono fun _ =>
      inert_of_looks_up))
      fun _ => ?_
    exact triple_pure payload fun t ht => ⟨ht, hfound payload rfl, hactive, hne⟩

/-- What an invalidation writes names successors. -/
theorem superseded_ids_patch_ne {by_ids : List Id} {now : String}
    {reason actor_id session_id : Option String} (h : ∀ b ∈ by_ids, b ≠ "") (hne : by_ids ≠ []) :
    superseded_ids (invalidate_patch by_ids now reason actor_id session_id) ≠ [] := by
  intro hnone
  have hmerge : superseded_ids ((∅ : Payload).merge
      (invalidate_patch by_ids now reason actor_id session_id)) = by_ids :=
    superseded_ids_invalidate_patch h
  rcases superseded_ids_merge (p := ∅) hnone with hsame | hsame
  · exact hne (hmerge.symm.trans hsame)
  · exact hne (hmerge.symm.trans hsame)

/-- The mark is set, or nothing has happened. -/
theorem mark_triple {p patch : Payload} (hp : w.payload id = some p)
    (hactive : superseded_ids p = []) (hpatch : superseded_ids (p.merge patch) ≠ [])
    (hids : superseded_ids patch ≠ []) :
    Triple (host.answer.striking breakable n exc) (Untouched w id)
      (perform (I := Api) (.vs_set_payload id patch)) (fun _ =>
        Superseded w id n) (Untouched w id) := by
  have hnot : ∀ e, ¬ Supersedes id ⟨.vs_set_payload id patch, .error e⟩ := by
    rintro e ⟨patch', heq, -⟩
    cases heq
  refine triple_striking (fun t es ht _ _ => ⟨ht.1, log_concat ht.2 (hnot _)⟩)
    (fun t es a t' ht _ hrun => ?_) fun t es e t' ht _ hrun => ?_
  · have hanswer : host.answer (.vs_set_payload id patch) t =
        (.ok (), t.put id (p.merge patch)) := by
      simp only [Host.answer, ht.1, hp]
    rw [hanswer] at hrun
    obtain ⟨-, rfl⟩ := Prod.mk.inj hrun
    refine ⟨⟨?_, ?_, _, List.mem_append_right _ List.mem_cons_self, patch, rfl, hids⟩, ?_⟩
    · rw [successors_of_payload hp, hactive]
    · rw [successors_of_payload (t.payload_put_self id _)]
      exact hpatch
    · rw [strands_concat id n es]
      rintro (hstrands | ⟨-, ⟨e, he, hsup⟩, -⟩)
      · exact not_strands_of_none ht.2 hstrands
      · exact ht.2 e he hsup
  · have hanswer : host.answer (.vs_set_payload id patch) t =
        (.ok (), t.put id (p.merge patch)) := by
      simp only [Host.answer, ht.1, hp]
    rw [hanswer] at hrun
    cases hrun

/-- The clock is read and never fails. -/
theorem superseded_now_triple {E : Recorded → Prop} :
    Triple (host.answer.striking breakable n exc) (Superseded w id n) now_iso
      (fun _ => Superseded w id n) E := by
  refine triple_striking (fun t es _ _ hbreaks => ?_) (fun t es a t' ht _ hrun => ?_)
    fun t es e t' _ _ hrun => ?_
  · cases hbreaks
  · cases hrun
    refine ⟨ht.1.concat (t := (t, es)) rfl, fun hstrands => ?_⟩
    rcases (strands_concat id n es ⟨.now_iso, .ok _⟩).mp hstrands with hstrands |
      ⟨-, -, heq | ⟨by_, kind, now, heq⟩⟩
    · exact ht.2 hstrands
    · cases heq
    · cases heq
  · cases hrun

/-- **`invalidate`.** It raises with nothing done, or because a call has failed that
comes after the mark. -/
theorem invalidate_triple (host : Host) (n : ℕ) (exc : Exn) (by_ids : List Id)
    (reason actor_id session_id : Option String) :
    Triple (host.answer.striking breakable n exc) (Untouched w id)
      (invalidate id by_ids reason actor_id session_id) (fun _ => Superseded w id n)
      (fun t => Untouched w id t ∨ Stranded w id n t) := by
  have hraise : ∀ t, Untouched w id t → Untouched w id t ∨ Stranded w id n t := fun _ => .inl
  unfold invalidate
  refine triple_bind ((check_triple _).mono (fun _ h => h) (fun _ _ h => h) hraise)
    fun payload => ?_
  refine Triple.of_fact (fun _ h => h.2) fun hfacts => Triple.of_pre ?_ fun _ h => h.1
  obtain ⟨hpayload, hactive, hne⟩ := hfacts
  refine triple_bind (keeps_untouched now_iso_inert hraise) fun now => ?_
  refine triple_bind ((mark_triple hpayload hactive ?_ ?_).mono (fun _ h =>
    h) (fun _ _ h => h) hraise)
    fun _ => ?_
  · rwa [superseded_ids_invalidate_patch distinct_ids_ne]
  · exact superseded_ids_patch_ne distinct_ids_ne hne
  refine triple_bind (S := fun _ => Superseded w id n) ?_ fun _ => ?_
  · have hnote : ∀ e : HistoryEvent, (perform (I := Api) (.add_history e)).Uses
        fun c => inert c ∧ ¬ Concludes id c := by
      refine fun e => uses_perform ⟨trivial, ?_⟩
      rintro (heq | ⟨by_, kind, now, heq⟩)
      · cases heq
      · cases heq
    exact triple_tryCatch (triple_of_keeps (superseded_inert (hnote _))) fun _ =>
      triple_pure () fun _ h => h
  refine triple_bind (S := fun _ =>
    Superseded w id n) (triple_bind superseded_now_triple fun now' => ?_)
    fun closed => triple_pure _ fun _ h => h
  refine (conclude_triple (.inr ⟨actor_id, none, now', rfl⟩) (fun _ => rfl) fun t => ⟨_, rfl⟩).mono
    (fun _ h => h) (fun _ _ h => h) fun _ => .inr

/-- The same, from wherever a command has come. -/
theorem invalidate_unmarked_triple (by_ids : List Id) (reason actor_id session_id : Option String) :
    Triple (host.answer.striking breakable n exc) (Unmarked w id)
      (invalidate id by_ids reason actor_id session_id) (fun _ => Superseded w id n)
      (fun t => Unmarked w id t ∨ Stranded w id n t) := by
  rintro t ⟨hsame, hlog⟩
  have hmarked : ∀ t', Marked t.1 id t' → Marked w id t' := fun t' h =>
    ⟨hsame ▸ h.1, h.2⟩
  obtain ⟨hok, herror⟩ :=
    invalidate_triple host n exc by_ids reason actor_id session_id t ⟨rfl, hlog⟩
  refine ⟨fun a t' hrun => ?_, fun e t' hrun => ?_⟩
  · obtain ⟨hmark, hsound⟩ := hok a t' hrun
    exact ⟨hmarked t' hmark, hsound⟩
  · rcases herror e t' hrun with ⟨hpayload, hlog'⟩ | ⟨hmark, hstrands⟩
    · exact .inl ⟨(successors_congr hpayload).trans hsame, hlog'⟩
    · exact .inr ⟨hmarked t' hmark, hstrands⟩

/-! ### The mutations of a command -/

/-- A call that names no successor of any memory and removes none. -/
def retains : Call → Prop
  | .vs_set_payload _ patch => SUPERSEDED_BY ∉ patch
  | .vs_upsert .. | .vs_insert _ | .vs_delete _ => False
  | _ => True

theorem retains_of_inert (c : Call) (h : inert c) : retains c := by
  cases c with
  | vs_set_payload _ _ | vs_upsert _ _ | vs_insert _ | vs_delete _ => exact h.elim
  | _ => trivial

theorem not_supersedes_of_retains {e : Ev} (he : retains e.1) : ¬ Supersedes id e := by
  rintro ⟨patch, rfl, hids⟩
  refine hids (superseded_ids_of_none ?_)
  rw [Payload.get, AList.lookup_eq_none.mpr he]
  rfl

theorem answer_retains {c : Call} (hc : retains c) (t : World) :
    successors (host.answer c t).2 id = successors t id := by
  have hpoints : c.writes = false → successors (host.answer c t).2 id = successors t id :=
    fun hquiet => successors_congr (payload_congr (host.answer_points hquiet t) id)
  cases c with
  | vs_upsert _ _ | vs_insert _ | vs_delete _ => exact hc.elim
  | vs_set_payload id' patch =>
    simp only [Host.answer]
    split
    · rename_i p hp
      by_cases hid : id = id'
      · rw [hid, successors_of_payload (t.payload_put_self _ _), successors_of_payload hp]
        exact superseded_ids_congr (Payload.get_merge_of_notMem hc)
      · exact successors_congr (t.payload_put_ne _ hid)
    · rfl
  | _ => exact hpoints rfl

/-- A program that retains leaves the memory unmarked. -/
theorem unmarked_retains {α : Type} {p : Code α} (hp : p.Uses retains) :
    p.Keeps (host.answer.striking breakable n exc) (Unmarked w id) := by
  refine hp.keeps fun c t hc ht => ?_
  rcases striking_cases host n exc c t with ⟨heq, -⟩ | ⟨heq, -⟩
  · rw [heq]
    exact ⟨ht.1, log_concat ht.2 (not_supersedes_of_retains hc)⟩
  · rw [heq]
    exact ⟨(answer_retains hc t.1).trans ht.1, log_concat ht.2 (not_supersedes_of_retains hc)⟩

/-- A program that retains leaves the memory unmarked, also when it raises. -/
theorem keeps_unmarked {α : Type} {p : Code α} (hp : p.Uses retains) {E : Recorded → Prop}
    (hE : ∀ t, Unmarked w id t → E t) :
    Triple (host.answer.striking breakable n exc) (Unmarked w id) p (fun _ => Unmarked w id) E :=
  (triple_of_keeps (unmarked_retains hp)).mono (fun _ h => h) (fun _ _ h => h) hE

/-- What has gone wrong stays so. -/
theorem stranded_inert {α : Type} {p : Code α} (hp : p.Uses inert) :
    p.Keeps (host.answer.striking breakable n exc)
      (fun t => Unmarked w id t ∨ Stranded w id n t) := by
  refine hp.keeps fun c t hc ht => ?_
  obtain ⟨t', e, heq, rfl, hpoints, -⟩ := striking_inert host n exc hc t
  rw [heq]
  refine ht.imp (fun h => ⟨?_, log_concat h.2 (not_supersedes_of_inert hc)⟩) fun h => ?_
  · exact (successors_congr (payload_congr hpoints id)).trans h.1
  · exact ⟨h.1.concat hpoints, (strands_concat id n t.2 e).mpr (.inl h.2)⟩

/-- How an outcome is asserted. -/
def Outcome {α σ : Type} (R : α → σ → Prop) (E : σ → Prop) : Except Exn α → σ → Prop
  | .ok a, t => R a t
  | .error _, t => E t

/-- The outcome of a program: its result or its error. -/
theorem outcome_triple {α σ : Type} {h : Handler Api σ} {P E E' : σ → Prop} {R : α → σ → Prop}
    {p : Code α} (hp : Triple h P p R E) : Triple h P (cli.outcome p) (Outcome R E) E' :=
  triple_tryCatch (triple_bind hp fun a => triple_pure (Except.ok a : Except Exn α) fun _ h => h)
    fun e => triple_pure (Except.error e : Except Exn α) fun _ h => h

/-- **`run_invalidate`.** The audit row is one more call that may fail after the mark. -/
theorem run_invalidate_triple (client : cli.Client) (by_ids : List Id) (reason : String) :
    Triple (host.answer.striking breakable n exc) (Unmarked w id)
      (cli.run_invalidate client id by_ids reason) (fun _ => Superseded w id n)
      (fun t => Unmarked w id t ∨ Stranded w id n t) := by
  have haudit : (perform (I := Api) (.audit "invalidate")).Uses inert := uses_perform trivial
  have hinvalidate : Triple (host.answer.striking breakable n exc) (Unmarked w id)
      (cli.outcome (invalidate id by_ids (some reason) (some client.actor) (some client.session)))
      (Outcome (fun _ => Superseded w id n) fun t => Unmarked w id t ∨ Stranded w id n t)
      (fun _ => False) := outcome_triple (invalidate_unmarked_triple by_ids _ _ _)
  refine triple_bind (S := Outcome (fun _ => Superseded w id n)
    fun t => Unmarked w id t ∨ Stranded w id n t)
    (triple_bind (outcome_triple hinvalidate) fun result => ?_) fun result => ?_
  · rcases result with e | e | r
    · exact fun _ h => False.elim h
    · refine triple_bind (triple_of_keeps (stranded_inert haudit)) fun _ => ?_
      exact triple_pure (Except.error e : Except Exn InvalidateResult) fun _ h => h
    · refine triple_bind (S := fun _ => Superseded w id n) ?_ fun _ =>
        triple_pure (Except.ok r : Except Exn InvalidateResult) fun _ h => h
      exact (conclude_triple (.inl rfl) (fun _ => rfl) fun t => ⟨(), rfl⟩).mono (fun _ h => h)
        (fun _ _ h => h) fun _ => .inr
  · cases result with
    | error e => exact triple_throw (I := Api) _ fun _ h => h
    | ok r => exact triple_pure r fun _ h => h

theorem apply_ttl_retains (client : cli.Client) (memory_id : Id) (mode : TtlMode) :
    (cli.apply_ttl client memory_id mode).Uses retains := by
  refine cli.audited_uses retains_of_inert (set_ttl_uses retains_of_inert (fun now expires_at => ?_)
    fun _ => trivial)
  refine AList.lookup_eq_none.mp ?_
  cases mode with
  | _ => exact Payload.lookup_ofList_ne (by simp [SUPERSEDED_BY, TTL_EXPIRES_AT, TTL_EXPIRED_AT])

/-- Clearing a protection names no successor. -/
theorem cleared_protection_retains (memory_id : Id) :
    retains (.vs_set_payload memory_id cleared_protection) := by
  refine AList.lookup_eq_none.mp (Payload.lookup_ofList_ne fun e he => ?_)
  obtain ⟨f, hf, rfl⟩ := List.mem_map.mp he
  have hfields : ∀ f ∈ protection_fields, f ≠ SUPERSEDED_BY := by decide
  exact hfields f hf

/-- The memory to update still has its payload. -/
def Holding (w : World) (id updated : Id) (p : Payload) (t : Recorded) : Prop :=
  Unmarked w id t ∧ t.1.payload updated = some p

/-- Inert calls hold on to the payload that was read. -/
theorem holding_inert {α : Type} {updated : Id} {p : Payload} {q : Code α} (hq : q.Uses inert) :
    q.Keeps (host.answer.striking breakable n exc) (Holding w id updated p) := by
  refine hq.keeps fun c t hc ht => ?_
  obtain ⟨t', e, heq, rfl, hpoints, -⟩ := striking_inert host n exc hc t
  rw [heq]
  refine ⟨⟨(successors_congr (payload_congr hpoints id)).trans ht.1.1, ?_⟩, ?_⟩
  · exact log_concat ht.1.2 (not_supersedes_of_inert hc)
  · exact (payload_congr hpoints updated).trans ht.2

/-- A program of inert calls holds on to the payload that was read. -/
theorem keeps_holding {α : Type} {updated : Id} {p : Payload} {q : Code α} (hq : q.Uses inert) :
    Triple (host.answer.striking breakable n exc) (Holding w id updated p) q
      (fun _ => Holding w id updated p) (Unmarked w id) :=
  (triple_of_keeps (holding_inert hq)).mono (fun _ h => h) (fun _ _ h => h) fun _ h => h.1

/-- What is looked up is the payload it has. -/
theorem held_triple {updated : Id} {p : Payload} :
    Triple (host.answer.striking breakable n exc) (Holding w id updated p)
      (perform (I := Api) (.vs_get updated))
      (fun (found : Option Payload) t => Holding w id updated p t ∧ found = some p)
      (Unmarked w id) := by
  refine (lookup_triple fun t es r ht => ⟨⟨ht.1.1, ?_⟩, ht.2⟩).mono (fun _ h => h)
    (fun found t ht => ⟨ht.1, ht.2.trans ht.1.2⟩) fun _ h => h.1
  exact log_concat ht.1.2 (not_supersedes_of_inert trivial)

/-- An update that names the successors the memory has. -/
theorem mem0_update_triple {updated : Id} {text : String} {metadata p : Payload}
    (hmeta : metadata.get SUPERSEDED_BY = p.get SUPERSEDED_BY) :
    Triple (host.answer.striking breakable n exc) (Holding w id updated p)
      (Mem0.update host updated text metadata) (fun _ => Unmarked w id) (Unmarked w id) := by
  refine triple_bind held_triple fun found => ?_
  refine Triple.of_fact (fun _ h => h.2) fun hfound => Triple.of_pre ?_ fun _ h => h.1
  subst hfound
  simp only [expect, pure_eq, ret_bind]
  refine triple_bind (keeps_holding now_iso_inert) fun now => ?_
  refine triple_bind (S := fun _ => Unmarked w id) ?_ fun _ => keeps_unmarked ?_ fun _ h => h
  · -- writing the point over is no supersession
    have hnot : ∀ r, ¬ Supersedes id
        ⟨.vs_upsert updated (Mem0.updated_payload host p text metadata now), r⟩ := by
      rintro r ⟨patch, heq, -⟩
      cases heq
    refine triple_striking (fun t es ht _ _ => ⟨ht.1.1, log_concat ht.1.2 (hnot _)⟩)
      (fun t es a t' ht _ hrun => ?_) fun t es e t' _ _ hrun => ?_
    · cases hrun
      refine ⟨?_, log_concat ht.1.2 (hnot _)⟩
      -- the successors are those of the old payload, by the metadata or without it
      have hsame : (Mem0.updated_payload host p text metadata now).get SUPERSEDED_BY =
          p.get SUPERSEDED_BY := by
        have hget : (Mem0.updated_payload host p text metadata now).get SUPERSEDED_BY =
            p.get SUPERSEDED_BY ∨
              (Mem0.updated_payload host p text metadata now).get SUPERSEDED_BY =
              metadata.get SUPERSEDED_BY := Mem0.get_updated_payload (by decide)
        rcases hget with hget | hget
        · exact hget
        · exact hget.trans hmeta
      rw [← ht.1.1]
      by_cases hid : id = updated
      · rw [hid, successors_of_payload (t.payload_put_self _ _), successors_of_payload ht.2]
        exact superseded_ids_congr hsame
      · exact successors_congr (t.payload_put_ne _ hid)
    · cases hrun
  · exact uses_perform (retains_of_inert _ trivial)

/-- An update whose metadata leave the successors leaves the memory unmarked. -/
theorem ops_update_triple {updated : Id} {text : String} {metadata p : Payload}
    (hmeta : metadata.get SUPERSEDED_BY = p.get SUPERSEDED_BY) :
    Triple (host.answer.striking breakable n exc) (Holding w id updated p)
      (ops.update host updated text metadata) (fun _ => Unmarked w id) (Unmarked w id) := by
  refine triple_bind (keeps_holding (vs_get_inert _)) fun point => ?_
  refine triple_bind (mem0_update_triple hmeta) fun _ => keeps_unmarked ?_ fun _ h => h
  refine uses_bind (clear_if_changed_uses retains_of_inert (cleared_protection_retains _))
    fun _ => ?_
  refine uses_bind (attempt_uses (uses_bind ?_ fun _ => uses_pure _)) fun _ => uses_pure _
  exact close_for_updated_text_uses retains_of_inert fun _ => trivial

/-- An audited program leaves the memory unmarked when the program does. -/
theorem audited_triple {α : Type} {P : Recorded → Prop} {operation : String} {p : Code α}
    (hp : Triple (host.answer.striking breakable n exc) P p (fun _ =>
      Unmarked w id) (Unmarked w id)) :
    Triple (host.answer.striking breakable n exc) P (cli.audited operation p) (fun _ =>
      Unmarked w id)
      (Unmarked w id) := by
  have haudit : (perform (I := Api) (.audit operation)).Uses retains := uses_perform trivial
  refine triple_bind (outcome_triple hp) fun result => ?_
  cases result with
  | ok a => exact triple_bind (keeps_unmarked haudit fun _ h => h) fun _ =>
    triple_pure a fun _ h => h
  | error e =>
    exact triple_bind (keeps_unmarked (attempt_uses haudit) fun _ h => h) fun _ =>
      triple_throw (I := Api) e fun _ h => h

/-- The first half of a merge: the newer memory takes the text. -/
theorem reword_triple (client : cli.Client) (updated id : Id) (text : String) {extra : Payload}
    (hextra : SUPERSEDED_BY ∉ extra) :
    Triple (host.answer.striking breakable n exc) (Unmarked w id)
      (do
        let existing ← cli.get updated
        let metadata ← cli.updated_memory_metadata client existing extra
        cli.audited "update" (ops.update host updated text metadata))
      (fun _ => Unmarked w id) (Unmarked w id) := by
  -- the metadata is made from the memory as it was read
  have hget : Triple (host.answer.striking breakable n exc) (Unmarked w id) (cli.get updated)
      (fun item t => ∃ p, Holding w id updated p t ∧
        item = Mem0.item_of updated p) (Unmarked w id) := by
    have hlook : Triple (host.answer.striking breakable n exc) (Unmarked w id)
        (perform (I := Api) (.vs_get updated))
        (fun (found : Option Payload) t => Unmarked w id t ∧ found = t.1.payload updated)
        (Unmarked w id) :=
      lookup_triple fun t es r ht => ⟨ht.1, log_concat ht.2 (not_supersedes_of_inert trivial)⟩
    refine triple_bind (triple_bind hlook fun found => triple_pure (R := fun item t =>
      Unmarked w id t ∧ item = (t.1.payload updated).map (Mem0.item_of updated)) _ fun t ht =>
      ⟨ht.1, congrArg _ ht.2⟩) fun item => ?_
    cases item with
    | none => exact triple_throw (I := Api) _ fun _ h => h.1
    | some item =>
      refine triple_pure item fun t ht => ?_
      obtain ⟨p, hp, hitem⟩ := Option.map_eq_some_iff.mp ht.2.symm
      exact ⟨p, ⟨ht.1, hp⟩, hitem.symm⟩
  refine triple_bind hget fun existing => ?_
  refine triple_exists fun p => Triple.of_fact (fun _ h => h.2) ?_
  rintro rfl
  refine Triple.of_pre ?_ fun _ h => h.1
  have hfield := lifecycle_not_core SUPERSEDED_BY (by decide)
  -- the lifecycle fields are none of those the command sets, so they are carried over
  have hmetadata : Triple (host.answer.striking breakable n exc) (Holding w id updated p)
      (cli.updated_memory_metadata client (Mem0.item_of updated p) extra)
      (fun metadata t => Holding w id updated p t ∧
        metadata.get SUPERSEDED_BY = p.get SUPERSEDED_BY)
      (Unmarked w id) := by
    refine triple_of_ret (keeps_holding (cli.updated_memory_metadata_inert _ _ _))
      fun es metadata h => ?_
    have hlookup := (updated_memory_metadata_ret h).2 SUPERSEDED_BY
      (lifecycle_not_command SUPERSEDED_BY (by decide))
    rw [Payload.get, hlookup, AList.lookup_eq_none.mpr hextra, Option.none_or,
      Mem0.get_item_metadata hfield, Payload.get]
  refine triple_bind hmetadata fun metadata => ?_
  refine Triple.of_fact (fun _ h => h.2) fun hmeta => Triple.of_pre ?_ fun _ h => h.1
  exact audited_triple (ops_update_triple hmeta)

/-! ### Settling a pair -/

/-- The pair is as it was loaded. -/
def Pending (w : World) (id pair_id : Id) (pair : PairRow) (t : Recorded) : Prop :=
  Unmarked w id t ∧ t.1.pairs.get pair_id = some pair

def Standing (pair_id : Id) (d : String) (t : Recorded) : Prop :=
  ∃ row, t.1.pairs.get pair_id = some row ∧ row.disposition = d

variable {pair_id : Id} {pair : PairRow}

theorem pending_inert {α : Type} {p : Code α} (hp : p.Uses inert) {E : Recorded → Prop}
    (hE : ∀ t, Unmarked w id t → E t) :
    Triple (host.answer.striking breakable n exc) (Pending w id pair_id pair) p
      (fun _ => Pending w id pair_id pair) E := by
  refine (triple_of_keeps (hp.keeps fun c t hc ht => ?_)).mono (fun _ h => h) (fun _ _ h => h)
    fun t ht => hE t ht.1
  obtain ⟨t', e, heq, rfl, hpoints, hpairs⟩ := striking_inert host n exc hc t
  rw [heq]
  refine ⟨⟨(successors_congr (payload_congr hpoints id)).trans ht.1.1, ?_⟩, ?_⟩
  · exact log_concat ht.1.2 (not_supersedes_of_inert hc)
  · exact (congrArg (PairStore.get · pair_id) hpairs).trans ht.2

/-- A disposition that is not open stands while nobody disposes or reopens. -/
theorem standing_apart {α : Type} {d : String} (hd : d ≠ "open") {p : Code α} (hp : p.Uses apart) :
    p.Keeps (host.answer.striking breakable n exc) (Standing pair_id d) := by
  refine hp.keeps fun c t hc ht => ?_
  obtain ⟨row, hrow, hdisposition⟩ := ht
  rcases striking_cases host n exc c t with ⟨heq, -⟩ | ⟨heq, -⟩
  · rw [heq]
    exact ⟨row, hrow, hdisposition⟩
  · rw [heq]
    have hreopen : ∀ x, c ≠ .pairs (.reopen x) := by
      rintro x rfl
      exact hc
    have hkept := host.get_keeps_closed (fun _ _ => none) hreopen hrow (hdisposition ▸ hd)
    rw [host.failing_none] at hkept
    exact ⟨row, hkept, hdisposition⟩

theorem PairStore.get_dispose {s : PairStore} {d now : String} {by_ : Option String}
    (hd : d ∈ DISPOSITIONS) (hpair : s.get pair_id = some pair)
    (hopen : pair.disposition = "open") :
    ∃ row, (s.dispose pair_id d by_ now).2.get pair_id = some row ∧ row.disposition = d := by
  obtain ⟨-, hid⟩ := get_pair_id hpair
  refine ⟨pair.settle fun _ => ⟨d, by_, some now⟩, ?_, rfl⟩
  have hp : (decide (pair.pair_id = pair_id) && pair.is_open) = true := by
    simp [hid, is_open_iff.mpr hopen]
  unfold dispose
  rw [if_pos hd]
  simp only
  rw [get_settle, hpair, Option.map_some, if_pos hp]

theorem PairStore.get_reopen {s : PairStore} {row : PairRow} (hrow : s.get pair_id = some row)
    (hd : row.disposition ∈ REOPENABLE) :
    ∃ row', (s.reopen pair_id).2.get pair_id = some row' ∧ row'.disposition = "open" := by
  obtain ⟨-, hid⟩ := get_pair_id hrow
  refine ⟨row.settle fun _ => ⟨"open", none, none⟩, ?_, rfl⟩
  have hp : (decide (row.pair_id = pair_id) && decide (row.disposition ∈ REOPENABLE)) = true := by
    simp [hid, hd]
  unfold reopen
  simp only
  rw [get_settle, hrow, Option.map_some, if_pos hp]

/-- What a settling command may come to when it raises. -/
def Failed (w : World) (id pair_id : Id) (n : ℕ) (t : Recorded) : Prop :=
  Unmarked w id t ∨ (Stranded w id n t ∧ Standing pair_id "open" t)

/-- **`_dispose_with_rollback`.** What has been stranded is reopened. -/
theorem dispose_with_rollback_triple {α : Type} {d actor : String} {mutate : Code α}
    (hd : d ∈ REOPENABLE) (hopen : pair.disposition = "open") (hapart : mutate.Uses apart)
    (hmutate : Triple (host.answer.striking breakable n exc) (Unmarked w id) mutate
      (fun _ t => Unmarked w id t ∨ Superseded w id n t)
      (fun t => Unmarked w id t ∨ Stranded w id n t)) :
    Triple (host.answer.striking breakable n exc) (Pending w id pair_id pair)
      (cli.dispose_with_rollback pair_id d actor mutate)
      (fun _ t => Unmarked w id t ∨ Superseded w id n t) (Failed w id pair_id n) := by
  have hne : ∀ d ∈ REOPENABLE, d ≠ "open" ∧ d ∈ DISPOSITIONS := by decide
  -- a call that lets the pointer stand, and is no supersession, leaves the memory unmarked
  have hretains : ∀ {c : Call} {t : Recorded} {t' : World} {r}, retains c →
      successors t' id = successors t.1 id → Unmarked w id t →
        Unmarked w id (t', t.2 ++ [⟨c, r⟩]) :=
    fun hc hsame ht => ⟨hsame.trans ht.1, log_concat ht.2 (not_supersedes_of_retains hc)⟩
  refine triple_bind (S := fun _ t => Unmarked w id t ∧ Standing pair_id d t)
    (triple_bind (pending_inert now_iso_inert fun _ => .inl) fun now => ?_) fun _ => ?_
  · refine triple_striking (fun t es ht _ _ => .inl (hretains (t := (t, es)) trivial rfl ht.1))
      (fun t es a t' ht _ hrun => ?_) fun t es e t' ht _ hrun => .inl ?_
    · obtain rfl : _ = t' := congrArg Prod.snd hrun
      refine ⟨hretains (t := (t, es)) trivial rfl ht.1, ?_⟩
      exact PairStore.get_dispose (hne d hd).2 ht.2 hopen
    · obtain rfl : _ = t' := congrArg Prod.snd hrun
      exact hretains (t := (t, es)) trivial rfl ht.1
  · -- the mutation fails with the pair still disposed of; putting it back is the one thing
    -- left
    refine triple_tryCatch ((hmutate.and_keeps (standing_apart (hne d hd).1 hapart)).mono
      (fun _ h => h) (fun _ _ h => h.1) fun _ h => h) fun e => ?_
    refine triple_bind (S := fun _ => Failed w id pair_id n) ?_ fun _ =>
      triple_throw (I := Api) e fun _ h => h
    refine triple_striking (fun t es ht hlength _ => .inl ?_) (fun t es a t' ht _ hrun => ?_)
      fun t es e t' ht _ hrun => ?_
    · -- what is stranded has had its failure
      rcases ht.1 with hunmarked | hstranded
      · exact hretains (t := (t, es)) trivial rfl hunmarked
      · exact absurd hlength (strands_length hstranded.2).ne'
    · cases hrun
      refine ht.1.imp (fun h => hretains (t := (t, es)) trivial rfl h) fun h => ⟨⟨?_, ?_⟩, ?_⟩
      · exact h.1.concat (t := (t, es)) rfl
      · exact (strands_concat id n es _).mpr (.inl h.2)
      · obtain ⟨row, hrow, rfl⟩ := ht.2
        exact PairStore.get_reopen hrow hd
    · cases hrun

/-- A pair is loaded as it is stored, and has to be open. -/
theorem load_open_pair_triple :
    Triple (host.answer.striking breakable n exc) (Pending w id pair_id pair)
      (cli.load_open_pair pair_id)
      (fun row t => Pending w id pair_id pair t ∧ row = pair ∧ pair.disposition = "open")
      (Unmarked w id) := by
  have hlook : Triple (host.answer.striking breakable n exc) (Pending w id pair_id pair)
      (pair_store.get pair_id)
      (fun found t => Pending w id pair_id pair t ∧ found = some pair) (Unmarked w id) := by
    have hstep : ∀ t es r, Pending w id pair_id pair (t, es) →
        Pending w id pair_id pair (t, es ++ [⟨.pairs (.get pair_id), r⟩]) :=
      fun t es r ht => ⟨⟨ht.1.1, log_concat ht.1.2 (not_supersedes_of_inert trivial)⟩, ht.2⟩
    refine triple_striking (fun t es ht _ _ => (hstep t es _ ht).1) (fun t es a t' ht _ hrun => ?_)
      fun t es e t' ht _ hrun => ?_
    · cases hrun
      exact ⟨hstep t es _ ht, ht.2⟩
    · cases hrun
  refine triple_bind hlook fun found => ?_
  refine Triple.of_fact (fun _ h => h.2) fun hfound => Triple.of_pre ?_ fun _ h => h.1
  subst hfound
  simp only [expect, pure_eq, ret_bind]
  refine triple_bind (triple_of_ret (pending_inert (refuse_if_uses _ _) fun _ h => h)
    fun es u h => not_not.mp (refuse_if_ret h).2) fun _ => ?_
  exact triple_pure pair fun t ht => ⟨ht.1, rfl, ht.2⟩

/-- A memory that is to supersede itself is refused. -/
theorem run_invalidate_self_retains (client : cli.Client) (reason : String) :
    (cli.run_invalidate client id [id] reason).Uses retains := by
  refine uses_bind (cli.audited_uses retains_of_inert (cli.outcome_uses ?_)) fun result => ?_
  · unfold invalidate check_invalidate
    by_cases hid : id = ""
    · have hnone : distinct_ids [id] = [] := by
        rw [hid]
        rfl
      simp only [hnone, refuse_if, if_true]
      exact uses_throw _
    · have hself : distinct_ids [id] = [id] := by
        have heq : distinct_ids [id] = [id].filter (fun b => decide (b ≠ "")) := rfl
        rw [heq]
        exact List.filter_cons_of_pos (decide_eq_true hid)
      simp only [hself, refuse_if, List.cons_ne_nil, if_false, List.mem_singleton, if_true]
      exact uses_throw _
  · cases result with
    | ok r => exact uses_pure r
    | error e => exact uses_throw _

/-- The second half of a merge. -/
theorem merge_tail_triple (client : cli.Client) (hid : pair.old_id = id)
    (hopen : pair.disposition = "open") :
    Triple (host.answer.striking breakable n exc)
      (fun t => Unmarked w id t ∧ (pair.new_id ≠ id → t.1.pairs.get pair_id = some pair))
      (cli.dispose_with_rollback pair_id "merged" client.actor do
        let result ← cli.run_invalidate client pair.old_id [pair.new_id]
          s!"merged into {pair.new_id} (pair {pair_id})"
        pure (cli.FollowUp.merged pair.new_id result))
      (fun _ t => Unmarked w id t ∨ Superseded w id n t) (Failed w id pair_id n) := by
  subst hid
  by_cases hself : pair.new_id = pair.old_id
  · refine (keeps_unmarked ?_ fun _ => .inl).mono (fun _ h => h.1) (fun _ _ => .inl) fun _ h => h
    rw [hself]
    refine uses_bind (uses_bind (uses_perform trivial) fun _ => uses_perform trivial) fun _ => ?_
    refine uses_tryCatch (uses_bind (run_invalidate_self_retains client _) fun _ => uses_pure _)
      fun e => ?_
    exact uses_bind (uses_perform trivial) fun _ => uses_throw (I := Api) e
  · refine (dispose_with_rollback_triple (by decide) hopen ?_ ?_).of_pre fun t ht =>
      ⟨ht.1, ht.2 hself⟩
    · exact uses_bind invalidate_apart fun _ => uses_pure _
    · refine triple_bind (run_invalidate_triple client _ _) fun _ => ?_
      exact triple_pure _ fun _ h => .inr h

/-- A confirmation leaves the memory as it was, or supersedes it; when it raises, it is superseded
only if it is stranded. -/
theorem confirm_mutation_triple (client : cli.Client) :
    Triple (host.answer.striking breakable n exc) (Unmarked w pair.old_id)
      (cli.confirm_mutation client pair)
      (fun _ t => Unmarked w pair.old_id t ∨ Superseded w pair.old_id n t)
      (fun t => Unmarked w pair.old_id t ∨ Stranded w pair.old_id n t) := by
  unfold cli.confirm_mutation
  split
  · exact triple_pure _ fun _ => .inl
  split
  · refine triple_bind (keeps_unmarked (apply_ttl_retains _ _ _) fun _ => .inl) fun _ => ?_
    exact triple_pure _ fun _ => .inl
  · refine triple_bind (run_invalidate_triple client _ _) fun _ => ?_
    exact triple_pure _ fun _ => .inr

/-- What an update does to pairs. -/
def rewords (updated : Id) : Call → Prop
  | .pairs (.close_for_updated_text id _ _) => id = updated
  | .pairs op => op.reads
  | _ => True

theorem rewords_of_inert {updated : Id} (c : Call) (h : inert c) : rewords updated c := by
  cases c with
  | pairs op =>
    cases op with
    | close_for_updated_text _ _ _ => exact h.elim
    | _ => exact h
  | _ => trivial

/-- An update of another memory leaves the pair alone. -/
theorem reword_keeps_pair {α : Type} {updated : Id} (hold : pair.old_id ≠ updated) {p : Code α}
    (hp : p.Uses (rewords updated)) :
    p.Keeps (host.answer.striking breakable n exc) fun t => t.1.pairs.get pair_id = some pair := by
  refine hp.keeps fun c t hc ht => ?_
  rcases striking_cases host n exc c t with ⟨heq, -⟩ | ⟨heq, -⟩
  · rw [heq]
    exact ht
  rw [heq]
  by_cases hop : ∃ op, c = .pairs op
  · obtain ⟨op, rfl⟩ := hop
    cases op with
    | close_for_updated_text x text now =>
      obtain rfl : x = updated := hc
      change ((t.1.pairs.close_for_updated_text host.text_hash x text now).2).get pair_id =
        some pair
      unfold PairStore.close_for_updated_text
      simp only
      rw [PairStore.get_settle, ht, Option.map_some, if_neg]
      simp [hold]
    | has_judgment _ _ _ _ | judged_either _ _ _ | get _ => exact ht
    | consecutive_dismissed_displacement_evidence _ _ _ => exact ht
    | _ => exact (show False from hc).elim
  · have hsame := host.answer_pairs (fun op heq => hop ⟨op, heq⟩) t.1
    exact (congrArg (PairStore.get · pair_id) hsame).trans ht

/-- **The commands.** One that raises has left the old memory alone, or has stranded it
and reopened the pair. -/
theorem settle_triple (host : Host) (n : ℕ) (exc : Exn) (client : cli.Client) (cmd : cli.Stale) :
    Triple (host.answer.striking breakable n exc) (Pending w pair.old_id pair_id pair)
      (cmd.run host client pair_id)
      (fun _ t => Unmarked w pair.old_id t ∨ Superseded w pair.old_id n t)
      (Failed w pair.old_id pair_id n) := by
  have hE : ∀ t, Unmarked w pair.old_id t → Failed w pair.old_id pair_id n t := fun _ => .inl
  have hload : Triple (host.answer.striking breakable n exc) (Pending w pair.old_id pair_id pair)
      (cli.load_open_pair pair_id)
      (fun row t => Pending w pair.old_id pair_id pair t ∧ row = pair ∧ pair.disposition = "open")
      (Failed w pair.old_id pair_id n) :=
    load_open_pair_triple.mono (fun _ h => h) (fun _ _ h => h) hE
  have hauth : ∀ force action,
      (cli.require_disposition_authority client pair force action).Uses inert :=
    fun force action => cli.require_disposition_authority_uses client pair force action
  cases cmd with
  | confirm force =>
    refine triple_bind hload fun row => Triple.of_fact (fun _ h => h.2) ?_
    rintro ⟨rfl, hopen⟩
    refine Triple.of_pre ?_ fun _ h => h.1
    refine triple_bind (pending_inert (refuse_if_uses _ _) hE) fun _ => ?_
    refine triple_bind (pending_inert (hauth _ _) hE) fun _ => ?_
    exact dispose_with_rollback_triple (by decide) hopen
      (cli.confirm_mutation_uses apart_of_inert (fun _ => trivial) fun _ _ _ _ => trivial)
      (confirm_mutation_triple client)
  | ttl days =>
    refine triple_bind hload fun row => Triple.of_fact (fun _ h => h.2) ?_
    rintro ⟨rfl, hopen⟩
    refine Triple.of_pre ?_ fun _ h => h.1
    refine triple_bind (pending_inert (refuse_if_uses _ _) hE) fun _ => ?_
    refine dispose_with_rollback_triple (by decide) hopen (uses_bind ttl_apart fun _ =>
      uses_pure _) ?_
    refine triple_bind (keeps_unmarked (apply_ttl_retains _ _ _) fun _ => .inl) fun _ => ?_
    exact triple_pure _ fun _ => .inl
  | dismiss force =>
    refine triple_bind hload fun row => Triple.of_fact (fun _ h => h.2) ?_
    rintro ⟨rfl, hopen⟩
    refine Triple.of_pre ?_ fun _ h => h.1
    refine triple_bind (pending_inert (hauth _ _) hE) fun _ => ?_
    refine Triple.of_pre ?_ fun _ h => h.1
    refine triple_bind (keeps_unmarked ?_ hE) fun _ => triple_pure _ fun _ => .inl
    exact uses_bind (uses_perform trivial) fun _ => uses_perform trivial
  | merge merged_text force =>
    refine triple_bind hload fun row => Triple.of_fact (fun _ h => h.2) ?_
    rintro ⟨rfl, hopen⟩
    refine Triple.of_pre ?_ fun _ h => h.1
    refine triple_bind (pending_inert (refuse_if_uses _ _) hE) fun _ => ?_
    refine triple_bind (pending_inert (hauth _ _) hE) fun _ => ?_
    -- the rewording as one program: up to its end the old memory is left as it was
    have hassoc : ∀ f : Option Bool → Code cli.FollowUp,
        (cli.get row.new_id >>= fun existing =>
          cli.updated_memory_metadata client existing
            (.ofList [("merged_from", .str row.old_id)]) >>=
            fun metadata => cli.audited "update"
              (ops.update host row.new_id merged_text metadata) >>= f) =
        ((cli.get row.new_id >>= fun existing =>
          cli.updated_memory_metadata client existing
            (.ofList [("merged_from", .str row.old_id)]) >>=
            fun metadata => cli.audited "update"
              (ops.update host row.new_id merged_text metadata)) >>=
          f) := fun f => by simp only [Prog.bind_assoc]
    rw [hassoc]
    have hextra : SUPERSEDED_BY ∉ Payload.ofList [("merged_from", .str row.old_id)] :=
      AList.lookup_eq_none.mp (Payload.lookup_ofList_ne (by simp [SUPERSEDED_BY]))
    have hreword : Triple (host.answer.striking breakable n exc) (Unmarked w row.old_id)
        (cli.get row.new_id >>= fun existing =>
          cli.updated_memory_metadata client existing
            (.ofList [("merged_from", .str row.old_id)]) >>=
            fun metadata => cli.audited "update" (ops.update host row.new_id merged_text metadata))
        (fun _ => Unmarked w row.old_id) (Unmarked w row.old_id) :=
      reword_triple client row.new_id row.old_id merged_text hextra
    refine triple_bind (S := fun _ t => Unmarked w row.old_id t ∧
      (row.new_id ≠ row.old_id → t.1.pairs.get pair_id = some row)) ?_ fun _ =>
      merge_tail_triple client rfl hopen
    -- the second half finds the pair still there, unless it is about the memory that is
    -- reworded
    by_cases hself : row.new_id = row.old_id
    · exact hreword.mono (fun _ h => h.1) (fun _ _ h => ⟨h, fun hne => absurd hself hne⟩) hE
    · refine (hreword.and_keeps (reword_keeps_pair (Ne.symm hself) ?_)).mono
        (fun _ h => h) (fun _ _ h => ⟨h.1, fun _ => h.2⟩) fun _ h => hE _ h.1
      refine uses_bind ((cli.get_inert _).mono rewords_of_inert) fun _ => ?_
      refine uses_bind ((cli.updated_memory_metadata_inert _ _ _).mono rewords_of_inert) fun _ => ?_
      exact cli.audited_uses rewords_of_inert
        (update_uses rewords_of_inert (fun _ _ => trivial) trivial fun _ => rfl)

/-- Which call strands an invalidation can be read off a run in which nothing fails. -/
theorem strands_log_iff {α : Type} (exc : Exn) (p : Code α) :
    Strands id n (p.run (host.answer.striking breakable n exc) (w, [])).2.2 ↔
      Strands id n (p.calls host.answer w) := by
  obtain ⟨htake, hnext⟩ := striking_calls (h := host.answer) breakable n exc p w
  rw [Strands, Strands, htake, hnext]

end calls

/-- **A step that fails.** `invalidate` raises with nothing done or succeeds, and no command
reopens a pair whose old memory it has superseded, exactly when the step that fails is not
one that comes after the mark and raises: the closing of the pairs, or the audit row. -/
theorem all_or_nothing_iff (host : Host) (w : World) (n : ℕ) (exc : Exn) :
    (∀ memory_id by_ids reason actor_id session_id,
      let p := invalidate memory_id by_ids reason actor_id session_id
      AllOrNothing w memory_id (run_broken host n exc p w) ↔
        ¬ Strands memory_id n (p.calls host.answer w)) ∧
    ∀ client pair_id cmd, ∀ pair ∈ w.pairs.get pair_id,
      let p := cli.Stale.run host client pair_id cmd
      RollsBack w pair (run_broken host n exc p w) ↔
        ¬ Strands pair.old_id n (p.calls host.answer w) := by
  -- an invalidation by itself, and then a command that settles a pair with one
  refine ⟨fun memory_id by_ids reason actor_id session_id => ?_,
    fun client pair_id cmd pair hpair => ?_⟩
  · intro p
    have hstart : Untouched w memory_id (w, []) := ⟨rfl, fun _ he => absurd he List.not_mem_nil⟩
    obtain ⟨hok, herror⟩ :=
      invalidate_triple host n exc by_ids reason actor_id session_id (w, []) hstart
    rw [← strands_log_iff exc]
    -- it has raised and left the memory alone, it has raised and is stranded, or it has not raised
    rcases hrun : p.run (host.answer.striking breakable n exc) (w, []) with ⟨e | r, t⟩
    · rcases herror e t hrun with huntouched | hstranded
      · exact iff_of_true (fun _ _ => by rw [run_broken, hrun]; exact huntouched.1)
          (not_strands_of_none huntouched.2)
      · refine iff_of_false (fun hall => ?_) (not_not.mpr hstranded.2)
        have hsame := hall e (by rw [run_broken, hrun])
        rw [run_broken, hrun] at hsame
        exact hstranded.1.2.1 ((successors_congr hsame).trans hstranded.1.1)
    · refine iff_of_true (fun e he => ?_) (hok r t hrun).2
      rw [run_broken, hrun] at he
      cases he
  · intro p
    have hstart : Pending w pair.old_id pair_id pair (w, []) :=
      ⟨⟨rfl, fun _ he => absurd he List.not_mem_nil⟩, hpair⟩
    obtain ⟨hok, herror⟩ := settle_triple host n exc client cmd (w, []) hstart
    rw [← strands_log_iff exc]
    rcases hrun : p.run (host.answer.striking breakable n exc) (w, []) with ⟨e | r, t⟩
    · rcases herror e t hrun with hunmarked | ⟨hstranded, row, hrow, hopen⟩
      · refine iff_of_true (fun _ _ _ hactive => ?_) (not_strands_of_none hunmarked.2)
        rw [run_broken, hrun]
        exact hunmarked.1.trans hactive
      · refine iff_of_false (fun hback => ?_) (not_not.mpr hstranded.2)
        rw [run_broken, hrun] at hback
        obtain ⟨-, hid⟩ := PairStore.get_pair_id hpair
        exact hstranded.1.2.1 (hback e rfl ⟨row, hid ▸ hrow, hopen⟩ hstranded.1.1)
    · refine iff_of_true (fun e he => ?_) ?_
      · rw [run_broken, hrun] at he
        cases he
      · rcases hok r t hrun with hunmarked | hsuperseded
        · exact not_strands_of_none hunmarked.2
        · exact hsuperseded.2

/-! ### A pair whose closing fails -/

/-- A suspicion of session `s1` that one note displaces the other. -/
def rivalry : PairRow where
  pair_id := "p"
  kind := KIND_DISPLACEMENT
  new_id := "new"
  old_id := "old"
  old_text_hash := "A"
  verdict := "SUPERSEDED"
  confidence := some 1
  reason := none
  judged_at := "t"
  judge_model := none
  new_session_id := some "s1"
  disposition := "open"
  disposed_by := none
  disposed_at := none

def rivals : World :=
  { (World.empty.put "old" (.ofList [("data", .str "A")])).put "new"
    (.ofList [("data", .str "B")]) with
    pairs := PairStore.empty.insert rivalry }

/-- The session confirms it, and call number `n` fails. -/
def confirmed_broken (n : ℕ) : Except Exn cli.FollowUp × World :=
  run_broken .plain n (.other "database is locked")
    (cli.Stale.run .plain (.plain "s1") "p" (.confirm false)) rivals

/-- A confirmation that is broken at a late call: whether it rolls back is decided by what it had
called before. -/
theorem all_or_nothing_confirmed :
    RollsBack rivals rivalry (confirmed_broken 10) ↔ ¬ Strands "old" 10
      ((cli.Stale.run .plain (.plain "s1") "p" (.confirm false)).calls Host.plain.answer rivals) :=
  (all_or_nothing_iff .plain rivals 10 _).2 _ "p" _ rivalry rfl

/-- The closing of the pairs fails: the pair is open again, and the memory is gone. -/
theorem confirmed_and_reopened :
    ¬ ∀ (host : Host) (w : World) (n : ℕ) (exc : Exn),
      (∀ memory_id by_ids reason actor_id session_id, AllOrNothing w memory_id
        (run_broken host n exc (invalidate memory_id by_ids reason actor_id session_id) w)) ∧
      ∀ client pair_id cmd, ∀ pair ∈ w.pairs.get pair_id,
        RollsBack w pair (run_broken host n exc (cli.Stale.run host client pair_id cmd) w) := by
  intro h
  have hback := (h .plain rivals 10 (.other "database is locked")).2 (.plain "s1") "p"
    (.confirm false) rivalry rfl
  have hraised : (confirmed_broken 10).1 = .error (.click_exception "database is locked") := rfl
  have hopen : ((confirmed_broken 10).2.pairs.get "p").map (·.disposition) = some "open" := rfl
  obtain ⟨row, hrow, hdisposition⟩ := Option.map_eq_some_iff.mp hopen
  have hnone := hback _ hraised ⟨row, hrow, hdisposition⟩ rfl
  exact absurd hnone (by decide +kernel)

end Memline
