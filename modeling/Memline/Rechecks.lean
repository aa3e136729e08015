/-
Checking again: what a check asks its judges in a store that other checks and
operations have left, and what it leaves on record.

Every call of a check may fail. A judge is asked only what is not on record for the text a
memory has; when it raises, what it was asked stays off the record, and whatever is off
the record the next check asks about, unless that one raises before it gets there. Nothing
goes off the record, so a judgment that is made is not asked for again.
-/
import Memline.CrossChecks

set_option autoImplicit false

namespace Memline

open Effect Effect.Logic SqlTable

/-! ## What a check asks -/

/-- The key of a self check of a memory, as its text reads in `w`. -/
def self_key (host : Host) (w : World) (kind : String) (m : Id) : String × Id × Id × String :=
  (kind, m, m, host.text_hash (w.text m))

/-- The pair is on record in one direction or the other, for the text the old side has. -/
def Known (host : Host) (w : World) (s : PairStore) (m old_id : Id) : Prop :=
  Has s (displacement_key host w m old_id) ∨ Has s (displacement_key host w old_id m)

/-- There is something to judge. -/
def Live (w : World) (m : Id) : Prop :=
  ∃ p, w.payload m = some p ∧ is_invalidated p = false ∧ payload_text p ≠ ""

/-- A judge is asked about a memory on its own. -/
def AsksSelf (m : Id) (kind : String) (e : Ev) : Prop :=
  ∃ entry context r, e = ⟨.judge_self kind entry context, r⟩ ∧ entry.id = m

/-- A judge is asked whether one memory displaces the other. -/
def AsksPair (m old_id : Id) (e : Ev) : Prop :=
  ∃ entry candidates r, e = ⟨.judge entry candidates, r⟩ ∧ entry.id = m ∧
    old_id ∈ candidates.map JudgeEntry.id

def Raised (e : Ev) : Prop := ∃ exc, e.2 = .error exc

/-- The lookup of the memory has failed. -/
def Unread (m : Id) (es : List Ev) : Prop := ∃ exc, (⟨.vs_get m, .error exc⟩ : Ev) ∈ es

/-- What the call asks a judge, if it does, is not on record in `s`. -/
structure OffRecord (host : Host) (w : World) (s : PairStore) (e : Ev) : Prop where
  self : ∀ m kind, AsksSelf m kind e → ¬ Has s (self_key host w kind m)
  pair : ∀ m old_id, AsksPair m old_id e → ¬ Known host w s m old_id

/-- Each self check of `m` is on record or has been asked. -/
def SelfCovered (host : Host) (w : World) (m : Id) (kinds : List String) (es : List Ev) : Prop :=
  ∀ kind ∈ kinds, Has w.pairs (self_key host w kind m) ∨ ∃ e ∈ es, AsksSelf m kind e

/-- The candidates for what `m` displaces, as a search and a reading of the clock give them. -/
def Candidates (m : Id) (top_k : ℕ) (candidates : List JudgeEntry) (es : List Ev) : Prop :=
  ∃ items now query limit filters, (⟨.search query limit filters, .ok items⟩ : Ev) ∈ es ∧
    (⟨.now_iso, .ok now⟩ : Ev) ∈ es ∧ candidates = displacement_candidates m now top_k items []

/-- Each pair of `m` with a candidate is on record or has been asked about. -/
def PairsCovered (host : Host) (w : World) (m : Id) (top_k : ℕ) (es : List Ev) : Prop :=
  ∃ candidates, Candidates m top_k candidates es ∧
    ∀ old ∈ candidates, Known host w w.pairs m old.id ∨ ∃ e ∈ es, AsksPair m old.id e

/-- What one check does in `w`, given the calls it makes, how it ends and where. -/
structure Advises (host : Host) (c : StaleCheck) (w : World) (es : List Ev)
    (r : Except Exn StaleReport) (w' : World) : Prop where
  /-- Every memory is as it was. -/
  points : w'.points = w.points
  /-- Rows are added, and each is the only one of its kind, memories and text. -/
  rows : (∃ added, w'.pairs.rows = w.pairs.rows ++ added) ∧
    (w'.pairs.rows.map PairRow.version).Nodup
  /-- A judge is asked nothing that is on record. -/
  asked : ∀ e ∈ es, OffRecord host w w.pairs e
  /-- What a judge was asked when it raised is not on record. -/
  raised : ∀ e ∈ es, Raised e → OffRecord host w w'.pairs e
  /-- What is not on record is judged, unless the check raises or cannot read the memory. -/
  judged : Live w c.new_id → (∃ exc, r = .error exc) ∨ Unread c.new_id es ∨
    SelfCovered host w c.new_id self_kinds es ∧
      (c.self_only = false → PairsCovered host w c.new_id c.top_k es)

/-! ## The watched check -/

/-- The world a check has reached, and its calls. -/
abbrev Followed : Type := World × List Ev

def judges : Call → Prop
  | .judge .. | .judge_self .. => True
  | _ => False

/-- What judges nothing needs nothing on record. -/
theorem offRecord_of_not_judges {host : Host} {w : World} {s : PairStore} {e : Ev}
    (he : ¬ judges e.1) : OffRecord host w s e := by
  refine ⟨fun m kind h => absurd ?_ he, fun m old_id h => absurd ?_ he⟩
  · obtain ⟨entry, context, r, rfl, -⟩ := h
    trivial
  · obtain ⟨entry, candidates, r, rfl, -⟩ := h
    trivial

section watched

variable (host : Host) (w : World)

/-- So far nothing on record was asked and no judge has raised. -/
structure Smooth (t : Followed) : Prop where
  points : t.1.points = w.points
  asked : ∀ e ∈ t.2, OffRecord host w w.pairs e
  answered : ∀ e ∈ t.2, judges e.1 → ¬ Raised e

/-- These kinds are dealt with, and no pair is judged yet. -/
structure Resting (m : Id) (done : List String) (t : Followed) : Prop extends Smooth host w t where
  kept : ∀ key, Has w.pairs key → Has t.1.pairs key
  self_new : ∀ kind, Has t.1.pairs (self_key host w kind m) →
    Has w.pairs (self_key host w kind m) ∨ kind ∈ done
  pair_new : ∀ old_id, Known host w t.1.pairs m old_id → Known host w w.pairs m old_id
  covered : SelfCovered host w m done t.2

/-- The search has handed out these items. -/
structure Searched (m : Id) (items : List Item) (t : Followed) : Prop
    extends Resting host w m self_kinds t where
  shown : AllShowText w.text items
  searched : ∃ query limit filters, (⟨.search query limit filters, .ok items⟩ : Ev) ∈ t.2

/-- Of the candidates, these are left to judge. -/
structure Sifted (m : Id) (top_k : ℕ) (left : List JudgeEntry) (t : Followed) : Prop
    extends Resting host w m self_kinds t where
  unknown : ∀ old ∈ left, ¬ Known host w w.pairs m old.id
  sifted : ∃ candidates, Candidates m top_k candidates t.2 ∧
    ∀ old ∈ candidates, Known host w w.pairs m old.id ∨ old ∈ left

/-- The check has come to its end. -/
structure Complete (m : Id) (top_k : ℕ) (self_only : Bool) (t : Followed) : Prop
    extends Smooth host w t where
  covered : Live w m → Unread m t.2 ∨ SelfCovered host w m self_kinds t.2 ∧
    (self_only = false → PairsCovered host w m top_k t.2)

/-- The check has raised. -/
structure BrokenOff (t : Followed) : Prop where
  asked : ∀ e ∈ t.2, OffRecord host w w.pairs e
  raised : ∀ e ∈ t.2, Raised e → OffRecord host w t.1.pairs e

end watched

/-! ### One more call -/

section calls

variable {host : Host} {fault : Call → World → Option Exn} {w : World} {m : Id} {es : List Ev}

/-- A check that has gone smoothly is broken off by nothing yet. -/
theorem Smooth.brokenOff {t : Followed} (h : Smooth host w t) : BrokenOff host w t := by
  refine ⟨h.asked, fun e he hraised => offRecord_of_not_judges fun hjudges => ?_⟩
  exact h.answered e he hjudges hraised

/-- One more event, by which nothing was judged in vain. -/
theorem Smooth.step {t : Followed} (h : Smooth host w t) {w' : World} {e : Ev}
    (hpoints : w'.points = t.1.points) (hasked : OffRecord host w w.pairs e)
    (he : judges e.1 → ¬ Raised e) : Smooth host w (w', t.2 ++ [e]) := by
  refine ⟨hpoints.trans h.points, fun e' he' => ?_, fun e' he' => ?_⟩
  · rcases List.mem_append.mp he' with he' | he'
    · exact h.asked e' he'
    · rw [List.mem_singleton.mp he']
      exact hasked
  · rcases List.mem_append.mp he' with he' | he'
    · exact h.answered e' he'
    · rw [List.mem_singleton.mp he']
      exact he

/-- A judge raises, and nothing is recorded. -/
theorem Smooth.broken {t : Followed} (h : Smooth host w t) {w' : World} {e : Ev}
    (hasked : OffRecord host w w.pairs e) (hraised : OffRecord host w w'.pairs e) :
    BrokenOff host w (w', t.2 ++ [e]) := by
  refine ⟨fun e' he' => ?_, fun e' he' hr => ?_⟩
  · rcases List.mem_append.mp he' with he' | he'
    · exact h.asked e' he'
    · rw [List.mem_singleton.mp he']
      exact hasked
  · rcases List.mem_append.mp he' with he' | he'
    · exact offRecord_of_not_judges fun hjudges => h.answered e' he' hjudges hr
    · rw [List.mem_singleton.mp he']
      exact hraised

/-- What was asked has been asked after one more event. -/
theorem asked_step {φ : Ev → Prop} (e : Ev) (h : ∃ e' ∈ es, φ e') : ∃ e' ∈ es ++ [e], φ e' := by
  obtain ⟨e', he', hφ⟩ := h
  exact ⟨e', List.mem_append_left _ he', hφ⟩

/-- The checks of the memory itself are covered after one more event. -/
theorem SelfCovered.step {kinds : List String} (h : SelfCovered host w m kinds es) (e : Ev) :
    SelfCovered host w m kinds (es ++ [e]) :=
  fun kind hkind => (h kind hkind).imp_right (asked_step e)

/-- The candidates are those of the search after one more event. -/
theorem Candidates.step {top_k : ℕ} {candidates : List JudgeEntry}
    (h : Candidates m top_k candidates es) (e : Ev) :
    Candidates m top_k candidates (es ++ [e]) := by
  obtain ⟨items, now, query, limit, filters, hsearch, hnow, heq⟩ := h
  exact ⟨items, now, query, limit, filters, List.mem_append_left _ hsearch,
    List.mem_append_left _ hnow, heq⟩

theorem PairsCovered.step {top_k : ℕ} (h : PairsCovered host w m top_k es) (e : Ev) :
    PairsCovered host w m top_k (es ++ [e]) := by
  obtain ⟨candidates, hcandidates, hall⟩ := h
  exact ⟨candidates, hcandidates.step e, fun old hold => (hall old hold).imp_right (asked_step e)⟩

/-- One more event that changes neither points nor pairs. -/
theorem Resting.step {done : List String} {t : Followed} (h : Resting host w m done t) {w' : World}
    {e : Ev} (hpoints : w'.points = t.1.points) (hpairs : w'.pairs = t.1.pairs)
    (hasked : OffRecord host w w.pairs e) (he : judges e.1 → ¬ Raised e) :
    Resting host w m done (w', t.2 ++ [e]) where
  toSmooth := h.toSmooth.step hpoints hasked he
  kept key hkey := by
    rw [hpairs]
    exact h.kept key hkey
  self_new kind hhas := by
    rw [hpairs] at hhas
    exact h.self_new kind hhas
  pair_new old_id hknown := by
    rw [hpairs] at hknown
    exact h.pair_new old_id hknown
  covered := h.covered.step e

/-- An assertion that no call disturbs but a judge's and one that writes. -/
def Undisturbed (P : Followed → Prop) : Prop :=
  ∀ (t : World) (es : List Ev) (t' : World) (e : Ev), ¬ judges e.1 → t'.points = t.points →
    t'.pairs = t.pairs → P (t, es) → P (t', es ++ [e])

/-- A check that rests between two kinds is disturbed by nothing inert. -/
theorem undisturbed_resting {done : List String} : Undisturbed (Resting host w m done) := by
  intro t es t' e he hpoints hpairs h
  exact h.step hpoints hpairs (offRecord_of_not_judges he) fun hjudges => absurd hjudges he

theorem undisturbed_searched {items : List Item} : Undisturbed (Searched host w m items) := by
  intro t es t' e he hpoints hpairs h
  obtain ⟨query, limit, filters, hmem⟩ := h.searched
  exact ⟨undisturbed_resting t es t' e he hpoints hpairs h.toResting, h.shown,
    query, limit, filters, List.mem_append_left _ hmem⟩

theorem undisturbed_complete {top_k : ℕ} {self_only : Bool} :
    Undisturbed (Complete host w m top_k self_only) := by
  intro t es t' e he hpoints _ h
  refine ⟨h.toSmooth.step hpoints (offRecord_of_not_judges he) fun hjudges => absurd hjudges he,
    fun hlive => ?_⟩
  refine (h.covered hlive).imp (fun ⟨exc, hexc⟩ => ⟨exc, List.mem_append_left _ hexc⟩) ?_
  rintro ⟨hself, hpairs⟩
  exact ⟨hself.step e, fun hfull => (hpairs hfull).step e⟩

theorem undisturbed_mem {e : Ev} : Undisturbed fun t : Followed => e ∈ t.2 :=
  fun _ _ _ _ _ _ _ h => List.mem_append_left _ h

theorem undisturbed_asked {φ : Ev → Prop} : Undisturbed fun t : Followed => ∃ e ∈ t.2, φ e :=
  fun _ _ _ e _ _ _ h => asked_step e h

theorem Undisturbed.and {P Q : Followed → Prop} (hP : Undisturbed P) (hQ : Undisturbed Q) :
    Undisturbed fun t => P t ∧ Q t := by
  intro t es t' e he hpoints hpairs h
  exact ⟨hP t es t' e he hpoints hpairs h.1, hQ t es t' e he hpoints hpairs h.2⟩

/-- How a call came to its answer, from a world with the same memories and pairs. -/
def Came (host : Host) (c : Call) (a : c.Answer) (t : Followed) :
    Prop :=
  (⟨c, .ok a⟩ : Ev) ∈ t.2 ∧ ∃ t₀, host.answer c t₀ = (.ok a, t.1) ∧ t.1.points = t₀.points ∧
    t.1.pairs = t₀.pairs

theorem inert_run {c : Call} (hc : inert c) {t t' : World} {r : Except Exn c.Answer}
    (hrun : host.failing fault c t = (r, t')) : t'.points = t.points ∧ t'.pairs = t.pairs := by
  have hend : (host.failing fault c t).2 = t' := congrArg Prod.snd hrun
  rw [← hend]
  exact inert_same hc

/-- A call that neither asks a judge nor writes. -/
theorem inert_spec {P : Followed → Prop} (hP : Undisturbed P) {c : Call} (hc : inert c)
    (hjudges : ¬ judges c) :
    (host.failing fault).watched.logic.Spec P (Prog.perform (I := Api) c)
      (fun a t => P t ∧ Came host c a t) P := by
  refine Handler.spec_perform (fun t es a t' hpre hrun => ?_) fun t es e t' hpre hrun => ?_
  · have hsame := inert_run hc hrun
    refine ⟨hP t es t' _ hjudges hsame.1 hsame.2 hpre, List.mem_append_right _ List.mem_cons_self,
      t, ?_, hsame.1, hsame.2⟩
    rcases host.failing_cases fault c t with ⟨exc, hfail⟩ | hok
    · rw [hfail] at hrun
      cases hrun
    · rw [← hok]
      exact hrun
  · have hsame := inert_run hc hrun
    exact hP t es t' _ hjudges hsame.1 hsame.2 hpre

/-- A judgment is recorded after calls that disturb nothing. -/
theorem stamped_spec {P E : Followed → Prop} {R : PairRow × Bool → Followed → Prop}
    (hP : Undisturbed P) (hE : ∀ t, P t → E t) {judge_model : Option String}
    {j : Option String → Judgment} (hrecord : ∀ model pair_id judged_at t es, P (t, es) →
      let c : Call := .pairs (.record_judgment (j model) pair_id judged_at)
      ∀ a : PairRow × Bool, R a ((host.answer c t).2, es ++ [⟨c, .ok a⟩])) :
    (host.failing fault).watched.logic.Spec P (stamped judge_model j) R E := by
  have hcall : ∀ c : Call, inert c → ¬ judges c →
      (host.failing fault).watched.logic.Spec P (Prog.perform (I := Api) c) (fun _ => P) E :=
    fun c hc hjudges => (inert_spec hP hc hjudges).mono (fun _ h => h) (fun _ _ h => h.1) hE
  refine spec_bind (hcall _ trivial id) fun model => ?_
  refine spec_bind (hcall _ trivial id) fun pair_id => ?_
  refine spec_bind (hcall _ trivial id) fun judged_at => ?_
  refine Handler.spec_perform (fun t es a t' hpre hrun => ?_) fun t es e t' hpre hrun => ?_
  · rcases host.failing_cases fault (.pairs (.record_judgment (j model) pair_id judged_at)) t with
      ⟨exc, hfail⟩ | hok
    · rw [hfail] at hrun
      cases hrun
    · have hend :
          t' = (host.answer (.pairs (.record_judgment (j model) pair_id judged_at)) t).2 := by
        rw [← hok, hrun]
      rw [hend]
      exact hrecord model pair_id judged_at t es hpre a
  · rcases host.failing_cases fault (.pairs (.record_judgment (j model) pair_id judged_at)) t with
      ⟨exc, hfail⟩ | hok
    · have hend : t' = t := by
        rw [hfail] at hrun
        cases hrun
        rfl
      rw [hend]
      exact hE _ (hP t es t _ id rfl rfl hpre)
    · rw [hok] at hrun
      cases hrun

/-! ### The course of a check -/

theorem has_judgment_iff {text_hash : String → String} {s : PairStore} {new_id old_id : Id}
    {old_text kind : String} : s.has_judgment text_hash new_id old_id old_text kind = true ↔
      Has s (kind, new_id, old_id, text_hash old_text) := by
  rw [PairStore.has_judgment, List.any_eq_true]
  exact exists_congr fun r => and_congr_right fun _ => decide_eq_true_iff

/-- What recording puts on record: its own key, at most. -/
theorem has_of_record {t : World} {j : Judgment} {pair_id : Id} {judged_at : String}
    {key : String × Id × Id × String}
    (h : Has (host.answer (.pairs (.record_judgment j pair_id judged_at)) t).2.pairs key) :
    Has t.pairs key ∨ key = (j.kind, j.new_id, j.old_id, host.text_hash j.old_text) := by
  obtain ⟨r, hr, hkey⟩ := h
  have hrows := record_rows host (fun _ _ => none) t j pair_id judged_at
  rw [host.failing_none] at hrows
  rcases hrows with hsame | happend
  · rw [hsame] at hr
    exact .inl ⟨r, hr, hkey⟩
  · rw [happend] at hr
    rcases List.mem_append.mp hr with hr | hr
    · exact .inl ⟨r, hr, hkey⟩
    · right
      rw [← hkey, List.mem_singleton.mp hr]
      rfl

/-- Recording a judgment leaves those that are there. -/
theorem has_record {t : World} {j : Judgment} {pair_id : Id} {judged_at : String}
    {key : String × Id × Id × String} (h : Has t.pairs key) :
    Has (host.answer (.pairs (.record_judgment j pair_id judged_at)) t).2.pairs key := by
  rw [← host.failing_none]
  exact has_kept _ h

/-- A self judgment goes on record, and its kind is dealt with. -/
theorem Resting.record {done : List String} {kind : String} {t : World} {pair_id : Id}
    {judged_at : String} {a : PairRow × Bool} {j : Judgment} (h : Resting host w m done (t, es))
    (hasked : ∃ e ∈ es, AsksSelf m kind e) (hdone : done ++ [kind] <+: self_kinds)
    (hkind : j.kind = kind) :
    let c : Call := .pairs (.record_judgment j pair_id judged_at)
    Resting host w m (done ++ [kind]) ((host.answer c t).2, es ++ [⟨c, .ok a⟩]) := by
  have hself : kind ≠ KIND_DISPLACEMENT := by
    have hmem : kind ∈ self_kinds := hdone.subset (List.mem_append_right _ List.mem_cons_self)
    have hnot : ∀ kind ∈ self_kinds, kind ≠ KIND_DISPLACEMENT := by decide
    exact hnot kind hmem
  have hpair : ∀ a b : Id, displacement_key host w a b ≠
      (j.kind, j.new_id, j.old_id, host.text_hash j.old_text) := fun a b heq =>
    hself (hkind ▸ (congrArg Prod.fst heq).symm)
  refine ⟨h.toSmooth.step rfl (offRecord_of_not_judges id) (fun hjudges => hjudges.elim),
    fun key hkey => has_record (h.kept key hkey), fun kind' hhas => ?_, fun old_id hknown => ?_,
    fun kind' hkind' => ?_⟩
  · rcases has_of_record hhas with hhas | hkey
    · exact (h.self_new kind' hhas).imp_right (List.mem_append_left _)
    · have heq : kind' = j.kind := congrArg Prod.fst hkey
      rw [heq, hkind]
      exact .inr (List.mem_append_right _ List.mem_cons_self)
  · refine h.pair_new old_id (hknown.imp (fun hhas => ?_) fun hhas => ?_)
    · exact (has_of_record hhas).resolve_right (hpair _ _)
    · exact (has_of_record hhas).resolve_right (hpair _ _)
  · rcases List.mem_append.mp hkind' with hkind' | hkind'
    · exact h.covered.step _ kind' hkind'
    · rw [List.mem_singleton.mp hkind']
      exact .inr (asked_step _ hasked)

/-- The cache answers about a memory on its own. -/
theorem recorded_spec {payload : Payload} (hfound : w.payload m = some payload)
    (done : List String) (kind : String) :
    (host.failing fault).watched.logic.Spec (Resting host w m done)
      (pair_store.has_judgment m m (payload_text payload) kind)
      (fun cached t => if cached then Resting host w m (done ++ [kind]) t
        else Resting host w m done t ∧ ¬ Has w.pairs (self_key host w kind m))
      (BrokenOff host w) := by
  have htext : payload_text payload = w.text m := by
    rw [World.text, hfound]
    rfl
  refine (inert_spec (c := .pairs (.has_judgment m m (payload_text payload) kind))
    undisturbed_resting trivial id).mono (fun _ h => h) (fun cached t h => ?_)
    fun t h => h.toSmooth.brokenOff
  obtain ⟨hrest, -, t₀, hanswer, -, hpairs⟩ := h
  have hcached : cached = t.1.pairs.has_judgment host.text_hash m m (w.text m) kind := by
    rw [hpairs, ← htext]
    injection hanswer with hanswer _
    injection hanswer with hanswer
    exact hanswer.symm
  cases cached with
  | true =>
    have hhas := has_judgment_iff.mp hcached.symm
    refine ⟨hrest.toSmooth, hrest.kept, fun kind' hkind' => ?_, hrest.pair_new,
      fun kind' hkind' => ?_⟩
    · exact (hrest.self_new kind' hkind').imp_right (List.mem_append_left _)
    · rcases List.mem_append.mp hkind' with hkind' | hkind'
      · exact hrest.covered kind' hkind'
      · rw [List.mem_singleton.mp hkind']
        rcases hrest.self_new kind hhas with hhas | hmem
        · exact .inl hhas
        · exact hrest.covered kind hmem
  | false =>
    refine ⟨hrest, fun hhas => ?_⟩
    have hnow : t.1.pairs.has_judgment host.text_hash m m (w.text m) kind = true :=
      has_judgment_iff.mpr (hrest.kept _ hhas)
    rw [← hcached] at hnow
    cases hnow

/-- The candidates that are known: those judged either way with the texts that they have. -/
theorem mem_judged_either {s : PairStore} {x : Id} {xs : List (Id × String)}
    (hxs : ∀ y ∈ xs, y.2 = w.text y.1) :
    x ∈ s.judged_either host.text_hash m (w.text m) xs ↔
      x ∈ xs.map Prod.fst ∧ Known host w s m x := by
  have hany : ∀ y ∈ xs, (s.rows.any fun r =>
      decide (r.version = ("displacement", m, y.1, host.text_hash y.2)) ||
        decide (r.version = ("displacement", y.1, m, host.text_hash (w.text m)))) = true ↔
      Known host w s m y.1 := by
    intro y hy
    rw [List.any_eq_true, hxs y hy]
    simp only [Bool.or_eq_true, decide_eq_true_eq, and_or_left, exists_or]
    exact Iff.rfl
  rw [PairStore.judged_either, List.mem_map, List.mem_map]
  constructor
  · rintro ⟨y, hy, rfl⟩
    obtain ⟨hmem, hrow⟩ := List.mem_filter.mp hy
    exact ⟨⟨y, hmem, rfl⟩, (hany y hmem).mp hrow⟩
  · rintro ⟨⟨y, hmem, rfl⟩, hknown⟩
    exact ⟨y, List.mem_filter.mpr ⟨hmem, (hany y hmem).mpr hknown⟩, rfl⟩

/-- The cache answers about pairs. -/
theorem sifted_spec {payload : Payload} (hfound : w.payload m = some payload) {items : List Item}
    {now : String} (top_k : ℕ) :
    let candidates := displacement_candidates m now top_k items []
    (host.failing fault).watched.logic.Spec
      (fun t => Searched host w m items t ∧ (⟨.now_iso, .ok now⟩ : Ev) ∈ t.2)
      (pair_store.judged_either m (payload_text payload) (candidates.map fun c => (c.id, c.text)))
      (fun already t => Sifted host w m top_k (candidates.filter fun c => c.id ∉ already) t)
      (BrokenOff host w) := by
  intro candidates
  have htext : payload_text payload = w.text m := by
    rw [World.text, hfound]
    rfl
  refine (inert_spec (c := .pairs (.judged_either m (payload_text payload)
    (candidates.map fun c => (c.id, c.text)))) (undisturbed_searched.and undisturbed_mem) trivial
    id).mono (fun _ h => h) (fun (already : List Id) t h => ?_) fun t h => h.1.toSmooth.brokenOff
  obtain ⟨⟨hsearched, hnow⟩, -, t₀, hanswer, -, hpairs⟩ := h
  have halready : already = t.1.pairs.judged_either host.text_hash m (w.text m)
      (candidates.map fun c => (c.id, c.text)) := by
    rw [hpairs, ← htext]
    injection hanswer with hanswer _
    injection hanswer with hanswer
    exact hanswer.symm
  have hshown : ∀ c ∈ candidates, c.text = w.text c.id := by
    intro c hc
    rcases mem_displacement_candidates hc with hnil | ⟨item, hitem, hid, htext, -⟩
    · cases hnil
    · rw [htext, hid]
      exact hsearched.shown item hitem
  -- a candidate is left out exactly when its pair is known under both texts
  have hmem : ∀ c ∈ candidates, c.id ∈ already ↔ Known host w t.1.pairs m c.id := by
    intro c hc
    rw [halready, mem_judged_either, List.map_map]
    · exact and_iff_right (List.mem_map.mpr ⟨c, hc, rfl⟩)
    · intro x hx
      obtain ⟨c', hc', rfl⟩ := List.mem_map.mp hx
      exact hshown c' hc'
  obtain ⟨query, limit, filters, hsearch⟩ := hsearched.searched
  refine ⟨hsearched.toResting, fun old hold hknown => ?_, candidates, ?_, fun old hold => ?_⟩
  · obtain ⟨hcandidate, hleft⟩ := List.mem_filter.mp hold
    exact of_decide_eq_true hleft ((hmem old hcandidate).mpr (hknown.imp (hsearched.kept _)
      (hsearched.kept _)))
  · exact ⟨items, now, query, limit, filters, hsearch, hnow, rfl⟩
  · by_cases hold' : old.id ∈ already
    · exact .inl (hsearched.pair_new _ ((hmem old hold).mp hold'))
    · exact .inr (List.mem_filter.mpr ⟨hold, decide_eq_true hold'⟩)

/-- What is left is put to the judge. -/
theorem judged_spec {payload : Payload} {date : String} {left : List JudgeEntry} {top_k : ℕ}
    {self_only : Bool} :
    (host.failing fault).watched.logic.Spec (Sifted host w m top_k left)
      (Prog.perform (I := Api) (.judge ⟨m, payload_text payload, date⟩ left))
      (fun (_ : List (Id × Verdict)) => Complete host w m top_k self_only) (BrokenOff host w) := by
  -- the pairs that are judged here were unknown when they were chosen
  have hoff : ∀ {s : PairStore} {r}, (∀ old ∈ left, ¬ Known host w s m old.id) →
      OffRecord host w s ⟨.judge ⟨m, payload_text payload, date⟩ left, r⟩ := by
    intro s r hleft
    refine ⟨fun m' kind h => ?_, fun m' old_id h => ?_⟩
    · obtain ⟨entry, context, r', heq, -⟩ := h
      cases heq
    · obtain ⟨entry, candidates, r', heq, hid, hcandidate⟩ := h
      obtain ⟨old, hold, rfl⟩ := List.mem_map.mp hcandidate
      injection heq with hcall
      injection hcall with hentry hcandidates
      rw [← hid, ← hentry]
      exact hleft old (hcandidates ▸ hold)
  have hinert : inert (.judge ⟨m, payload_text payload, date⟩ left) := trivial
  refine Handler.spec_perform (fun t es a t' hpre hrun => ?_) fun t es e t' hpre hrun => ?_
  · have hsame := inert_run hinert hrun
    have hnot : ¬ Raised (⟨.judge ⟨m, payload_text payload, date⟩ left, .ok a⟩ : Ev) := by
      rintro ⟨exc, hexc⟩
      cases hexc
    refine ⟨hpre.toSmooth.step hsame.1 (hoff hpre.unknown) fun _ => hnot, fun _ =>
      .inr ⟨hpre.covered.step _, fun _ => ?_⟩⟩
    obtain ⟨candidates, hcandidates, hall⟩ := hpre.sifted
    refine ⟨candidates, hcandidates.step _,
      fun old hold => (hall old hold).imp_right fun hleft => ?_⟩
    exact ⟨_, List.mem_append_right _ List.mem_cons_self, _, left, _, rfl, rfl,
      List.mem_map.mpr ⟨old, hleft, rfl⟩⟩
  · have hsame := inert_run hinert hrun
    refine hpre.toSmooth.broken (hoff hpre.unknown) (hoff fun old hold hknown => ?_)
    rw [hsame.2] at hknown
    exact hpre.unknown old hold (hpre.pair_new _ hknown)

/-- A self check is put to the judge. -/
theorem judge_self_spec {done : List String} {kind date : String} {payload context : Payload}
    (hkind : kind ∉ done) :
    (host.failing fault).watched.logic.Spec
      (fun t => Resting host w m done t ∧ ¬ Has w.pairs (self_key host w kind m))
      (Prog.perform (I := Api) (.judge_self kind ⟨m, payload_text payload, date⟩ context))
      (fun (_ : Verdict) t => Resting host w m done t ∧ ∃ e ∈ t.2, AsksSelf m kind e)
      (BrokenOff host w) := by
  have hoff : ∀ {s : PairStore} {r}, ¬ Has s (self_key host w kind m) →
      OffRecord host w s ⟨.judge_self kind ⟨m, payload_text payload, date⟩ context, r⟩ := by
    intro s r hnot
    refine ⟨fun m' kind' h => ?_, fun m' old_id h => ?_⟩
    · obtain ⟨entry, context', r', heq, hid⟩ := h
      injection heq with hcall
      injection hcall with hkind hentry
      rw [← hid, ← hentry, ← hkind]
      exact hnot
    · obtain ⟨entry, candidates, r', heq, -⟩ := h
      cases heq
  have hinert : inert (.judge_self kind ⟨m, payload_text payload, date⟩ context) := trivial
  refine Handler.spec_perform (fun t es a t' hpre hrun => ?_) fun t es e t' hpre hrun => ?_
  · have hsame := inert_run hinert hrun
    have hnot : ¬ Raised
        (⟨.judge_self kind ⟨m, payload_text payload, date⟩ context, .ok a⟩ : Ev) := by
      rintro ⟨exc, hexc⟩
      cases hexc
    refine ⟨hpre.1.step hsame.1 hsame.2 (hoff hpre.2) fun _ => hnot, _,
      List.mem_append_right _ List.mem_cons_self, _, context, _, rfl, rfl⟩
  · have hsame := inert_run hinert hrun
    refine hpre.1.toSmooth.broken (hoff hpre.2) (hoff fun hhas => ?_)
    rw [hsame.2] at hhas
    exact (hpre.1.self_new kind hhas).elim hpre.2 hkind

/-- The memory is read as it is, or the check ends with it unread. -/
theorem look_spec {top_k : ℕ} {self_only : Bool} {done : List String} :
    (host.failing fault).watched.logic.Spec (Resting host w m done)
      (Prog.perform (I := Api) (.vs_get m))
      (fun (p : Option Payload) t => Resting host w m done t ∧ w.payload m = p)
      (Complete host w m top_k self_only) := by
  have hstep : ∀ {t : World} {es : List Ev} {t' : World} {r : Except Exn (Option Payload)},
      Resting host w m done (t, es) → host.failing fault (.vs_get m) t = (r, t') →
      Resting host w m done (t', es ++ [⟨.vs_get m, r⟩]) := by
    intro t es t' r hpre hrun
    have hsame := inert_run (c := .vs_get m) trivial hrun
    exact undisturbed_resting t es t' _ id hsame.1 hsame.2 hpre
  refine Handler.spec_perform (fun t es a t' hpre hrun => ?_) fun t es e t' hpre hrun => ?_
  · refine ⟨hstep hpre hrun, ?_⟩
    rw [← payload_congr hpre.points m]
    rcases host.failing_cases fault (.vs_get m) t with ⟨e, hfail⟩ | hok
    · rw [hfail] at hrun
      cases hrun
    · have hfound := found_answer host m t
      rw [← hok, hrun] at hfound
      exact hfound.symm
  · refine ⟨(hstep hpre hrun).toSmooth, fun _ => .inl ⟨e, ?_⟩⟩
    exact List.mem_append_right _ List.mem_cons_self

/-- What is asserted along a check of `m` that starts in `w`. -/
def check_course (fault : Call → World → Option Exn) (w : World) (m : Id)
    (hshown : ShowsStored host) (judge_model session_id : Option String) (top_k : ℕ)
    (self_only : Bool) :
    Course (host.failing fault).watched.logic m judge_model session_id top_k self_only where
  rest := Resting host w m
  found p := w.payload m = p
  searched := Searched host w m
  timed items now t := Searched host w m items t ∧ (⟨.now_iso, .ok now⟩ : Ev) ∈ t.2
  due done kind t := Resting host w m done t ∧ ¬ Has w.pairs (self_key host w kind m)
  noted done kind _ t := Resting host w m done t ∧ ∃ e ∈ t.2, AsksSelf m kind e
  fresh := Sifted host w m top_k
  judged _ _ := Complete host w m top_k self_only
  finished := Complete host w m top_k self_only
  failed := BrokenOff host w
  skipped p t hfound ht hskip := by
    refine ⟨ht.toSmooth, fun hlive => ?_⟩
    obtain ⟨payload, hpayload, hactive, htext⟩ := hlive
    rcases hskip payload (hfound.symm.trans hpayload) with hinvalid | hempty
    · rw [hactive] at hinvalid
      cases hinvalid
    · exact absurd hempty htext
  rest_finished hself t ht := by
    refine ⟨ht.toSmooth, fun _ => .inr ⟨ht.covered, fun hfull => ?_⟩⟩
    rw [hself] at hfull
    cases hfull
  rest_failed t ht := ht.toSmooth.brokenOff
  fresh_finished t ht := by
    refine ⟨ht.toSmooth, fun _ => .inr ⟨ht.covered, fun _ => ?_⟩⟩
    obtain ⟨candidates, hcandidates, hall⟩ := ht.sifted
    refine ⟨candidates, hcandidates, fun old hold => .inl ?_⟩
    exact (hall old hold).resolve_right List.not_mem_nil
  judged_finished _ _ _ ht := ht
  look := look_spec
  recorded payload done kind hfound _ := recorded_spec hfound done kind
  judge_self payload done kind date context _ hdone := by
    refine judge_self_spec fun hmem => ?_
    have hnodup : (done ++ [kind]).Nodup := hdone.sublist.nodup (by decide)
    exact List.disjoint_of_nodup_append hnodup hmem List.mem_cons_self
  exempt _ _ _ _ ht _ := ht
  stamp_self payload done kind v _ hdone :=
    stamped_spec (undisturbed_resting.and undisturbed_asked) (fun t ht => ht.1.toSmooth.brokenOff)
      fun model pair_id judged_at t es ht a => ht.1.record ht.2 hdone rfl
  search query limit filters := by
    refine (inert_spec (c := .search query limit filters) undisturbed_resting trivial id).mono
      (fun _ h => h) (fun items t h => ?_) fun t h => h.toSmooth.brokenOff
    obtain ⟨hrest, hmem, t₀, hanswer, hpoints, -⟩ := h
    refine ⟨hrest, fun item hitem => ?_, query, limit, filters, hmem⟩
    injection hanswer with hanswer _
    injection hanswer with hanswer
    rw [← hanswer] at hitem
    rw [ShowsText, ← text_congr hrest.points, text_congr hpoints]
    exact hshown t₀ query limit filters item hitem
  clock items := (inert_spec (c := .now_iso) undisturbed_searched trivial id).mono (fun _ h => h)
    (fun _ _ h => ⟨h.1, h.2.1⟩) fun t h => h.toSmooth.brokenOff
  cache payload items now hfound := sifted_spec hfound top_k
  judge payload date candidates _ _ := judged_spec
  stamp candidates judgments v _ := by
    refine stamped_spec undisturbed_complete (fun t ht => ht.toSmooth.brokenOff)
      fun model pair_id judged_at t es ht a => ?_
    refine ⟨ht.toSmooth.step rfl (offRecord_of_not_judges id) (fun hjudges => hjudges.elim),
      fun hlive => ?_⟩
    refine (ht.covered hlive).imp (fun ⟨exc, hexc⟩ => ⟨exc, List.mem_append_left _ hexc⟩) ?_
    rintro ⟨hself, hpairs⟩
    exact ⟨hself.step _, fun hfull => (hpairs hfull).step _⟩

/-- One check, in whatever store. -/
theorem StaleCheck.advises (c : StaleCheck) (hshown : ShowsStored host)
    (fault : Call → World → Option Exn) (w : World) :
    Advises host c w (c.code.calls (host.failing fault) w) (c.code.run (host.failing fault) w).1
      (c.code.run (host.failing fault) w).2 := by
  have hpoints : (c.code.run (host.failing fault) w).2.points = w.points :=
    c.code_checks.run (P := fun t : World => t.points = w.points)
      (fun _ _ hc ht => (checks_points hc).trans ht) rfl
  have hrows : ∃ added, (c.code.run (host.failing fault) w).2.pairs.rows =
      w.pairs.rows ++ added := by
    refine c.code_checks.run (P := fun t : World => ∃ added, t.pairs.rows = w.pairs.rows ++ added)
      (fun call t hc ht => ?_) ⟨[], (List.append_nil _).symm⟩
    obtain ⟨added, hadded⟩ := ht
    rcases hc with hinert | ⟨j, pair_id, judged_at, rfl⟩
    · exact ⟨added, by rw [(inert_same hinert).2, hadded]⟩
    · rcases record_rows host fault t j pair_id judged_at with hsame | happend
      · exact ⟨added, hsame.trans hadded⟩
      · exact ⟨added ++ [j.row host.text_hash pair_id judged_at],
          by rw [happend, hadded, List.append_assoc]⟩
  have hstart : Resting host w c.new_id [] (w, []) :=
    ⟨⟨rfl, fun _ he => absurd he List.not_mem_nil, fun _ he => absurd he List.not_mem_nil⟩,
      fun _ h => h, fun _ h => .inl h, fun _ h => h, fun _ h => absurd h List.not_mem_nil⟩
  obtain ⟨hok, herror⟩ := Handler.run_of_spec (check_course fault w c.new_id hshown c.judge_model
    c.session_id c.top_k c.self_only).run_stale_check_spec hstart
  rcases hend : (c.code.run (host.failing fault) w).1 with exc | report
  · have hbroken := herror exc hend
    exact ⟨hpoints, ⟨hrows, PairStore.version_unique _⟩, hbroken.asked, hbroken.raised,
      fun _ => .inl ⟨exc, rfl⟩⟩
  · have hcomplete := hok report hend
    exact ⟨hpoints, ⟨hrows, PairStore.version_unique _⟩, hcomplete.asked,
      hcomplete.toSmooth.brokenOff.raised, fun hlive => .inr (hcomplete.covered hlive)⟩

end calls

/-! ## Runs of checks and other operations -/

/-- Checks and any other operations, one after the other, with any calls failing. -/
inductive Passage (host : Host) (w : World) : World → Prop where
  | here : Passage host w w
  | check {u : World} (h : Passage host w u) (c : StaleCheck) (fault : Call → World → Option Exn) :
    Passage host w (c.code.run (host.failing fault) u).2
  | other {u : World} (h : Passage host w u) {α : Type} (p : Code α)
      (fault : Call → World → Option Exn) : Passage host w (p.run (host.failing fault) u).2

/-- What is judged stays judged, whatever a program does. -/
theorem has_kept_run {host : Host} {fault : Call → World → Option Exn} {α : Type} (p : Code α)
    {w : World} {key : String × Id × Id × String} (h : Has w.pairs key) :
    Has (p.run (host.failing fault) w).2.pairs key := by
  obtain ⟨es, q, -, hans, -⟩ := Prog.run_trace (host.failing fault) p w
  exact has_kept_answered hans h

/-- What is on record stays there. -/
theorem Passage.has {host : Host} {w u : World} (h : Passage host w u)
    {key : String × Id × Id × String} (hkey : Has w.pairs key) : Has u.pairs key := by
  induction h with
  | here => exact hkey
  | check _ c fault ih => exact has_kept_run c.code ih
  | other _ p fault ih => exact has_kept_run p ih

/-- **A check advises and does not act**, at any point of a run: it writes rows only, asks
its judges nothing that has been on record at any time since the run began, and leaves what
a judge failed to answer to the next check. -/
theorem checks_advise (host : Host) (hshown : ShowsStored host) {w u : World}
    (h : Passage host w u) (c : StaleCheck) (fault : Call → World → Option Exn) :
    (∀ e ∈ c.code.calls (host.failing fault) u, OffRecord host u w.pairs e) ∧
      Advises host c u (c.code.calls (host.failing fault) u)
        (c.code.run (host.failing fault) u).1 (c.code.run (host.failing fault) u).2 := by
  have hadvises := c.advises hshown fault u
  refine ⟨fun e he => ⟨fun m kind hasks hhas => ?_, fun m old_id hasks hknown => ?_⟩, hadvises⟩
  · exact (hadvises.asked e he).self m kind hasks (h.has hhas)
  · exact (hadvises.asked e he).pair m old_id hasks (hknown.imp h.has h.has)

/-- The first memory is checked on its own, then the second one against it, by a judge
that fails: the judge is reached, and raises. -/
theorem checks_advise_neighbours :
    let fails : Call → World → Option Exn := fun c _ =>
      if c matches .judge .. then some (.other "no judge") else none
    let first : StaleCheck := { new_id := "a", self_only := true }
    let u := (first.code.run (neighbourly.failing fun _ _ => none) two_notes).2
    let es := (their_checks false).code.calls (neighbourly.failing fails) u
    (es.any fun e => e matches ⟨.judge .., .error _⟩) = true ∧
      (∀ e ∈ es, OffRecord neighbourly u two_notes.pairs e) ∧
      Advises neighbourly (their_checks false) u es
        ((their_checks false).code.run (neighbourly.failing fails) u).1
        ((their_checks false).code.run (neighbourly.failing fails) u).2 :=
  ⟨by decide, checks_advise neighbourly neighbourly_shows
    (.check .here { new_id := "a", self_only := true } _) _ _⟩

end Memline
