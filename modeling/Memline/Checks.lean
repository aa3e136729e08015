/-
The background check, for any logic.

`Course` lists what one wants to assert at the points a check passes through (between
its calls, once the cache is read, once a judge has answered) with the rule of each call
between two of them. `run_stale_check_spec` puts the rules together along the code. A
module that follows a check, in an interleaving or with its calls carried out by other
code, says what its assertions are and proves the rules; `Stages` is the form for those
that assert little.
-/
import Memline.Lib.Logic
import Memline.Calls

set_option autoImplicit false

namespace Memline

open Effect Effect.Logic

/-! ## Candidates -/

/-- The candidate is a hit of the search, not the entry itself and active. -/
def CandidateOf (new_id : Id) (item : Item) (c : JudgeEntry) : Prop :=
  c.id = item.id ∧ c.text = (item.top.get "memory").text ∧ c.id ≠ new_id ∧
    result_item_superseded item = []

/-- A candidate is made of an item of the search. -/
theorem mem_displacement_candidates {new_id : Id} {now : String} {top_k : ℕ} {items : List Item}
    {acc : List JudgeEntry} {c : JudgeEntry}
    (h : c ∈ displacement_candidates new_id now top_k items acc) :
    c ∈ acc ∨ ∃ item ∈ items, CandidateOf new_id item c := by
  induction items generalizing acc with
  | nil => exact .inl h
  | cons item items ih =>
    have hlater : (c ∈ acc ∨ ∃ item' ∈ items, CandidateOf new_id item' c) →
        c ∈ acc ∨ ∃ item' ∈ item :: items, CandidateOf new_id item' c := by
      rintro (hacc | ⟨item', hitem', hc⟩)
      · exact .inl hacc
      · exact .inr ⟨item', List.mem_cons_of_mem _ hitem', hc⟩
    unfold displacement_candidates at h
    split at h
    · exact hlater (ih h)
    rename_i hskip
    simp only [not_or, not_not] at hskip
    obtain ⟨-, hself, hactive, -⟩ := hskip
    have hnew : ∀ e : JudgeEntry, e.id = item.id → e.text = (item.top.get "memory").text →
        c ∈ acc ++ [e] → c ∈ acc ∨ ∃ item' ∈ item :: items, CandidateOf new_id item' c := by
      intro e hid htext hc
      rcases List.mem_append.mp hc with hacc | hc
      · exact .inl hacc
      · rw [List.mem_singleton.mp hc]
        exact .inr ⟨item, List.mem_cons_self, hid, htext, hid ▸ hself, hactive⟩
    simp only at h
    split at h
    · exact hnew _ rfl rfl h
    · rcases ih h with hc | ⟨item', hitem', hc⟩
      · exact hnew _ rfl rfl hc
      · exact .inr ⟨item', List.mem_cons_of_mem _ hitem', hc⟩

/-! ## What a check records -/

/-- The judgment a self check records, stamped with a model. -/
def self_judgment (new_id : Id) (new_text kind : String) (session_id : Option String) (v : Verdict)
    (model : Option String) : Judgment where
  kind := kind
  new_id := new_id
  old_id := new_id
  old_text := new_text
  verdict := v.verdict
  confidence := v.confidence
  reason := v.reason
  judge_model := model
  new_session_id := session_id

/-- The judgment recorded about a candidate. -/
def displacement_judgment (new_id : Id) (candidates : List JudgeEntry) (session_id : Option String)
    (v : Id × Verdict) (model : Option String) : Judgment where
  new_id := new_id
  old_id := v.1
  old_text := ((candidates.find? fun c => c.id = v.1).map JudgeEntry.text).getD ""
  verdict := v.2.verdict
  confidence := v.2.confidence
  reason := v.2.reason
  judge_model := model
  new_session_id := session_id

/-- Read who answered, and record. -/
def stamped (judge_model : Option String) (j : Option String → Judgment) :
    Code (PairRow × Bool) := do
  let model ← Prog.perform (I := Api) (.active_model judge_model)
  pair_store.record_judgment (j model)

/-- The check of one memory by itself, step by step: cached, or judged and recorded. -/
theorem self_check_eq (new_id : Id) (new_text kind : String)
    (judge_model session_id : Option String) (judged : Code Verdict) :
    self_check new_id new_text kind judge_model session_id judged = (do
      let cached ← pair_store.has_judgment new_id new_id new_text kind
      if cached then pure ("cached", none)
      else do
        let v ← judged
        let recorded ← stamped judge_model (self_judgment new_id new_text kind session_id v)
        pure (v.verdict, some (recorded.1.is_open && recorded.2))) := by
  unfold self_check stamped
  simp only [Prog.bind_assoc]
  rfl

/-- The recording of one displacement, step by step. -/
theorem record_displacement_eq (new_id : Id) (candidates : List JudgeEntry)
    (judge_model session_id : Option String) (opened : ℕ) (v : Id × Verdict) :
    record_displacement new_id candidates judge_model session_id opened v = (do
      let recorded ← stamped judge_model (displacement_judgment new_id candidates session_id v)
      pure (if recorded.1.is_open && recorded.2 then opened + 1 else opened)) := by
  unfold record_displacement stamped
  simp only [Prog.bind_assoc]
  rfl

/-! ## The course of a check -/

/-- The kinds a memory is checked for on its own, in their order. -/
def self_kinds : List String := [KIND_NECESSITY, KIND_SAFETY, KIND_CORRECTNESS]

/-- What to assert along the check of a memory, and the rule of each of its calls. -/
structure Course {τ : Type} (L : Logic Api τ) (new_id : Id) (judge_model session_id : Option String)
    (top_k : ℕ) (self_only : Bool) where
  /-- Between calls, with these kinds dealt with. -/
  rest : List String → τ → Prop
  /-- What the memory is read as. -/
  found : Option Payload → Prop
  /-- The search has handed out these items. -/
  searched : List Item → τ → Prop
  /-- And this is the time. -/
  timed : List Item → String → τ → Prop
  /-- The cache does not know about the next kind. -/
  due : List String → String → τ → Prop
  /-- The check for the next kind came to this. -/
  noted : List String → String → Verdict → τ → Prop
  /-- The cache left these candidates to judge. -/
  fresh : List JudgeEntry → τ → Prop
  /-- The judge has said this of them. -/
  judged : List JudgeEntry → List (Id × Verdict) → τ → Prop
  finished : τ → Prop
  failed : τ → Prop
  skipped : ∀ p t, found p → rest [] t →
    (∀ payload ∈ p, is_invalidated payload = true ∨ payload_text payload = "") → finished t
  rest_finished : self_only = true → ∀ t, rest self_kinds t → finished t
  rest_failed : ∀ t, rest self_kinds t → failed t
  fresh_finished : ∀ t, fresh [] t → finished t
  judged_finished : ∀ candidates judgments t, judged candidates judgments t → finished t
  /-- A memory that cannot be read is taken for a missing one. -/
  look : L.Spec (rest []) (Prog.perform (I := Api) (.vs_get new_id))
    (fun (p : Option Payload) t => rest [] t ∧ found p) finished
  recorded : ∀ payload done kind, found (some payload) → done ++ [kind] <+: self_kinds →
    L.Spec (rest done) (pair_store.has_judgment new_id new_id (payload_text payload) kind)
      (fun cached t => if cached then rest (done ++ [kind]) t else due done kind t) failed
  judge_self : ∀ payload done kind date context, found (some payload) →
    done ++ [kind] <+: self_kinds → L.Spec (due done kind)
      (Prog.perform (I := Api) (.judge_self kind ⟨new_id, payload_text payload, date⟩ context))
      (fun (v : Verdict) => noted done kind v) failed
  exempt : ∀ done v reason t, noted done KIND_CORRECTNESS v t → v.verdict ∈ import_exempt_verdicts →
    noted done KIND_CORRECTNESS { v with verdict := "CONSISTENT", reason := some reason } t
  stamp_self : ∀ payload done kind v, found (some payload) → done ++ [kind] <+: self_kinds →
    L.Spec (noted done kind v)
      (stamped judge_model (self_judgment new_id (payload_text payload) kind session_id v))
      (fun _ => rest (done ++ [kind])) failed
  search : ∀ query top_k filters,
    L.Spec (rest self_kinds) (Prog.perform (I := Api) (.search query top_k filters))
      searched failed
  clock : ∀ items, L.Spec (searched items) now_iso (timed items) failed
  cache : ∀ payload items now, found (some payload) →
    let candidates := displacement_candidates new_id now top_k items []
    L.Spec (timed items now) (pair_store.judged_either new_id (payload_text payload)
        (candidates.map fun c => (c.id, c.text)))
      (fun already => fresh (candidates.filter fun c => c.id ∉ already)) failed
  judge : ∀ payload date candidates, found (some payload) → candidates ≠ [] →
    L.Spec (fresh candidates)
      (Prog.perform (I := Api) (.judge ⟨new_id, payload_text payload, date⟩ candidates))
      (fun (judgments : List (Id × Verdict)) => judged candidates judgments) failed
  stamp : ∀ candidates judgments, ∀ v ∈ judgments, L.Spec (judged candidates judgments)
    (stamped judge_model (displacement_judgment new_id candidates session_id v))
    (fun _ => judged candidates judgments) failed

namespace Course

variable {τ : Type} {L : Logic Api τ} {new_id : Id} {judge_model session_id : Option String}
  {top_k : ℕ} {self_only : Bool} (S : Course L new_id judge_model session_id top_k self_only)

/-- There is a memory to check, or the check is over. -/
theorem point_payload_spec : L.Spec (S.rest []) (point_payload new_id)
    (fun p t => match p with
      | none => S.finished t
      | some payload => S.rest [] t ∧ S.found (some payload)) S.failed := by
  refine spec_tryCatch (S.look.mono (fun _ h => h) (fun p t h => ?_) fun _ h => h) fun _ =>
    spec_pure none fun _ ht => ht
  cases p with
  | none => exact S.skipped none t h.2 h.1 fun _ hnone => by cases hnone
  | some payload => exact h

/-- One check of the memory by itself, from what is due to what has been noted. -/
theorem self_check_spec {payload : Payload} (hfound : S.found (some payload)) {done : List String}
    {kind : String} (hdone : done ++ [kind] <+: self_kinds) {judged : Code Verdict}
    (hjudged : L.Spec (S.due done kind) judged (fun v => S.noted done kind v) S.failed) :
    L.Spec (S.rest done)
      (self_check new_id (payload_text payload) kind judge_model session_id judged)
      (fun _ => S.rest (done ++ [kind])) S.failed := by
  rw [self_check_eq]
  refine spec_bind (S.recorded payload done kind hfound hdone) fun cached => ?_
  cases cached with
  | true => exact spec_pure _ fun _ h => h
  | false =>
    refine (spec_bind hjudged fun v => ?_).of_pre fun _ h => h
    exact spec_bind (S.stamp_self payload done kind v hfound hdone) fun _ =>
      spec_pure _ fun _ h => h

/-- The check of correctness asks its judge about the memory as it is stored. -/
theorem judge_correctness_spec {payload : Payload} (hfound : S.found (some payload))
    {done : List String} (hdone : done ++ [KIND_CORRECTNESS] <+: self_kinds) (date : String) :
    L.Spec (S.due done KIND_CORRECTNESS)
      (judge_correctness ⟨new_id, payload_text payload, date⟩ payload)
      (fun v => S.noted done KIND_CORRECTNESS v) S.failed := by
  refine spec_bind (S.judge_self payload done _ _ _ hfound hdone) fun v => ?_
  split
  · rename_i hexempt
    exact spec_pure _ fun t ht => S.exempt done v _ t ht hexempt.2
  · exact spec_pure _ fun _ h => h

/-- The checks of one memory by itself go through all kinds in their order. -/
theorem run_self_checks_spec {payload : Payload} (hfound : S.found (some payload)) :
    L.Spec (S.rest [])
      (run_self_checks new_id (payload_text payload) payload judge_model session_id)
      (fun _ => S.rest self_kinds) S.failed := by
  have hfirst : [] ++ [KIND_NECESSITY] <+: self_kinds := by decide
  have hsecond : [KIND_NECESSITY] ++ [KIND_SAFETY] <+: self_kinds := by decide
  have hthird : [KIND_NECESSITY, KIND_SAFETY] ++ [KIND_CORRECTNESS] <+: self_kinds := by decide
  refine spec_bind (S.self_check_spec hfound hfirst ?_) fun _ => ?_
  · exact S.judge_self _ _ _ _ _ hfound hfirst
  refine spec_bind (S.self_check_spec hfound hsecond ?_) fun _ => ?_
  · exact S.judge_self _ _ _ _ _ hfound hsecond
  refine spec_bind (S.self_check_spec hfound hthird ?_) fun _ => ?_
  · exact S.judge_correctness_spec hfound hthird _
  exact spec_pure _ fun _ h => h

/-- The search for neighbours comes behind the checks of the memory by itself. -/
theorem search_spec (query : String) (top_k : ℕ) (filters : Filters) :
    L.Spec (S.rest self_kinds) (Mem0.search query top_k filters) S.searched S.failed := by
  have hrefuse : ∀ (c : Prop) [Decidable c] (e : Exn),
      L.Spec (S.rest self_kinds) (refuse_if c e) (fun _ => S.rest self_kinds) S.failed := by
    intro c _ e
    unfold refuse_if
    split
    · exact spec_throw (I := Api) e S.rest_failed
    · exact spec_pure () fun _ h => h
  refine spec_bind (hrefuse _ _) fun _ => ?_
  refine spec_bind (S := fun _ => S.rest self_kinds) ?_ fun effective => ?_
  · rcases Mem0.validate_filters filters with e | effective
    · exact spec_throw (I := Api) e S.rest_failed
    · exact spec_pure effective fun _ h => h
  · exact spec_bind (hrefuse _ _) fun _ => S.search _ _ _

/-- The check takes its course. -/
theorem run_stale_check_spec :
    L.Spec (S.rest []) (run_stale_check new_id session_id judge_model top_k self_only)
      (fun _ => S.finished) S.failed := by
  have hdone : ∀ (report : StaleReport) {P : τ → Prop}, (∀ t, P t → S.finished t) →
      L.Spec P (pure report) (fun _ => S.finished) S.failed := fun report _ h => spec_pure report h
  -- call by call; each branch that stops early is one where nothing is left to judge
  refine spec_bind S.point_payload_spec fun found => ?_
  cases found with
  | none => exact hdone _ fun _ ht => ht
  | some payload =>
    refine Spec.of_fact fun hfound => ?_
    have hskip : ∀ t, S.rest [] t → is_invalidated payload = true ∨ payload_text payload = "" →
        S.finished t := by
      intro t ht hwhy
      refine S.skipped (some payload) t hfound ht fun p hp => ?_
      obtain rfl : payload = p := Option.some.inj hp
      exact hwhy
    simp only
    split
    · rename_i hinvalid
      exact hdone _ fun t ht => hskip t ht (.inl hinvalid)
    split
    · rename_i hempty
      exact hdone _ fun t ht => hskip t ht (.inr hempty)
    refine spec_bind (S.run_self_checks_spec hfound) fun self_report => ?_
    split
    · rename_i hself
      exact hdone _ (S.rest_finished hself)
    refine spec_bind (S.search_spec _ _ _) fun items => ?_
    refine spec_bind (S.clock items) fun now => ?_
    refine spec_bind (S.cache payload items now hfound) fun already => ?_
    split
    · rename_i hnone
      rw [hnone]
      exact hdone _ S.fresh_finished
    rename_i hfresh
    refine spec_bind (S.judge payload _ _ hfound hfresh) fun judgments => ?_
    refine spec_bind (S := fun _ => S.judged _ judgments)
      (spec_foldlM (R := fun _ => S.judged _ judgments) (fun opened v hv => ?_) 0)
      fun opened => hdone _ (S.judged_finished _ _)
    rw [record_displacement_eq]
    exact spec_bind (S.stamp _ _ v hv) fun _ => spec_pure _ fun _ h => h

end Course

/-! ## Stages -/

/-- A course that does not count its kinds, and asserts the same wherever it may stop. -/
structure Stages {τ : Type} (L : Logic Api τ) (new_id : Id) (judge_model session_id : Option String)
    where
  /-- Between calls. -/
  rest : τ → Prop
  /-- What the memory is read as. -/
  found : Payload → Prop
  /-- What the search hands out. -/
  hit : Item → Prop
  /-- The cache left these candidates to judge. -/
  fresh : List JudgeEntry → τ → Prop
  /-- The judge has said this of them. -/
  judged : List JudgeEntry → List (Id × Verdict) → τ → Prop
  /-- A self check of this kind came to this. -/
  noted : String → Verdict → τ → Prop
  fresh_rest : ∀ candidates t, fresh candidates t → rest t
  judged_rest : ∀ candidates judgments t, judged candidates judgments t → rest t
  look : L.Spec rest (Prog.perform (I := Api) (.vs_get new_id))
    (fun (p : Option Payload) t => rest t ∧ ∀ payload ∈ p, found payload) rest
  recorded : ∀ text kind, L.Spec rest (pair_store.has_judgment new_id new_id text kind)
    (fun _ => rest) rest
  search : ∀ query top_k filters,
      L.Spec rest (Prog.perform (I := Api) (.search query top_k filters))
    (fun (items : List Item) t => rest t ∧ ∀ item ∈ items, hit item) rest
  clock : L.Spec rest now_iso (fun _ => rest) rest
  cache : ∀ payload (candidates : List JudgeEntry), found payload →
    (∀ c ∈ candidates, ∃ item, hit item ∧ CandidateOf new_id item c) →
    L.Spec rest (pair_store.judged_either new_id (payload_text payload)
        (candidates.map fun c => (c.id, c.text)))
      (fun already => fresh (candidates.filter fun c => c.id ∉ already)) rest
  judge : ∀ payload date candidates, found payload → candidates ≠ [] →
    L.Spec (fresh candidates)
      (Prog.perform (I := Api) (.judge ⟨new_id, payload_text payload, date⟩ candidates))
      (fun (judgments : List (Id × Verdict)) => judged candidates judgments) rest
  judge_self : ∀ kind entry context, L.Spec rest
    (Prog.perform (I := Api) (.judge_self kind entry context))
    (fun (v : Verdict) => noted kind v) rest
  exempt : ∀ v reason t, noted KIND_CORRECTNESS v t → v.verdict ∈ import_exempt_verdicts →
    noted KIND_CORRECTNESS { v with verdict := "CONSISTENT", reason := some reason } t
  stamp : ∀ candidates judgments, ∀ v ∈ judgments, L.Spec (judged candidates judgments)
    (stamped judge_model (displacement_judgment new_id candidates session_id v))
    (fun _ => judged candidates judgments) rest
  stamp_self : ∀ payload kind v, found payload → L.Spec (noted kind v)
    (stamped judge_model (self_judgment new_id (payload_text payload) kind session_id v))
    (fun _ => rest) rest

namespace Stages

variable {τ : Type} {L : Logic Api τ} {new_id : Id} {judge_model session_id : Option String}
  (S : Stages L new_id judge_model session_id)

def course (top_k : ℕ) (self_only : Bool) :
    Course L new_id judge_model session_id top_k self_only where
  rest _ := S.rest
  found p := ∀ payload ∈ p, S.found payload
  searched items t := S.rest t ∧ ∀ item ∈ items, S.hit item
  timed items _ t := S.rest t ∧ ∀ item ∈ items, S.hit item
  due _ _ := S.rest
  noted _ := S.noted
  fresh := S.fresh
  judged := S.judged
  finished := S.rest
  failed := S.rest
  skipped _ _ _ ht _ := ht
  rest_finished _ _ ht := ht
  rest_failed _ ht := ht
  fresh_finished := S.fresh_rest []
  judged_finished := S.judged_rest
  look := S.look
  recorded payload _ kind _ _ := (S.recorded (payload_text payload) kind).mono (fun _ h => h)
    (fun cached _ h => by
      cases cached with
      | _ => exact h) fun _ h => h
  judge_self payload _ kind date context _ _ :=
    S.judge_self kind ⟨new_id, payload_text payload, date⟩ context
  exempt _ := S.exempt
  stamp_self payload _ kind v hfound _ := S.stamp_self payload kind v (hfound payload rfl)
  search := S.search
  clock items := Spec.of_fact fun hitems => S.clock.mono (fun _ h => h) (fun _ _ h => ⟨h, hitems⟩)
    fun _ h => h
  cache payload items now hfound := by
    refine Spec.of_fact fun hitems => S.cache payload _ (hfound payload rfl) fun c hc => ?_
    rcases mem_displacement_candidates hc with hnil | ⟨item, hitem, hc⟩
    · cases hnil
    · exact ⟨item, hitems item hitem, hc⟩
  judge payload date candidates hfound := S.judge payload date candidates (hfound payload rfl)
  stamp := S.stamp

/-- The check passes through its stages, and ends at rest. -/
theorem run_stale_check_spec (top_k : ℕ) (self_only : Bool) :
    L.Spec S.rest (run_stale_check new_id session_id judge_model top_k self_only)
      (fun _ => S.rest) S.rest :=
  (S.course top_k self_only).run_stale_check_spec

end Stages

end Memline
