/-
Who said what the pairs say.

A recorded judgment names a model. It should be the one whose text the verdict was read
from, and is where nobody came in between: the worker asks (`answer_of`), the endpoint
that answered is noted on the shared judge (`served`), the note is read back (`read_since`)
and the judgment recorded. `Backed` is what a worker's own calls guarantee when it records;
what it cannot know is whose note it read.
-/
import Memline.Checks
import Memline.Llm

set_option autoImplicit false

namespace Memline.Llm

open Effect Effect.Logic

/-! ## What the calls so far come to -/

/-- An answer, with the endpoint that gave it. -/
def answer_of : Event Turns → Option (Endpoint × String)
  | ⟨.request endpoint _, .ok (.answered response)⟩ =>
    if is_empty_answer response then none else some (endpoint, response.getD "")
  | _ => none

/-- The model that served a call on the judge. -/
def served : Event Turns → Option String
  | ⟨.set_active_model endpoint, _⟩ => some endpoint.model
  | _ => none

/-- What was read of the model, or that it has to be read again. -/
def read_since : Event Turns → Option (Option String)
  | ⟨.set_active_model _, _⟩ => some none
  | ⟨.get_active_model, .ok active⟩ => some (some active)
  | _ => none

/-- What some calls have come to. -/
structure View where
  answer : Option (Endpoint × String)
  served : Option String
  read : Option (Option String)

def view (es : List (Event Turns)) : View :=
  ⟨last_of answer_of es, last_of served es, last_of read_since es⟩

/-- The endpoint of the last response has been noted. -/
def View.Holds (t : View) (endpoint : Endpoint) (response : String) : Prop :=
  t.answer = some (endpoint, response) ∧ t.served = some endpoint.model

/-- The verdict of a self check, as the response has it or exempted for imports. -/
def ReadFrom (parsers : Parsers) (response kind : String) (v : Verdict) : Prop :=
  ∃ allowed default said, parsers.parse_single_judgment response allowed default = .ok said ∧
    (v = said ∨ kind = KIND_CORRECTNESS ∧ said.verdict ∈ import_exempt_verdicts ∧
      ∃ reason, v = { said with verdict := "CONSISTENT", reason := reason })

/-- The judgment says what the response says. -/
inductive ParsedFrom (parsers : Parsers) (response : String) (j : Judgment) : Prop where
  | displacement {allowed : List Id} {judgments : List (Id × Verdict)} {v : Verdict}
    (hparse : parsers.parse_judgments response allowed = .ok judgments)
    (hmem : (j.old_id, v) ∈ judgments)
    (hj : (j.verdict, j.confidence, j.reason) = (v.verdict, v.confidence, v.reason))
  | self_check {v : Verdict} (hread : ReadFrom parsers response j.kind v)
    (hj : (j.verdict, j.confidence, j.reason) = (v.verdict, v.confidence, v.reason))

section

variable (llm : FallbackLLM) (parsers : Parsers)

/-- The judgment says what the last response says, under the model read since. -/
def Backed (t : View) (j : Judgment) : Prop :=
  ∃ endpoint response active, t.Holds endpoint response ∧ ParsedFrom parsers response j ∧
    t.read = some (some active) ∧
    j.judge_model = if active = "" then some llm.model else some active

/-- What a call comes after. -/
def needs : List (Event Turns) → Event Turns → Prop
  | es, ⟨.api (.pairs (.record_judgment j _ _)), _⟩ => Backed llm parsers (view es) j
  | _, _ => True

/-- About a worker's calls so far. -/
def past : Logic Turns (List (Event Turns)) := (Tally.preceding (needs llm parsers)).logic

/-- About its calls so far, at a point of its code. -/
def above : Logic Api (List (Event Turns)) := (past llm parsers).via (carry_out llm parsers)

end

section stages

variable {llm : FallbackLLM} {parsers : Parsers} {P : View → Prop}

def anything : List (Event Turns) → Prop := fun _ => True

/-- A call of the store leaves what a thread has heard of the model. -/
theorem view_api (es : List (Event Turns)) (c : Call) (r : Except Exn c.Answer) :
    view (es ++ [⟨.api c, r⟩]) = view es := by
  simp only [view, last_of_concat]
  rfl

/-- A call to the store does not change what is in hand. -/
theorem api_spec {c : Call} (hneed : ∀ es r, P (view es) → needs llm parsers es ⟨.api c, r⟩) :
    (past llm parsers).Spec (fun es => P (view es)) (Prog.perform (I := Turns) (.api c))
      (fun _ es => P (view es)) anything :=
  Tally.spec_preceding hneed (fun es a hP => (congrArg P (view_api es c (.ok a))).mpr hP)
    fun _ _ _ => trivial

/-- An answer that is returned comes from an endpoint, which the counter then names. -/
theorem generate_from_spec (request : Request) (endpoints : List Endpoint) (errors : List String) :
    (past llm parsers).Spec anything (FallbackLLM.generate_from request endpoints errors)
      (fun response es => ∃ endpoint, (view es).Holds endpoint response) anything := by
  induction endpoints generalizing errors with
  | nil => exact spec_throw (I := Turns) _ fun _ _ => trivial
  | cons endpoint endpoints ih =>
    refine spec_bind (S := fun (reply : Reply) es => ∀ response, reply = .answered response →
      is_empty_answer response = false →
        last_of answer_of es = some (endpoint, response.getD "")) ?_ fun reply => ?_
    · refine Tally.spec_preceding (fun _ _ _ =>
        trivial) (fun es reply _ response hreply hsome => ?_)
        fun _ _ _ => trivial
      obtain rfl : reply = .answered response := hreply
      rw [last_of_concat, answer_of, hsome]
      rfl
    cases reply with
    | failed type_name exc => exact (ih _).of_pre fun _ _ => trivial
    | answered response =>
      simp only
      split
      · exact (ih _).of_pre fun _ _ => trivial
      · rename_i hsome
        refine spec_bind (S := fun _ es => (view es).Holds endpoint (response.getD "")) ?_
          fun _ => spec_pure _ fun es hes => ⟨endpoint, hes⟩
        refine Tally.spec_preceding (fun _ _ _ => trivial) (fun es _ hes => ⟨?_, ?_⟩) fun _ _ _ =>
          trivial
        · exact (last_of_concat es _).trans (hes response rfl (Bool.eq_false_iff.mpr hsome))
        · exact last_of_concat es _

/-- Some response is in hand that is as it should be. -/
def View.Says (t : View) (good : String → Prop) : Prop :=
  ∃ endpoint response, t.Holds endpoint response ∧ good response

/-- Judgments of neighbours are read from an answer of an endpoint. -/
theorem judge_spec {entry : JudgeEntry} {candidates : List JudgeEntry} (hne : candidates ≠ []) :
    (past llm parsers).Spec anything (judge llm parsers entry candidates)
      (fun judgments es => (view es).Says fun response =>
        parsers.parse_judgments response (candidates.map JudgeEntry.id) = .ok judgments)
      anything := by
  unfold judge
  rw [if_neg hne]
  refine spec_bind (generate_from_spec _ _ _) fun response => ?_
  refine spec_ended (fun judgments hparse es hes => ?_) fun _ _ => trivial
  obtain ⟨endpoint, hholds⟩ := hes
  exact ⟨endpoint, response, hholds, hparse⟩

/-- A verdict on one memory is read from an answer of an endpoint. -/
theorem judge_single_spec (kind : String) (request : Request) (allowed : List String)
    (default : String) : (past llm parsers).Spec anything
      (judge_single llm parsers request allowed default)
      (fun v es => (view es).Says fun response => ReadFrom parsers response kind v) anything := by
  refine spec_bind (generate_from_spec _ _ _) fun response => ?_
  refine spec_ended (fun v hparse es hes => ?_) fun _ _ => trivial
  obtain ⟨endpoint, hholds⟩ := hes
  exact ⟨endpoint, response, hholds, allowed, default, v, hparse, .inl rfl⟩

/-- A verdict of any kind on one memory is read from an answer of an endpoint. -/
theorem judge_self_spec (kind : String) (entry : JudgeEntry) (context : Payload) :
    (past llm parsers).Spec anything (judge_self llm parsers kind entry context)
      (fun v es => (view es).Says fun response => ReadFrom parsers response kind v) anything := by
  unfold judge_self
  split
  · exact judge_single_spec kind _ _ _
  · split
    · exact judge_single_spec kind _ _ _
    · exact judge_single_spec kind _ _ _

/-- The model read is the one on the judge, or the first one configured. -/
theorem active_model_spec (good : String → Prop) :
    (past llm parsers).Spec (fun es => (view es).Says good) (active_model (some llm.model))
      (fun model es => ∃ active, ((view es).Says good ∧ (view es).read = some (some active)) ∧
        model = if active = "" then some llm.model else some active) anything := by
  refine spec_bind (S := fun (active : String) es =>
    (view es).Says good ∧ (view es).read = some (some active)) ?_ fun active => ?_
  · refine Tally.spec_preceding (fun _ _ _ => trivial) (fun es active hes => ⟨?_, ?_⟩)
      fun _ _ _ => trivial
    · obtain ⟨endpoint, response, ⟨hanswer, hserved⟩, hgood⟩ := hes
      exact ⟨endpoint, response, ⟨(last_of_concat es _).trans hanswer,
        (last_of_concat es _).trans hserved⟩, hgood⟩
    · exact last_of_concat es _
  · exact spec_pure _ fun es hes => ⟨active, hes, rfl⟩

/-- A judgment that says what the response says is recorded under the model read. -/
theorem stamped_spec {j : Option String → Judgment} {good : String → Prop}
    (hmodel : ∀ model, (j model).judge_model = model)
    (hgood : ∀ model response, good response → ParsedFrom parsers response (j model)) :
    (above llm parsers).Spec (fun es => (view es).Says good) (stamped (some llm.model) j)
      (fun _ es => (view es).Says good) anything := by
  refine spec_bind (spec_via (active_model_spec good)) fun model => ?_
  let P : View → Prop := fun t => ∃ active, (t.Says good ∧ t.read = some (some active)) ∧
    model = if active = "" then some llm.model else some active
  have hrecord : (above llm parsers).Spec (fun es => P (view es))
      (pair_store.record_judgment (j model)) (fun _ es => P (view es)) anything := by
    refine spec_bind (S := fun _ es => P (view es)) (spec_via (api_spec fun _ _ _ => trivial))
      fun pair_id => ?_
    refine spec_bind (S := fun _ es => P (view es)) (spec_via (api_spec fun _ _ _ => trivial))
      fun judged_at => spec_via (api_spec fun es r hes => ?_)
    obtain ⟨active, ⟨⟨endpoint, response, hholds, hsays⟩, hread⟩, hactive⟩ := hes
    exact ⟨endpoint, response, active, hholds, hgood _ _ hsays, hread, (hmodel _).trans hactive⟩
  refine hrecord.mono (fun _ h => h) (fun _ es hes => ?_) fun _ h => h
  obtain ⟨active, hes, -⟩ := hes
  exact hes.1

/-- A call to the store that needs nothing. -/
theorem plain_spec {c : Call} (hc : carry_out llm parsers c = Prog.perform (I := Turns) (.api c))
    (hneed : ∀ es r, needs llm parsers es ⟨.api c, r⟩) :
    (above llm parsers).Spec anything (Prog.perform (I := Api) c) (fun _ => anything) anything := by
  refine spec_via ?_
  rw [hc]
  exact api_spec (P := fun _ => True) fun es r _ => hneed es r

/-- A check of an event worker, stage by stage. -/
def check_stages (new_id : Id) (session_id : Option String) :
    Stages (above llm parsers) new_id (some llm.model) session_id where
  rest := anything
  found _ := True
  hit _ := True
  fresh _ := anything
  judged candidates judgments es := (view es).Says fun response =>
    parsers.parse_judgments response (candidates.map JudgeEntry.id) = .ok judgments
  noted kind v es := (view es).Says fun response => ReadFrom parsers response kind v
  fresh_rest _ _ _ := trivial
  judged_rest _ _ _ _ := trivial
  look := (plain_spec (c := .vs_get new_id) rfl fun _ _ => trivial).mono (fun _ h => h)
    (fun _ _ _ => ⟨trivial, fun _ _ => trivial⟩) fun _ h => h
  recorded text kind :=
    plain_spec (c := .pairs (.has_judgment new_id new_id text kind)) rfl fun _ _ => trivial
  search query top_k filters :=
    (plain_spec (c := .search query top_k filters) rfl fun _ _ => trivial).mono (fun _ h => h)
      (fun _ _ _ => ⟨trivial, fun _ _ => trivial⟩) fun _ h => h
  clock := plain_spec (c := .now_iso) rfl fun _ _ => trivial
  cache payload candidates _ _ := plain_spec (c := .pairs (.judged_either new_id
    (payload_text payload) (candidates.map fun c => (c.id, c.text)))) rfl fun _ _ => trivial
  judge _ _ _ _ hne := spec_via (judge_spec hne)
  judge_self kind entry context := spec_via (judge_self_spec kind entry context)
  exempt v reason es hv hexempt := by
    obtain ⟨endpoint, response, hholds, allowed, default, said, hparse, hsaid⟩ := hv
    refine ⟨endpoint, response, hholds, allowed, default, said, hparse, .inr ?_⟩
    rcases hsaid with rfl | ⟨hkind, hsaid, earlier, rfl⟩
    · exact ⟨rfl, hexempt, some reason, rfl⟩
    · exact ⟨hkind, hsaid, some reason, rfl⟩
  stamp candidates judgments v hv := stamped_spec (fun _ => rfl) fun model response hparse =>
    .displacement hparse hv rfl
  stamp_self payload kind v _ :=
    (stamped_spec (j := self_judgment new_id (payload_text payload) kind session_id v)
      (fun _ => rfl)
      fun model response hread => .self_check hread rfl).mono (fun _ h => h) (fun _ _ _ => trivial)
      fun _ h => h

end stages

/-! ## A worker -/

/-- The call does not record a judgment. -/
def records_nothing : Turn → Prop
  | .api (.pairs (.record_judgment ..)) => False
  | _ => True

theorem records_nothing_of {c : Call}
    (hc : ∀ j pair_id judged_at, c ≠ .pairs (.record_judgment j pair_id judged_at)) :
    records_nothing (.api c) := by
  unfold records_nothing
  split
  · rename_i heq
    injection heq with heq
    exact hc _ _ _ heq
  · trivial

section worker

variable {llm : FallbackLLM} {parsers : Parsers}

/-- What records nothing needs nothing before it. -/
theorem needs_of_records_nothing {c : Turn} (hc : records_nothing c) (es : List (Event Turns))
    (r : Except Exn c.Answer) : needs llm parsers es ⟨c, r⟩ := by
  unfold needs
  split
  · rename_i heq
    cases heq
    exact False.elim hc
  · trivial

theorem generate_from_records_nothing (request : Request) (endpoints : List Endpoint)
    (errors : List String) :
    (FallbackLLM.generate_from request endpoints errors).Uses records_nothing := by
  induction endpoints generalizing errors with
  | nil => exact Prog.uses_throw (I := Turns) _
  | cons endpoint endpoints ih =>
    refine Prog.uses_bind (Prog.uses_perform (I := Turns) trivial) fun reply => ?_
    cases reply with
    | failed type_name exc => exact ih _
    | answered response =>
      simp only
      split
      · exact ih _
      · exact Prog.uses_bind (Prog.uses_perform (I := Turns) trivial) fun _ => Prog.uses_pure _

theorem ended_uses {α : Type} {ok : Turn → Prop} (r : Except Exn α) :
    (Prog.ended (I := Turns) r).Uses ok := by
  cases r with
  | ok a => exact .ret a
  | error e => exact Prog.uses_throw (I := Turns) e

theorem judge_single_records_nothing (request : Request) (allowed : List String)
    (default : String) : (judge_single llm parsers request allowed default).Uses records_nothing :=
  Prog.uses_bind (generate_from_records_nothing _ _ _) fun _ => ended_uses _

/-- Only recording a judgment comes to recording a judgment. -/
theorem carry_out_records_nothing {c : Call} (hc : records_nothing (.api c)) :
    (carry_out llm parsers c).Uses records_nothing := by
  cases c with
  | judge entry candidates =>
    change (judge llm parsers entry candidates).Uses records_nothing
    unfold judge
    split
    · exact Prog.uses_pure _
    · exact Prog.uses_bind (generate_from_records_nothing _ _ _) fun _ => ended_uses _
  | judge_self kind entry context =>
    change (judge_self llm parsers kind entry context).Uses records_nothing
    unfold judge_self
    split
    · exact judge_single_records_nothing _ _ _
    · split
      · exact judge_single_records_nothing _ _ _
      · exact judge_single_records_nothing _ _ _
  | active_model judge_model =>
    exact Prog.uses_bind (Prog.uses_perform (I := Turns) trivial) fun _ => Prog.uses_pure _
  | _ => exact Prog.uses_perform (I := Turns) hc

/-- A program that records nothing keeps whatever is above it. -/
theorem code_spec {α : Type} {p : Code α} (hp : p.Uses fun c => records_nothing (.api c)) :
    (above llm parsers).Spec anything p (fun _ => anything) anything := by
  intro es hes _
  have hsafe :
      (Tally.preceding (needs llm parsers)).safe (p.translate (carry_out llm parsers)) es :=
    Tally.safe_of_uses (Prog.translate_uses hp fun c hc => carry_out_records_nothing hc) hes
      fun c r es hc hes => Tally.Preceded.concat hes (needs_of_records_nothing hc es r)
  refine Tally.wp_mono hsafe fun r _ _ _ => ?_
  cases r with
  | _ => trivial

theorem job_spec (host : Host) (job : Job) :
    (above llm parsers).Spec anything (job.code llm host) (fun _ => anything) anything := by
  cases job with
  | add content user_id agent_id run_id metadata infer =>
    refine spec_bind (code_spec
      (dispatch_uses (fun c hc => ?_) (fun c hc => ?_) host _ fun op hop =>
      False.elim hop)) fun _ => spec_pure _ fun _ h => h
    · refine records_nothing_of fun j pair_id judged_at heq => ?_
      rw [heq] at hc
      exact hc
    · refine records_nothing_of fun j pair_id judged_at heq => ?_
      rw [heq] at hc
      cases hc
  | stale_check new_id session_id self_only =>
    exact spec_bind ((check_stages new_id session_id).run_stale_check_spec _ _) fun _ =>
      spec_pure _ fun _ h => h

theorem work_spec (host : Host) (jobs : List Job) :
    (above llm parsers).Spec anything (work llm host jobs) (fun _ => anything) anything := by
  induction jobs with
  | nil => exact spec_pure () fun _ h => h
  | cons job jobs ih =>
    exact spec_bind (spec_tryCatch (job_spec host job) fun _ => spec_pure () fun _ h => h)
      fun _ => ih

/-- What a worker records is backed by its calls before. -/
theorem worker_backed {host : Host} {jobs : List Job} {es : List (Event Turns)}
    {q : Prog Turns Unit} (h : Trace (worker llm parsers host jobs) es q) :
    Tally.Preceded (needs llm parsers) es :=
  Tally.preceded_of_trace h (work_spec host jobs [] Tally.preceded_nil trivial)

end worker

/-! ## Workers that share a judge -/

/-- The judgment goes on record. -/
def Records (j : Judgment) (e : Event Turns) : Prop :=
  ∃ pair_id judged_at r, e = ⟨.api (.pairs (.record_judgment j pair_id judged_at)), r⟩

section log

variable {ι : Type} [DecidableEq ι]

/-- Every judgment on record names the model of the endpoint that gave the response it was
read from. -/
def NamesAnswerer (parsers : Parsers) (log : List (ι × Event Turns)) : Prop :=
  ∀ before i j e after, log = before ++ (i, e) :: after → Records j e →
    ∃ endpoint response, last_of answer_of (Conf.own i before) = some (endpoint, response) ∧
      ParsedFrom parsers response j ∧ j.judge_model = some endpoint.model

/-- After `before` worker `i` reads the model, and with that goes on to record a judgment. -/
def ReadsToRecord (log before : List (ι × Event Turns)) (i : ι) : Prop :=
  ∃ r between j f after,
    log = before ++ (i, ⟨.get_active_model, r⟩) :: (between ++ (i, f) :: after) ∧
      Records j f ∧ ∀ e ∈ Conf.own i between, read_since e = none

/-- Whenever a worker reads the model for a judgment, the last call on the judge was served
by the model that served the worker's own last call. -/
def InTurn (log : List (ι × Event Turns)) : Prop :=
  ∀ before i, ReadsToRecord log before i →
    last_of served (before.map Prod.snd) = last_of served (Conf.own i before)

variable {σ : Type} {llm : FallbackLLM} {parsers : Parsers} {host : Host}
  {around : Surroundings σ} {s : σ} {t : σ × String} {log : List (ι × Event Turns)}

theorem served_ne {es : List (Event Turns)} {m : String} (h : last_of served es = some m) :
    m ≠ "" := by
  obtain ⟨es₁, e, es₂, -, he, -⟩ := last_of_eq_some h
  unfold served at he
  split at he
  · rename_i endpoint r
    injection he with he
    exact he ▸ endpoint.named
  · cases he

/-- The attribute is what the last call was served by. -/
theorem active_of_answered {u v : σ × String} {es : List (Event Turns)}
    (h : Answered around.handler u es v) : v.2 = (last_of served es).getD u.2 := by
  induction h with
  | nil _ => rfl
  | @cons c u v es _ ih =>
    have hstep : (around.handler c u).2.2 = (served ⟨c, (around.handler c u).1⟩).getD u.2 := by
      cases c with
      | _ => rfl
    rw [ih, hstep, last_of_cons]
    cases last_of served es with
    | none => rfl
    | some m => rfl

/-- The log of some workers, and where it leads. -/
structure Logged (llm : FallbackLLM) (parsers : Parsers) (around : Surroundings σ) (s : σ)
    (log : List (ι × Event Turns)) (t : σ × String) : Prop where
  backed : ∀ i, Tally.Preceded (needs llm parsers) (Conf.own i log)
  answered : Answered around.handler (s, llm.model) (log.map Prod.snd) t

/-- Whatever the workers do, the log holds what each of them was told. -/
theorem run_workers_logged (jobs : ι → List Job) (sched : List ι) :
    Logged llm parsers around s (run_workers llm parsers host around s jobs sched).log
      (run_workers llm parsers host around s jobs sched).state := by
  obtain ⟨l, hlog, htraces, hans⟩ := Conf.exec_trace around.handler
    (Conf.start (fun i => worker llm parsers host (jobs i)) (s, llm.model)) sched
  have hl : (run_workers llm parsers host around s jobs sched).log = l := by
    rw [run_workers, hlog]
    rfl
  rw [hl]
  exact ⟨fun i => worker_backed (htraces i), hans⟩

/-- What is read is what the last call was served by. -/
theorem Logged.read (h : Logged llm parsers around s log t) {before after : List (ι × Event Turns)}
    {i : ι} {r : Except Exn String}
    (hlog : log = before ++ (i, ⟨.get_active_model, r⟩) :: after) :
    r = .ok ((last_of served (before.map Prod.snd)).getD llm.model) := by
  have hans := h.answered
  rw [hlog, List.map_append, List.map_cons] at hans
  obtain ⟨u, hbefore, hrest⟩ := hans.split
  have hread : r = .ok u.2 := (Answered.of_cons hrest).1
  rw [hread, active_of_answered hbefore]

/-- At each recording in the log the judgment has its backing in what its worker had heard
before. -/
theorem Logged.backed_at (h : Logged llm parsers around s log t)
    {before after : List (ι × Event Turns)} {i : ι} {j : Judgment} {e : Event Turns}
    (hlog : log = before ++ (i, e) :: after) (hrecords : Records j e) :
    Backed llm parsers (view (Conf.own i before)) j := by
  obtain ⟨pair_id, judged_at, r, rfl⟩ := hrecords
  exact h.backed i _ _ _ (by rw [hlog, Conf.own_append, Conf.own_cons_self])

/-- Who read the model after `before` and has not been answered since: what served its
last call, and what it read. -/
theorem Logged.served_read (h : Logged llm parsers around s log t)
    {before between after : List (ι × Event Turns)} {i : ι} {r : Except Exn String}
    {active m : String}
    (hlog : log = before ++ (i, ⟨.get_active_model, r⟩) :: (between ++ after))
    (hbetween : ∀ e ∈ Conf.own i between, read_since e = none)
    (hread : last_of read_since (Conf.own i (before ++ (i, ⟨.get_active_model, r⟩) :: between)) =
      some (some active))
    (hserved : last_of served (Conf.own i (before ++ (i, ⟨.get_active_model, r⟩) :: between)) =
      some m) :
    last_of served (Conf.own i before) = some m ∧
      last_of served (before.map Prod.snd) = some active ∧ active ≠ "" := by
  -- between the reading and the record the thread itself is not served
  have hnone : last_of served (Conf.own i between) = none := by
    refine last_of_eq_none.mpr fun e he => ?_
    have hquiet := hbetween e he
    unfold served
    split
    · cases hquiet
    · rfl
  rw [Conf.own_append, Conf.own_cons_self, last_of_append, last_of_cons, hnone] at hserved
  rw [Conf.own_append, Conf.own_cons_self, last_of_append, last_of_cons,
    last_of_eq_none.mpr hbetween, h.read hlog] at hread
  have hown : last_of served (Conf.own i before) = some m := hserved
  have hactive : (last_of served (before.map Prod.snd)).getD llm.model = active := by
    injection hread with hread
    injection hread
  obtain ⟨m', hm'⟩ : ∃ m', last_of served (before.map Prod.snd) = some m' := by
    refine Option.ne_none_iff_exists'.mp fun hall => ?_
    have hnone : last_of served (Conf.own i before) = none :=
      last_of_eq_none.mpr fun e he =>
        last_of_eq_none.mp hall e (List.mem_map.mpr ⟨_, Conf.mem_own.mp he, rfl⟩)
    rw [hnone] at hown
    cases hown
  rw [hm', Option.getD_some] at hactive
  rw [← hactive]
  exact ⟨hown, hm', served_ne hm'⟩

/-- Where no other model comes in between, judgments name who gave the response. -/
theorem Logged.names_answerer (h : Logged llm parsers around s log t) (hturn : InTurn log) :
    NamesAnswerer parsers log := by
  intro l i j f after hlog hrecords
  obtain ⟨endpoint, response, active, ⟨hanswer, hserved⟩, hparsed, hread, hmodel⟩ :=
    h.backed_at hlog hrecords
  refine ⟨endpoint, response, hanswer, hparsed, ?_⟩
  obtain ⟨before, r, between, rfl, hbetween⟩ : ∃ before r between,
      l = before ++ (i, ⟨.get_active_model, r⟩) :: between ∧
        ∀ e ∈ Conf.own i between, read_since e = none := by
    obtain ⟨es₁, e, es₂, hes, he, hquiet⟩ := last_of_eq_some hread
    obtain ⟨before, between, rfl, -, rfl⟩ := Conf.own_split hes
    unfold read_since at he
    split at he
    · cases he
    · exact ⟨before, _, between, rfl, hquiet⟩
    · cases he
  rw [List.append_assoc, List.cons_append] at hlog
  obtain ⟨hown, hlast, hne⟩ := h.served_read hlog hbetween hread hserved
  have hin := hturn before i ⟨r, between, j, f, after, hlog, hrecords, hbetween⟩
  rw [hlast, hown] at hin
  rw [hmodel, if_neg hne, hin]

/-- And where another one did, they do not. -/
theorem Logged.in_turn (h : Logged llm parsers around s log t)
    (hnames : NamesAnswerer parsers log) : InTurn log := by
  rintro before i ⟨r, between, j, f, after, hlog, hrecords, hbetween⟩
  have hlog' := hlog
  rw [← List.cons_append, ← List.append_assoc] at hlog'
  obtain ⟨endpoint, response, active, ⟨hanswer, hserved⟩, -, hread, hmodel⟩ :=
    h.backed_at hlog' hrecords
  obtain ⟨endpoint', response', hanswer', -, hmodel'⟩ := hnames _ _ _ _ _ hlog' hrecords
  obtain ⟨hown, hlast, hne⟩ := h.served_read hlog hbetween hread hserved
  have hsame : endpoint' = endpoint := by
    have heq := hanswer'.symm.trans hanswer
    injection heq with heq
    exact congrArg Prod.fst heq
  rw [hown, hlast, ← hsame, ← hmodel', hmodel, if_neg hne]

/-- A worker that has the judge to itself is never overtaken. -/
theorem Logged.names_answerer_alone [Subsingleton ι] (h : Logged llm parsers around s log t) :
    NamesAnswerer parsers log := by
  refine h.names_answerer fun before i _ => ?_
  have hown : Conf.own i before = before.map Prod.snd := by
    rw [Conf.own, List.filter_eq_self.mpr fun e _ => decide_eq_true (Subsingleton.elim e.1 i)]
  rw [hown]

end log

/-- **A recorded pair names the model that judged it**, whichever endpoints fail and in
whichever order the calls of the event workers are made, exactly where no worker reads the
model after a call of another worker that was served by another model than its own. -/
theorem names_answerer_iff_in_turn {ι σ : Type} [DecidableEq ι] (llm : FallbackLLM)
    (parsers : Parsers) (host : Host) (around : Surroundings σ) (s : σ) (jobs : ι → List Job)
    (sched : List ι) :
    NamesAnswerer parsers (run_workers llm parsers host around s jobs sched).log ↔
      InTurn (run_workers llm parsers host around s jobs sched).log := by
  have hlogged : Logged llm parsers around s (run_workers llm parsers host around s jobs sched).log
      (run_workers llm parsers host around s jobs sched).state := run_workers_logged jobs sched
  exact ⟨hlogged.in_turn, hlogged.names_answerer⟩

/-! ### Two workers -/

def primary : Endpoint := ⟨"primary", "m1", by decide⟩

def fallback : Endpoint := ⟨"fallback", "m2", by decide⟩

/-- Verdicts in one word. -/
def one_word : Parsers where
  parse_judgments _ _ := .ok []
  parse_single_judgment response allowed default :=
    .ok ⟨if response ∈ allowed then response else default, none, none⟩

def entry_of : Request → Id
  | .judge entry _ | .judge_self _ entry _ => entry.id

/-- The primary endpoint is not reached for one of the memories. -/
def flaky : Surroundings World where
  api := Host.plain.answer
  reply endpoint request w :=
    (if endpoint.name = "primary" ∧ entry_of request = "b" then
        .failed "APITimeoutError" "Request timed out."
      else .answered (some "EXPIRING"), w)

def two_entries : World :=
  (World.empty.put "a" (.ofList [("data", .str "A")])).put "b" (.ofList [("data", .str "B")])

def claimed : Bool → List Job
  | true => [.stale_check "a" none true]
  | false => [.stale_check "b" none true]

/-- One worker is answered, then the other one, and then the first one reads the model. -/
def overtaken : List Bool :=
  List.replicate 4 true ++ List.replicate 5 false ++ List.replicate 4 true

def overtaken_run : Conf Turns Bool Unit (World × String) :=
  run_workers ⟨primary, [fallback]⟩ one_word Host.plain flaky two_entries claimed overtaken

/-- What it then records. -/
def misnamed : Judgment :=
  self_judgment "a" "A" KIND_NECESSITY none ⟨"EXPIRING", none, none⟩ (some "m2")

/-- A verdict of the primary endpoint goes on record as one of the fallback. -/
theorem fallback_named : ¬ NamesAnswerer one_word overtaken_run.log := by
  intro hnames
  obtain ⟨pair_id, judged_at, r, hlog⟩ : ∃ pair_id judged_at r, overtaken_run.log =
      overtaken_run.log.take 12 ++
        (true, ⟨.api (.pairs (.record_judgment misnamed pair_id judged_at)), r⟩) :: [] :=
    ⟨_, _, _, rfl⟩
  obtain ⟨endpoint, response, hanswer, -, hmodel⟩ :=
    hnames _ _ _ _ _ hlog ⟨pair_id, judged_at, r, rfl⟩
  have hprimary : last_of answer_of (Conf.own true (overtaken_run.log.take 12)) =
      some (primary, "EXPIRING") := rfl
  rw [hprimary] at hanswer
  injection hanswer with hanswer
  injection hanswer with hendpoint
  rw [← hendpoint] at hmodel
  exact absurd hmodel (by decide)

end Memline.Llm
