/-
The judge and its endpoints, as the code of `llm.py` and `judge.py`.

A judge is asked through a `FallbackLLM`: the primary endpoint first, the fallbacks when
it fails or has nothing to say. Which of them answered is written to `active_model`, an
attribute of the one object that all event workers share, and read back from there when
a verdict is recorded. So a worker's calls are not the calls of its code: `carry_out`
says what asking the judge and reading the model come to, down to one request to one
endpoint and one access to the attribute.

What an endpoint does with a request is up to the surroundings, and so is what a judge's
text parses as. The prompts are a function of the request, the clients are made when
needed; neither is modelled.
-/
import Memline.Lib.Logic
import Memline.Ops

set_option autoImplicit false

namespace Memline.Llm

open Effect

/-! ## Endpoints -/

/-- An endpoint of the configuration, which does not do without a model. -/
structure Endpoint where
  name : String
  model : String
  named : model ≠ ""

/-- What an endpoint is asked for. -/
inductive Request where
  | judge (new_entry : JudgeEntry) (candidates : List JudgeEntry)
  | judge_self (kind : String) (entry : JudgeEntry) (context : Payload)

/-- What comes of one request to one endpoint. -/
inductive Reply where
  | answered (response : Option String)
  | failed (type_name exc : String)

/-- `_is_empty_answer`. -/
def is_empty_answer : Option String → Bool
  | none => true
  | some response => Mem0.strip response = ""

/-! ## What a worker does -/

inductive Turn where
  | api (c : Call)
  | request (endpoint : Endpoint) (request : Request)
  /-- `self.active_model = endpoint.model`. -/
  | set_active_model (endpoint : Endpoint)
  | get_active_model

namespace Turn

def Answer : Turn → Type
  | api c => c.Answer
  | request .. => Reply
  | set_active_model _ => Unit
  | get_active_model => String

end Turn

abbrev Turns : Interface := ⟨Turn, Turn.Answer, Exn⟩

/-- The endpoints of a job: the primary one and its fallbacks. -/
structure FallbackLLM where
  primary : Endpoint
  fallbacks : List Endpoint

namespace FallbackLLM

variable (llm : FallbackLLM)

def endpoints : List Endpoint := llm.primary :: llm.fallbacks

def model : String := llm.primary.model

/-- The endpoints in turn, until one answers. -/
def generate_from (request : Request) : List Endpoint → List String → Prog Turns String
  | [], errors => throw (.other ("all llm endpoints failed: " ++ " | ".intercalate errors))
  | endpoint :: endpoints, errors => do
    let reply : Reply ← Prog.perform (I := Turns) (.request endpoint request)
    (match reply with
      | .failed type_name exc => generate_from request endpoints
          (errors ++ [s!"{endpoint.name}({endpoint.model}): {type_name}: {exc}"])
      | .answered response =>
        -- an answer without text is a failure of the endpoint
        if is_empty_answer response then generate_from request endpoints
          (errors ++ [s!"{endpoint.name}({endpoint.model}): empty response"])
        else do
          Prog.perform (I := Turns) (.set_active_model endpoint)
          pure (response.getD ""))

def generate_response (request : Request) : Prog Turns String :=
  generate_from request llm.endpoints []

end FallbackLLM

/-- `active_model`: the attribute, or a default where it is not set. -/
def active_model (default : Option String) : Prog Turns (Option String) := do
  let active : String ← Prog.perform (I := Turns) .get_active_model
  pure (if active = "" then default else some active)

/-! ## The judges -/

def NECESSITY_VERDICTS : List String := ["DURABLE", "BORN_UNNECESSARY", "EXPIRING"]

def SAFETY_VERDICTS : List String := ["CLEAN", "SECRET_SUSPECT"]

def CORRECTNESS_VERDICTS : List String :=
  ["CONSISTENT", "TIMESTAMP_SUSPECT", "ATTRIBUTION_SUSPECT", "LANGUAGE_SUSPECT"]

/-- What the text of a judge is read as. -/
structure Parsers where
  parse_judgments : String → List Id → Except Exn (List (Id × Verdict))
  parse_single_judgment : String → List String → String → Except Exn Verdict

section judges

variable (llm : FallbackLLM) (parsers : Parsers)

def judge (new_entry : JudgeEntry) (candidates : List JudgeEntry) :
    Prog Turns (List (Id × Verdict)) :=
  if candidates = [] then pure []
  else do
    let response ← llm.generate_response (.judge new_entry candidates)
    Prog.ended (parsers.parse_judgments response (candidates.map JudgeEntry.id))

/-- The judges of one entry. -/
def judge_single (request : Request) (allowed_verdicts : List String) (default_verdict : String) :
    Prog Turns Verdict := do
  let response ← llm.generate_response request
  Prog.ended (parsers.parse_single_judgment response allowed_verdicts default_verdict)

def judge_necessity (entry : JudgeEntry) : Prog Turns Verdict :=
  judge_single llm parsers (.judge_self KIND_NECESSITY entry ∅) NECESSITY_VERDICTS "DURABLE"

def judge_safety (entry : JudgeEntry) : Prog Turns Verdict :=
  judge_single llm parsers (.judge_self KIND_SAFETY entry ∅) SAFETY_VERDICTS "CLEAN"

def judge_correctness (entry : JudgeEntry) (context : Payload) : Prog Turns Verdict :=
  judge_single llm parsers (.judge_self KIND_CORRECTNESS entry context) CORRECTNESS_VERDICTS
    "CONSISTENT"

/-- The judge of a kind. -/
def judge_self (kind : String) (entry : JudgeEntry) (context : Payload) : Prog Turns Verdict :=
  if kind = KIND_NECESSITY then judge_necessity llm parsers entry
  else if kind = KIND_SAFETY then judge_safety llm parsers entry
  else judge_correctness llm parsers entry context

/-- What the calls of the code come to. -/
def carry_out : (c : Call) → Prog Turns c.Answer
  | .judge entry candidates => judge llm parsers entry candidates
  | .judge_self kind entry context => judge_self llm parsers kind entry context
  | .active_model judge_model => active_model judge_model
  | c => Prog.perform (I := Turns) (.api c)

end judges

/-! ## Event workers -/

/-- What a worker claims from the queue. -/
inductive Job where
  | add (content : List Message) (user_id agent_id run_id : Option String) (metadata : Payload)
      (infer : Bool)
  | stale_check (new_id : Id) (session_id : Option String) (self_only : Bool)

section workers

variable (llm : FallbackLLM) (parsers : Parsers) (host : Host)

def Job.code : Job → Code Unit
  | add content user_id agent_id run_id metadata infer => do
    let _ ← ops.dispatch host (.add content user_id agent_id run_id metadata infer)
  | stale_check new_id session_id self_only => do
    let _ ← run_stale_check new_id session_id (some llm.model) STALE_CHECK_TOP_K self_only

/-- One job after the other; a failure ends the job only. -/
def work : List Job → Code Unit
  | [] => pure ()
  | job :: jobs => do
    attempt (job.code llm host)
    work jobs

/-- A worker, with its calls carried out. -/
def worker (jobs : List Job) : Prog Turns Unit :=
  (work llm host jobs).translate (carry_out llm parsers)

end workers

/-! ## Workers at once -/

/-- Who answers the calls to the store, and what the endpoints say. -/
structure Surroundings (σ : Type) where
  api : Handler Api σ
  reply : Endpoint → Request → σ → Reply × σ

/-- The surroundings, and the attribute that all workers share. -/
def Surroundings.handler {σ : Type} (around : Surroundings σ) : Handler Turns (σ × String)
  | .api c, (s, active) => ((around.api c s).1, ((around.api c s).2, active))
  | .request endpoint request, (s, active) =>
    (.ok (around.reply endpoint request s).1, ((around.reply endpoint request s).2, active))
  | .set_active_model endpoint, (s, _) => (.ok (), (s, endpoint.model))
  | .get_active_model, (s, active) => (.ok active, (s, active))

/-- Event workers that share one judge, each with the jobs it comes to claim. -/
def run_workers {ι σ : Type} [DecidableEq ι] (llm : FallbackLLM) (parsers : Parsers) (host : Host)
    (around : Surroundings σ) (s : σ) (jobs : ι → List Job) (sched : List ι) :
    Conf Turns ι Unit (σ × String) :=
  Conf.exec around.handler (Conf.start (fun i => worker llm parsers host (jobs i)) (s, llm.model))
    sched

end Memline.Llm
