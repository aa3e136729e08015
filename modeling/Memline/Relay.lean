/-
Asking the endpoints of a job for one JSON document, as the code of `relay.py`.

Every endpoint is asked a number of times before the next one is. A request that broke, an answer
that was cut off and an answer that is no JSON cost one attempt each and leave a line for the
caller; a refusal ends the whole call. What the endpoints do is up to the world, and may depend on
everything they did before.

The time a call takes is left out, and the backoff is taken as not negative: a sleep for a negative
time raises.
-/
import Memline.Answers
import Memline.Lib.Retry
import Memline.Llm
import Memline.Stream

set_option autoImplicit false

namespace Memline.relay

open Effect Py

/-! ## Requests -/

/-- What came of one request: the chunks that arrived, and the exception where the stream broke. -/
structure Reply where
  chunks : List Chunk
  broken : Option Failure

/-- An endpoint and the number of the attempt at it. -/
abbrev Place : Type := Llm.Endpoint × ℕ

inductive Ask where
  | stream_once (place : Place)
  /-- `time.sleep(backoff * times)`, with a backoff that is not negative. -/
  | sleep (times : ℕ)

namespace Ask

def Answer : Ask → Type
  | stream_once _ => Reply
  | sleep _ => Unit

end Ask

/-- What a call may raise. -/
inductive Raised where
  | refused_error (msg : String)
  | runtime_error (msg : String)
  | recursion_error
  deriving DecidableEq

abbrev Asking : Interface := ⟨Ask, Ask.Answer, Raised⟩

/-- What a call returns beside the document. -/
structure CallResult where
  text : String
  endpoint : String
  model : String
  attempt : ℕ
  usage : Dict
  finish_reason : Option String
  earlier_failures : List String

/-- The budgets of a job. -/
structure Settings where
  max_tokens : ℤ
  attempts_per_endpoint : ℤ

/-- The endpoints in order, each as often as it is tried. -/
def schedule (endpoints : List Llm.Endpoint) (settings : Settings) : List Place :=
  endpoints.flatMap fun endpoint =>
    (List.range' 1 settings.attempts_per_endpoint.toNat).map fun attempt => (endpoint, attempt)

section

variable (rd : Reader) (lower : String → String) (settings : Settings)

def contains (part text : String) : Bool := decide (part.toList <:+: text.toList)

def looks_refused (e : Failure) : Bool :=
  let text := lower e.exc
  contains "high risk" text || (contains "content" text && contains "reject" text)

/-- How the line of a failed attempt begins. -/
def place_text (place : Place) : String := s!"{place.1.name} attempt {place.2}: "

/-- `CallResult(…)`. -/
def call_result (place : Place) (g : Gathered) (errors : List String) : CallResult where
  text := g.text
  endpoint := place.1.name
  model := place.1.model
  attempt := place.2
  usage := g.usage
  finish_reason := g.finish
  earlier_failures := errors

/-- One turn of the loops. -/
def one_attempt (place : Place)
    (errors : List String) : Prog Asking ((Json × CallResult) ⊕ String) := do
  let reply : Reply ← Prog.perform (I := Asking) (.stream_once place)
  match reply.broken with
  | some e =>
    -- the content was declined, and asking again will not help
    if looks_refused lower e then throw (.refused_error s!"{place.1.name}: {e.exc}")
    else do
      Prog.perform (I := Asking) (.sleep place.2)
      pure (.inr (place_text place ++ s!"{e.type_name}: {e.exc}"))
  | none =>
    let g := gather reply.chunks
    -- the answer was cut off: the next attempt follows at once
    if g.finish = some "length" then
      pure (.inr (place_text place ++ s!"truncated at {settings.max_tokens} tokens"))
    else match parse_json rd g.text with
      | .ok value => pure (.inl (value, call_result place g errors))
      | .error (.value_error msg) => do
        Prog.perform (I := Asking) (.sleep 1)
        pure (.inr (place_text place ++ msg))
      | .error .recursion_error => throw .recursion_error

/-- When every attempt failed. -/
def give_up (errors : List String) : Prog Asking (Json × CallResult) :=
  throw (.runtime_error ("no endpoint produced valid JSON:\n  " ++ "\n  ".intercalate errors))

def call_json (endpoints : List Llm.Endpoint) : Prog Asking (Json × CallResult) :=
  Prog.tried (one_attempt rd lower settings) give_up (schedule endpoints settings) []

end

/-- What the endpoints do. -/
structure World (σ : Type) where
  reply : Place → σ → Reply × σ
  sleep : ℕ → σ → σ

def World.answer {σ : Type} (world : World σ) : Handler Asking σ
  | .stream_once place, s => (.ok (world.reply place s).1, (world.reply place s).2)
  | .sleep times, s => (.ok (), world.sleep times s)

/-! ## What a reply is worth -/

/-- A request and what came of it. -/
structure Asked where
  place : Place
  reply : Reply

/-- The document, or why there is none; a failure may be followed by a pause. -/
inductive Verdict where
  | document (value : Json)
  | failed (line : String) (pause : Option ℕ)
  | refused (msg : String)
  | recursion

namespace Verdict

def line : Verdict → String
  | failed line _ => line
  | _ => ""

def pause : Verdict → Option ℕ
  | failed _ pause => pause
  | _ => none

/-- The next attempt is made. -/
def goes_on : Verdict → Bool
  | failed _ _ => true
  | _ => false

end Verdict

section

variable (rd : Reader) (lower : String → String) (settings : Settings)

def verdict (a : Asked) : Verdict :=
  match a.reply.broken with
  | some e =>
    if looks_refused lower e then .refused s!"{a.place.1.name}: {e.exc}"
    else .failed (place_text a.place ++ s!"{e.type_name}: {e.exc}") (some a.place.2)
  | none =>
    -- a stream that has ended well may still be cut at the limit, or be no JSON
    let g := gather a.reply.chunks
    if g.finish = some "length" then
      .failed (place_text a.place ++ s!"truncated at {settings.max_tokens} tokens") none
    else match parse_json rd g.text with
      | .ok value => .document value
      | .error (.value_error msg) => .failed (place_text a.place ++ msg) (some 1)
      | .error .recursion_error => .recursion

/-- What the whole call comes to, from the last request and the lines of those before it. -/
def conclusion (a : Asked) (errors : List String) : Except Raised (Json × CallResult) :=
  match verdict rd lower settings a with
  | .document value => .ok (value, call_result a.place (gather a.reply.chunks) errors)
  | .failed line _ =>
    .error (.runtime_error ("no endpoint produced valid JSON:\n  " ++
      "\n  ".intercalate (errors ++ [line])))
  | .refused msg => .error (.refused_error msg)
  | .recursion => .error .recursion_error

end

/-- The requests that were made, with what came of them. -/
def asked (es : List (Event Asking)) : List Asked :=
  es.filterMap fun
    | ⟨.stream_once place, .ok reply⟩ => some ⟨place, reply⟩
    | _ => none

/-- The pauses that were made. -/
def slept (es : List (Event Asking)) : List ℕ :=
  es.filterMap fun
    | ⟨.sleep times, _⟩ => some times
    | _ => none

/-! ## One attempt -/

section course

variable {rd : Reader} {lower : String → String} {settings : Settings} {es : List (Event Asking)}

theorem asked_append (es fs : List (Event Asking)) :
    asked (es ++ fs) = asked es ++ asked fs := List.filterMap_append

theorem slept_append (es fs : List (Event Asking)) :
    slept (es ++ fs) = slept es ++ slept fs := List.filterMap_append

/-- What an attempt comes to. -/
def came_to (rd : Reader) (lower : String → String) (settings : Settings) (a : Asked)
    (errors : List String) : Prog Asking ((Json × CallResult) ⊕ String) :=
  match verdict rd lower settings a with
  | .document value => .ret (.inl (value, call_result a.place (gather a.reply.chunks) errors))
  | .failed line _ => .ret (.inr line)
  | .refused msg => .raise (.refused_error msg)
  | .recursion => .raise .recursion_error

/-- Every call was answered. -/
def Replied (es : List (Event Asking)) : Prop := ∀ e ∈ es, ∃ a, e.2 = .ok a

/-- A pause, and then the line. -/
theorem sleep_trace {times : ℕ} {line : String} {q : Prog Asking ((Json × CallResult) ⊕ String)}
    (h : Trace (do
      Prog.perform (I := Asking) (.sleep times)
      pure (.inr line)) es q) (hq : q.Done) (hes : Replied es) : es = [⟨.sleep times, .ok ()⟩] ∧
        q = .ret (.inr line) := by
  -- the pause is still to be made, or it failed, which no call does, or it was made
  rcases h.perform_bind with ⟨-, hnot⟩ | ⟨e, rfl, -⟩ | ⟨u, fs, rfl, hrest⟩
  · exact absurd hq hnot
  · obtain ⟨a, ha⟩ := hes _ (List.mem_singleton_self _)
    cases ha
  · obtain ⟨rfl, rfl⟩ := hrest.of_done trivial
    exact ⟨rfl, rfl⟩

/-- One request, and a pause where the verdict says so. -/
theorem one_attempt_trace {place : Place} {errors : List String}
    {q : Prog Asking ((Json × CallResult) ⊕ String)}
    (h : Trace (one_attempt rd lower settings place errors) es q) (hq : q.Done) (hes : Replied es) :
    ∃ reply, asked es = [⟨place, reply⟩] ∧
      slept es = (verdict rd lower settings ⟨place, reply⟩).pause.toList ∧
      q = came_to rd lower settings ⟨place, reply⟩ errors := by
  rcases h.perform_bind with ⟨-, hnot⟩ | ⟨e, rfl, -⟩ | ⟨reply, fs, rfl, hrest⟩
  · exact absurd hq hnot
  · obtain ⟨a, ha⟩ := hes _ (List.mem_singleton_self _)
    cases ha
  refine ⟨reply, ?_⟩
  have hfs : Replied fs := fun e he => hes e (List.mem_cons_of_mem _ he)
  -- the two ways on from the request: at once to the end, or through a pause
  have hstop : ∀ p : Prog Asking ((Json × CallResult) ⊕ String), p.Done → Trace p fs q →
      asked (⟨.stream_once place, .ok reply⟩ :: fs) = [⟨place, reply⟩] ∧
        slept (⟨.stream_once place, .ok reply⟩ :: fs) = [] ∧ q = p := by
    intro p hp hp'
    obtain ⟨rfl, rfl⟩ := hp'.of_done hp
    exact ⟨rfl, rfl, rfl⟩
  have hpause : ∀ times line, Trace (do
      Prog.perform (I := Asking) (.sleep times)
      pure (.inr line)) fs q →
      asked (⟨.stream_once place, .ok reply⟩ :: fs) = [⟨place, reply⟩] ∧
        slept (⟨.stream_once place, .ok reply⟩ :: fs) = [times] ∧ q = .ret (.inr line) := by
    intro times line hp
    obtain ⟨rfl, rfl⟩ := sleep_trace hp hq hfs
    exact ⟨rfl, rfl, rfl⟩
  cases hbroken : (reply : Reply).broken with
  | some e =>
    simp only [hbroken] at hrest
    by_cases hrefused : looks_refused lower e
    · rw [if_pos hrefused] at hrest
      have hv : verdict rd lower settings ⟨place, reply⟩ =
          .refused s!"{place.1.name}: {e.exc}" := by
        simp only [verdict, hbroken, if_pos hrefused]
      rw [came_to, hv]
      exact hstop (.raise _) trivial hrest
    · rw [if_neg hrefused] at hrest
      have hv : verdict rd lower settings ⟨place, reply⟩ =
          .failed (place_text place ++ s!"{e.type_name}: {e.exc}") (some place.2) := by
        simp only [verdict, hbroken, if_neg hrefused]
      rw [came_to, hv]
      exact hpause _ _ hrest
  | none =>
    simp only [hbroken] at hrest
    by_cases hlength : (gather reply.chunks).finish = some "length"
    · rw [if_pos hlength] at hrest
      have hv : verdict rd lower settings ⟨place, reply⟩ =
          .failed (place_text place ++ s!"truncated at {settings.max_tokens} tokens") none := by
        simp only [verdict, hbroken, if_pos hlength]
      rw [came_to, hv]
      exact hstop (.ret _) trivial hrest
    · rw [if_neg hlength] at hrest
      cases hread : parse_json rd (gather reply.chunks).text with
      | ok value =>
        simp only [hread] at hrest
        have hv : verdict rd lower settings ⟨place, reply⟩ = .document value := by
          simp only [verdict, hbroken, if_neg hlength, hread]
        rw [came_to, hv]
        exact hstop (.ret _) trivial hrest
      | error unread =>
        cases unread with
        | value_error msg =>
          simp only [hread] at hrest
          have hv : verdict rd lower settings ⟨place, reply⟩ =
              .failed (place_text place ++ msg) (some 1) := by
            simp only [verdict, hbroken, if_neg hlength, hread]
          rw [came_to, hv]
          exact hpause _ _ hrest
        | recursion_error =>
          simp only [hread] at hrest
          have hv : verdict rd lower settings ⟨place, reply⟩ = .recursion := by
            simp only [verdict, hbroken, if_neg hlength, hread]
          rw [came_to, hv]
          exact hstop (.raise _) trivial hrest

/-! ## The whole call -/

/-- The attempts that failed are requests whose verdict is a failure, and their marks are its
lines. -/
theorem failing_requests {ts : List (Attempt Asking Place String)} {errors : List String}
    (h : Failing (one_attempt rd lower settings) errors ts)
    (hes : Replied (ts.flatMap Attempt.calls)) :
    ∃ failed, (∀ a ∈ failed, (verdict rd lower settings a).goes_on = true) ∧
      asked (ts.flatMap Attempt.calls) = failed ∧
      failed.map Asked.place = ts.map Attempt.candidate ∧
      failed.map (fun a => (verdict rd lower settings a).line) = ts.map Attempt.mark ∧
      slept (ts.flatMap Attempt.calls) = failed.filterMap fun a =>
        (verdict rd lower settings a).pause := by
  induction ts generalizing errors with
  | nil => exact ⟨[], by simp, rfl, rfl, rfl, rfl⟩
  | cons t ts ih =>
    rw [List.flatMap_cons] at hes
    obtain ⟨failed, hgo, hasked, hplaces, hlines, hslept⟩ :=
      ih h.2 fun e he => hes e (List.mem_append_right _ he)
    obtain ⟨reply, hone, hpause, hcame⟩ := one_attempt_trace h.1 trivial fun e he =>
      hes e (List.mem_append_left _ he)
    refine ⟨⟨t.candidate, reply⟩ :: failed, ?_, ?_, ?_, ?_, ?_⟩
    · refine List.forall_mem_cons.mpr ⟨?_, hgo⟩
      -- a mark is left by a failure alone
      unfold came_to at hcame
      cases hv : verdict rd lower settings ⟨t.candidate, reply⟩ with
      | failed line pause => rfl
      | _ =>
        rw [hv] at hcame
        cases hcame
    · rw [List.flatMap_cons, asked_append, hone, hasked]
      rfl
    · rw [List.map_cons, List.map_cons, hplaces]
    · rw [List.map_cons, List.map_cons, hlines]
      unfold came_to at hcame
      cases hv : verdict rd lower settings ⟨t.candidate, reply⟩ with
      | failed line pause =>
        rw [hv] at hcame
        cases hcame
        rfl
      | _ =>
        rw [hv] at hcame
        cases hcame
    · rw [List.flatMap_cons, slept_append, hpause, hslept, List.filterMap_cons]
      cases (verdict rd lower settings ⟨t.candidate, reply⟩).pause with
      | _ => rfl

/-- The request with which the schedule is left. -/
theorem last_request {place : Place} {errors : List String}
    {q : Prog Asking ((Json × CallResult) ⊕ String)}
    (h : Trace (one_attempt rd lower settings place errors) es q) (hq : q.Done) (hes : Replied es)
    (hout : ∀ line, q ≠ .ret (.inr line)) :
    ∃ reply, asked es = [⟨place, reply⟩] ∧ slept es = [] ∧
      (verdict rd lower settings ⟨place, reply⟩).goes_on = false ∧
      q = came_to rd lower settings ⟨place, reply⟩ errors := by
  obtain ⟨reply, hasked, hslept, hcame⟩ := one_attempt_trace h hq hes
  refine ⟨reply, hasked, ?_, ?_, hcame⟩
  all_goals
    unfold came_to at hcame
    cases hv : verdict rd lower settings ⟨place, reply⟩ with
    | failed line pause =>
      rw [hv] at hcame
      exact absurd hcame (hout line)
    | _ =>
      rw [hv] at hslept
      first | exact hslept | rfl

/-- An answer that was accepted is the conclusion. -/
theorem conclusion_of_came {a : Asked} {errors : List String} {c : Json × CallResult}
    (h : came_to rd lower settings a errors = .ret (.inl c)) :
    .ok c = conclusion rd lower settings a errors := by
  unfold came_to at h
  unfold conclusion
  cases hv : verdict rd lower settings a with
  | document value =>
    rw [hv] at h
    cases h
    rfl
  | _ =>
    rw [hv] at h
    cases h

/-- An error that is not tried again is the conclusion. -/
theorem conclusion_of_raised {a : Asked} {errors : List String} {e : Raised}
    (h : came_to rd lower settings a errors = .raise e) :
    .error e = conclusion rd lower settings a errors := by
  unfold came_to at h
  unfold conclusion
  cases hv : verdict rd lower settings a with
  | refused msg =>
    rw [hv] at h
    cases h
    rfl
  | recursion =>
    rw [hv] at h
    cases h
    rfl
  | _ =>
    rw [hv] at h
    cases h

/-- **The course of a call.** Whatever the endpoints do, they are asked in the order of the schedule
until one request does not fail; the pauses are those that the failures ask for. What the call comes
to is what that last request comes to, with the lines of all failures before it, and all of them are
given as the error when the schedule is over. -/
theorem call_json_course {σ : Type} (world : World σ) (endpoints : List Llm.Endpoint) (s : σ) :
    ∃ failed, (∀ a ∈ failed, (verdict rd lower settings a).goes_on = true) ∧
      slept ((call_json rd lower settings endpoints).calls world.answer s) =
        failed.filterMap (fun a => (verdict rd lower settings a).pause) ∧
      ((asked ((call_json rd lower settings endpoints).calls world.answer s) = failed ∧
          failed.map Asked.place = schedule endpoints settings ∧
          ((call_json rd lower settings endpoints).run world.answer s).1 =
            .error (.runtime_error ("no endpoint produced valid JSON:\n  " ++
              "\n  ".intercalate (failed.map fun a => (verdict rd lower settings a).line)))) ∨
        ∃ last, asked ((call_json rd lower settings endpoints).calls world.answer s) =
          failed ++ [last] ∧
          (failed ++ [last]).map Asked.place <+: schedule endpoints settings ∧
          (verdict rd lower settings last).goes_on = false ∧
          ((call_json rd lower settings endpoints).run world.answer s).1 =
            conclusion rd lower settings last (failed.map fun a =>
              (verdict rd lower settings a).line)) := by
  obtain ⟨⟨q, htrace, hdone, hret, hraise⟩, hanswered⟩ :=
    (call_json rd lower settings endpoints).calls_trace world.answer s
  generalize ((call_json rd lower settings endpoints).run world.answer s).1 = r at hret hraise ⊢
  have hes : Replied ((call_json rd lower settings endpoints).calls world.answer s) := by
    intro e he
    obtain ⟨es₁, es₂, t, -, -, heq, -⟩ := hanswered.mem he
    rw [heq]
    cases e.1 with
    | _ => exact ⟨_, rfl⟩
  generalize (call_json rd lower settings endpoints).calls world.answer s = es at htrace hes ⊢
  -- the attempts that left a mark, and where the loop is after them
  obtain ⟨ts, rest, fs, hschedule, rfl, hfailing, hstands⟩ := htrace.of_tried
  obtain ⟨failed, hgo, hasked, hplaces, hlines, hslept⟩ :=
    failing_requests hfailing fun e he => hes e (List.mem_append_left _ he)
  have hfs : Replied fs := fun e he => hes e (List.mem_append_right _ he)
  rw [List.nil_append, ← hlines] at hstands
  refine ⟨failed, hgo, ?_⟩
  rcases hstands.done hdone with ⟨a, rest', c, rfl, rfl, hone⟩ |
    ⟨a, rest', e, rfl, rfl, hone⟩ | ⟨rfl, hspent⟩
  -- a document was read
  · obtain ⟨reply, hask, hsleep, hstop, hc⟩ := last_request hone trivial hfs (by simp)
    refine ⟨by rw [slept_append, hslept, hsleep, List.append_nil],
      .inr ⟨⟨a, reply⟩, ?_, ?_, hstop, ?_⟩⟩
    · rw [asked_append, hasked, hask]
    · rw [List.map_append, hplaces, hschedule]
      exact (List.prefix_append_right_inj _).mpr (List.cons_prefix_cons.mpr ⟨rfl, List.nil_prefix⟩)
    · rw [hret c rfl]
      exact conclusion_of_came hc.symm
  -- an attempt has raised
  · obtain ⟨reply, hask, hsleep, hstop, he⟩ := last_request hone trivial hfs (by simp)
    refine ⟨by rw [slept_append, hslept, hsleep, List.append_nil],
      .inr ⟨⟨a, reply⟩, ?_, ?_, hstop, ?_⟩⟩
    · rw [asked_append, hasked, hask]
    · rw [List.map_append, hplaces, hschedule]
      exact (List.prefix_append_right_inj _).mpr (List.cons_prefix_cons.mpr ⟨rfl, List.nil_prefix⟩)
    · rw [hraise e rfl]
      exact conclusion_of_raised he.symm
  -- the schedule is over
  · obtain ⟨rfl, rfl⟩ := hspent.of_done trivial
    rw [List.append_nil] at hschedule ⊢
    exact ⟨hslept, .inl ⟨hasked, by rw [hplaces, hschedule], hraise _ rfl⟩⟩

end course

end Memline.relay
