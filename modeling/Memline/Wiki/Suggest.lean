/-
From profiles and associations to the suggestions a user reviews.

Threads are collected from the profiles of several directories under the batch and the name the
model has given them. A suggestion joins the threads an association names, and cites their evidence.
-/
import Mathlib.Algebra.Order.Ring.Nat
import Memline.Ledger
import Memline.Lib.Keyed
import Memline.Wiki.Artifacts

set_option autoImplicit false

namespace Memline.wiki.suggest

open Py

/-! ## Threads -/

/-- A file of a profile directory that holds JSON. -/
structure Artifact where
  path : List String
  record : Json

def Artifact.name (a : Artifact) : String := a.path.getLastD ""

/-- Some part of a text is this one. -/
def holds (text part : String) : Bool := decide (part.toList <:+: text.toList)

/-- An artifact that is no file of the pass itself and not put aside. -/
def Artifact.current (a : Artifact) : Bool :=
  !ledger.startsWith a.name "_" && !holds a.name ".superseded-"

/-- `sorted(p for d in profile_dirs for p in d.glob("*.json"))`. -/
def profile_paths (profile_dirs : List (List Artifact)) : List Artifact :=
  (profile_dirs.flatten.filter fun a => ".json".toList.isSuffixOf a.name.toList).insertionSort
    fun a b => a.path ≤ b.path

/-- What tells two keys apart: the places or texts of both parts. There is one `nan`. -/
structure Slot where
  batch : Option (Option (ℤ × ℚ) × Option String)
  thread : Option (Option (ℤ × ℚ) × Option String)
  deriving DecidableEq

def slot (key : Json × Json) : Slot := ⟨key.1.hash_key, key.2.hash_key⟩

/-- Threads by batch and thread key. -/
abbrev Threads : Type := List ((Json × Json) × Dict)

/-- `hash(key)` does not raise. -/
def hashable (key : Json × Json) : Bool := key.1.hashable && key.2.hashable

/-- `threads[key] = thread`. -/
def Threads.set (threads : Threads) (key : Json × Json) (thread : Dict) : Result Threads :=
  if hashable key then .ok (Keyed.put slot threads key thread) else .error .type_error

/-- `threads.get(key)`. -/
def Threads.get (threads : Threads) (key : Json × Json) : Result (Option Dict) :=
  if hashable key then .ok (Keyed.find slot threads key) else .error .type_error

/-- `x.get(key, default)`. -/
def get_or (x : Json) (key : String) (default : Json) : Result Json :=
  match x with
  | .obj fields => .ok ((fields.lookup key).getD default)
  | _ => .error .attribute_error

/-- `{**x}`. -/
def mapping (x : Json) : Result Dict :=
  match x with
  | .obj fields => .ok fields
  | _ => .error .type_error

/-- A thread under the key it is found by, with what is known of its session and batch. -/
def thread_entry (record session thread : Json) : Result ((Json × Json) × Dict) := do
  let batch_id ← record.item "batch_id"
  let thread_key ← thread.get "thread_key"
  let fields ← mapping thread
  let session_id ← session.get "session_id"
  let span ← session.get "span"
  let kind ← ((← record.get "batch").or_else (.obj [])).get "kind"
  pure ((batch_id, thread_key.or_else (.str "")),
    Dict.set (Dict.set (Dict.set (Dict.set fields "session_id" session_id) "span" span) "batch_id"
      batch_id) "batch_kind" kind)

def load_thread (record session : Json) (threads : Threads) (thread : Json) : Result Threads := do
  let (key, entry) ← thread_entry record session thread
  threads.set key entry

def load_session (record : Json) (threads : Threads) (session : Json) : Result Threads := do
  (← (← get_or session "threads" (.list [])).iter).foldlM (load_thread record session) threads

def load_artifact (threads : Threads) (a : Artifact) : Result Threads := do
  if !a.current then pure threads
  else if !(← a.record.get "status").eq (.str "ok") then pure threads
  else do
    let profile ← get_or a.record "profile" (.obj [])
    (← (← get_or profile "sessions" (.list [])).iter).foldlM (load_session a.record) threads

/-- Every profiled thread, keyed by `(batch_id, thread_key)`. -/
def load_threads (profile_dirs : List (List Artifact)) : Result Threads :=
  (profile_paths profile_dirs).foldlM load_artifact []

/-! ## Suggestions -/

/-- Topic keys the user rejected. There may be no ledger. -/
def suppressed_topics (decisions : Option String) : List String :=
  (ledger.splitlines (decisions.getD "")).filterMap fun line =>
    match ((line.toList.splitOn '|').map String.ofList).map Mem0.strip with
    | topic :: "rejected" :: _ :: _ :: _ => some topic
    | _ => none

structure Evidence where
  ref : String
  sha256 : Option String
  deriving DecidableEq

/-- A ref that is a string; any other has no `startswith`. -/
def as_ref : Json → Result String
  | .str s => .ok s
  | _ => .error .attribute_error

/-- `dict.fromkeys(refs)`. -/
def distinct (refs : List Json) : Result (List Json) :=
  if refs.all Json.hashable then
    .ok (refs.foldl (fun seen r => if Json.elem r seen then seen else seen ++ [r]) [])
  else .error .type_error

variable (rt : Runtime) (resolve_memory : String → Option String)

/-- A ref is a source, or resolved, or reported. -/
def cite (s : List Evidence × List String) (ref : Json) : Result (List Evidence × List String) := do
  let ref ← as_ref ref
  if ledger.startsWith ref "sources/" then pure (s.1 ++ [⟨ref, none⟩], s.2)
  else
    match resolve_memory ref with
    | none => pure (s.1, s.2 ++ [ref])
    | some text => pure (s.1 ++ [⟨"mem:" ++ ref, some (sha256_text rt text)⟩], s.2)

/-- `_evidence(refs, resolve)`. -/
def evidence (refs : List Json) : Result (List Evidence × List String) := do
  (← distinct refs).foldlM (cite rt resolve_memory) ([], [])

structure MemberThread where
  batch_id : Json
  session_id : Json
  thread_key : Json
  span : Json

structure Missing where
  topic_key : Json
  batch_id : Json
  thread_key : Json

structure Suggestion where
  id : String
  run : ℕ
  type : Json
  topic_key : Json
  title : Json
  value : Json
  rationale : Json
  member_threads : List MemberThread
  session_count : ℕ
  evidence : List Evidence
  evidence_gaps : Json
  conflicts : Json
  sensitive : Json
  proposed_location : Json
  affected_pages : Json

/-- The members of a topic so far. -/
structure Gathered where
  members : List MemberThread := []
  refs : List Json := []
  missing : List Missing := []

/-- One member: its thread is looked up. -/
def gather (threads : Threads) (topic : Json) (s : Gathered) (member : Json) : Result Gathered := do
  let batch_id ← member.get "batch_id"
  let thread_key ← member.get "thread_key"
  match ← threads.get (batch_id, thread_key) with
  -- a thread that is gone is noted, and the topic goes on without it
  | none => do
    let topic_key ← topic.get "topic_key"
    pure { s with missing := s.missing ++ [⟨topic_key, batch_id, thread_key⟩] }
  | some thread => do
    let ids ← entries (Dict.get thread "evidence_ids")
    pure { s with
      members := s.members ++
        [⟨batch_id, Dict.get thread "session_id", thread_key, Dict.get thread "span"⟩]
      refs := s.refs ++ ids }

/-- `len({m["session_id"] for m in members})`. -/
def session_count (members : List MemberThread) : Result ℕ :=
  if members.all fun m => m.session_id.hashable then
    .ok (members.map fun m => m.session_id.hash_key).dedup.length
  else .error .type_error

/-- A number with leading zeros, three digits at least. -/
def three_digits (n : ℕ) : String :=
  String.ofList (List.replicate (3 - (toString n).length) '0') ++ toString n

/-- `f"run-{run:03d}-S{number:03d}"`. -/
def suggestion_id (run number : ℕ) : String :=
  "run-" ++ three_digits run ++ "-S" ++ three_digits number

/-- What is suggested and reported so far. -/
structure Round where
  suggestions : List Suggestion := []
  missing_threads : List Missing := []
  unresolved_refs : List String := []
  suppressed : List Json := []

/-- The suggestion of a topic with the members found. -/
def suggestion (run number : ℕ) (topic : Json) (members : List MemberThread)
    (evidence : List Evidence) (sessions : ℕ) :
    Result Suggestion := do
  let type ← topic.get "type"
  let topic_key ← topic.get "topic_key"
  let title ← topic.get "title"
  let value ← topic.get "value"
  let rationale ← topic.get "rationale"
  let evidence_gaps ← topic.get "evidence_gaps"
  let conflicts ← topic.get "conflicts"
  let sensitive ← topic.get "sensitive"
  let proposed_location ← topic.get "proposed_location"
  let affected_pages ← topic.get "affected_pages"
  pure
    { id := suggestion_id run number, run, type, topic_key, title, value, rationale
      member_threads := members, session_count := sessions, evidence
      evidence_gaps := evidence_gaps.or_else (.str "none seen")
      conflicts := conflicts.or_else (.str "none seen")
      sensitive := sensitive.or_else (.str "none seen"), proposed_location
      affected_pages := affected_pages.or_else (.str "none") }

/-- What is made of the members of a topic: nothing when none of them is found. -/
def conclude (run : ℕ) (s : Round) (topic : Json) (g : Gathered) : Result Round :=
  let s := { s with missing_threads := s.missing_threads ++ g.missing }
  if g.members.isEmpty then pure s
  else do
    let (cited, unresolved) ← evidence rt resolve_memory g.refs
    let sessions ← session_count g.members
    let new ← suggestion run (s.suggestions.length + 1) topic g.members cited sessions
    pure { s with
      suggestions := s.suggestions ++ [new], unresolved_refs := s.unresolved_refs ++ unresolved }

/-- One topic. -/
def propose (already : List String) (threads : Threads) (run : ℕ) (s : Round)
    (topic : Json) : Result Round := do
  let topic_key ← topic.get "topic_key"
  if ← topic_key.in_strings already then pure { s with suppressed := s.suppressed ++ [topic_key] }
  else do
    let members ← (← get_or topic "members" (.list [])).iter
    conclude rt resolve_memory run s topic (← members.foldlM (gather threads topic) {})

structure Report where
  suggestions : ℕ
  by_type : List (String × ℕ)
  evidence_refs : ℕ
  single_session_blogs : List String
  suppressed_by_ledger : List Json
  missing_threads : List Missing
  unresolved_evidence : List String

/-- `_count(values)`. -/
def count (values : List Json) : List (String × ℕ) :=
  values.foldl (fun out v =>
    Keyed.put id out (fmt rt v) ((Keyed.find id out (fmt rt v)).getD 0 + 1)) []

def report (s : Round) : Report where
  suggestions := s.suggestions.length
  by_type := count rt (s.suggestions.map Suggestion.type)
  evidence_refs := (s.suggestions.map fun x => x.evidence.length).sum
  single_session_blogs := (s.suggestions.filter fun x => x.type.eq (.str "blog") &&
    x.session_count < 2).map Suggestion.id
  suppressed_by_ledger := s.suppressed
  missing_threads := s.missing_threads
  unresolved_evidence := s.unresolved_refs.dedup.insertionSort (· ≤ ·)

/-- `(suggestions, report)`. -/
def build_suggestions (associations : List Json) (threads : Threads) (run : ℕ)
    (decisions : Option String) :
    Result (List Suggestion × Report) := do
  let s ← associations.foldlM (propose rt resolve_memory (suppressed_topics decisions) threads run)
      {}
  pure (s.suggestions, report rt s)

end Memline.wiki.suggest
