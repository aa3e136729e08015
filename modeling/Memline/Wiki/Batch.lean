/-
What an incremental compile run has to read again, and the cursor it goes by.

Memories are taken as the store lists them: the two stamps are strings or absent, and
everything else a writer has recorded is in the metadata. The plan itself, how the
selected memories are cut into batches, is left out.
-/
import Memline.Wiki.Artifacts
import Memline.Lib.Datetime

set_option autoImplicit false

namespace Memline.wiki

open Py

def LEDGER_SOURCE : String := "agent-memory-ledger"

/-- A memory as `list` returns it. -/
structure Memory where
  id : String
  created_at : Option String
  updated_at : Option String
  metadata : Dict
  deriving DecidableEq

/-- `s[:19]`: a timestamp to the second. -/
def cut (s : String) : String := String.ofList (s.toList.take 19)

/-- `_created(memory)`. -/
def created (m : Memory) : String := cut (m.created_at.getD "")

variable (rt : Runtime)

/-- The stamps of a memory, whatever they are. -/
def stamps (m : Memory) : List Json :=
  [(m.created_at.map Json.str).getD .null, (m.updated_at.map Json.str).getD .null,
    Dict.get m.metadata "ingested_at", Dict.get m.metadata "updated_by_cli_at"]

/-- The latest moment this memory changed in any way visible to a profile. -/
def touched_at (m : Memory) : String :=
  (((stamps m).filter Json.truthy).map fun s => cut (fmt rt s)).foldl max ""

def session_id (m : Memory) : Json := Dict.get m.metadata "session_id"

/-- A memory without a real session. -/
def is_ledger (ledger_source : String) (m : Memory) : Bool :=
  (Dict.get m.metadata "source").eq (.str ledger_source) || !(session_id m).truthy

/-- Chronological, and by id within a second. -/
def earlier (m n : Memory) : Prop := created m < created n ∨ (created m = created n ∧ m.id ≤ n.id)

instance : DecidableRel earlier := fun _ _ => inferInstanceAs (Decidable (_ ∨ _))

/-- Sessions and their memories, and the memories without one. -/
structure Groups where
  sessions : Map (List Memory)
  ledger : List Memory

/-- One memory joins its session, or the ledger. -/
def group (ledger_source : String) (g : Groups) (m : Memory) : Result Groups :=
  if is_ledger ledger_source m then .ok { g with ledger := g.ledger ++ [m] }
  else do
    let sessions ← g.sessions.set (session_id m) ((g.sessions.find (session_id m)).getD [] ++ [m])
    pure { g with sessions }

/-- Split memories by session. -/
def group_by_session (memories : List Memory) (ledger_source : String := LEDGER_SOURCE) :
    Result Groups :=
  (memories.insertionSort earlier).foldlM (group ledger_source) ⟨[], []⟩

/-- Everything an incremental run must re-read, given a cursor. Sessions that have moved
come whole, in the order of the sessions: the set they are collected in has none. -/
def select_since (memories : List Memory) (since : String)
    (ledger_source : String := LEDGER_SOURCE) :
    Result (List Memory) := do
  let g ← group_by_session memories ledger_source
  let moved := g.sessions.filter fun e => e.2.any fun m => decide (since ≤ touched_at rt m)
  pure (moved.flatMap Prod.snd ++ g.ledger.filter fun m => decide (since ≤ touched_at rt m))

/-- The memories a plan is made of: without a cursor, all of them. -/
def planned (memories : List Memory) (since : Option String) : Result (List Memory) :=
  match since with
  | some since => if since = "" then .ok memories else select_since rt memories since
  | none => .ok memories

/-! ## The cursor -/

/-- `state/compile.json`. -/
structure State where
  next_run : ℕ
  last_compile_at : Option String
  boundary_memory_ids : List String
  source_hashes : List (String × String)
  deriving DecidableEq

/-- No run yet. -/
def EMPTY : State := ⟨1, none, [], []⟩

/-- Ids stamped exactly at the cursor. -/
def boundary_ids (memories : List Memory) (started_at : String) : List String :=
  ((memories.filter fun m => decide (cut (touched_at rt m) = cut started_at)).map
    Memory.id).insertionSort
    (· ≤ ·)

/-- Advance the cursor. The documents are hashed when there is a directory of them. -/
def close_run (state : State) (started_at : String) (memories : List Memory)
    (source_hashes : Option (List (String × String))) : State where
  next_run := (if state.next_run = 0 then 1 else state.next_run) + 1
  last_compile_at := some started_at
  boundary_memory_ids := boundary_ids rt memories started_at
  source_hashes := source_hashes.getD state.source_hashes

end Memline.wiki
