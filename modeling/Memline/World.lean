/-
What the code talks to, as one interface of calls, and a world that answers them.

A call is one request to something outside the modelled code: the vector store
of mem0, its history table, the pair store, the clock, the id generator, a
search index, a language model or the audit manifest. `Host.answer` says what
each call does. The vector store follows its adapter: an update without a vector
merges the given keys into the stored payload, an update with a vector and an
insertion write the whole payload, a deletion removes exactly the given id.
Everything the adapter leaves to someone else (the clock, hashes, the order of a
scroll, rankings, what a model says) is a field of `Host`, about which nothing is
assumed.

Store calls succeed here. In a wider world any call may fail but for the clock, the
id generator and the names of the models (`Call.fallible`): `Host.failing` lets a
fault decide when it does, `Host.beset` a fault for each call by its number. A call
that fails leaves the world as it was.

Vectors, the entity collection, telemetry and notices are left out: no modelled
function reads them.
-/
import Memline.Lib.Effect
import Memline.PairStore

set_option autoImplicit false

namespace Memline

open Effect

/-! ## Calls -/

/-- One value of a filter dict: a plain value, or the range `{"lte": bound}`. -/
inductive Cond where
  | value (s : String)
  | lte (bound : String)
  deriving DecidableEq

abbrev Filters : Type := List (String × Cond)

/-- One row of the history table. -/
structure HistoryEvent where
  memory_id : Id
  old_memory : Value
  new_memory : Value
  event : String
  created_at : Value := .none
  updated_at : Value := .none
  actor_id : Value := .none
  role : Value := .none
  is_deleted : Bool := false
  deriving DecidableEq

/-- One chat message of an `add`. -/
structure Message where
  role : Option String
  content : Option String
  name : Option String := none
  deriving DecidableEq

/-- One fact a language model extracts from messages. -/
structure Extracted where
  text : String
  attributed_to : Value := .none
  deriving DecidableEq

/-- A memory as `Memory.get`, `get_all` and `search` hand it out: the keys mem0
puts at the top of the item, and the other payload keys under `metadata`. -/
structure Item where
  id : Id
  top : Payload
  metadata : Payload

/-- What a judge is shown about one memory. -/
structure JudgeEntry where
  id : Id
  text : String
  date : String
  deriving DecidableEq

/-- What a judge says. -/
structure Verdict where
  verdict : String
  confidence : Option ℚ
  reason : Option String
  deriving DecidableEq

inductive Call where
  | now_iso
  | now_after (days : ℚ)
  | uuid4
  | date_past (date : String)
  | vs_get (vector_id : Id)
  | vs_set_payload (vector_id : Id) (payload : Payload)
  | vs_upsert (vector_id : Id) (payload : Payload)
  | vs_insert (points : List (Id × Payload))
  | vs_delete (vector_id : Id)
  | vs_list (filters : Filters) (top_k : ℕ)
  | vs_search (query : String) (top_k : ℕ) (filters : Filters)
  | search (query : String) (top_k : ℕ) (filters : Filters)
  | add_history (e : HistoryEvent)
  | batch_add_history (es : List HistoryEvent)
  | pairs (op : PairOp)
  | extract (messages : List Message) (existing : List Payload)
  | judge (entry : JudgeEntry) (candidates : List JudgeEntry)
  | judge_self (kind : String) (entry : JudgeEntry) (context : Payload)
  | active_model (judge_model : Option String)
  | audit (operation : String)

namespace Call

def Answer : Call → Type
  | now_iso | now_after _ => String
  | uuid4 => Id
  | date_past _ => Bool
  | vs_get _ => Option Payload
  | vs_set_payload .. | vs_upsert .. | vs_insert _ | vs_delete _ => Unit
  | add_history _ | batch_add_history _ | audit _ => Unit
  | vs_list .. => List (Id × Payload)
  | vs_search .. => List (Id × Payload × Option ℚ)
  | search .. => List Item
  | pairs op => op.Answer
  | extract .. => List Extracted
  | judge .. => List (Id × Verdict)
  | judge_self .. => Verdict
  | active_model _ => Option String

/-- Whether a call writes to the vector store. -/
def writes : Call → Bool
  | vs_set_payload .. | vs_upsert .. | vs_insert _ | vs_delete _ => true
  | _ => false

/-- Whether a call can be made to fail: everything but the clock, the id generator
and the names of the models. -/
def fallible : Call → Bool
  | now_iso | now_after _ | uuid4 | date_past _ | active_model _ => false
  | _ => true

end Call

/-- The interface of the code to its surroundings. -/
abbrev Api : Interface := ⟨Call, Call.Answer, Exn⟩

/-- A piece of the code. -/
abbrev Code (α : Type) : Type := Prog Api α

/-! ## The world -/

structure World where
  points : AList (fun _ : Id => Payload)
  history : List HistoryEvent
  pairs : PairStore
  /-- How often the clock or a model has been asked. -/
  ticks : ℕ
  /-- How many ids have been drawn. -/
  drawn : ℕ

namespace World

def empty : World := ⟨∅, [], .empty, 0, 0⟩

/-- The payload stored under an id. -/
def payload (w : World) (id : Id) : Option Payload := w.points.lookup id

def tick (w : World) : World := { w with ticks := w.ticks + 1 }

/-- Write a whole payload. -/
def put (w : World) (id : Id) (p : Payload) : World :=
  { w with points := w.points.insert id p }

def remove (w : World) (id : Id) : World := { w with points := w.points.erase id }

@[simp] theorem payload_tick (w : World) (id : Id) : w.tick.payload id = w.payload id := rfl

@[simp] theorem payload_put_self (w : World) (id : Id) (p : Payload) :
    (w.put id p).payload id = some p := AList.lookup_insert _

theorem payload_put_ne (w : World) {id id' : Id} (p : Payload) (h : id' ≠ id) :
    (w.put id p).payload id' = w.payload id' := AList.lookup_insert_ne h

@[simp] theorem payload_remove_self (w : World) (id : Id) : (w.remove id).payload id = none :=
  AList.lookup_erase _ _

theorem payload_remove_ne (w : World) {id id' : Id} (h : id' ≠ id) :
    (w.remove id).payload id' = w.payload id' := AList.lookup_erase_ne h

end World

/-! ## Answers -/

/-- Everything the modelled code does not decide. A scroll returns the stored
points in some order, each once. -/
structure Host where
  default_user_id : String
  now_iso : ℕ → String
  now_after : ℕ → ℚ → String
  uuid4 : ℕ → Id
  date_past : ℕ → String → Bool
  /-- An id the vector store refuses to look up. -/
  malformed : Id → Bool
  text_hash : String → String
  md5 : String → String
  lemmatize : String → String
  normalize_iso_timestamp_to_utc : Value → Value
  is_iso_datetime : String → Bool
  datetime_lte : String → String → Bool
  scroll : List (Id × Payload) → List (Id × Payload)
  scroll_perm : ∀ l, (scroll l).Perm l
  vs_search : World → String → ℕ → Filters → List (Id × Payload × Option ℚ)
  search : World → String → ℕ → Filters → List Item
  extract : World → List Message → List Payload → List Extracted
  judge : World → JudgeEntry → List JudgeEntry → List (Id × Verdict)
  judge_self : World → String → JudgeEntry → Payload → Verdict
  active_model : World → Option String → Option String

/-- A host for fixed inputs: ids and clock readings count up, hashes are the text
itself, nothing is similar to anything and no judge has a complaint. -/
def Host.plain : Host where
  default_user_id := "workspace"
  now_iso := tally
  now_after := fun n _ => tally (n + 1)
  uuid4 := fun n => "m" ++ tally n
  date_past := fun _ _ => false
  malformed := fun _ => false
  text_hash := id
  md5 := id
  lemmatize := id
  normalize_iso_timestamp_to_utc := id
  is_iso_datetime := fun _ => true
  datetime_lte := fun s bound => decide (s ≤ bound)
  scroll := id
  scroll_perm := fun _ => .rfl
  vs_search := fun _ _ _ _ => []
  search := fun _ _ _ _ => []
  extract := fun _ _ _ => []
  judge := fun _ _ _ => []
  judge_self := fun _ kind _ _ =>
    ⟨if kind = KIND_NECESSITY then "DURABLE"
      else if kind = KIND_CORRECTNESS then "CONSISTENT" else "CLEAN", some 1, none⟩
  active_model := fun _ judge_model => judge_model

/-- What strikes the calls of a request, by their numbers. -/
abbrev Faults : Type := ℕ → Call → World → Option Exn

/-- Nothing fails. -/
def Faults.none : Faults := fun _ _ _ => .none

/-- The `n`-th call fails. -/
def Faults.once (n : ℕ) (e : Exn) : Faults := fun k _ _ => if k = n then some e else .none

/-- The point reads of one memory fail. -/
def Faults.reads_of (id : Id) (e : Exn) : Faults := fun _ c _ =>
  match c with
  | .vs_get x => if x = id then some e else .none
  | _ => .none

namespace Host

variable (host : Host)

/-- One condition of a filter on one payload value. The plain value `"*"` is the
wildcard, and a condition on a list holds when it holds of an element. -/
def matches_value (c : Cond) (v : Value) : Bool :=
  let atom : String → Bool := fun s =>
    match c with
    | .value t => decide (s = t)
    | .lte bound => host.datetime_lte s bound
  let str : Atom → Bool := fun
    | .str s => atom s
    | _ => false
  decide (c = .value "*") ||
    -- of a list any item may match
    match v with
    | .atom a => str a
    | .list vs => vs.any str

def matches_filters (filters : Filters) (p : Payload) : Bool :=
  filters.all fun f => host.matches_value f.2 (p.get f.1)

/-- A range bound has to be a datetime. -/
def valid_filters (filters : Filters) : Bool :=
  filters.all fun f => match f.2 with
    | .value _ => true
    | .lte bound => host.is_iso_datetime bound

/-- The points of the collection, in the order of a scroll. -/
def scrolled (w : World) : List (Id × Payload) :=
  host.scroll (w.points.entries.map fun e => (e.1, e.2))

/-- What each call does to a healthy world. -/
def answer : Handler Api World
  | .now_iso, w => (.ok (host.now_iso w.ticks), w.tick)
  | .now_after days, w => (.ok (host.now_after w.ticks days), w.tick)
  | .uuid4, w => (.ok (host.uuid4 w.drawn), { w with drawn := w.drawn + 1 })
  | .date_past date, w => (.ok (host.date_past w.ticks date), w)
  | .vs_get id, w =>
    (if (w.payload id).isNone && host.malformed id then
      .error (.other s!"malformed point id: {id}") else .ok (w.payload id), w)
  | .vs_set_payload id patch, w =>
    match w.payload id with
    | some p => (.ok (), w.put id (p.merge patch))
    | none => (.error (.other s!"point not found: {id}"), w)
  | .vs_upsert id p, w => (.ok (), w.put id p)
  | .vs_insert points, w => (.ok (), points.foldl (fun w p => w.put p.1 p.2) w)
  | .vs_delete id, w => (.ok (), w.remove id)
  | .vs_list filters top_k, w =>
    if host.valid_filters filters then
      (.ok (((host.scrolled w).filter fun p => host.matches_filters filters p.2).take top_k), w)
    else
      (.error (.value_error "invalid range filter"), w)
  | .vs_search query top_k filters, w => (.ok (host.vs_search w query top_k filters), w)
  | .search query top_k filters, w => (.ok (host.search w query top_k filters), w)
  | .add_history e, w => (.ok (), { w with history := w.history ++ [e] })
  | .batch_add_history es, w => (.ok (), { w with history := w.history ++ es })
  | .pairs op, w =>
    let r := op.apply host.text_hash w.pairs
    (r.1, { w with pairs := r.2 })
  | .extract messages existing, w => (.ok (host.extract w messages existing), w.tick)
  -- what is not about a candidate is dropped in parsing
  | .judge entry candidates, w =>
    (.ok ((host.judge w entry candidates).filter fun v =>
      decide (v.1 ∈ candidates.map JudgeEntry.id)), w.tick)
  | .judge_self kind entry context, w => (.ok (host.judge_self w kind entry context), w.tick)
  | .active_model judge_model, w => (.ok (host.active_model w judge_model), w)
  | .audit _, w => (.ok (), w)

/-- The same world, in which a fault may strike any fallible call. -/
def failing (fault : Call → World → Option Exn) : Handler Api World :=
  Handler.failing host.answer fun c w => if c.fallible then fault c w else none

/-- The same, with the faults of each call by its number: a call may fail at one time
and succeed at another. -/
def beset (fault : Faults) : Handler Api (World × ℕ) :=
  Handler.numbered fun n => host.failing (fault n)

/-! ### What a call leaves alone -/

/-- A fault changes nothing; without one the call does what it does. -/
theorem failing_cases (fault : Call → World → Option Exn) (c : Call) (w : World) :
    (∃ e, host.failing fault c w = (.error e, w)) ∨ host.failing fault c w = host.answer c w := by
  unfold failing Handler.failing
  split
  · exact .inl ⟨_, rfl⟩
  · exact .inr rfl

/-- A call that writes nothing leaves the points alone. -/
theorem answer_points {c : Call} (hc : c.writes = false) (w : World) :
    (host.answer c w).2.points = w.points := by
  cases c with
  | vs_set_payload _ _ | vs_upsert _ _ | vs_insert _ | vs_delete _ => simp [Call.writes] at hc
  | vs_list filters top_k =>
    simp only [answer]
    split <;> rfl
  | _ => rfl

/-- A call that writes nothing leaves the points, whether it fails or not. -/
theorem failing_points {c : Call} (hc : c.writes = false) (fault : Call → World → Option Exn)
    (w : World) : (host.failing fault c w).2.points = w.points := by
  rcases host.failing_cases fault c w with ⟨e, h⟩ | h
  · rw [h]
  · rw [h, host.answer_points hc]

theorem insert_pairs (points : List (Id × Payload)) (w : World) :
    (points.foldl (fun w p => w.put p.1 p.2) w).pairs = w.pairs := by
  induction points generalizing w with
  | nil => rfl
  | cons p points ih => exact ih (w.put p.1 p.2)

theorem insert_drawn (points : List (Id × Payload)) (w : World) :
    (points.foldl (fun w p => w.put p.1 p.2) w).drawn = w.drawn := by
  induction points generalizing w with
  | nil => rfl
  | cons p points ih => exact ih (w.put p.1 p.2)

/-- No id is drawn twice. -/
theorem failing_drawn (fault : Call → World → Option Exn) (c : Call) (w : World) :
    w.drawn ≤ (host.failing fault c w).2.drawn := by
  rcases host.failing_cases fault c w with ⟨e, h⟩ | h
  · rw [h]
  rw [h]
  cases c with
  | uuid4 => exact Nat.le_succ _
  | vs_insert points => exact (insert_drawn points w).ge
  | vs_set_payload id patch =>
    simp only [answer]
    split
    · exact le_rfl
    · exact le_rfl
  | vs_list filters top_k =>
    simp only [answer]
    split
    · exact le_rfl
    · exact le_rfl
  | _ => exact le_rfl

/-- A call that is no statement on pairs leaves them alone. -/
theorem answer_pairs {c : Call} (hc : ∀ op, c ≠ .pairs op) (w : World) :
    (host.answer c w).2.pairs = w.pairs := by
  cases c with
  | pairs op => exact absurd rfl (hc op)
  | vs_insert points => exact insert_pairs points w
  | vs_set_payload id patch =>
    simp only [answer]
    split <;> rfl
  | vs_list filters top_k =>
    simp only [answer]
    split <;> rfl
  | _ => rfl

/-- What a call does to the pairs: nothing, or what its statement does. -/
theorem failing_pairs (fault : Call → World → Option Exn) (c : Call) (w : World) :
    (host.failing fault c w).2.pairs = w.pairs ∨
      ∃ op, c = .pairs op ∧ (host.failing fault c w).1 = (host.answer c w).1 ∧
        (host.failing fault c w).2.pairs = (op.apply host.text_hash w.pairs).2 := by
  rcases host.failing_cases fault c w with ⟨e, h⟩ | h
  · exact .inl (by rw [h])
  · by_cases hc : ∃ op, c = .pairs op
    · obtain ⟨op, rfl⟩ := hc
      exact .inr ⟨op, rfl, by rw [h], by rw [h]; rfl⟩
    · refine .inl ?_
      rw [h, host.answer_pairs fun op hop => hc ⟨op, hop⟩]

/-- The evidence of a pair survives every call. -/
theorem get_keeps_evidence (fault : Call → World → Option Exn) {w : World} {pair_id : Id} (c : Call)
    {row : PairRow} (h : w.pairs.get pair_id = some row) :
    ∃ row', (host.failing fault c w).2.pairs.get pair_id = some row' ∧
      row'.toEvidence = row.toEvidence := by
  rcases host.failing_pairs fault c w with hsame | ⟨op, rfl, -, hop⟩
  · exact ⟨row, by rw [hsame, h], rfl⟩
  · rw [hop]
    refine PairStore.get_evolves (op.apply_keeps_evidence host.text_hash w.pairs) ?_ h
    intro a b hab
    rw [hab]

/-- A pair that is not open stays as it is until it is reopened. -/
theorem get_keeps_closed (fault : Call → World → Option Exn) {w : World} {pair_id : Id} {c : Call}
    (hc : ∀ id, c ≠ .pairs (.reopen id)) {row : PairRow}
    (h : w.pairs.get pair_id = some row) (hclosed : row.disposition ≠ "open") :
    (host.failing fault c w).2.pairs.get pair_id = some row := by
  rcases host.failing_pairs fault c w with hsame | ⟨op, rfl, -, hop⟩
  · rw [hsame, h]
  · have hnot : ∀ id, op ≠ .reopen id := fun id hid => hc id (by rw [hid])
    rw [hop]
    obtain ⟨row', hrow', -, hsame⟩ := PairStore.get_evolves
      ((op.apply_keeps_evidence host.text_hash w.pairs).and
        (op.apply_keeps_closed host.text_hash w.pairs hnot))
      (fun a b hab => by rw [hab.1]) h
    rwa [hsame hclosed] at hrow'

@[simp] theorem failing_none : host.failing (fun _ _ => none) = host.answer := by
  funext c w
  simp [failing, Handler.failing]

/-- A request that nothing strikes runs in a healthy world. -/
theorem run_beset_none {α : Type} (p : Code α) (w : World) (n : ℕ) :
    (p.run (host.beset .none) (w, n)).1 = (p.run host.answer w).1 ∧
      (p.run (host.beset .none) (w, n)).2.1 = (p.run host.answer w).2 := by
  unfold beset Faults.none
  rw [failing_none]
  exact Prog.run_numbered host.answer p w n

end Host

/-! ## Small pieces of code -/

/-- `if c: raise e`. -/
def refuse_if (c : Prop) [Decidable c] (e : Exn) : Code Unit :=
  if c then throw e else pure ()

/-- The value, or `raise e` when there is none. -/
def expect {α : Type} (a : Option α) (e : Exn) : Code α :=
  match a with
  | some a => pure a
  | none => throw e

def lift_except {α : Type} : Except Exn α → Code α
  | .ok a => pure a
  | .error e => throw e

/-- `try: … except Exception: pass`. -/
def attempt (p : Code Unit) : Code Unit :=
  try p catch _ => pure ()

def now_iso : Code String := Prog.perform (I := Api) .now_iso

end Memline
