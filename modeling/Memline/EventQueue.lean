/-
The event queue: adds and staleness checks that the daemon's workers process.

A row is what was enqueued, written once (`Intake`), and how far it has come
(`Progress`); every statement below rewrites the second half only. The statements
guard the status unevenly: `retry` and `ack` name the status they expect, `complete`
and `fail` go by the id alone, and `recover_stale` takes every row in progress.

The JSON texts of a row are kept as the values that reading them gives back. The lock
of the connection makes `claim_next` one step for the threads of a daemon, and no
other process writes a queued row.
-/
import Memline.Lib.Table
import Memline.Payload
import Mathlib.Data.List.MinMax
import Mathlib.Data.String.Basic

set_option autoImplicit false

namespace Memline

open SqlTable

/-! ## Arguments -/

/-- An argument of an operation: a plain value, or an object such as `metadata`. -/
inductive Arg where
  | value (v : Value)
  | dict (d : Payload)
  deriving DecidableEq

/-- The arguments of an operation, a JSON object. -/
abbrev Args : Type := AList (fun _ : String => Arg)

namespace Args

/-- `args.get(key)`: null for an absent key. -/
def get (args : Args) (key : String) : Arg := (args.lookup key).getD (.value .none)

/-- The object literal `{key: v, …}`; a later entry of the same key wins. -/
def ofList (entries : List (String × Arg)) : Args :=
  entries.foldl (fun args e => args.insert e.1 e.2) ∅

/-- `{k: v for k, v in args.items() if k != key}`. -/
def without (args : Args) (key : String) : Args := args.erase key

/-- `args.get(key) == s`, for a string `s`. -/
def holds (args : Args) (key s : String) : Bool := decide (args.get key = .value (.str s))

theorem get_without_ne (args : Args) {key key' : String} (h : key' ≠ key) :
    (args.without key).get key' = args.get key' := by
  rw [get, get, without, AList.lookup_erase_ne h]

/-- Inserting several keys leaves one alone that is not among them. -/
theorem lookup_foldl_ne {entries : List (String × Arg)} {key : String} (args : Args)
    (h : ∀ e ∈ entries, e.1 ≠ key) :
    (entries.foldl (fun args e => args.insert e.1 e.2) args).lookup key = args.lookup key := by
  induction entries generalizing args with
  | nil => rfl
  | cons e entries ih =>
    rw [List.foldl_cons, ih _ fun x hx => h x (List.mem_cons_of_mem _ hx)]
    exact AList.lookup_insert_ne (h e List.mem_cons_self).symm

/-- An object literal reads as null at a key it does not name. -/
theorem get_ofList_ne {entries : List (String × Arg)} {key : String}
    (h : ∀ e ∈ entries, e.1 ≠ key) : (ofList entries).get key = .value .none := by
  rw [get, ofList, lookup_foldl_ne ∅ h]
  rfl

end Args

/-! ## Rows -/

inductive EventStatus where
  | queued
  | processing
  | done
  | failed
  deriving DecidableEq

def MAX_ATTEMPTS : ℕ := 3

/-- The columns that `enqueue` writes and nothing rewrites. -/
structure Intake where
  id : Id
  op : String
  args : Args
  created_at : String

/-- The columns that say what became of an event. -/
structure Progress (Val : Type) where
  status : EventStatus
  attempts : ℕ
  acked : Bool
  updated_at : String
  result : Option Val
  error : Option String

structure EventRow (Val : Type) extends Intake, Progress Val

/-- A row with its progress rewritten. -/
def EventRow.settle {Val : Type} (f : Progress Val → Progress Val) (r : EventRow Val) :
    EventRow Val :=
  { toIntake := r.toIntake, toProgress := f r.toProgress }

@[simp] theorem EventRow.settle_toIntake {Val : Type} (f : Progress Val → Progress Val)
    (r : EventRow Val) : (r.settle f).toIntake = r.toIntake := rfl

@[simp] theorem EventRow.settle_toProgress {Val : Type} (f : Progress Val → Progress Val)
    (r : EventRow Val) : (r.settle f).toProgress = f r.toProgress := rfl

/-- What a worker gets hold of. -/
structure ClaimedItem where
  id : Id
  op : String
  args : Args
  attempts : ℕ

/-- What `claim_next` returns for the row it has read. -/
def EventRow.claimed {Val : Type} (r : EventRow Val) : ClaimedItem :=
  ⟨r.id, r.op, r.args, r.attempts + 1⟩

/-- Whether `purge` drops the row. -/
def EventRow.purgeable {Val : Type} (r : EventRow Val) (cutoff : String) : Bool :=
  decide (r.updated_at < cutoff) &&
    (decide (r.status = .done) || (decide (r.status = .failed) && r.acked))

/-- What a purge may drop: rows that are old enough and done, or failed and acknowledged. -/
theorem EventRow.purgeable_iff {Val : Type} {row : EventRow Val} {cutoff : String} :
    row.purgeable cutoff = true ↔
      row.updated_at < cutoff ∧ (row.status = .done ∨ row.status = .failed ∧ row.acked = true) := by
  simp [EventRow.purgeable]

/-- The table `events`, with its primary key. -/
structure EventQueue (Val : Type) where
  rows : List (EventRow Val)
  id_unique : Unique (fun r : EventRow Val => r.id) rows

namespace EventQueue

variable {Val : Type}

def empty : EventQueue Val := ⟨[], unique_nil⟩

/-! ## Statements -/

/-- `UPDATE events SET … WHERE p`, on the columns of the progress. -/
def settle (q : EventQueue Val) (p : EventRow Val → Bool) (f : Progress Val → Progress Val) :
    EventQueue Val where
  rows := update p (EventRow.settle f) q.rows
  id_unique := q.id_unique.update fun _ => rfl

/-- `SELECT * FROM events WHERE id = ?`. -/
def find (q : EventQueue Val) (event_id : Id) : Option (EventRow Val) :=
  lookup (fun r : EventRow Val => r.id) event_id q.rows

/-! ## Intake -/

/-- The row `enqueue` inserts. -/
def queued_row (Val : Type) (event_id : Id) (op : String) (args : Args) (now : String) :
    EventRow Val where
  id := event_id
  op := op
  args := args
  created_at := now
  status := .queued
  attempts := 0
  acked := false
  updated_at := now
  result := none
  error := none

/-- An id that is taken violates the primary key. -/
def enqueue (q : EventQueue Val) (event_id : Id) (op : String) (args : Args) (now : String) :
    Option (EventQueue Val) :=
  if h : ∀ r ∈ q.rows, r.id ≠ event_id then
    some {
      rows := q.rows ++ [queued_row Val event_id op args now]
      id_unique := q.id_unique.concat h }
  else none

/-! ## The side of the workers -/

/-- The queued rows that no queued row is older than. -/
def oldest (q : EventQueue Val) : List (EventRow Val) :=
  let queued := q.rows.filter fun r => decide (r.status = .queued)
  queued.filter fun r => queued.all fun r' => decide (r.created_at ≤ r'.created_at)

/-- The `UPDATE` of `claim_next`. -/
def take (q : EventQueue Val) (event_id : Id) (now : String) : EventQueue Val :=
  q.settle (fun r => decide (r.id = event_id)) fun p =>
    { p with status := .processing, attempts := p.attempts + 1, updated_at := now }

/-- Among rows of one moment the database chooses; `tie` is its choice. -/
def claim_next (q : EventQueue Val) (tie : ℕ) (now : String) :
    Option ClaimedItem × EventQueue Val :=
  match q.oldest[tie % q.oldest.length]? with
  | none => (none, q)
  | some row => (some row.claimed, q.take row.id now)

def complete (q : EventQueue Val) (event_id : Id) (result : Val) (now : String) : EventQueue Val :=
  q.settle (fun r => decide (r.id = event_id)) fun p =>
    { p with status := .done, result := some result, error := none, updated_at := now }

/-- Whether a failure of this attempt is final. -/
def terminal (attempts : ℕ) : Bool := decide (MAX_ATTEMPTS ≤ attempts)

/-- Mark a failure; the event is queued again while attempts remain. -/
def fail (q : EventQueue Val) (event_id : Id) (error : String) (attempts : ℕ) (now : String) :
    Bool × EventQueue Val :=
  (terminal attempts, q.settle (fun r => decide (r.id = event_id)) fun p =>
    { p with status := if terminal attempts then .failed else .queued, error := some error
             updated_at := now })

/-- `cutoff` is the moment before which rows are past retention. -/
def purge (q : EventQueue Val) (cutoff : String) : ℕ × EventQueue Val :=
  (rowcount (fun r => r.purgeable cutoff) q.rows,
    { rows := delete (fun r => r.purgeable cutoff) q.rows
      id_unique := q.id_unique.delete _ })

/-- Requeue the rows that a daemon which is gone had in progress. -/
def recover_stale (q : EventQueue Val) (now : String) : ℕ × EventQueue Val :=
  let p : EventRow Val → Bool := fun r => decide (r.status = .processing)
  (rowcount p q.rows, q.settle p fun s => { s with status := .queued, updated_at := now })

/-! ## Inspection and management -/

def get_args (q : EventQueue Val) (event_id : Id) : Option Args :=
  (q.find event_id).map fun r => r.args

def retry (q : EventQueue Val) (event_id : Id) (now : String) : Bool × EventQueue Val :=
  let p : EventRow Val → Bool := fun r =>
    decide (r.id = event_id) && decide (r.status = .failed)
  (decide (0 < rowcount p q.rows), q.settle p fun s =>
    { s with status := .queued, attempts := 0, acked := false, error := none, updated_at := now })

/-- Without an id, or with an empty one, every failure is acknowledged. -/
def ack (q : EventQueue Val) (event_id : Option Id) (now : String) : ℕ × EventQueue Val :=
  let p : EventRow Val → Bool := fun r =>
    if event_id.getD "" ≠ "" then
      decide (some r.id = event_id) && decide (r.status = .failed)
    else decide (r.status = .failed) && !r.acked
  (rowcount p q.rows, q.settle p fun s => { s with acked := true, updated_at := now })

/-- `ORDER BY created_at DESC`: the database chooses among rows of one moment. -/
structure NewestFirst (Val : Type) where
  sort : List (EventRow Val) → List (EventRow Val)
  perm : ∀ rows, (sort rows).Perm rows
  sorted : ∀ rows, (sort rows).Pairwise fun a b => b.created_at ≤ a.created_at

def list (q : EventQueue Val) (order : NewestFirst Val) (status : Option EventStatus)
    (limit offset : ℕ) : List (EventRow Val) :=
  let rows := q.rows.filter fun r => decide (status = none ∨ status = some r.status)
  ((order.sort rows).drop offset).take limit

/-! ## Alerts -/

/-- The alerts file. -/
structure Alerts where
  failed_unacked : ℕ
  latest_error : Option String
  updated_at : Option String
  deriving DecidableEq

/-- What `refresh_alerts` writes; without a failure to report, the file goes. -/
def alerts (q : EventQueue Val) : Option Alerts :=
  let failures := q.rows.filter fun r => decide (r.status = .failed) && !r.acked
  let latest := failures.argmax fun r => r.updated_at
  if failures.isEmpty then none
  else some ⟨failures.length, latest.bind fun r => r.error, latest.map fun r => r.updated_at⟩

/-! ## What a statement may do to the rows -/

/-- The rows after a settlement are those before, some of them settled. -/
theorem mem_settle {q : EventQueue Val} {p : EventRow Val → Bool} {f : Progress Val → Progress Val}
    {row' : EventRow Val} (h : row' ∈ (q.settle p f).rows) :
    ∃ row ∈ q.rows, row' = if p row then row.settle f else row := by
  obtain ⟨row, hrow, rfl⟩ := mem_update.mp h
  exact ⟨row, hrow, rfl⟩

/-- Each row before a settlement has its row behind it. -/
theorem settle_mem {q : EventQueue Val} (p : EventRow Val → Bool) (f : Progress Val → Progress Val)
    {row : EventRow Val} (h : row ∈ q.rows) :
    (if p row then row.settle f else row) ∈ (q.settle p f).rows :=
  mem_update.mpr ⟨row, h, rfl⟩

theorem mem_enqueue {q q' : EventQueue Val} {event_id : Id} {op : String} {args : Args}
    {now : String} (h : q.enqueue event_id op args now = some q') {row : EventRow Val} :
    row ∈ q'.rows ↔ row ∈ q.rows ∨ row = queued_row Val event_id op args now := by
  unfold enqueue at h
  split at h
  · injection h with h
    subst h
    simp
  · cases h

/-- A purge drops what may be dropped and nothing else. -/
theorem mem_purge {q : EventQueue Val} {cutoff : String} {row : EventRow Val} :
    row ∈ (q.purge cutoff).2.rows ↔ row ∈ q.rows ∧ row.purgeable cutoff = false :=
  mem_delete

/-- The oldest rows are the queued ones of which none was created earlier. -/
theorem mem_oldest {q : EventQueue Val} {row : EventRow Val} :
    row ∈ q.oldest ↔ (row ∈ q.rows ∧ row.status = .queued) ∧
      ∀ r ∈ q.rows, r.status = .queued → row.created_at ≤ r.created_at := by
  simp only [oldest, List.mem_filter, List.all_eq_true, decide_eq_true_eq, and_imp]

/-- What `claim_next` does when it finds something. -/
theorem claim_next_some {q q' : EventQueue Val} {tie : ℕ} {now : String} {item : ClaimedItem}
    (h : q.claim_next tie now = (some item, q')) :
    ∃ row ∈ q.oldest, item = row.claimed ∧ q' = q.take row.id now := by
  unfold claim_next at h
  split at h
  · cases h
  · rename_i row hrow
    injection h with hitem hq
    injection hitem with hitem
    exact ⟨row, List.mem_of_getElem? hrow, hitem.symm, hq.symm⟩

theorem claim_next_none {q q' : EventQueue Val} {tie : ℕ} {now : String}
    (h : q.claim_next tie now = (none, q')) : q' = q := by
  unfold claim_next at h
  split at h
  · injection h with _ hq
    exact hq.symm
  · cases h

/-- The row of an id. -/
theorem eq_of_id_eq (q : EventQueue Val) {a b : EventRow Val} (ha : a ∈ q.rows) (hb : b ∈ q.rows)
    (h : a.id = b.id) : a = b := q.id_unique.eq_of_key_eq ha hb h

end EventQueue

end Memline
