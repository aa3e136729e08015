/-
The suspicion-pair store: evidence rows and the statements that change them.

A row is what was judged, written once (`Evidence`), and what became of it
(`Disposal`); the statements below rewrite the second half only. Both uniqueness
constraints of the schema are fields of `PairStore`, so a store that violates
one cannot be built and no operation has to be trusted to keep them.

Kinds, verdicts and dispositions stay strings: all three are TEXT columns that
callers fill with strings of their own, and `close_for_old` checks none of them.
A confidence is a rational number, the floors are the decimals of the source.

The operations that draw an id or read the clock take both as arguments, so a
run of operations below is a run under any ids and any clock.
-/
import Memline.Lib.Table
import Memline.Payload
import Mathlib.Algebra.Order.Ring.Rat
import Mathlib.Data.List.Sort

set_option autoImplicit false

namespace Memline

open SqlTable

/-! ## Kinds, opening verdicts and confidence floors -/

def KIND_DISPLACEMENT : String := "displacement"
def KIND_NECESSITY : String := "necessity"
def KIND_CORRECTNESS : String := "correctness"
def KIND_TTL_EXPIRY : String := "ttl_expiry"
def KIND_SAFETY : String := "safety"

def SELF_CHECK_CONFIDENCE_FLOOR : ℚ := 8 / 10

/-- `_OPENING_VERDICTS`: the verdicts that open a review suspicion, per kind. -/
def opening_verdict (kind verdict : String) : Bool :=
  if kind = KIND_DISPLACEMENT then verdict = "SUPERSEDED" ∨ verdict = "DUPLICATE"
  else if kind = KIND_NECESSITY then verdict ≠ "DURABLE"
  else if kind = KIND_CORRECTNESS then verdict ≠ "CONSISTENT"
  else if kind = KIND_TTL_EXPIRY then true
  else if kind = KIND_SAFETY then verdict ≠ "CLEAN"
  else false

/-- `_KIND_FLOORS`, with the strict floor for a kind it does not list. -/
def kind_floor (kind : String) : ℚ :=
  if kind = KIND_DISPLACEMENT then 6 / 10
  else if kind = KIND_NECESSITY then 8 / 10
  else if kind = KIND_CORRECTNESS then 8 / 10
  else if kind = KIND_SAFETY then 6 / 10
  else if kind = KIND_TTL_EXPIRY then 0
  else SELF_CHECK_CONFIDENCE_FLOOR

/-! ## Rows -/

/-- The columns that `record_judgment` writes and nothing rewrites. -/
structure Evidence where
  pair_id : Id
  kind : String
  new_id : Id
  old_id : Id
  old_text_hash : String
  verdict : String
  confidence : Option ℚ
  reason : Option String
  judged_at : String
  judge_model : Option String
  new_session_id : Option Id
  deriving DecidableEq

/-- The columns that say what became of a pair. -/
structure Disposal where
  disposition : String
  disposed_by : Option String
  disposed_at : Option String
  deriving DecidableEq

structure PairRow extends Evidence, Disposal
  deriving DecidableEq

/-- `UNIQUE(kind, new_id, old_id, old_text_hash)`. -/
def PairRow.version (r : PairRow) : String × Id × Id × String :=
  (r.kind, r.new_id, r.old_id, r.old_text_hash)

/-- Whether two rows meet in the primary key or in the uniqueness constraint. -/
def PairRow.conflicts (r r' : PairRow) : Bool :=
  decide (r.pair_id = r'.pair_id ∨ r.version = r'.version)

/-- A row with its disposal rewritten. -/
def PairRow.settle (d : Disposal → Disposal) (r : PairRow) : PairRow :=
  { toEvidence := r.toEvidence, toDisposal := d r.toDisposal }

@[simp] theorem PairRow.settle_toEvidence (d : Disposal → Disposal) (r : PairRow) :
    (r.settle d).toEvidence = r.toEvidence := rfl

/-- The table `pairs`, with its primary key and its uniqueness constraint. -/
structure PairStore where
  rows : List PairRow
  pair_id_unique : Unique (fun r : PairRow => r.pair_id) rows
  version_unique : Unique PairRow.version rows

namespace PairStore

@[ext] theorem ext {s t : PairStore} (h : s.rows = t.rows) : s = t := by
  cases s
  cases t
  simpa using h

/-- The table right after its creation. -/
def empty : PairStore := ⟨[], unique_nil, unique_nil⟩

/-! ## Statements -/

/-- `UPDATE pairs SET … WHERE p`, on the disposal columns. -/
def settle (s : PairStore) (p : PairRow → Bool) (d : Disposal → Disposal) : PairStore where
  rows := update p (PairRow.settle d) s.rows
  pair_id_unique := s.pair_id_unique.update fun _ => rfl
  version_unique := s.version_unique.update fun _ => rfl

/-- `INSERT OR IGNORE INTO pairs`. -/
def insert (s : PairStore) (r : PairRow) : PairStore where
  rows := insertOrIgnore PairRow.conflicts r s.rows
  pair_id_unique := s.pair_id_unique.insertOrIgnore fun _ h => decide_eq_true (.inl h)
  version_unique := s.version_unique.insertOrIgnore fun _ h => decide_eq_true (.inr h)

/-- `cursor.rowcount` of an insertion. -/
def inserts (s : PairStore) (r : PairRow) : Bool := !s.rows.any r.conflicts

end PairStore

/-! ## Operations -/

/-- The arguments of `record_judgment`. -/
structure Judgment where
  new_id : Id
  old_id : Id
  old_text : String
  verdict : String
  confidence : Option ℚ
  reason : Option String
  judge_model : Option String := none
  new_session_id : Option Id := none
  kind : String := KIND_DISPLACEMENT
  deriving DecidableEq

/-- Whether a judgment opens a suspicion; one that does not is cached. -/
def Judgment.opens (j : Judgment) : Bool :=
  opening_verdict j.kind j.verdict && decide (kind_floor j.kind ≤ j.confidence.getD 0)

/-- The row `record_judgment` tries to insert. -/
def Judgment.row (text_hash : String → String) (j : Judgment) (pair_id : Id)
    (judged_at : String) : PairRow where
  pair_id := pair_id
  kind := j.kind
  new_id := j.new_id
  old_id := j.old_id
  old_text_hash := text_hash j.old_text
  verdict := j.verdict
  confidence := j.confidence
  reason := j.reason
  judged_at := judged_at
  judge_model := j.judge_model
  new_session_id := j.new_session_id
  -- a judgment that raises no suspicion is kept as a cache entry
  disposition := if j.opens then "open" else "cached"
  disposed_by := none
  disposed_at := none

def PairRow.is_open (r : PairRow) : Bool := decide (r.disposition = "open")

/-- The dispositions `dispose` accepts. -/
def DISPOSITIONS : List String :=
  ["confirmed", "dismissed", "obsoleted", "expired", "merged", "ttl"]

/-- The dispositions that have a store mutation after them, which `reopen` undoes. -/
def REOPENABLE : List String := ["confirmed", "merged", "ttl"]

def SUSPICION_CONFIDENCE_FLOOR : ℚ := 6 / 10

def REQUIRED_CONSECUTIVE_DISPLACEMENT_FALSE_POSITIVES : ℕ := 3

/-- The row is a displacement judgment about this text that opened a suspicion. -/
def PairRow.suspects_displacement (r : PairRow) (old_id : Id) (old_text_hash : String) : Bool :=
  decide (r.kind = KIND_DISPLACEMENT ∧ r.old_id = old_id ∧ r.old_text_hash = old_text_hash ∧
    r.verdict ∈ ["SUPERSEDED", "DUPLICATE"] ∧ ∃ c ∈ r.confidence, SUSPICION_CONFIDENCE_FLOOR ≤ c)

/-- What the evidence for a protection amounts to. -/
structure EvidenceResult where
  eligible : Bool
  required : ℕ
  consecutive_count : ℕ
  pair_ids : List Id

namespace PairStore

/-- Returns the row that was offered and whether it was inserted. -/
def record_judgment (text_hash : String → String) (s : PairStore) (j : Judgment)
    (pair_id : Id) (judged_at : String) : (PairRow × Bool) × PairStore :=
  let row := j.row text_hash pair_id judged_at
  ((row, s.inserts row), s.insert row)

def dispose (s : PairStore) (pair_id : Id) (disposition : String)
    (disposed_by : Option String) (now : String) : Except Exn Bool × PairStore :=
  if disposition ∈ DISPOSITIONS then
    let p : PairRow → Bool := fun r => decide (r.pair_id = pair_id) && r.is_open
    (.ok (decide (0 < rowcount p s.rows)),
      s.settle p fun _ => ⟨disposition, disposed_by, some now⟩)
  else
    (.error (.staleness_error s!"invalid disposition: {disposition}"), s)

def reopen (s : PairStore) (pair_id : Id) : Bool × PairStore :=
  let p : PairRow → Bool := fun r =>
    decide (r.pair_id = pair_id) && decide (r.disposition ∈ REOPENABLE)
  (decide (0 < rowcount p s.rows), s.settle p fun _ => ⟨"open", none, none⟩)

/-- An absent or empty `kind` restricts nothing. -/
def close_for_old (s : PairStore) (old_id : Id) (disposition : String)
    (disposed_by : Option String) (kind : Option String) (now : String) : ℕ × PairStore :=
  let p : PairRow → Bool := fun r =>
    decide (r.old_id = old_id) && r.is_open &&
      (decide (kind.getD "" = "") || decide (some r.kind = kind))
  (rowcount p s.rows, s.settle p fun _ => ⟨disposition, disposed_by, some now⟩)

def close_for_deleted_memory (s : PairStore) (memory_id : Id) (now : String) :
    ℕ × PairStore :=
  let p : PairRow → Bool := fun r => decide (r.old_id = memory_id) && r.is_open
  let a := s.settle p fun d => { d with disposition := "obsoleted", disposed_at := some now }
  -- the second statement sees the rows the first one has closed
  let q : PairRow → Bool := fun r => decide (r.new_id = memory_id) && r.is_open
  let b := a.settle q fun d => { d with disposition := "expired", disposed_at := some now }
  (rowcount p s.rows + rowcount q a.rows, b)

def close_for_updated_text (text_hash : String → String) (s : PairStore) (memory_id : Id)
    (current_text : String) (now : String) : ℕ × PairStore :=
  let p : PairRow → Bool := fun r =>
    decide (r.old_id = memory_id) && r.is_open &&
      decide (r.old_text_hash ≠ text_hash current_text)
  (rowcount p s.rows,
    s.settle p fun d => { d with disposition := "expired", disposed_at := some now })

def has_judgment (text_hash : String → String) (s : PairStore) (new_id old_id : Id)
    (old_text kind : String) : Bool :=
  s.rows.any fun r => decide (r.version = (kind, new_id, old_id, text_hash old_text))

/-- The candidates already judged against the probe, in either direction. -/
def judged_either (text_hash : String → String) (s : PairStore) (probe_id : Id)
    (probe_text : String) (candidates : List (Id × String)) : List Id :=
  (candidates.filter fun c => s.rows.any fun r =>
    decide (r.version = ("displacement", probe_id, c.1, text_hash c.2)) ||
      decide (r.version = ("displacement", c.1, probe_id, text_hash probe_text))).map Prod.fst

def get (s : PairStore) (pair_id : Id) : Option PairRow :=
  lookup (fun r : PairRow => r.pair_id) pair_id s.rows

/-- The latest opening displacement judgments of one text version, newest first;
rows of one moment come in the reverse order of their insertion. -/
def displacement_rows (s : PairStore) (old_id : Id) (old_text_hash : String) (limit : ℕ) :
    List PairRow :=
  ((s.rows.filter fun r => r.suspects_displacement old_id old_text_hash).reverse.insertionSort
    fun a b => b.judged_at ≤ a.judged_at).take limit

/-- The leading run of dismissed rows with new sides of their own, as pair ids. -/
def dismissed_run : List PairRow → List Id → List Id → List Id
  | [], pair_ids, _ => pair_ids
  | row :: rows, pair_ids, new_ids =>
    if row.disposition ≠ "dismissed" ∨ row.new_id ∈ new_ids then pair_ids
    else dismissed_run rows (pair_ids ++ [row.pair_id]) (row.new_id :: new_ids)

/-- Whether the latest displacement suspicions about a text were all dismissed. -/
def consecutive_dismissed_displacement_evidence (text_hash : String → String) (s : PairStore)
    (old_id : Id) (old_text : String) (required : ℕ) : Except Exn EvidenceResult :=
  if required = 0 then .error (.staleness_error "required evidence count must be positive")
  else
    let pair_ids := dismissed_run (s.displacement_rows old_id (text_hash old_text) required) [] []
    .ok { eligible := decide (required ≤ pair_ids.length), required
          consecutive_count := pair_ids.length, pair_ids }

end PairStore

/-- The operations of a store, as its callers issue them. -/
inductive PairOp where
  | record_judgment (j : Judgment) (pair_id : Id) (judged_at : String)
  | dispose (pair_id : Id) (disposition : String) (disposed_by : Option String) (now : String)
  | reopen (pair_id : Id)
  | close_for_old (old_id : Id) (disposition : String) (disposed_by : Option String)
      (kind : Option String) (now : String)
  | close_for_deleted_memory (memory_id : Id) (now : String)
  | close_for_updated_text (memory_id : Id) (current_text now : String)
  | has_judgment (new_id old_id : Id) (old_text kind : String)
  | judged_either (probe_id : Id) (probe_text : String) (candidates : List (Id × String))
  | get (pair_id : Id)
  | consecutive_dismissed_displacement_evidence (old_id : Id) (old_text : String) (required : ℕ)
  deriving DecidableEq

namespace PairOp

def Answer : PairOp → Type
  | record_judgment .. => PairRow × Bool
  | dispose .. | reopen .. | has_judgment .. => Bool
  | close_for_old .. | close_for_deleted_memory .. | close_for_updated_text .. => ℕ
  | judged_either .. => List Id
  | get .. => Option PairRow
  | consecutive_dismissed_displacement_evidence .. => EvidenceResult

/-- What an operation answers, and the store it leaves. -/
def apply (text_hash : String → String) :
    (op : PairOp) → PairStore → Except Exn op.Answer × PairStore
  | record_judgment j pair_id judged_at, s =>
    (s.record_judgment text_hash j pair_id judged_at).map .ok id
  | dispose pair_id disposition disposed_by now, s =>
    s.dispose pair_id disposition disposed_by now
  | reopen pair_id, s => (s.reopen pair_id).map .ok id
  | close_for_old old_id disposition disposed_by kind now, s =>
    (s.close_for_old old_id disposition disposed_by kind now).map .ok id
  | close_for_deleted_memory memory_id now, s =>
    (s.close_for_deleted_memory memory_id now).map .ok id
  | close_for_updated_text memory_id current_text now, s =>
    (s.close_for_updated_text text_hash memory_id current_text now).map .ok id
  | has_judgment new_id old_id old_text kind, s =>
    (.ok (s.has_judgment text_hash new_id old_id old_text kind), s)
  | judged_either probe_id probe_text candidates, s =>
    (.ok (s.judged_either text_hash probe_id probe_text candidates), s)
  | get pair_id, s => (.ok (s.get pair_id), s)
  | consecutive_dismissed_displacement_evidence old_id old_text required, s =>
    (s.consecutive_dismissed_displacement_evidence text_hash old_id old_text required, s)

/-- A run of operations on one store. -/
def runs (text_hash : String → String) (s : PairStore) (ops : List PairOp) : PairStore :=
  ops.foldl (fun s op => (op.apply text_hash s).2) s

@[simp] theorem runs_nil (text_hash : String → String) (s : PairStore) :
    runs text_hash s [] = s := rfl

theorem runs_append (text_hash : String → String) (s : PairStore) (ops ops' : List PairOp) :
    runs text_hash s (ops ++ ops') = runs text_hash (runs text_hash s ops) ops' :=
  List.foldl_append ..

end PairOp

/-! ## What a step may do to a row -/

/-- How one operation may move a disposition. -/
inductive DispositionStep : String → String → Prop where
  | stay (d : String) : DispositionStep d d
  | close {d : String} (h : d ≠ "open") : DispositionStep "open" d
  | reopen {d : String} (h : d ∈ REOPENABLE) : DispositionStep d "open"

/-- The dispositions no operation leaves. -/
def FINAL : List String := ["cached", "dismissed", "obsoleted", "expired"]

/-- How one operation may rewrite a row: never its evidence. -/
def RowStep (r r' : PairRow) : Prop :=
  r'.toEvidence = r.toEvidence ∧ DispositionStep r.disposition r'.disposition

theorem RowStep.refl (r : PairRow) : RowStep r r := ⟨rfl, .stay _⟩

/-- A final disposition only stays. -/
theorem DispositionStep.eq_of_final {d d' : String} (h : DispositionStep d d')
    (hd : d ∈ FINAL) : d' = d := by
  cases h with
  | stay => rfl
  | close _ => exact absurd hd (by decide)
  | reopen hr =>
    have hdisj : ∀ x ∈ FINAL, x ∉ REOPENABLE := by decide
    exact absurd hr (hdisj d hd)

/-- How a whole run may rewrite a row. -/
def RowKept (r r' : PairRow) : Prop :=
  r'.toEvidence = r.toEvidence ∧ (r.disposition ∈ FINAL → r'.disposition = r.disposition)

theorem RowKept.refl (r : PairRow) : RowKept r r := ⟨rfl, fun _ => rfl⟩

theorem RowKept.trans {a b c : PairRow} (h : RowKept a b) (h' : RowKept b c) :
    RowKept a c := by
  refine ⟨h'.1.trans h.1, fun ha => ?_⟩
  have hb := h.2 ha
  rw [h'.2 (hb ▸ ha), hb]

theorem RowStep.kept {r r' : PairRow} (h : RowStep r r') : RowKept r r' :=
  ⟨h.1, h.2.eq_of_final⟩

namespace PairStore

theorem insert_evolves (s : PairStore) (r : PairRow) :
    Evolves RowStep s.rows (s.insert r).rows :=
  evolves_insertOrIgnore RowStep.refl PairRow.conflicts r

/-- A statement that closes open rows is a step on each of them. -/
theorem settle_close (s : PairStore) {p : PairRow → Bool} {d : Disposal → Disposal}
    (hp : ∀ r, p r = true → r.disposition = "open") (hd : ∀ x, (d x).disposition ≠ "open") :
    Evolves RowStep s.rows (s.settle p d).rows := by
  refine evolves_update RowStep.refl (fun r _ hr => ⟨rfl, ?_⟩)
  rw [hp r hr]
  exact .close (hd r.toDisposal)

theorem is_open_iff {r : PairRow} : r.is_open = true ↔ r.disposition = "open" := by
  simp [PairRow.is_open]

theorem getElem?_settle (s : PairStore) (p : PairRow → Bool) (d : Disposal → Disposal) (i : ℕ) :
    (s.settle p d).rows[i]? = s.rows[i]?.map fun r => if p r then r.settle d else r := by
  simp only [settle, update, List.getElem?_map]

/-- Closing twice in a row, where the second statement closes what the first one
left open, is still one step on each row. -/
theorem settle_close_twice (s : PairStore) {p q : PairRow → Bool} {d e : Disposal → Disposal}
    (hp : ∀ r, p r = true → r.disposition = "open")
    (hq : ∀ r, q r = true → r.disposition = "open")
    (hd : ∀ x, (d x).disposition ≠ "open") (he : ∀ x, (e x).disposition ≠ "open") :
    Evolves RowStep s.rows ((s.settle p d).settle q e).rows := by
  intro i r hr
  rw [getElem?_settle, getElem?_settle, hr]
  refine ⟨_, rfl, ?_⟩
  by_cases hpr : p r = true
  · have hclosed : q (r.settle d) = false := by
      rw [← Bool.not_eq_true]
      exact fun hqr => hd r.toDisposal (hq _ hqr)
    simp only [if_pos hpr, hclosed]
    refine ⟨rfl, ?_⟩
    rw [hp r hpr]
    exact .close (hd r.toDisposal)
  · simp only [if_neg hpr]
    split
    · refine ⟨rfl, ?_⟩
      rw [hq r ‹_›]
      exact .close (he r.toDisposal)
    · exact .refl r

end PairStore

/-- The assumption on the callers of `close_for_old`. -/
def PairOp.Admissible : PairOp → Prop
  | close_for_old _ disposition _ _ _ => disposition ≠ "open"
  | _ => True

/-- **One operation.** Every row stays where it is, keeps its evidence, and its
disposition moves as `DispositionStep` allows. -/
theorem PairOp.apply_evolves (text_hash : String → String) (op : PairOp)
    (h : op.Admissible) (s : PairStore) :
    Evolves RowStep s.rows (op.apply text_hash s).2.rows := by
  -- every statement opens, closes or reopens rows, or only reads them
  cases op with
  | record_judgment j pair_id judged_at =>
    exact s.insert_evolves (j.row text_hash pair_id judged_at)
  | dispose pair_id disposition disposed_by now =>
    simp only [apply, PairStore.dispose]
    split
    · rename_i hmem
      have hne : ∀ x ∈ DISPOSITIONS, x ≠ "open" := by decide
      refine s.settle_close (fun r hr => ?_) (fun _ => hne _ hmem)
      simp only [Bool.and_eq_true] at hr
      exact PairStore.is_open_iff.mp hr.2
    · exact .refl RowStep.refl _
  | reopen pair_id =>
    refine evolves_update RowStep.refl (fun r _ hr => ⟨rfl, ?_⟩)
    simp only [Bool.and_eq_true, decide_eq_true_eq] at hr
    exact .reopen hr.2
  | close_for_old old_id disposition disposed_by kind now =>
    refine s.settle_close (fun r hr => ?_) (fun _ => h)
    simp only [Bool.and_eq_true] at hr
    exact PairStore.is_open_iff.mp hr.1.2
  | close_for_deleted_memory memory_id now =>
    refine s.settle_close_twice (fun r hr => ?_) (fun r hr => ?_) (fun _ => ?_) (fun _ => ?_)
    · simp only [Bool.and_eq_true] at hr
      exact PairStore.is_open_iff.mp hr.2
    · simp only [Bool.and_eq_true] at hr
      exact PairStore.is_open_iff.mp hr.2
    · simp
    · simp
  | close_for_updated_text memory_id current_text now =>
    refine s.settle_close (fun r hr => ?_) (fun _ => by simp)
    simp only [Bool.and_eq_true] at hr
    exact PairStore.is_open_iff.mp hr.1.2
  | has_judgment _ _ _ _ => exact .refl RowStep.refl _
  | judged_either _ _ _ => exact .refl RowStep.refl _
  | get _ => exact .refl RowStep.refl _
  | consecutive_dismissed_displacement_evidence _ _ _ => exact .refl RowStep.refl _

/-! ### One row under one operation -/

namespace PairStore

/-- A statement on open rows leaves the closed ones alone. -/
theorem settle_keeps_closed (s : PairStore) {p : PairRow → Bool} {d : Disposal → Disposal}
    (hp : ∀ r, p r = true → r.disposition = "open") :
    Evolves (fun r r' : PairRow => r.disposition ≠ "open" → r' = r) s.rows (s.settle p d).rows :=
  evolves_update (fun _ _ => rfl) fun r _ hr hclosed => absurd (hp r hr) hclosed

theorem settle_keeps_evidence (s : PairStore) (p : PairRow → Bool) (d : Disposal → Disposal) :
    Evolves (fun r r' : PairRow => r'.toEvidence = r.toEvidence) s.rows (s.settle p d).rows :=
  evolves_update (fun _ => rfl) fun _ _ _ => rfl

theorem get_settle (s : PairStore) (p : PairRow → Bool) (d : Disposal → Disposal) (pair_id : Id) :
    (s.settle p d).get pair_id =
      (s.get pair_id).map fun r => if p r then r.settle d else r :=
  lookup_update (f := PairRow.settle d) (fun _ => rfl) pair_id

theorem mem_insert_of_mem {s : PairStore} {row r : PairRow} (h : r ∈ s.rows) :
    r ∈ (s.insert row).rows := by
  change r ∈ insertOrIgnore PairRow.conflicts row s.rows
  rcases insertOrIgnore_cases PairRow.conflicts row s.rows with ⟨-, he⟩ | ⟨-, he⟩
  · rwa [he]
  · rw [he]
    exact List.mem_append_left _ h

/-- What is there after an insertion was there, or was inserted. -/
theorem mem_of_mem_insert {s : PairStore} {row r : PairRow} (h : r ∈ (s.insert row).rows) :
    r ∈ s.rows ∨ r = row := by
  change r ∈ insertOrIgnore PairRow.conflicts row s.rows at h
  rcases insertOrIgnore_cases PairRow.conflicts row s.rows with ⟨-, he⟩ | ⟨-, he⟩
  · exact .inl (he ▸ h)
  · rw [he, List.mem_append, List.mem_singleton] at h
    exact h

/-- A row that conflicts with no other is inserted. -/
theorem mem_insert_self {s : PairStore} {row : PairRow}
    (hid : ∀ r ∈ s.rows, r.pair_id ≠ row.pair_id)
    (hversion : ∀ r ∈ s.rows, r.version ≠ row.version) : row ∈ (s.insert row).rows := by
  change row ∈ insertOrIgnore PairRow.conflicts row s.rows
  rcases insertOrIgnore_cases PairRow.conflicts row s.rows with ⟨⟨r, hr, hc⟩, -⟩ | ⟨-, he⟩
  · rcases of_decide_eq_true hc with h | h
    · exact absurd h.symm (hid r hr)
    · exact absurd h.symm (hversion r hr)
  · rw [he]
    exact List.mem_append_right _ (List.mem_singleton.mpr rfl)

theorem mem_settle_of_mem {s : PairStore} {p : PairRow → Bool} {d : Disposal → Disposal}
    {r : PairRow} (h : r ∈ s.rows) (hp : p r = false) : r ∈ (s.settle p d).rows :=
  mem_update.mpr ⟨r, h, by simp [hp]⟩

/-- The evidence after a settlement is that of a row before. -/
theorem evidence_of_mem_settle {s : PairStore} {p : PairRow → Bool} {d : Disposal → Disposal}
    {r : PairRow} (h : r ∈ (s.settle p d).rows) : ∃ r₀ ∈ s.rows, r.toEvidence = r₀.toEvidence := by
  obtain ⟨r₀, hr₀, rfl⟩ := mem_update.mp h
  refine ⟨r₀, hr₀, ?_⟩
  split
  · rfl
  · rfl

/-- A row found by its id is found again after a rewriting that keeps the evidence. -/
theorem get_evolves {s t : PairStore} {R : PairRow → PairRow → Prop} (h : Evolves R s.rows t.rows)
    (hR : ∀ a b, R a b → b.pair_id = a.pair_id) {pair_id : Id} {row : PairRow}
    (hrow : s.get pair_id = some row) : ∃ row', t.get pair_id = some row' ∧ R row row' :=
  h.lookup t.pair_id_unique hR hrow

theorem get_pair_id {s : PairStore} {pair_id : Id} {row : PairRow}
    (h : s.get pair_id = some row) : row ∈ s.rows ∧ row.pair_id = pair_id := mem_of_lookup h

end PairStore

/-- No operation touches the evidence of a row. -/
theorem PairOp.apply_keeps_evidence (text_hash : String → String) (op : PairOp) (s : PairStore) :
    Evolves (fun r r' : PairRow => r'.toEvidence = r.toEvidence) s.rows
      (op.apply text_hash s).2.rows := by
  have hrefl : Evolves (fun r r' : PairRow => r'.toEvidence = r.toEvidence) s.rows s.rows :=
    fun _ r hr => ⟨r, hr, rfl⟩
  cases op with
  | record_judgment j pair_id judged_at =>
    exact (s.insert_evolves (j.row text_hash pair_id judged_at)).mono fun _ _ h => h.1
  | dispose pair_id disposition disposed_by now =>
    simp only [apply, PairStore.dispose]
    split
    · exact s.settle_keeps_evidence _ _
    · exact hrefl
  | reopen pair_id => exact s.settle_keeps_evidence _ _
  | close_for_old old_id disposition disposed_by kind now => exact s.settle_keeps_evidence _ _
  | close_for_deleted_memory memory_id now =>
    exact (s.settle_keeps_evidence _ _).trans (fun _ _ _ h h' => h'.trans h)
      (PairStore.settle_keeps_evidence _ _ _)
  | close_for_updated_text memory_id current_text now => exact s.settle_keeps_evidence _ _
  | has_judgment _ _ _ _ | judged_either _ _ _ | get _ => exact hrefl
  | consecutive_dismissed_displacement_evidence _ _ _ => exact hrefl

/-- Only `reopen` touches a row that is not open. -/
theorem PairOp.apply_keeps_closed (text_hash : String → String) (op : PairOp) (s : PairStore)
    (h : ∀ pair_id, op ≠ .reopen pair_id) :
    Evolves (fun r r' : PairRow => r.disposition ≠ "open" → r' = r) s.rows
      (op.apply text_hash s).2.rows := by
  have hrefl : Evolves (fun r r' : PairRow => r.disposition ≠ "open" → r' = r) s.rows s.rows :=
    .refl (fun _ _ => rfl) _
  -- every statement but the reopening has a condition that the row is open
  have hopen : ∀ {q : PairRow → Bool} (r : PairRow), (q r && r.is_open) = true →
      r.disposition = "open" := by
    intro q r hr
    rw [Bool.and_eq_true] at hr
    exact PairStore.is_open_iff.mp hr.2
  cases op with
  | record_judgment j pair_id judged_at => exact evolves_insertOrIgnore (fun _ _ => rfl) _ _
  | dispose pair_id disposition disposed_by now =>
    simp only [apply, PairStore.dispose]
    split
    · exact s.settle_keeps_closed hopen
    · exact hrefl
  | reopen pair_id => exact absurd rfl (h pair_id)
  | close_for_old old_id disposition disposed_by kind now =>
    refine s.settle_keeps_closed fun r hr => ?_
    simp only [Bool.and_eq_true] at hr
    exact PairStore.is_open_iff.mp hr.1.2
  | close_for_deleted_memory memory_id now =>
    refine (s.settle_keeps_closed hopen).trans (fun a b c hab hbc ha => ?_)
      (PairStore.settle_keeps_closed _ hopen)
    have hb := hab ha
    subst hb
    exact hbc ha
  | close_for_updated_text memory_id current_text now =>
    refine s.settle_keeps_closed fun r hr => ?_
    simp only [Bool.and_eq_true] at hr
    exact PairStore.is_open_iff.mp hr.1.2
  | has_judgment _ _ _ _ | judged_either _ _ _ | get _ => exact hrefl
  | consecutive_dismissed_displacement_evidence _ _ _ => exact hrefl

namespace PairStore

/-- What `dispose` answers is whether the pair was open. -/
theorem dispose_answer {s : PairStore} {pair_id : Id} {d now : String} {by_ : Option String}
    {b : Bool} (h : (s.dispose pair_id d by_ now).1 = .ok b) :
    b = true ↔ ∃ row, s.get pair_id = some row ∧ row.disposition = "open" := by
  unfold dispose at h
  split at h
  · injection h with h
    rw [← h, decide_eq_true_iff, rowcount_pos]
    simp only [Bool.and_eq_true, decide_eq_true_eq]
    constructor
    · rintro ⟨row, hmem, rfl, hopen⟩
      exact ⟨row, s.pair_id_unique.lookup_eq hmem, is_open_iff.mp hopen⟩
    · rintro ⟨row, hrow, hopen⟩
      obtain ⟨hmem, hid⟩ := get_pair_id hrow
      exact ⟨row, hmem, hid, is_open_iff.mpr hopen⟩
  · cases h

/-- An open pair is disposed of. -/
theorem dispose_open {s : PairStore} {pair_id : Id} {d now : String} {by_ : Option String}
    {row : PairRow} (hd : d ∈ DISPOSITIONS) (hrow : s.get pair_id = some row)
    (hopen : row.disposition = "open") : (s.dispose pair_id d by_ now).1 = .ok true := by
  have hans : ∃ b, (s.dispose pair_id d by_ now).1 = .ok b := by
    unfold dispose
    rw [if_pos hd]
    exact ⟨_, rfl⟩
  obtain ⟨b, hb⟩ := hans
  rw [hb, (dispose_answer hb).mpr ⟨row, hrow, hopen⟩]

/-- After a disposition that took effect, the pair is not open. -/
theorem dispose_closes {s : PairStore} {pair_id : Id} {d now : String} {by_ : Option String}
    (h : (s.dispose pair_id d by_ now).1 = .ok true) :
    ∃ row, (s.dispose pair_id d by_ now).2.get pair_id = some row ∧ row.disposition ≠ "open" := by
  obtain ⟨row, hrow, hopen⟩ := (dispose_answer h).mp rfl
  unfold dispose at h ⊢
  split
  · rename_i hmem
    have hne : ∀ x ∈ DISPOSITIONS, x ≠ "open" := by decide
    obtain ⟨-, hid⟩ := get_pair_id hrow
    refine ⟨row.settle fun _ => ⟨d, by_, some now⟩, ?_, hne d hmem⟩
    have hp : (decide (row.pair_id = pair_id) && row.is_open) = true := by
      simp [hid, is_open_iff.mpr hopen]
    simp only
    rw [get_settle, hrow, Option.map_some, if_pos hp]
  · rename_i hmem
    rw [if_neg hmem] at h
    cases h

/-- A `reopen` that finds nothing to roll back changes nothing. -/
theorem reopen_refused {s : PairStore} {pair_id : Id} (h : (s.reopen pair_id).1 = false) :
    (s.reopen pair_id).2 = s := by
  unfold reopen at h ⊢
  simp only [decide_eq_false_iff_not, rowcount_pos, not_exists, not_and, Bool.not_eq_true] at h
  exact PairStore.ext (update_eq_self h)

end PairStore

/-- A run keeps every row, its evidence and a final disposition. -/
theorem PairOp.runs_evolves (text_hash : String → String) (s : PairStore) (ops : List PairOp)
    (h : ∀ op ∈ ops, op.Admissible) : Evolves RowKept s.rows (runs text_hash s ops).rows := by
  induction ops generalizing s with
  | nil => exact .refl RowKept.refl _
  | cons op ops ih =>
    have hop := (op.apply_evolves text_hash (h op List.mem_cons_self) s).mono fun _ _ =>
      RowStep.kept
    have hrest := ih (op.apply text_hash s).2 fun o ho => h o (List.mem_cons_of_mem _ ho)
    exact hop.trans (fun _ _ _ => RowKept.trans) hrest

/-- **The pair store over any run.** At most one row per version key; no row
disappears; the evidence of a row and a final disposition never change; and each
operation of the run moves a disposition at most from open to a closed one, or
from a reopenable one back to open. -/
theorem pair_store_run (text_hash : String → String) (s : PairStore) (ops : List PairOp)
    (h : ∀ op ∈ ops, op.Admissible) :
    Unique PairRow.version (PairOp.runs text_hash s ops).rows ∧
      Evolves RowKept s.rows (PairOp.runs text_hash s ops).rows ∧
      ∀ pre op post, ops = pre ++ op :: post →
        Evolves RowStep (PairOp.runs text_hash s pre).rows
          (PairOp.runs text_hash s (pre ++ [op])).rows := by
  refine ⟨(PairOp.runs text_hash s ops).version_unique, PairOp.runs_evolves text_hash s ops h, ?_⟩
  rintro pre op post rfl
  rw [PairOp.runs_append]
  exact op.apply_evolves text_hash (h op (by simp)) _

/-- A judged pair, confirmed, reopened and closed with its old memory. -/
theorem pair_store_run_reopened :
    let ops : List PairOp :=
      [.record_judgment ⟨"n", "o", "text", "SUPERSEDED", some 1, none, none, none, "displacement"⟩
          "p" "t0",
        .dispose "p" "confirmed" none "t1", .reopen "p",
        .close_for_old "o" "obsoleted" none none "t2"]
    Unique PairRow.version (PairOp.runs id .empty ops).rows ∧
      Evolves RowKept PairStore.empty.rows (PairOp.runs id .empty ops).rows ∧
      ∀ pre op post, ops = pre ++ op :: post →
        Evolves RowStep (PairOp.runs id .empty pre).rows
          (PairOp.runs id .empty (pre ++ [op])).rows :=
  pair_store_run id .empty _ (by simp [PairOp.Admissible])

end Memline
