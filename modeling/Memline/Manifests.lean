/-
The manifests of live mutations, and the counters kept beside them, as the code of `audit.py` and
`session_stats.py`.

Every mutation that is audited leaves one row in the manifest of the month it ended in, and a row
declares the hash of the rest of it. Rows are only ever appended, one at a time under a lock, so
that the manifests of a history of mutations are read back as its rows, and every hash can be
computed again from what was read. The adds of a writer session are counted as they are written,
and the counter can be had from the rows as well.

A write that fails may leave a beginning of its line, cut between two characters, to which the next
row is then glued. The creation of directories is left out.
-/
import Memline.Lib.JsonLines
import Memline.Text

set_option autoImplicit false

namespace Memline.audit

open Py Py.JsonText

/-! ## Rows -/

/-- How values print and read, and the hash of a text. -/
structure Runtime extends Printer where
  language : Language
  sha256 : List Char → String

/-- What `append_live_audit` is given. -/
structure Entry where
  operation : String
  input_payload : Dict
  metadata : Option Dict
  result : Json
  started_at : String
  finished_at : String
  duration_ms : ℤ
  scope : Option Dict

/-- `_memory_results`. -/
def memory_results : Json → List Dict
  | .obj d =>
    match Dict.get d "results" with
    | .list raw => raw.filterMap fun
      | .obj item => some item
      | _ => none
    | _ => []
  | _ => []

/-- `[item.get(key) for item in memories if item.get(key)]`. -/
def gathered (key : String) (memories : List Dict) : Json :=
  .list ((memories.map fun item => item.get key).filter Json.truthy)

/-- The row of an entry, as long as it has no hash. -/
def item (audit_id : String) (e : Entry) : Dict :=
  let memories := memory_results e.result
  [("schema_version", .int 1), ("audit_id", .str audit_id), ("operation", .str e.operation),
    ("started_at", .str e.started_at), ("finished_at", .str e.finished_at),
    ("duration_ms", .int e.duration_ms),
    ("input", .obj e.input_payload), ("metadata", .obj (e.metadata.getD [])),
    ("scope", .obj (e.scope.getD [])),
    ("memory_result", e.result), ("result_count", .int memories.length),
    ("events", gathered "event" memories),
    ("memory_ids", gathered "id" memories), ("result_memories", gathered "memory" memories)]

variable (rt : Runtime)

/-- `json.dumps(x, ensure_ascii=False, sort_keys=True)`: the limits do not depend on the order. -/
def dumps (x : Json) : Except Fault (List Char) :=
  (json_dumps rt.language .spaced rt.toPrinter x).map fun _ => line_text rt.toPrinter x

/-- `_stable_payload_hash`. -/
def stable_payload_hash (payload : Dict) : Except Fault String := do
  let encoded ← dumps rt (.obj payload)
  pure (rt.sha256 encoded)

/-- The row of an entry. -/
def row (audit_id : String) (e : Entry) : Except Fault Dict := do
  let payload_sha256 ← stable_payload_hash rt (item audit_id e)
  -- the hash is that of the row without it
  pure ((item audit_id e).set "payload_sha256" (.str payload_sha256))

/-- The row of an entry, and its line. -/
def prepared (audit_id : String) (e : Entry) : Except Fault (Dict × List Char) := do
  let row ← row rt audit_id e
  let line ← dumps rt (.obj row)
  pure (row, line)

/-! ## Counters -/

structure Counter where
  add_count : ℕ
  first_add_at : String
  last_add_at : String
  deriving DecidableEq

/-- The table of counters, by session. -/
abbrev Counters : Type := String → Option Counter

/-- `INSERT … ON CONFLICT(session_id) DO UPDATE …`. -/
def bumped (at_iso : String) : Option Counter → Counter
  | some counter => { counter with add_count := counter.add_count + 1, last_add_at := at_iso }
  | none => ⟨1, at_iso, at_iso⟩

/-- `SessionStatsStore.record_add`. -/
def record_add (counters : Counters) (session_id at_iso : String) : Counters :=
  Function.update counters session_id (some (bumped at_iso (counters session_id)))

/-- `SessionStatsStore.add_count`. -/
def add_count (counters : Counters) (session_id : String) : ℕ :=
  ((counters session_id).map Counter.add_count).getD 0

/-- `isinstance(result, dict) and result.get("error") is not None`. -/
def has_error : Json → Bool
  | .obj d => match Dict.get d "error" with
    | .null => false
    | _ => true
  | _ => false

/-- The session whose counter an add belongs to. -/
def counted_session (operation : String) (metadata : Dict) (result : Json) : Option String :=
  if operation ≠ "add" then none
  else if has_error result then none
  else if (metadata.get "origin").eq (.str "ledger_import") then none
  else
    let session_id := metadata.get "session_id"
    if session_id.truthy then some (session_id.toStr rt.toPrinter) else none

/-! ## Histories -/

/-- The manifests by month, and the counters. -/
structure Store where
  manifests : String → List Char
  counters : Counters

/-- What an append meets: its id, the month by the clock, and what fails. A write that fails has
left so many characters of the line. -/
structure Luck where
  audit_id : String
  month_now : String
  torn : Option ℕ
  count_fails : Bool

/-- `live_manifest_path`, by its month. -/
def live_month (timestamp_iso month_now : String) : String :=
  if 7 ≤ timestamp_iso.length then String.ofList (timestamp_iso.toList.take 7) else month_now

inductive Raised where
  | fault (f : Fault)
  | os_error
  deriving DecidableEq

/-- `_record_session_add`: a failure of the counter is printed, and that is all. -/
def record_session_add (luck : Luck) (e : Entry) (counters : Counters) : Counters :=
  match counted_session rt e.operation (e.metadata.getD []) e.result with
  | none => counters
  | some session_id => if luck.count_fails then
      counters else record_add counters session_id e.finished_at

def append_live_audit (luck : Luck) (e : Entry) (s : Store) : Except Raised String × Store :=
  match prepared rt luck.audit_id e with
  | .error f => (.error (.fault f), s)
  | .ok (row, line) =>
    -- the month is that of the end of the mutation, not of the append
    let month := live_month e.finished_at luck.month_now
    match luck.torn with
    | some n =>
      -- what of the buffer reached the file stays there
      (.error .os_error, { s with
        manifests := Function.update s.manifests month (s.manifests month ++
          (line ++ ['\n']).take n) })
    | none =>
      (.ok ((row.get "payload_sha256").text), {
        manifests := Function.update s.manifests month (s.manifests month ++ (line ++ ['\n']))
        counters := record_session_add rt luck e s.counters })

/-- Mutations, one after the other; under the lock there are no others. -/
def after : List (Luck × Entry) → Store → Store
  | [], s => s
  | (luck, e) :: history, s => after history (append_live_audit rt luck e s).2

def Store.empty : Store := ⟨fun _ => [], fun _ => none⟩

/-! ## What is appended -/

/-- The month and the row that an append leaves, if it returns. -/
def recorded (t : Luck × Entry) : Option (String × Dict) :=
  match prepared rt t.1.audit_id t.2, t.1.torn with
  | .ok (row, _), none => some (live_month t.2.finished_at t.1.month_now, row)
  | _, _ => none

/-- The month and the text that an append leaves, whether or not it returns. -/
def written (t : Luck × Entry) : Option (String × List Char) :=
  match prepared rt t.1.audit_id t.2 with
  | .error _ => none
  | .ok (_, line) =>
    some (live_month t.2.finished_at t.1.month_now, match t.1.torn with
      | some n => (line ++ ['\n']).take n
      | none => line ++ ['\n'])

/-- What is written to the manifest of one month. -/
def text_of (history : List (Luck × Entry)) (month : String) : List Char :=
  (history.filterMap (written rt)).flatMap fun w => if w.1 = month then w.2 else []

/-- The rows of one month. -/
def rows_of (history : List (Luck × Entry)) (month : String) : List Dict :=
  (history.filterMap (recorded rt)).filterMap fun r => if r.1 = month then some r.2 else none

variable {rt : Runtime} {s : Store} {t : Luck × Entry} {history : List (Luck × Entry)}

/-- A line that was dumped is the value's own, within the limits. -/
theorem dumps_ok {x : Json} {line : List Char} (h : dumps rt x = .ok line) :
    depth x ≤ rt.language.max_depth ∧ short_ints rt.language x = true ∧
      line = line_text rt.toPrinter x := by
  unfold dumps at h
  cases hdumps : json_dumps rt.language .spaced rt.toPrinter x with
  | error f =>
    rw [hdumps] at h
    cases h
  | ok w =>
    rw [hdumps] at h
    cases h
    obtain ⟨hdepth, hints, -⟩ := json_dumps_ok hdumps
    exact ⟨hdepth, hints, rfl⟩

theorem prepared_ok {audit_id : String} {e : Entry} {r : Dict} {line : List Char}
    (h : prepared rt audit_id e = .ok (r, line)) :
    row rt audit_id e = .ok r ∧ dumps rt (.obj r) = .ok line := by
  obtain ⟨r', hrow, h⟩ := Except.bind_ok.mp h
  obtain ⟨line', hline, h⟩ := Except.bind_ok.mp h
  cases h
  exact ⟨hrow, hline⟩

/-- A recorded row was prepared, written in whole, and goes to the month of its time. -/
theorem recorded_ok {month : String} {r : Dict} (h : recorded rt t = some (month, r)) :
    (∃ line, prepared rt t.1.audit_id t.2 = .ok (r, line)) ∧ t.1.torn = none ∧
      month = live_month t.2.finished_at t.1.month_now := by
  unfold recorded at h
  split at h
  · rename_i row line hprepared htorn
    cases h
    exact ⟨⟨line, hprepared⟩, htorn, rfl⟩
  · cases h

/-- An append that returns leaves its row on a line. -/
theorem written_recorded {month : String} {r : Dict} (h : recorded rt t = some (month, r)) :
    written rt t = some (month, line_text rt.toPrinter (.obj r) ++ ['\n']) := by
  obtain ⟨⟨line, hprepared⟩, htorn, rfl⟩ := recorded_ok h
  obtain ⟨-, -, rfl⟩ := dumps_ok (prepared_ok hprepared).2
  rw [written, hprepared, htorn]

/-- What an append leaves in the manifests, whether or not it returns. -/
theorem append_manifests (t : Luck × Entry) (s : Store) (month : String) :
    (append_live_audit rt t.1 t.2 s).2.manifests month =
      s.manifests month ++ text_of rt [t] month := by
  unfold append_live_audit text_of written
  cases hprepared : prepared rt t.1.audit_id t.2 with
  | error f => simp [hprepared]
  | ok w =>
    by_cases hmonth : live_month t.2.finished_at t.1.month_now = month
    · cases htorn : t.1.torn with
      | _ => simp [hprepared, htorn, hmonth]
    · cases htorn : t.1.torn with
      | _ => simp [hprepared, htorn, hmonth, Function.update_of_ne (Ne.symm hmonth)]

/-- What an append says and counts, when it returns. -/
theorem append_recorded {month : String} {r : Dict} (h : recorded rt t = some (month, r))
    (s : Store) :
    (append_live_audit rt t.1 t.2 s).1 = .ok (r.get "payload_sha256").text ∧
      (append_live_audit rt t.1 t.2 s).2.counters = record_session_add rt t.1 t.2 s.counters := by
  obtain ⟨⟨line, hprepared⟩, htorn, -⟩ := recorded_ok h
  unfold append_live_audit
  simp only [hprepared, htorn, and_self]

/-- An append that leaves no row has raised, and has counted nothing. -/
theorem append_unrecorded (h : recorded rt t = none) (s : Store) :
    (append_live_audit rt t.1 t.2 s).1.isOk = false ∧
      (append_live_audit rt t.1 t.2 s).2.counters = s.counters := by
  unfold recorded at h
  unfold append_live_audit
  cases hprepared : prepared rt t.1.audit_id t.2 with
  | error f => exact ⟨rfl, rfl⟩
  | ok w =>
    cases htorn : t.1.torn with
    | some n => exact ⟨rfl, rfl⟩
    | none =>
      rw [hprepared, htorn] at h
      cases h

/-- The rows of a history are those of its first append and of the others. -/
theorem rows_of_cons (t : Luck × Entry) (history : List (Luck × Entry)) (month : String) :
    rows_of rt (t :: history) month = rows_of rt [t] month ++ rows_of rt history month := by
  rw [rows_of, rows_of, rows_of, ← List.filterMap_append, ← List.filterMap_append]
  rfl

/-- The text of two histories, one behind the other. -/
theorem text_of_append (history later : List (Luck × Entry)) (month : String) :
    text_of rt (history ++ later) month = text_of rt history month ++ text_of rt later month := by
  simp only [text_of, List.filterMap_append, List.flatMap_append]

/-- The manifest of a month is what it was, and what was written to it. -/
theorem manifests_after (history : List (Luck × Entry)) (s : Store) (month : String) :
    (after rt history s).manifests month = s.manifests month ++ text_of rt history month := by
  induction history generalizing s with
  | nil => exact (List.append_nil _).symm
  | cons t history ih =>
    rw [after, ih, append_manifests, List.append_assoc, ← text_of_append]
    rfl

/-- No append that raised has left anything in the manifest of the month. -/
def Intact (rt : Runtime) (history : List (Luck × Entry)) (month : String) : Prop :=
  ∀ t ∈ history, recorded rt t = none → text_of rt [t] month = []

/-- Then the rows of the month are all that was written, each on its line. -/
theorem text_of_intact {month : String} (h : Intact rt history month) :
    text_of rt history month =
      lines_text rt.toPrinter ((rows_of rt history month).map Json.obj) := by
  induction history with
  | nil => rfl
  | cons t history ih =>
    have hstep : text_of rt [t] month =
        lines_text rt.toPrinter ((rows_of rt [t] month).map Json.obj) := by
      cases hrecorded : recorded rt t with
      | none =>
        have hrows : rows_of rt [t] month = [] := by
          simp [rows_of, List.filterMap_cons_none hrecorded]
        rw [hrows]
        exact h t List.mem_cons_self hrecorded
      | some r =>
        have hrow : recorded rt t = some (r.1, r.2) := hrecorded
        have hwritten := written_recorded hrow
        by_cases hmonth : r.1 = month
        · simp [rows_of, text_of, lines_text, hrecorded, hwritten, hmonth]
        · simp [rows_of, text_of, lines_text, hrecorded, hwritten, hmonth]
    have hcut : text_of rt (t :: history) month =
        text_of rt [t] month ++ text_of rt history month :=
      text_of_append [t] history month
    rw [hcut, hstep, ih fun t ht => h t (List.mem_cons_of_mem _ ht), rows_of_cons t history month]
    simp [lines_text]

/-! ## Values -/

/-- A value of the language: its floats read as they print, and no dictionary has a key twice. -/
structure Sound (rt : Runtime) (x : Json) : Prop where
  floats : FloatsRead rt.language rt.toPrinter x
  keys : Distinct x

/-- An object is sound when its keys are distinct and its values sound. -/
theorem sound_obj {d : Dict} :
    Sound rt (.obj d) ↔ (d.map Prod.fst).Nodup ∧ ∀ e ∈ d, Sound rt e.2 := by
  constructor
  · rintro ⟨hfloats, hkeys⟩
    rw [FloatsRead, floatsReadFields_iff] at hfloats
    rw [Distinct, distinctFields_iff] at hkeys
    exact ⟨hkeys.1, fun e he => ⟨hfloats e he, hkeys.2 e he⟩⟩
  · rintro ⟨hnodup, h⟩
    constructor
    · rw [FloatsRead, floatsReadFields_iff]
      exact fun e he => (h e he).floats
    · rw [Distinct, distinctFields_iff]
      exact ⟨hnodup, fun e he => (h e he).keys⟩

theorem sound_list {xs : List Json} : Sound rt (.list xs) ↔ ∀ x ∈ xs, Sound rt x := by
  constructor
  · rintro ⟨hfloats, hkeys⟩ x hx
    rw [FloatsRead, floatsReadList_iff] at hfloats
    rw [Distinct, distinctList_iff] at hkeys
    exact ⟨hfloats x hx, hkeys x hx⟩
  · intro h
    constructor
    · rw [FloatsRead, floatsReadList_iff]
      exact fun x hx => (h x hx).floats
    · rw [Distinct, distinctList_iff]
      exact fun x hx => (h x hx).keys

theorem sound_str (text : String) :
    Sound rt (.str text) := ⟨by simp [FloatsRead], by simp [Distinct]⟩

theorem sound_int (n : ℤ) : Sound rt (.int n) := ⟨by simp [FloatsRead], by simp [Distinct]⟩

theorem sound_get {d : Dict} (h : Sound rt (.obj d)) (key : String) :
    Sound rt (Dict.get d key) := by
  unfold Dict.get
  -- what is missing is read as null
  cases hlookup : d.lookup key with
  | none => exact ⟨by simp [FloatsRead], by simp [Distinct]⟩
  | some v =>
    obtain ⟨before, later, hsplit, -⟩ := List.lookup_eq_some_iff.mp hlookup
    exact (sound_obj.mp h).2 (key, v) (by simp [hsplit])

theorem sound_memories {result : Json} (h : Sound rt result) :
    ∀ d ∈ memory_results result, Sound rt (.obj d) := by
  intro d hd
  unfold memory_results at hd
  cases result with
  | obj fields =>
    have hraw := sound_get h "results"
    cases hget : Dict.get fields "results" with
    | list raw =>
      rw [hget] at hraw
      simp only [hget] at hd
      obtain ⟨x, hx, hitem⟩ := List.mem_filterMap.mp hd
      have hsound := sound_list.mp hraw x hx
      cases x with
      | obj item =>
        cases hitem
        exact hsound
      | _ => cases hitem
    | _ => simp [hget] at hd
  | _ => simp at hd

/-- What is gathered from sound memories is sound. -/
theorem sound_gathered (key : String) {memories : List Dict}
    (h : ∀ d ∈ memories, Sound rt (.obj d)) : Sound rt (gathered key memories) := by
  refine sound_list.mpr fun x hx => ?_
  obtain ⟨d, hd, rfl⟩ := List.mem_map.mp (List.mem_filter.mp hx).1
  exact sound_get (h d hd) key

/-- What is given to an append is made of values of the language. -/
structure Entry.Sound (rt : Runtime) (e : Entry) : Prop where
  input_payload : audit.Sound rt (.obj e.input_payload)
  metadata : ∀ d ∈ e.metadata, audit.Sound rt (.obj d)
  result : audit.Sound rt e.result
  scope : ∀ d ∈ e.scope, audit.Sound rt (.obj d)

theorem sound_or_empty {o : Option Dict} (h : ∀ d ∈ o, Sound rt (.obj d)) :
    Sound rt (.obj (o.getD [])) := by
  cases o with
  | none => exact sound_obj.mpr ⟨List.nodup_nil, by simp⟩
  | some d => exact h d rfl

theorem item_keys (audit_id : String) (e : Entry) :
    (item audit_id e).map Prod.fst = ["schema_version", "audit_id", "operation", "started_at",
      "finished_at", "duration_ms", "input", "metadata", "scope", "memory_result",
      "result_count", "events",
    "memory_ids", "result_memories"] := rfl

theorem sound_item {e : Entry} (h : e.Sound rt) (audit_id : String) :
    Sound rt (.obj (item audit_id e)) := by
  have hmemories := sound_memories h.result
  refine sound_obj.mpr ⟨by rw [item_keys]; decide, ?_⟩
  -- field by field, in the order of the row
  simp only [item, List.forall_mem_cons, List.not_mem_nil, false_imp_iff, implies_true, and_true]
  exact ⟨sound_int _, sound_str _, sound_str _, sound_str _, sound_str _, sound_int _,
    h.input_payload, sound_or_empty h.metadata, sound_or_empty h.scope, h.result, sound_int _,
    sound_gathered _ hmemories,
    sound_gathered _ hmemories, sound_gathered _ hmemories⟩

/-- A row is its item and the hash of the item's line. -/
structure IsRow (rt : Runtime) (audit_id : String) (e : Entry) (r : Dict) : Prop where
  eq : r = item audit_id e ++
    [("payload_sha256", .str (rt.sha256 (line_text rt.toPrinter (.obj (item audit_id e)))))]
  dumpable : Dumpable rt.language rt.toPrinter (.obj r)

/-- A row is its item with the hash of that item's line. -/
theorem row_ok {audit_id : String} {e : Entry} {r : Dict} (h : row rt audit_id e = .ok r) :
    r = (item audit_id e).set "payload_sha256"
      (.str (rt.sha256 (line_text rt.toPrinter (.obj (item audit_id e))))) := by
  unfold row stable_payload_hash at h
  -- which fields the item has does not matter here
  generalize item audit_id e = d at h ⊢
  obtain ⟨digest, hdigest, hset⟩ := Except.bind_ok.mp h
  obtain ⟨encoded, hencoded, hhash⟩ := Except.bind_ok.mp hdigest
  obtain ⟨-, -, rfl⟩ := dumps_ok hencoded
  rw [Except.ok.inj hhash]
  exact (Except.ok.inj hset).symm

theorem prepared_row {audit_id : String} {e : Entry} {r : Dict} {line : List Char}
    (h : prepared rt audit_id e = .ok (r, line)) (hsound : e.Sound rt) : IsRow rt audit_id e r := by
  obtain ⟨hrow, hline⟩ := prepared_ok h
  obtain ⟨hdepth, hints, -⟩ := dumps_ok hline
  have hr := row_ok hrow
  subst hr
  -- no field of the item has the name of the hash, which is set as a last one
  have hnew : "payload_sha256" ∉ (item audit_id e).map Prod.fst := by
    rw [item_keys]
    decide
  have hitem := sound_obj.mp (sound_item hsound audit_id)
  rw [Dict.set_of_notMem hnew] at hdepth hints ⊢
  -- its line was dumped, so that the limits hold of it; the rest follows from the item
  have hrows : Sound rt (.obj (item audit_id e ++ [("payload_sha256",
      .str (rt.sha256 (line_text rt.toPrinter (.obj (item audit_id e)))))])) := by
    refine sound_obj.mpr ⟨?_, ?_⟩
    · rw [List.map_append]
      exact List.Nodup.append hitem.1 (List.nodup_singleton _) (by simpa using hnew)
    · intro e he
      rcases List.mem_append.mp he with he | he
      · exact hitem.2 e he
      · rw [List.mem_singleton.mp he]
        exact sound_str _
  exact ⟨rfl, ⟨hdepth, hints, hrows.floats, hrows.keys⟩⟩

theorem recorded_row {month : String} {r : Dict} (h : recorded rt t = some (month, r))
    (hsound : t.2.Sound rt) : IsRow rt t.1.audit_id t.2 r := by
  obtain ⟨⟨line, hprepared⟩, -, -⟩ := recorded_ok h
  exact prepared_row hprepared hsound

/-! ## Reading the manifests -/

/-- `not line.strip()`. -/
def blank_line (line : List Char) : Bool := decide (Mem0.strip (String.ofList line) = "")

theorem obj_line_brace (p : Printer) (d : Dict) :
    ∃ rest, line_text p (.obj d) = '\x7b' :: rest := by
  unfold line_text ordered
  generalize (orderedFields d).insertionSort by_key = fields
  cases fields with
  | nil => exact ⟨_, by unfold write; rfl⟩
  | cons e fields =>
    obtain ⟨key, x⟩ := e
    exact ⟨_, by unfold write; rfl⟩

/-- A line that begins with a brace is not blank. -/
theorem brace_not_blank (rest : List Char) : blank_line ('\x7b' :: rest) = false := by
  rw [blank_line, decide_eq_false_iff_not, Mem0.strip_eq_empty_iff, String.toList_ofList]
  intro hblank
  exact absurd (hblank '\x7b' List.mem_cons_self) (by decide)

theorem obj_line_not_blank (p : Printer) (d : Dict) :
    blank_line (line_text p (.obj d) ++ ['\n']) = false := by
  obtain ⟨rest, hrest⟩ := obj_line_brace p d
  rw [hrest]
  exact brace_not_blank _

/-- The rows of a month are those recorded for it. -/
theorem mem_rows_of {month : String} {r : Dict} :
    r ∈ rows_of rt history month ↔ ∃ t ∈ history, recorded rt t = some (month, r) := by
  simp only [rows_of, List.mem_filterMap]
  constructor
  · rintro ⟨⟨m, r'⟩, ⟨t, ht, hrecorded⟩, hmonth⟩
    by_cases hm : m = month
    · rw [if_pos hm] at hmonth
      cases hmonth
      exact ⟨t, ht, by rw [hrecorded, hm]⟩
    · rw [if_neg hm] at hmonth
      cases hmonth
  · rintro ⟨t, ht, hrecorded⟩
    exact ⟨(month, r), ⟨t, ht, hrecorded⟩, by simp⟩

/-- The fields of a row, as they are read back. -/
def read_back (r : Dict) : Dict := (orderedFields r).insertionSort by_key

theorem ordered_row (r : Dict) : ordered (.obj r) = .obj (read_back r) := rfl

/-- The hash is not among what it is the hash of. -/
theorem IsRow.without {audit_id : String} {e : Entry} {r : Dict} (h : IsRow rt audit_id e r) :
    Dict.without r "payload_sha256" = item audit_id e := by
  -- no other field goes with it
  have hnew : ∀ f ∈ item audit_id e, decide (f.1 ≠ "payload_sha256") = true := by
    intro f hf
    rw [decide_eq_true_eq]
    rintro heq
    have hmem : "payload_sha256" ∈ (item audit_id e).map Prod.fst := heq ▸ List.mem_map_of_mem hf
    rw [item_keys] at hmem
    revert hmem
    decide
  rw [h.eq, Dict.without, List.filter_append, List.filter_eq_self.mpr hnew]
  simp

/-- The hash of a row is read back as it was written. -/
theorem IsRow.lookup_hash {audit_id : String} {e : Entry} {r : Dict} (h : IsRow rt audit_id e r) :
    Dict.get (read_back r) "payload_sha256" =
      .str (rt.sha256 (line_text rt.toPrinter (.obj (item audit_id e)))) := by
  have hkeys := (h.dumpable.ordered).keys
  rw [ordered_row, Distinct] at hkeys
  -- the fields are put in order and none is lost
  have hmem : ("payload_sha256",
      Json.str (rt.sha256 (line_text rt.toPrinter (.obj (item audit_id e))))) ∈ read_back r := by
    rw [read_back, List.mem_insertionSort, mem_orderedFields]
    refine ⟨("payload_sha256", .str _), ?_, rfl⟩
    rw [h.eq]
    simp
  rw [Dict.get, Lists.lookup_of_mem hkeys.1 hmem]
  rfl

theorem row_of_month {month : String} (h : ∀ t ∈ history, t.2.Sound rt) :
    ∀ r ∈ rows_of rt history month, ∃ t ∈ history, recorded rt t = some (month, r) ∧
      IsRow rt t.1.audit_id t.2 r := by
  intro r hr
  obtain ⟨t, ht, hrecorded⟩ := mem_rows_of.mp hr
  exact ⟨t, ht, hrecorded, recorded_row hrecorded (h t ht)⟩

/-- Each row of a month could be dumped. -/
theorem dumpable_rows {month : String} (h : ∀ t ∈ history, t.2.Sound rt) :
    ∀ x ∈ (rows_of rt history month).map Json.obj, Dumpable rt.language rt.toPrinter x := by
  intro x hx
  obtain ⟨r, hr, rfl⟩ := List.mem_map.mp hx
  obtain ⟨t, -, -, hisrow⟩ := row_of_month h r hr
  exact hisrow.dumpable

/-- A beginning of the line of an append that raised, left in the manifest of a month. -/
def Torn (rt : Runtime) (t : Luck × Entry) (month : String) (u : List Char) : Prop :=
  ∃ row line n, prepared rt t.1.audit_id t.2 = .ok (row, line) ∧ t.1.torn = some n ∧
    0 < n ∧ n < line.length ∧ month = live_month t.2.finished_at t.1.month_now ∧ u = line.take n

/-- What a torn append leaves is the beginning of its line. -/
theorem Torn.text {month : String} {u : List Char} (h : Torn rt t month u) :
    text_of rt [t] month = u := by
  obtain ⟨row, line, n, hprepared, htorn, -, hlt, rfl, rfl⟩ := h
  have hwritten : written rt t = some (live_month t.2.finished_at t.1.month_now, line.take n) := by
    rw [written, hprepared, htorn]
    simp only [List.take_append_of_le_length hlt.le]
  simp [text_of, hwritten]

/-- A manifest that ends in a torn line is not read. -/
theorem Torn.not_read {month : String} {u : List Char} (h : Torn rt t month u)
    (hsound : t.2.Sound rt) (hhistory : ∀ t ∈ history, t.2.Sound rt) :
    read_lines rt.language blank_line
      (lines_text rt.toPrinter ((rows_of rt history month).map Json.obj) ++ u) =
        .error .decode := by
  obtain ⟨row, line, n, hprepared, -, hpos, hlt, -, rfl⟩ := h
  obtain ⟨-, -, rfl⟩ := dumps_ok (prepared_ok hprepared).2
  have hne : (line_text rt.toPrinter (.obj row)).take n ≠ line_text rt.toPrinter (.obj row) := by
    intro heq
    have hlength := congrArg List.length heq
    rw [List.length_take] at hlength
    omega
  have hbegun : ∃ rest, (line_text rt.toPrinter (.obj row)).take n = '\x7b' :: rest := by
    obtain ⟨rest, hrest⟩ := obj_line_brace rt.toPrinter row
    obtain ⟨n, rfl⟩ := Nat.exists_eq_succ_of_ne_zero hpos.ne'
    exact ⟨rest.take n, by rw [hrest, List.take_succ_cons]⟩
  obtain ⟨rest, hrest⟩ := hbegun
  apply read_lines_torn (dumpable_rows hhistory) ?_ ?_ (prepared_row hprepared hsound).dumpable rfl
    (List.take_prefix n _) hne
  · rw [hrest]
    exact List.cons_ne_nil _ _
  · rw [hrest]
    exact brace_not_blank rest
  all_goals
    intro x hx
    obtain ⟨r, hr, rfl⟩ := List.mem_map.mp hx
  · rfl
  · exact obj_line_not_blank _ r

/-- **The manifests of a history.** After any history of mutations the manifest of a month is read
back as the rows of the appends of that month that returned, in order, as long as no other append
has left anything in it. Where the last write to it has failed and left a part of its line, those
rows stand before that part and the manifest is not read. An append has returned just where it has
left a row. The hash that a row declares is that of the rest of it, as it was given and as it is
read back. -/
theorem manifests_read_back (h : ∀ t ∈ history, t.2.Sound rt) (month : String) :
    (Intact rt history month →
      read_lines rt.language blank_line ((after rt history .empty).manifests month) =
        .ok ((rows_of rt history month).map fun r => .obj (read_back r))) ∧
      (∀ earlier t later u, history = earlier ++ t :: later → Intact rt earlier month →
        Torn rt t month u →
        text_of rt later month = [] →
        (after rt history .empty).manifests month =
            lines_text rt.toPrinter ((rows_of rt earlier month).map Json.obj) ++ u ∧
          read_lines rt.language blank_line ((after rt history .empty).manifests month) =
            .error .decode) ∧
      (∀ t ∈ history, ∀ s, (recorded rt t).isSome = (append_live_audit rt t.1 t.2 s).1.isOk) ∧
      ∀ r ∈ rows_of rt history month, ∃ t ∈ history,
        month = live_month t.2.finished_at t.1.month_now ∧
          Dict.without r "payload_sha256" = item t.1.audit_id t.2 ∧
        Dict.get (read_back r) "payload_sha256" =
          .str (rt.sha256 (line_text rt.toPrinter (.obj (Dict.without r "payload_sha256")))) ∧
        Dict.get (read_back r) "payload_sha256" =
          .str (rt.sha256 (line_text rt.toPrinter
            (.obj (Dict.without (read_back r) "payload_sha256")))) := by
  refine ⟨fun hintact => ?_, ?_, fun t ht s => ?_, fun r hr => ?_⟩
  · have hread :
        read_lines rt.language blank_line
          (lines_text rt.toPrinter ((rows_of rt history month).map Json.obj)) =
        .ok (((rows_of rt history month).map Json.obj).map ordered) := by
      -- each row could be dumped, is a dictionary and is no blank line
      apply read_lines_text (dumpable_rows h)
      all_goals
        intro x hx
        obtain ⟨r, hr, rfl⟩ := List.mem_map.mp hx
      · rfl
      · exact obj_line_not_blank _ r
    rw [List.map_map] at hread
    rw [manifests_after, text_of_intact hintact]
    exact hread
  · rintro earlier t later u rfl hintact htorn hlater
    have htext : (after rt (earlier ++ t :: later) .empty).manifests month =
        lines_text rt.toPrinter ((rows_of rt earlier month).map Json.obj) ++ u := by
      have hcut : text_of rt (t :: later) month = text_of rt [t] month ++ text_of rt later month :=
        text_of_append [t] later month
      rw [manifests_after, text_of_append, hcut, text_of_intact hintact, htorn.text, hlater,
        List.append_nil]
      rfl
    refine ⟨htext, ?_⟩
    rw [htext]
    exact htorn.not_read (h t (by simp)) fun t ht => h t (by simp [ht])
  · cases hrecorded : recorded rt t with
    | none => exact (append_unrecorded hrecorded s).1.symm
    | some r =>
      rw [(append_recorded (r := r.2) hrecorded s).1]
      rfl
  · obtain ⟨t, ht, hrecorded, hisrow⟩ := row_of_month h r hr
    -- the line is written with the fields in order, so it does not matter in which order they were
    -- read
    have htext : line_text rt.toPrinter (.obj (Dict.without (read_back r) "payload_sha256")) =
        line_text rt.toPrinter (.obj (Dict.without r "payload_sha256")) := by
      rw [line_text, read_back, ordered_without hisrow.dumpable.keys]
      rfl
    refine ⟨t, ht, (recorded_ok hrecorded).2.2, hisrow.without, ?_, ?_⟩
    · rw [hisrow.without]
      exact hisrow.lookup_hash
    · rw [htext, hisrow.without]
      exact hisrow.lookup_hash

/-- A runtime that marks what it hashes. -/
def marked : Runtime where
  toPrinter := .plain
  language := .plain
  sha256 t := "sha256:" ++ String.ofList (t.take 8)

def added : Entry where
  operation := "add"
  input_payload := [("text", .str "Lives\nin Bern.")]
  metadata := some [("session_id", .str "s-1")]
  result := .obj [("results", .list [
    .obj [("id", .str "m-1"), ("event", .str "ADD"), ("memory", .str "Lives in Bern.")]])]
  started_at := "2026-03-01T10:00:00Z"
  finished_at := "2026-03-01T10:00:01Z"
  duration_ms := 1000
  scope := none

/-- Three adds; the second leaves nothing, the third the beginning of its line. -/
def adds : List (Luck × Entry) :=
  [(⟨"a-1", "2026-03", none, false⟩, added), (⟨"a-2", "2026-03", some 0, false⟩, added),
    (⟨"a-3", "2026-03", some 12, false⟩, added)]

theorem added_sound : added.Sound marked := by
  constructor
  all_goals
    try intro d hd
    try cases hd
  all_goals constructor <;>
    simp [added, FloatsRead, FloatsReadFields, FloatsReadList, Distinct,
      DistinctFields, DistinctList]

/-- One add is recorded of the three: before the torn line it is read back, behind it nothing is. -/
theorem adds_read_back : (rows_of marked adds "2026-03").length = 1 ∧
    read_lines marked.language blank_line
      ((after marked (adds.take 2) .empty).manifests "2026-03") =
      .ok ((rows_of marked (adds.take 2) "2026-03").map fun r => .obj (read_back r)) ∧
    read_lines marked.language blank_line ((after marked adds .empty).manifests "2026-03") =
      .error .decode := by
  have h : ∀ t ∈ adds, t.2.Sound marked := by
    intro t ht
    simp only [adds, List.mem_cons, List.not_mem_nil, or_false] at ht
    rcases ht with rfl | rfl | rfl
    all_goals exact added_sound
  have hintact : Intact marked (adds.take 2) "2026-03" := by
    intro t ht hnone
    simp only [adds, List.take_succ_cons, List.take_zero, List.mem_cons, List.not_mem_nil,
      or_false] at ht
    rcases ht with rfl | rfl
    · cases hnone
    · rfl
  have htwo : ∀ t ∈ adds.take 2, t.2.Sound marked := fun t ht => h t (List.mem_of_mem_take ht)
  have htorn : Torn marked (⟨"a-3", "2026-03", some 12, false⟩, added) "2026-03"
      "\x7b\"audit_id\":".toList := ⟨_, _, 12, rfl, rfl, by decide, by decide +kernel, rfl, rfl⟩
  exact ⟨by rfl, (manifests_read_back htwo "2026-03").1 hintact,
    ((manifests_read_back h "2026-03").2.1 (adds.take 2) _ [] _ rfl hintact htorn rfl).2⟩

/-! ## Reading the counters off the manifests -/

/-- The session that a row counts for. -/
def row_session (rt : Runtime) (r : Dict) : Option String :=
  let metadata := match Dict.get r "metadata" with
    | .obj d => d
    | _ => []
  counted_session rt (Dict.get r "operation").text metadata (Dict.get r "memory_result")

/-- When the adds of a session ended, by the rows of those that could be counted. -/
def add_times (rt : Runtime) (history : List (Luck × Entry)) (session_id : String) : List String :=
  let rows := (history.filter fun t => !t.1.count_fails).filterMap fun t =>
    (recorded rt t).map Prod.snd
  (rows.filter fun r => row_session rt r = some session_id).map fun r =>
    (Dict.get r "finished_at").text

/-- The counter of a session with adds at these times. -/
def counter_of : List String → Option Counter
  | [] => none
  | time :: times => some ⟨times.length + 1, time, times.getLastD time⟩

theorem counter_of_concat (times : List String) (time : String) :
    counter_of (times ++ [time]) = some (bumped time (counter_of times)) := by
  cases times with
  | nil => rfl
  | cons first times => simp [counter_of, bumped]

/-- The times of a history and of one more append. -/
theorem add_times_concat (history : List (Luck × Entry)) (t : Luck × Entry) (session_id : String) :
    add_times rt (history ++ [t]) session_id =
      add_times rt history session_id ++ add_times rt [t] session_id := by
  simp only [add_times, List.filter_append, List.filterMap_append, List.map_append]

theorem after_concat (history : List (Luck × Entry)) (t : Luck × Entry) (s : Store) :
    after rt (history ++ [t]) s = (append_live_audit rt t.1 t.2 (after rt history s)).2 := by
  induction history generalizing s with
  | nil => rfl
  | cons u history ih => exact ih _

/-- The hash comes beside the fields of the item. -/
theorem get_row {month key : String} {r : Dict} (h : recorded rt t = some (month, r))
    (hkey : key ≠ "payload_sha256") : Dict.get r key = Dict.get (item t.1.audit_id t.2) key := by
  obtain ⟨⟨line, hprepared⟩, -, -⟩ := recorded_ok h
  rw [row_ok (prepared_ok hprepared).1, Dict.get_set_ne _ _ hkey]

theorem row_session_eq {month : String} {r : Dict} (h : recorded rt t = some (month, r)) :
    row_session rt r = counted_session rt t.2.operation (t.2.metadata.getD []) t.2.result := by
  rw [row_session, get_row h (by decide), get_row h (by decide), get_row h (by decide)]
  rfl

theorem row_time_eq {month : String} {r : Dict} (h : recorded rt t = some (month, r)) :
    (Dict.get r "finished_at").text = t.2.finished_at := by
  rw [get_row h (by decide)]
  rfl

/-- An append that was recorded counts its time, for its session, unless the counting fails. -/
theorem add_times_one {month : String} {r : Dict} (h : recorded rt t = some (month, r))
    (session_id : String) :
    add_times rt [t] session_id = if t.1.count_fails = false ∧
      row_session rt r = some session_id then [t.2.finished_at] else [] := by
  unfold add_times
  cases hfails : t.1.count_fails with
  | true => simp [hfails]
  | false =>
    by_cases hsession : row_session rt r = some session_id
    · simp [hfails, h, hsession, row_time_eq h]
    · simp [hfails, h, hsession]

/-- An append that was not recorded counts nothing. -/
theorem add_times_none (h : recorded rt t = none) (session_id : String) :
    add_times rt [t] session_id = [] := by
  unfold add_times
  cases hfails : t.1.count_fails with
  | true => simp [hfails]
  | false => simp [hfails, h]

theorem add_times_single (t : Luck × Entry) (session_id : String) :
    add_times rt [t] session_id = [] ∨ ∃ time, add_times rt [t] session_id = [time] := by
  cases hrecorded : recorded rt t with
  | none => exact .inl (add_times_none hrecorded session_id)
  | some r =>
    have h : recorded rt t = some (r.1, r.2) := hrecorded
    rw [add_times_one h]
    split
    · exact .inr ⟨_, rfl⟩
    · exact .inl rfl

/-- One append, as far as a session is concerned. -/
theorem counters_append (t : Luck × Entry) (s : Store) (session_id : String) :
    (append_live_audit rt t.1 t.2 s).2.counters session_id = match add_times rt [t] session_id with
      | time :: _ => some (bumped time (s.counters session_id))
      | [] => s.counters session_id := by
  cases hrecorded : recorded rt t with
  | none =>
    rw [(append_unrecorded hrecorded s).2, add_times_none hrecorded]
  | some r =>
    have h : recorded rt t = some (r.1, r.2) := hrecorded
    -- the row says what was counted, and for which session
    rw [(append_recorded h s).2, add_times_one h, row_session_eq h]
    unfold record_session_add
    cases hsession : counted_session rt t.2.operation (t.2.metadata.getD []) t.2.result with
    | none => simp
    | some counted =>
      cases hfails : t.1.count_fails with
      | true => simp
      | false =>
        by_cases hsame : counted = session_id
        · simp [record_add, hsame]
        · simp [record_add, hsame, Function.update_of_ne (Ne.symm hsame)]

/-- **The counters of a history.** After any history of mutations, the counter of a session is the
one to be had from the rows of the manifests: of those whose counting did not fail, how many are
adds of the session, and when the first and the last of them ended. -/
theorem counters_from_rows (rt : Runtime) (history : List (Luck × Entry)) (session_id : String) :
    (after rt history .empty).counters session_id = counter_of (add_times rt history session_id) ∧
      add_count (after rt history .empty).counters session_id =
        (add_times rt history session_id).length := by
  have hcounter : (after rt history .empty).counters session_id =
      counter_of (add_times rt history session_id) := by
    -- by the last append, which comes last among the times too
    induction history using List.reverseRecOn with
    | nil => rfl
    | append_singleton history t ih =>
      rw [after_concat, counters_append, ih, add_times_concat]
      rcases add_times_single t session_id with hone | ⟨time, hone⟩
      · rw [hone, List.append_nil]
      · rw [hone, counter_of_concat]
  refine ⟨hcounter, ?_⟩
  rw [add_count, hcounter]
  cases add_times rt history session_id with
  | _ => rfl

end Memline.audit
