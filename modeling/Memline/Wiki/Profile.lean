/-
One profiling pass over a batch plan, and over a tree of source documents.

Every answer of the model is kept in a file of its batch, and what a later pass does with a batch
is decided by that file alone. What the model says is a parameter of each pass.
-/
import Memline.Lib.Paths
import Memline.Sanitizer
import Memline.Wiki.Plan

set_option autoImplicit false

namespace Memline.wiki.profile

open Py

/-! ## Files -/

/-- The files of a directory by name; one that cannot be read as JSON has no value. -/
abbrev Files : Type := String → Option (Option Json)

def write (files : Files) (name : String) (value : Json) : Files :=
  Function.update files name (some (some value))

/-- `path.rename(target)`. -/
def rename (files : Files) (name target : String) : Files :=
  Function.update (Function.update files target (files name)) name none

/-- `f"{batch_id}.json"`. -/
def artifact (batch_id : String) : String := batch_id ++ ".json"

/-! ## Which batches need profiling -/

variable (rt : Runtime)

/-- Identity of what a profile actually covered. -/
def coverage_digest (batch : Batch) : String :=
  sha256_text rt ("\n".intercalate (batch.memory_ids.insertionSort (· ≤ ·)))

/-- `existing.get('covers', 'unknown')[:12]`, in an f-string. -/
def covers_start (existing : Json) : Result String :=
  match existing with
  | .obj fields =>
    match fields.lookup "covers" with
    | none => .ok "unknown"
    | some (.str s) => .ok (String.ofList (s.toList.take 12))
    | some (.list xs) => .ok (fmt rt (.list (xs.take 12)))
    | some _ => .error .type_error
  | _ => .error .attribute_error

/-- True when there is no artifact, or the artifact covers other memories; then it is put aside,
unless one was put aside under that name before. -/
def needs_profiling (files : Files) (batch : Batch) : Result (Files × Bool) :=
  match files (artifact batch.batch_id) with
  -- no file, or one that is not read
  | none | some none => .ok (files, true)
  | some (some existing) => do
    let covers ← existing.get "covers"
    if covers.eq (.str (coverage_digest rt batch)) then pure (files, false)
    else do
      let start ← covers_start rt existing
      let stale := batch.batch_id ++ ".superseded-" ++ start ++ ".json"
      -- what was set aside before is not written over: the artifact stays
      if (files stale).isSome then pure (files, true)
      else pure (rename files (artifact batch.batch_id) stale, true)

/-- `[b for b in candidates if _needs_profiling(b, out_dir, log)]`. -/
def to_do (files : Files) : List Batch → Result (Files × List Batch)
  | [] => .ok (files, [])
  | b :: bs => do
    let (files, needed) ← needs_profiling rt files b
    let (files, rest) ← to_do files bs
    pure (files, if needed then b :: rest else rest)

/-! ## Prompts -/

structure TextRecord where
  created_at : Option String
  memory : Option String

abbrev Texts : Type := List (String × TextRecord)

/-- `record.get("memory") or ""`. -/
def TextRecord.text (r : TextRecord) : String := r.memory.getD ""

/-- One memory as the model sees it. -/
def one (texts : Texts) (memory_id : String) : StateM Sanitizer Json := do
  let record := (texts.lookup memory_id).getD ⟨none, none⟩
  let (s, text) := (← get).scrub record.text
  set s
  pure <| .obj [("id", .str memory_id),
    ("date", .str (String.ofList ((record.created_at.getD "").toList.take 10))),
    ("text", .str text)]

/-- The batch's memories as the model sees them: sanitized, session-labelled. -/
def material (texts : Texts) (batch : Batch) : StateM Sanitizer String := do
  if batch.sessions ≠ [] then
    let groups ← batch.sessions.mapM fun s => do
      let memories ← s.memory_ids.mapM (one texts)
      pure <| Json.obj [("session_id", s.session_id), ("span", .str ("..".intercalate s.span)),
        ("memories", .list memories)]
    pure (Json.pretty rt.toPrinter 0 (.list groups))
  else
    let memories ← batch.memory_ids.mapM (one texts)
    pure (Json.pretty rt.toPrinter 0 (.list memories))

def Kind.text : Kind → String
  | .session => "session"
  | .session_part => "session-part"
  | .pack => "pack"
  | .ledger => "ledger"

/-- `", ".join(values)`. -/
def joined (values : List Json) : Result String :=
  if values.all Json.is_str then .ok (", ".intercalate (values.map Json.text))
  else .error .type_error

/-- Fill a template: each placeholder is replaced everywhere, those of values filled in before
too. -/
def fill (template : String) (fields : List (String × String)) : String :=
  fields.foldl (fun out e => str_replace out ("\x7b" ++ e.1 ++ "\x7d") e.2) template

/-- Fill a prompt template. Unknown placeholders are left alone. -/
def render (template : String) (batch : Batch) (material : String) : Result String := do
  let ids ← joined batch.session_ids
  pure <| fill template [("batch_id", batch.batch_id), ("kind", Kind.text batch.kind),
    ("span", "..".intercalate batch.span), ("memory_count", toString batch.memory_count),
    ("session_count", toString (if batch.sessions ≠ [] then batch.sessions.length
      else batch.session_ids.length)),
    ("session_ids", if ids = "" then "(none)" else ids),
    ("part", toString (batch.part.getD (1, 1)).1 ++ "/" ++ toString (batch.part.getD (1, 1)).2),
    ("material", material)]

/-! ## A pass over a plan -/

/-- What comes back from the endpoint. -/
inductive Answer where
  | ok (data provenance : Json)
  | refused (detail : String)
  | failed (detail : String)

inductive Status where
  | ok
  | refused
  | failed
  deriving DecidableEq

def Answer.status : Answer → Status
  | .ok _ _ => .ok
  | .refused _ => .refused
  | .failed _ => .failed

def Status.text : Status → String
  | .ok => "ok"
  | .refused => "refused"
  | .failed => "failed"

/-- `{"batch_id": …, "status": …, "detail": …}`. -/
def declined (batch_id : String) (status : Status) (detail : String) : Json :=
  .obj [("batch_id", .str batch_id), ("status", .str (Status.text status)), ("detail", .str detail)]

/-- The artifact of an answer. -/
def record (batch : Batch) : Answer → Json
  | .ok data provenance => .obj [("batch_id", .str batch.batch_id), ("status", .str "ok"),
      ("profile", data), ("covers", .str (coverage_digest rt batch)), ("provenance", provenance),
      ("batch", .obj [("kind", .str (Kind.text batch.kind)), ("span", .list (batch.span.map .str)),
        ("memory_count", .int batch.memory_count), ("session_ids", .list batch.session_ids)])]
  | .refused detail => declined batch.batch_id .refused detail
  | .failed detail => declined batch.batch_id .failed detail

def KINDS : List Kind := [.session, .pack, .session_part]

/-- What a pass is given beside the plan and the directory. -/
structure Pass where
  kinds : List Kind := KINDS
  texts : Texts
  template : String
  rules : List (String × Regex)
  /-- What the endpoint answers for a batch, asked with a prompt. -/
  model : String → String → Answer

/-- A pass on its way: the answers so far, and whether a prompt could not be made. -/
structure Progress where
  files : Files
  sanitizer : Sanitizer
  answers : List (String × Status) := []
  failures : List Json := []
  raised : Option Error := none

/-- One batch is profiled. A prompt that cannot be made raises. The executor then cancels the
batches that have not begun; here all of them are taken to have begun. A failed call leaves no
artifact. -/
def run (pass : Pass) (p : Progress) (batch : Batch) : Progress :=
  let (material, s) := (material rt pass.texts batch).run p.sanitizer
  match render pass.template batch material with
  | .error e => { p with sanitizer := s, raised := p.raised.or (some e) }
  | .ok prompt =>
    let answer := pass.model batch.batch_id prompt
    let p := { p with sanitizer := s, answers := p.answers ++ [(batch.batch_id, answer.status)] }
    match answer with
    -- a failure leaves no file, so the batch is asked again
    | .failed _ => { p with failures := p.failures ++ [record rt batch answer] }
    | _ => { p with files := write p.files (artifact batch.batch_id) (record rt batch answer) }

structure Summary where
  profiled : ℕ
  refused : List String
  failed : List String
  skipped_existing : ℕ
  placeholder_counts : List (String × ℕ)

/-- What a pass leaves: the directory, which batches were to be profiled, what was answered for
them, and the summary unless a prompt could not be made. -/
structure Profiled where
  files : Files
  todo : List String
  answers : List (String × Status)
  summary : Result Summary

def with_status (answers : List (String × Status)) (status : Status) : List String :=
  (answers.filter fun e => e.2 = status).map Prod.fst

/-- What is known of the material that was sent. -/
def sanitization (cls : Classes) (texts : Texts) (counts : List (String × ℕ)) : Json :=
  .obj [("placeholder_counts", .obj (counts.map fun e => (e.1, .int e.2))),
    ("review_flags",
      .list (((review_flags cls (texts.map fun e => (e.1, e.2.text)) []).take 200).map fun f =>
      .obj [("memory_id", .str f.memory_id), ("kind", .str f.kind), ("value", .str f.value)]))]

/-- The last files of a pass that has not raised. -/
def finish (cls : Classes) (texts : Texts) (p : Progress) : Files :=
  if p.raised.isSome then p.files
  else
    let files := if p.failures ≠ [] then write p.files "_failures.json" (.list p.failures)
      else p.files
    write files "_sanitization.json" (sanitization cls texts p.sanitizer.numbering.counts)

/-- Profile every batch of the given kinds. Resumable; returns a summary. -/
def profile_batches (cls : Classes) (plan : List Batch) (pass : Pass)
    (files : Files) : Result Profiled := do
  let candidates := plan.filter fun b => b.kind ∈ pass.kinds
  let (files, todo) ← to_do rt files candidates
  let p := todo.foldl (run rt pass) { files, sanitizer := ⟨[], pass.rules, {}⟩ }
  pure
    { files := finish cls pass.texts p
      todo := todo.map Batch.batch_id
      answers := p.answers
      summary := match p.raised with
        | some e => .error e
        | none => .ok
          { profiled := (with_status p.answers .ok).length
            refused := with_status p.answers .refused
            failed := with_status p.answers .failed
            skipped_existing := candidates.length - todo.length
            placeholder_counts := p.sanitizer.numbering.counts } }

/-! ## A pass over source documents -/

/-- A file below the source directory: the parts of its path from there, and its text. -/
structure Document where
  path : List String
  text : String
  deriving DecidableEq

namespace Document

def name (d : Document) : String := d.path.getLastD ""

/-- `path.stem`. -/
def stem (d : Document) : String := Paths.stem d.name

/-- `str(path.relative_to(source_dir))`. -/
def rel (d : Document) : String := "/".intercalate d.path

/-- `"sources/" + rel`. -/
def source_path (d : Document) : String := "sources/" ++ d.rel

/-- A Markdown file that is not hidden. -/
def is_source (d : Document) : Bool :=
  ".md".toList.isSuffixOf d.name.toList && !".".toList.isPrefixOf d.name.toList

end Document

/-- `sorted(p for p in source_dir.rglob("*.md") if not p.name.startswith("."))`. -/
def source_docs (tree : List Document) : List Document :=
  (tree.filter Document.is_source).insertionSort fun d e => d.path ≤ e.path

/-- The prompt for a document. -/
def source_prompt (template : String) (s : Sanitizer) (d : Document) : Sanitizer × String :=
  let (s, text) := s.scrub d.text
  let material := "\x7b\"path\": " ++ Json.quoted d.source_path ++ ", \"text\": " ++
    Json.quoted text ++ "\x7d"
  (s, fill template [("batch_id", d.stem), ("kind", "source"), ("span", ".."),
    ("memory_count", "0"), ("session_count", "0"), ("session_ids", "(none)"), ("part", "1/1"),
    ("material", material)])

/-- The artifact of an answer. -/
def source_record (d : Document) : Answer → Json
  | .ok data provenance => .obj [("batch_id", .str d.stem), ("status", .str "ok"),
      ("profile", data), ("provenance", provenance),
      ("batch", .obj [("kind", .str "source"), ("source_path", .str d.source_path)])]
  | .refused detail => declined d.stem .refused detail
  | .failed detail => declined d.stem .failed detail

/-- What a pass is given beside the documents and the directory. Two calls run at a time: the order
in which the documents are done is any. -/
structure SourcePass where
  template : String
  rules : List (String × Regex)
  /-- What the endpoint answers for a document, asked with a prompt. -/
  model : String → String → Answer
  order : List Document → List Document
  order_perm (ds : List Document) : (order ds).Perm ds

structure SourceProgress where
  files : Files
  sanitizer : Sanitizer
  answers : List (Document × Status) := []

/-- One document is profiled. A failed call leaves no artifact. -/
def source_run (pass : SourcePass) (p : SourceProgress) (d : Document) : SourceProgress :=
  let (sanitizer, prompt) := source_prompt pass.template p.sanitizer d
  let answer := pass.model d.rel prompt
  { sanitizer, answers := p.answers ++ [(d, answer.status)]
    files := if answer.status = .failed then p.files
      else write p.files (artifact d.stem) (source_record d answer) }

structure SourceSummary where
  profiled : ℕ
  refused : List String
  failed : List String
  skipped_existing : ℕ

/-- What a pass leaves: the directory, the documents that were to be profiled, what was answered for
them, and the summary. -/
structure SourceProfiled where
  files : Files
  todo : List Document
  answers : List (Document × Status)
  summary : SourceSummary

/-- Profile designated Markdown sources into the same shape as a memory batch. -/
def profile_sources (tree : List Document) (pass : SourcePass) (files : Files) : SourceProfiled :=
  let docs := source_docs tree
  -- done is what has a file, whatever the document says by now
  let todo := docs.filter fun d => (files (artifact d.stem)).isNone
  let p := (pass.order todo).foldl (source_run pass) { files, sanitizer := ⟨[], pass.rules, {}⟩ }
  let answered (status : Status) := todo.filter fun d => (d, status) ∈ p.answers
  { files := p.files, todo, answers := p.answers
    summary :=
      { profiled := (answered .ok).length
        refused := (answered .refused).map Document.stem
        failed := (answered .failed).map Document.stem
        skipped_existing := docs.length - todo.length } }

end Memline.wiki.profile
