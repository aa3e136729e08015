/-
The part of the vendored mem0 client that the operations go through.

`add` stores new points, raw or extracted by a model; `update` overlays the given
metadata on the stored payload and writes the whole payload back; `delete`
removes one point; `get` and `get_all` hand points out as items. `get_all`
refuses filters that name no user, agent or run.

The embedding model, the entity collection, the message log that only feeds the
extraction prompt, telemetry and notices are left out; so is the rounding of a
near-duplicate score.
-/
import Memline.World

set_option autoImplicit false

namespace Memline

open Effect

namespace Mem0

/-! ## Entity ids, scopes and filters -/

/-- `str.isspace` on one character. -/
def isspace (c : Char) : Bool :=
  let n := c.toNat
  (9 ≤ n && n ≤ 13) || (28 ≤ n && n ≤ 32) || n = 0x85 || n = 0xa0 || n = 0x1680 ||
    (0x2000 ≤ n && n ≤ 0x200a) || n = 0x2028 || n = 0x2029 || n = 0x202f || n = 0x205f ||
    n = 0x3000

/-- `str.strip()`. -/
def strip (s : String) : String :=
  String.ofList (((s.toList.dropWhile isspace).reverse.dropWhile isspace).reverse)

def validate_and_trim_entity_id (value name : String) : Except Exn String :=
  let trimmed := strip value
  if trimmed = "" then
    .error (.value_error (s!"Invalid {name}: cannot be empty or whitespace-only. " ++
      "Provide a valid identifier."))
  else if trimmed.toList.any isspace then
    .error (.value_error (s!"Invalid {name}: cannot contain whitespace. " ++
      "Provide a valid identifier without spaces."))
  else .ok trimmed

/-- `_validate_and_trim_entity_id` on an id that may be absent. -/
def validate_optional_id (value : Option String) (name : String) :
    Except Exn (Option String) :=
  match value with
  | none => .ok none
  | some v => (validate_and_trim_entity_id v name).map some

def ENTITY_PARAMS : List String := ["user_id", "agent_id", "run_id"]

/-- The entity ids an operation is scoped to. -/
def provided_ids (user_id agent_id run_id : Option String) :
    Except Exn (List (String × String)) := do
  let user_id ← validate_optional_id user_id "user_id"
  let agent_id ← validate_optional_id agent_id "agent_id"
  let run_id ← validate_optional_id run_id "run_id"
  .ok ((user_id.toList.map (("user_id", ·))) ++ (agent_id.toList.map (("agent_id", ·))) ++
    run_id.toList.map (("run_id", ·)))

/-- The metadata template of new memories and the scope of the queries around
them. An operation has to name a user, an agent or a run. -/
def build_filters_and_metadata (user_id agent_id run_id : Option String)
    (input_metadata : Payload) : Except Exn (Payload × Filters) := do
  let provided ← provided_ids user_id agent_id run_id
  if provided.isEmpty then
    .error (.other "At least one of 'user_id', 'agent_id', or 'run_id' must be provided.")
  else
    .ok (provided.foldl (fun p e => p.set e.1 (.str e.2)) input_metadata,
      provided.map fun e => (e.1, .value e.2))

/-- `get_all`'s check of the entity ids in its filters. -/
def validate_filters (filters : Filters) : Except Exn Filters :=
  filters.mapM fun f =>
    match f.2 with
    | .value v =>
      if f.1 ∈ ENTITY_PARAMS then
        (validate_and_trim_entity_id v f.1).map fun v => (f.1, .value v)
      else .ok f
    | .lte _ => .ok f

/-- The error of a query that names no user, agent or run. -/
def missing_scope : Exn :=
  .value_error ("filters must contain at least one of: user_id, agent_id, run_id. " ++
    "Example: filters=\x7b'user_id': 'u1'\x7d")

/-! ## Reading -/

def promoted_payload_keys : List String :=
  ["user_id", "agent_id", "run_id", "actor_id", "role", "attributed_to", "expiration_date"]

def core_and_promoted_keys : List String :=
  ["data", "hash", "created_at", "updated_at", "id", "text_lemmatized"] ++ promoted_payload_keys

/-- A stored point as a result item. -/
def item_of (id : Id) (p : Payload) : Item where
  id := id
  top :=
    (p.filterKeys fun k => decide (k ∈ promoted_payload_keys)).merge
      (.ofList [("id", .str id), ("memory", if "data" ∈ p then p.get "data" else .str ""),
        ("hash", p.get "hash"), ("created_at", p.get "created_at"),
        ("updated_at", p.get "updated_at")])
  metadata := p.filterKeys fun k => !decide (k ∈ core_and_promoted_keys)

/-- A payload key that mem0 does not claim is read back from the item's metadata. -/
theorem get_item_metadata {id : Id} {p : Payload} {key : String}
    (h : key ∉ core_and_promoted_keys) :
    (item_of id p).metadata.lookup key = p.lookup key := by
  rw [item_of, Payload.lookup_filterKeys, if_pos (by simp [h])]

/-- `Memory.get`. -/
def get (memory_id : Id) : Code (Option Item) := do
  let memory ← Prog.perform (I := Api) (.vs_get memory_id)
  pure (memory.map (item_of memory_id))

/-- Whether a date has passed. -/
def date_past (date : String) : Code Bool := Prog.perform (I := Api) (.date_past date)

/-- `_payload_is_expired`, which a caller that shows expired memories skips. -/
def payload_is_expired (show_expired : Bool) (p : Payload) : Code Bool :=
  if show_expired ∨ (p.get "expiration_date").truthy = false then pure false
  else date_past (p.get "expiration_date").toStr

/-- Format the rows that are not expired, until there are enough of them. -/
def format_rows (show_expired : Bool) (output_limit : ℕ) :
    List (Id × Payload) → List Item → Code (List Item)
  | [], formatted => pure formatted
  | (id, p) :: rows, formatted => do
    let expired ← payload_is_expired show_expired p
    if expired then format_rows show_expired output_limit rows formatted
    else
      -- the limit counts the rows that are shown
      let formatted := formatted ++ [item_of id p]
      if output_limit ≤ formatted.length then pure formatted
      else format_rows show_expired output_limit rows formatted

def get_all (filters : Filters) (top_k : ℕ) (show_expired : Bool := false) :
    Code (List Item) := do
  let effective_filters ← lift_except (validate_filters filters)
  refuse_if (∀ f ∈ effective_filters, f.1 ∉ ENTITY_PARAMS) missing_scope
  let fetch_limit := if show_expired then top_k else max (top_k * 4) 60
  let rows ← Prog.perform (I := Api) (.vs_list effective_filters fetch_limit)
  format_rows show_expired top_k rows []

/-- `Memory.search`: its own checks, then whatever the index ranks. -/
def search (query : String) (top_k : ℕ) (filters : Filters) : Code (List Item) := do
  let query := strip query
  refuse_if (query = "")
    (.value_error "Invalid query: cannot be empty or whitespace-only.")
  let effective_filters ← lift_except (validate_filters filters)
  refuse_if (∀ f ∈ effective_filters, f.1 ∉ ENTITY_PARAMS) missing_scope
  Prog.perform (I := Api) (.search query top_k effective_filters)

/-! ## Adding -/

/-- One entry of the result of `add`. -/
structure AddResult where
  id : Id
  memory : String
  event : String
  duplicate_of : Option Id := none
  actor_id : Option String := none
  role : Option String := none
  near_duplicate : Option (Id × ℚ) := none

def RAW_ADD_NEAR_DUP_THRESHOLD : ℚ := 95 / 100

/-- The payload `_create_memory` stores, but for `created_at`. -/
def new_payload (host : Host) (data : String) (metadata : Payload) : Payload :=
  (metadata.set "data" (.str data)).set "hash" (.str (host.md5 data))

/-- `created_at`: the one the metadata has, else now. -/
def created_at_of (p : Payload) : Code Value :=
  if "created_at" ∈ p then pure (p.get "created_at")
  else do
    let now ← now_iso
    pure (.str now)

/-- `created_at`, and `updated_at` equal to it. -/
def stamp_created (p : Payload) : Code Payload := do
  let created_at ← created_at_of p
  pure ((p.set "created_at" created_at).set "updated_at" created_at)

/-- `_create_memory`. -/
def create_memory (host : Host) (data : String) (metadata : Payload) : Code Id := do
  let memory_id ← Prog.perform (I := Api) .uuid4
  let stamped ← stamp_created (new_payload host data metadata)
  let new_metadata := stamped.set "text_lemmatized" (.str (host.lemmatize data))
  Prog.perform (I := Api) (.vs_insert [(memory_id, new_metadata)])
  Prog.perform (I := Api) (.add_history
    { memory_id, old_memory := .none, new_memory := .str data, event := "ADD"
      created_at := new_metadata.get "created_at"
      updated_at := new_metadata.get "updated_at"
      actor_id := new_metadata.get "actor_id"
      role := new_metadata.get "role" })
  pure memory_id

/-- One message of a raw add. An exact duplicate in the user's scope is skipped,
a near duplicate is only pointed out. -/
def add_message (host : Host) (metadata : Payload) (filters : Filters) (m : Message) :
    Code (Option AddResult) :=
  match m.role, m.content with
  | some role, some content =>
    if role = "system" then pure none
    else do
      let named := m.name.getD "" ≠ ""
      let actor_name : Option String := if named then m.name else none
      let per_msg_meta := metadata.set "role" (.str role)
      let per_msg_meta :=
        if named then per_msg_meta.set "actor_id" (.ofOption m.name) else per_msg_meta
      let dedup_scope := filters.filter fun f => decide (f.1 = "user_id")
      -- the same text of the same user, by its hash; a lookup that fails finds nothing
      let duplicate_rows ←
        try Prog.perform (I := Api) (.vs_list
          (dedup_scope ++ [("hash", .value (host.md5 content))]) 1)
        catch _ => pure []
      match duplicate_rows with
      | (duplicate_id, _) :: _ =>
        pure (some { id := duplicate_id, memory := content, event := "NONE"
                     duplicate_of := some duplicate_id, actor_id := actor_name, role := some role })
      | [] => do
        let similar ←
          try Prog.perform (I := Api) (.vs_search content 1 dedup_scope)
          catch _ => pure []
        -- only reported: the memory is added all the same
        let near_duplicate : Option (Id × ℚ) :=
          match similar with
          | (top_id, _, some score) :: _ =>
            if RAW_ADD_NEAR_DUP_THRESHOLD ≤ score then some (top_id, score) else none
          | _ => none
        let mem_id ← create_memory host content per_msg_meta
        pure (some { id := mem_id, memory := content, event := "ADD"
                     actor_id := actor_name, role := some role, near_duplicate })
  | _, _ => pure none

/-- The messages of a conversation as the text a query is made of. -/
def parse_messages (messages : List Message) : String :=
  String.join (messages.map fun m =>
    match m.role, m.content with
    | some role, some content =>
      if role = "system" ∨ role = "user" ∨ role = "assistant" then s!"{role}: {content}\n" else ""
    | _, _ => "")

/-- A memory about to be stored: id, text and payload. -/
structure Record where
  id : Id
  text : String
  payload : Payload

/-- One extracted fact: skipped when it is empty or its hash is known, else made
into a record. Carries the records and the hashes seen so far. -/
def record_of (host : Host) (metadata : Payload) (existing_hashes : List Value)
    (acc : List Record × List String) (mem : Extracted) : Code (List Record × List String) :=
  let mem_hash := host.md5 mem.text
  -- no text, or one that is stored or has been extracted before
  if mem.text = "" ∨ Value.str mem_hash ∈ existing_hashes ∨ mem_hash ∈ acc.2 then pure acc
  else do
    let memory_id ← Prog.perform (I := Api) .uuid4
    let mem_metadata := ((metadata.set "data" (.str mem.text)).set "text_lemmatized"
      (.str (host.lemmatize mem.text))).set "hash" (.str mem_hash)
    let stamped ← stamp_created mem_metadata
    let payload :=
      if mem.attributed_to.truthy then stamped.set "attributed_to" mem.attributed_to else stamped
    pure (acc.1 ++ [⟨memory_id, mem.text, payload⟩], acc.2 ++ [mem_hash])

/-- Insert the records in one batch, or one by one when the batch fails. -/
def persist (records : List Record) : Code Unit :=
  try
    Prog.perform (I := Api) (.vs_insert (records.map fun r => (r.id, r.payload)))
  catch _ =>
    forM records fun r => attempt (Prog.perform (I := Api) (.vs_insert [(r.id, r.payload)]))

def add_history_of (r : Record) : HistoryEvent where
  memory_id := r.id
  old_memory := .none
  new_memory := .str r.text
  event := "ADD"
  created_at := r.payload.get "created_at"

/-- Record the additions in one batch, or one by one when the batch fails. -/
def persist_history (records : List Record) : Code Unit :=
  try
    Prog.perform (I := Api) (.batch_add_history (records.map add_history_of))
  catch _ =>
    forM records fun r => attempt (Prog.perform (I := Api) (.add_history (add_history_of r)))

/-- The extraction pipeline: retrieve, extract, deduplicate, insert. -/
def add_extracted (host : Host) (messages : List Message) (metadata : Payload)
    (filters : Filters) : Code (List AddResult) := do
  -- what is stored already is shown to the model, and compared by its hash
  let existing_results ← Prog.perform (I := Api) (.vs_search (parse_messages messages) 10 filters)
  let existing := existing_results.map fun r => r.2.1
  let extracted_memories ← Prog.perform (I := Api) (.extract messages existing)
  let existing_hashes := (existing.map fun p => p.get "hash").filter Value.truthy
  let (records, _) ← extracted_memories.foldlM (record_of host metadata existing_hashes) ([], [])
  if records.isEmpty then pure []
  else do
    persist records
    persist_history records
    pure (records.map fun r : Record => { id := r.id, memory := r.text, event := "ADD" })

/-- `Memory.add`. -/
def add (host : Host) (messages : List Message) (user_id agent_id run_id : Option String)
    (metadata : Payload) (infer : Bool) : Code (List AddResult) := do
  let (processed_metadata, effective_filters) ←
    lift_except (build_filters_and_metadata user_id agent_id run_id metadata)
  if infer then add_extracted host messages processed_metadata effective_filters
  else do
    messages.foldlM (fun acc m => do
      let r ← add_message host processed_metadata effective_filters m
      pure (acc ++ r.toList)) []

/-! ## Updating and deleting -/

/-- The payload `_update_memory` writes: the given keys over the stored ones, the
text fields anew, and what never changes after creation from the stored payload. -/
def updated_payload (host : Host) (existing : Payload) (data : String) (metadata : Payload)
    (updated_at : String) : Payload :=
  let new_metadata := (existing.merge metadata).merge
    (.ofList [("data", .str data), ("hash", .str (host.md5 data)),
      ("text_lemmatized", .str (host.lemmatize data)), ("created_at", existing.get "created_at"),
      ("updated_at", .str updated_at)])
  if "actor_id" ∈ existing then new_metadata.set "actor_id" (existing.get "actor_id")
  else new_metadata

/-- A field that mem0 does not set itself comes from the given metadata, else from
the stored payload. -/
theorem lookup_updated_payload {host : Host} {existing metadata : Payload} {data now : String}
    {key : String}
    (h : key ∉ ["data", "hash", "text_lemmatized", "created_at", "updated_at", "actor_id"]) :
    (updated_payload host existing data metadata now).lookup key =
      (metadata.lookup key).or (existing.lookup key) := by
  simp only [List.mem_cons, List.not_mem_nil, or_false, not_or] at h
  obtain ⟨h₁, h₂, h₃, h₄, h₅, h₆⟩ := h
  have hmerge : ((existing.merge metadata).merge (.ofList [("data", .str data),
      ("hash", .str (host.md5 data)), ("text_lemmatized", .str (host.lemmatize data)),
      ("created_at", existing.get "created_at"), ("updated_at", .str now)])).lookup key =
      (metadata.lookup key).or (existing.lookup key) := by
    rw [Payload.lookup_merge, Payload.lookup_ofList_ne, Option.none_or, Payload.lookup_merge]
    simp [Ne.symm h₁, Ne.symm h₂, Ne.symm h₃, Ne.symm h₄, Ne.symm h₅]
  unfold updated_payload
  simp only
  split
  · rw [Payload.lookup_set_ne _ _ h₆, hmerge]
  · exact hmerge

/-- Such a field is the stored one or the given one. -/
theorem get_updated_payload {host : Host} {existing metadata : Payload} {data now : String}
    {key : String}
    (h : key ∉ ["data", "hash", "text_lemmatized", "created_at", "updated_at", "actor_id"]) :
    (updated_payload host existing data metadata now).get key = existing.get key ∨
      (updated_payload host existing data metadata now).get key = metadata.get key := by
  rw [Payload.get, lookup_updated_payload h]
  cases hv : metadata.lookup key with
  | none => exact .inl rfl
  | some v => exact .inr (by rw [Payload.get, hv]; rfl)

/-- `Memory.update`. -/
def update (host : Host) (memory_id : Id) (text : String) (metadata : Payload) : Code Unit := do
  let existing_memory ← Prog.perform (I := Api) (.vs_get memory_id)
  let existing ← expect existing_memory (.value_error
    s!"Memory with id {memory_id} not found. Please provide a valid 'memory_id'")
  let updated_at ← now_iso
  let new_metadata := updated_payload host existing text metadata updated_at
  -- the point first: a failure behind it leaves it written
  Prog.perform (I := Api) (.vs_upsert memory_id new_metadata)
  Prog.perform (I := Api) (.add_history
    { memory_id, old_memory := existing.get "data", new_memory := .str text, event := "UPDATE"
      created_at := new_metadata.get "created_at"
      updated_at := new_metadata.get "updated_at"
      actor_id := new_metadata.get "actor_id"
      role := new_metadata.get "role" })

/-- `Memory.delete`. -/
def delete (host : Host) (memory_id : Id) : Code Unit := do
  let existing_memory ← Prog.perform (I := Api) (.vs_get memory_id)
  let existing ← expect existing_memory (.value_error s!"Memory with id {memory_id} not found")
  let updated_at ← now_iso
  Prog.perform (I := Api) (.vs_delete memory_id)
  Prog.perform (I := Api) (.add_history
    { memory_id
      old_memory := if "data" ∈ existing then existing.get "data" else .str ""
      new_memory := .none, event := "DELETE"
      created_at := host.normalize_iso_timestamp_to_utc (existing.get "created_at")
      updated_at := .str updated_at
      actor_id := existing.get "actor_id"
      role := existing.get "role"
      is_deleted := true })

end Mem0

end Memline
