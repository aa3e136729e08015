/-
The wiki checker, and what it says of superseded evidence.

A page cites memories by id. The checker asks the store for each of them, and for its heads;
a memory that is not among its own heads is flagged as superseded. A memory whose chain leads
to no head within the resolver's depth limit has no heads to be missing from: it is not
flagged, as if it were current.
-/
import Memline.Heads
import Memline.Lib.Check
import Memline.Wiki.Artifacts
import Memline.Wiki.Page

set_option autoImplicit false

namespace Memline

/-- `str(exc)`. -/
def Exn.toStr : Exn → String
  | .staleness_error msg | .value_error msg | .llm_error msg | .click_exception msg | .other msg =>
    msg

namespace wiki

open Effect Effect.Prog Relation Reachability
open Py

/-! ## What the checker reads -/

/-- A Markdown file under `content`. -/
structure Page where
  /-- Its path relative to the wiki root. -/
  rel : String
  name : String
  read_text : Except Exn String

/-- Where a path leads. -/
inductive Target where
  | outside
  | missing
  | found

structure NavReport where
  unreachable : List String
  dangling : List String

/-- The files of a wiki, as the checker gets to see them. -/
structure Site where
  /-- The pages in the order of their paths; none without a `content` directory. -/
  pages : List Page
  safe_load : SafeLoad
  /-- Where a path from the wiki root leads. -/
  locate : String → Except Exn Target
  read_section : String → Option String → Except Exn (Option String)
  /-- Where a path from the directory of a page leads. -/
  follow : String → String → Except Exn Target
  /-- The report on the navigation skeleton, where there is one. -/
  nav : Option (Except Exn NavReport)

/-- The store, as the checker asks it. -/
structure Execute where
  get : Id → Except Exn Json
  resolve_head : Id → Except Exn Json

structure RefFlag where
  kind : String
  detail : String
  deriving DecidableEq

structure Flag extends RefFlag where
  page : String
  ref : Option String
  deriving DecidableEq

structure Report where
  pages_scanned : ℕ
  flag_count : ℕ
  flags : List Flag
  clean : Bool
  deriving DecidableEq

/-! ## Memory references -/

/-- `record.get(key)`, when it is a string. -/
def string_at (d : Dict) (key : String) : Option String :=
  match Dict.get d key with
  | .str s => some s
  | _ => none

mutual

/-- The text of a record, at its top or in its `data`. -/
def memory_text : Json → Option String
  | .obj fields => ((string_at fields "memory").or (string_at fields "text")).or (data_text fields)
  | _ => none

def data_text : List (String × Json) → Option String
  | [] => none
  | (key, value) :: fields => if key = "data" then memory_text value else data_text fields

end

mutual

/-- Collect candidate head memory ids from any reasonable payload shape. -/
def head_ids : Json → List String
  | .obj fields => ["id", "memory_id"].filterMap (string_at fields) ++ head_ids_fields fields
  | .list items => head_ids_items items
  | _ => []

def head_ids_fields : List (String × Json) → List String
  | [] => []
  | (_, value) :: fields => head_ids value ++ head_ids_fields fields

def head_ids_items : List Json → List String
  | [] => []
  | .str s :: items => s :: head_ids_items items
  | item :: items => head_ids item ++ head_ids_items items

end

variable (rt : Runtime)

/-- `recorded_hash and sha256_text(text) != recorded_hash`. -/
def hash_differs (recorded_hash : Json) (text : String) : Bool :=
  recorded_hash.truthy && !(Json.eq (.str (sha256_text rt text)) recorded_hash)

/-- The findings of one `mem:<id>` reference. -/
def check_memory_ref (execute : Execute) (memory_id : String) (recorded_hash : Json)
    (check_superseded : Bool) : List RefFlag :=
  match execute.get memory_id with
  | .error exc => [⟨"memory_missing", exc.toStr⟩]
  | .ok record =>
    match memory_text record with
    | none => [⟨"memory_missing", "record has no memory text"⟩]
    | some text =>
      let flags := if hash_differs rt recorded_hash text then
        [⟨"memory_content_changed", "text hash mismatch"⟩] else []
      -- the status is checked even where the text has changed
      match execute.resolve_head memory_id with
      | .error exc => flags ++ [⟨"memory_status_unverified", exc.toStr⟩]
      | .ok head =>
        let head_ids := head_ids head
        if head_ids ≠ [] ∧ memory_id ∉ head_ids ∧ check_superseded then
          flags ++ [⟨"memory_superseded",
            "head: " ++ ", ".intercalate (head_ids.dedup.insertionSort (· ≤ ·))⟩]
        else flags

/-! ## Other references, and links -/

/-- `s.partition("#")`: what lies before the first mark, and what lies behind it. -/
def partition_mark (s : String) : String × String :=
  (String.ofList (s.toList.takeWhile (· ≠ '#')),
    String.ofList ((s.toList.dropWhile (· ≠ '#')).drop 1))

def check_source_ref (site : Site) (ref : String) (recorded_hash : Json) :
    Except Exn (List RefFlag) := do
  let (path_part, heading) := partition_mark ref
  match ← site.locate path_part with
  | .outside => pure [⟨"source_outside_wiki", ref⟩]
  | .missing => pure [⟨"source_missing", ref⟩]
  | .found =>
    match ← site.read_section path_part (if heading = "" then none else some heading) with
    | none => pure [⟨"source_section_missing", ref⟩]
    | some text =>
      if hash_differs rt recorded_hash text then pure [⟨"source_content_changed", ref⟩] else pure []

/-- `\[[^\]]*\]\(([^)\s]+)\)`. -/
def MD_LINK_RE : Regex :=
  .seq (.char '[') <| .seq (.many (.one fun c => c != ']')) <| .seq (.lit "](".toList) <|
    .seq (.group (.plus (.one fun c => c != ')' && !Mem0.isspace c))) (.char ')')

def EXTERNAL_PREFIXES : List String := ["http://", "https://", "mailto:", "#"]

/-- `s.startswith(prefix)`. -/
def starts_with (s start : String) : Bool := start.toList.isPrefixOf s.toList

def check_link (site : Site) (page target : String) : Except Exn (List RefFlag) :=
  if (EXTERNAL_PREFIXES ++ ["mem:"]).any (starts_with target) then pure []
  else
    let clean := (partition_mark target).1
    if clean = "" then pure []
    else do
      match ← site.follow page clean with
      | .outside => pure [⟨"link_outside_wiki", target⟩]
      | .missing => pure [⟨"link_broken", target⟩]
      | .found => pure []

def check_body_links (site : Site) (page body : String) : Except Exn (List RefFlag) := do
  let found ← ((MD_LINK_RE.findall body.toList).map String.ofList).mapM (check_link site page)
  pure found.flatten

/-- Routing drift, reported alongside provenance drift. -/
def nav_flags (site : Site) : Except Exn (List Flag) :=
  match site.nav with
  | none => pure []
  | some report => do
    let report ← report
    pure ((report.unreachable.map fun p => ⟨⟨"page_unrouted", ""⟩, "content/docs/" ++ p, none⟩) ++
      report.dangling.map fun e => ⟨⟨"nav_entry_dangling", e⟩, "content/docs/.nav.yml", none⟩)

/-! ## A page -/

/-- The findings of a reference, by its scheme. -/
def check_ref (site : Site) (execute : Execute) (check_superseded : Bool) (entry : Dict)
    (ref : String) : Except Exn (List RefFlag) :=
  let recorded_hash := Dict.get entry "content_hash"
  if starts_with ref "mem:" then
    -- what is cited as history may be superseded
    let historical := match Dict.get entry "historical" with
      | .bool true => true
      | _ => false
    pure (check_memory_ref rt execute (String.ofList (ref.toList.drop 4)) recorded_hash
      (check_superseded && !historical))
  else if starts_with ref "sources/" then check_source_ref rt site ref recorded_hash
  else pure [⟨"unknown_ref_scheme", ref⟩]

/-- One entry of the `sources` of a page. -/
def check_entry (site : Site) (execute : Execute) (rel : String) (check_superseded : Bool)
    (entry : Json) : Except Exn (List Flag) :=
  let malformed : List Flag := [⟨⟨"malformed_source_entry", fmt rt entry⟩, rel, none⟩]
  match entry with
  | .obj d =>
    match Dict.get d "ref" with
    | .str ref => do
      let missing : List Flag := if (Dict.get d "content_hash").truthy then []
        else [⟨⟨"missing_content_hash", ""⟩, rel, some ref⟩]
      let found ← check_ref rt site execute check_superseded d ref
      pure (missing ++ found.map fun f => ⟨f, rel, some ref⟩)
    | _ => pure malformed
  | _ => pure malformed

/-- What a page that is no README has to say about itself. -/
def check_metadata (page : Page) (front : Dict) : List Flag :=
  if page.name = "README.md" then []
  else
    let flag (kind : String) : Flag := ⟨⟨kind, ""⟩, page.rel, none⟩
    (if blank (Dict.get front "summary") then [flag "missing_summary"] else []) ++
      (if blank (Dict.get front "topic_key") then [flag "missing_topic_key"] else []) ++
      match Dict.get front "sources" with
      | .list (_ :: _) => []
      | _ => [flag "missing_provenance"]

/-- What the loop over the sources of a page runs through. -/
def source_entries (page : Page) (front : Dict) : Except Exn (List Json) :=
  match Dict.get front "sources" with
  | .list entries => pure entries
  | sources =>
    if page.name = "README.md" then
      match entries sources with
      | .ok items => pure items
      | .error _ => .error (.other "sources is not iterable")
    else pure []

def is_blog (rel : String) : Bool := starts_with rel "content/blog/"

def check_page (site : Site) (execute : Execute) (page : Page) : Except Exn (List Flag) := do
  -- a later head does not make a historical article stale
  let check_superseded := !is_blog page.rel
  let markdown ← page.read_text
  let front ← parse_frontmatter site.safe_load markdown
  let sources ← source_entries page front
  let found ← sources.mapM (check_entry rt site execute page.rel check_superseded)
  let links ← check_body_links site page.rel markdown
  pure (check_metadata page front ++ found.flatten ++ links.map fun f => ⟨f, page.rel, none⟩)

/-- Check every formal page. -/
def run_check (site : Site) (execute : Execute) : Except Exn Report := do
  let found ← site.pages.mapM (check_page rt site execute)
  let flags := found.flatten ++ (← nav_flags site)
  pure { pages_scanned := site.pages.length, flag_count := flags.length, flags
         clean := flags.isEmpty }

/-! ## The store's answers -/

/-- A value the checker takes for a text. -/
def text_json : Value → Json
  | .str text => .str text
  | _ => .null

/-- What the checker can see of an answer. Of an item that is its id and its text. -/
def answer_json : ops.Response → Json
  | .item (some item) =>
    .obj [("id", .str item.id), ("memory", text_json (item.top.get "memory"))]
  | .head r =>
    .obj [("requested", .str r.requested), ("heads", .list (r.heads.map .str)),
      ("hops", .int r.hops)]
  | _ => .null

/-- The checker's questions, put to the store. -/
def store_execute (host : Host) (fault : ops.Request → Call → World → Option Exn)
    (w : World) : Execute where
  get id := ((ops.dispatch host (.get id)).run (host.failing (fault (.get id))) w).1.map answer_json
  resolve_head id :=
    ((ops.dispatch host (.resolve_head id)).run (host.failing (fault (.resolve_head id))) w).1.map
      answer_json

/-- The text stored for the memory, if any, is a string. -/
def HasText (w : World) (id : Id) : Prop :=
  ∀ p, w.payload id = some p → "data" ∈ p → ∃ text, p.get "data" = .str text

variable {rt} {host : Host} {fault : ops.Request → Call → World → Option Exn} {w : World}

/-- What the store answers to `get`. -/
theorem store_get_cases (host : Host) (fault : ops.Request → Call → World → Option Exn) (w : World)
    (id : Id) :
    (Unreadable host (fault (.get id)) w id ∧ ∃ e, (store_execute host fault w).get id = .error e) ∨
      (¬ Unreadable host (fault (.get id)) w id ∧ (store_execute host fault w).get id
        = .ok (answer_json (.item ((w.payload id).map (Mem0.item_of id))))) := by
  rcases stored_payload_cases host (fault (.get id)) w id with ⟨hunreadable, e, hrun⟩ |
    ⟨hserved, hrun⟩
  · have hanswer : (ops.dispatch host (.get id)).run (host.failing (fault (.get id))) w
        = (.error e, w) := run_bind_error (run_bind_error hrun)
    refine .inl ⟨hunreadable, e, ?_⟩
    simp only [store_execute, hanswer]
    rfl
  · have hanswer : (ops.dispatch host (.get id)).run (host.failing (fault (.get id))) w
        = (.ok (.item ((w.payload id).map (Mem0.item_of id))), w) :=
      run_bind_ok ((run_bind_ok hrun).trans rfl)
    refine .inr ⟨hserved, ?_⟩
    simp only [store_execute, hanswer]
    rfl

/-- The text an item shows. -/
theorem get_item_memory (id : Id) (p : Payload) :
    (Mem0.item_of id p).top.get "memory" = if "data" ∈ p then p.get "data" else .str "" := by
  unfold Mem0.item_of
  refine Payload.get_merge_of_lookup ?_
  rfl

/-- The text of a stored memory is found unless the lookup fails, or there is none. -/
theorem store_get_text {id : Id} (hx : Stored w id) :
    (∃ record text, (store_execute host fault w).get id = .ok record ∧
      memory_text record = some text) ↔
    ¬ Unreadable host (fault (.get id)) w id ∧ HasText w id := by
  obtain ⟨p, hp⟩ := Option.isSome_iff_exists.mp hx
  rcases store_get_cases host fault w id with ⟨hunreadable, e, hget⟩ | ⟨hserved, hget⟩
  · refine iff_of_false ?_ fun h => h.1 hunreadable
    rintro ⟨record, text, h, -⟩
    rw [hget] at h
    cases h
  · have htext : memory_text (answer_json (.item (some (Mem0.item_of id p))))
        = string_at [("memory", text_json (if "data" ∈ p then p.get "data" else .str ""))]
          "memory" := by
      rw [answer_json, get_item_memory]
      unfold memory_text string_at
      cases text_json (if "data" ∈ p then p.get "data" else .str "") with
      | _ => rfl
    rw [hp] at hget
    -- a payload without a text has the empty one; a text that is no string is none
    have hhas : HasText w id ↔ ("data" ∈ p → ∃ text, p.get "data" = .str text) := by
      constructor
      · intro h
        exact h p hp
      · intro h q hq
        rw [hp] at hq
        injection hq with hq
        subst hq
        exact h
    rw [hhas]
    constructor
    · rintro ⟨record, text, h, hsome⟩
      refine ⟨hserved, fun hdata => ?_⟩
      rw [hget] at h
      injection h with h
      rw [← h, Option.map_some, htext, if_pos hdata] at hsome
      cases hv : p.get "data" with
      | list vs =>
        rw [hv] at hsome
        cases hsome
      | atom a =>
        cases a with
        | str s => exact ⟨s, rfl⟩
        | _ =>
          rw [hv] at hsome
          cases hsome
    · rintro ⟨-, h⟩
      by_cases hdata : "data" ∈ p
      · obtain ⟨text, hstr⟩ := h hdata
        refine ⟨_, text, hget, htext.trans ?_⟩
        rw [if_pos hdata, hstr]
        rfl
      · refine ⟨_, "", hget, htext.trans ?_⟩
        rw [if_neg hdata]
        rfl

theorem head_ids_strings (ids : List String) : head_ids_items (ids.map .str) = ids := by
  induction ids with
  | nil => rfl
  | cons id ids ih => rw [List.map_cons, head_ids_items, ih]

/-- The ids collected from an answer are its heads. -/
theorem head_ids_answer (r : HeadResult) : head_ids (answer_json (.head r)) = r.heads := by
  have hnone : ["id", "memory_id"].filterMap (string_at [("requested", .str r.requested),
      ("heads", .list (r.heads.map .str)), ("hops", .int r.hops)]) = [] := rfl
  rw [answer_json, head_ids, hnone]
  simp [head_ids_fields, head_ids, head_ids_strings]

/-- What the store answers to `resolve_head` about a stored memory. -/
theorem store_resolve_cases {id : Id} (hx : Stored w id) :
    ((∃ e, (store_execute host fault w).resolve_head id = .error e) ∧
      ∃ y, Near (SupersededBy w) MAX_CHAIN_DEPTH id y ∧
        Unreadable host (fault (.resolve_head id)) w y) ∨
    ∃ head, (store_execute host fault w).resolve_head id = .ok head ∧
      (∀ y, Near (SupersededBy w) MAX_CHAIN_DEPTH id y →
        ¬ Unreadable host (fault (.resolve_head id)) w y) ∧
      HeadsNear w MAX_CHAIN_DEPTH id (head_ids head) := by
  rcases resolve_head_sweeps host (fault (.resolve_head id)) w id with
    ⟨e, hrun, hwhy⟩ | ⟨r, hrun, -, hserved, hheads⟩
  · have hanswer :
        (ops.dispatch host (.resolve_head id)).run (host.failing (fault (.resolve_head id))) w
        = (.error e, w) := run_bind_error hrun
    refine .inl ⟨⟨e, ?_⟩, hwhy.resolve_left fun h => h hx⟩
    simp only [store_execute, hanswer]
    rfl
  · have hanswer :
        (ops.dispatch host (.resolve_head id)).run (host.failing (fault (.resolve_head id))) w
        = (.ok (.head r), w) := (run_bind_ok hrun).trans rfl
    refine .inr ⟨answer_json (.head r), ?_, hserved, ?_⟩
    · simp only [store_execute, hanswer]
      rfl
    · rwa [head_ids_answer]

/-! ## What is flagged -/

/-- The two kinds of findings about the currency of a memory. -/
def StatusKind (kind : String) : Prop :=
  kind = "memory_superseded" ∨ kind = "memory_status_unverified"

/-- A reference is flagged when its memory is found, and its heads are not, or it is not among
them. -/
theorem check_memory_ref_status {execute : Execute} {memory_id : String} {recorded_hash : Json}
    {check_superseded : Bool} :
    (∃ f ∈ check_memory_ref rt execute memory_id recorded_hash check_superseded,
      StatusKind f.kind) ↔
      (∃ record text, execute.get memory_id = .ok record ∧ memory_text record = some text) ∧
      ((∃ e, execute.resolve_head memory_id = .error e) ∨
        ∃ head, execute.resolve_head memory_id = .ok head ∧ head_ids head ≠ [] ∧
          memory_id ∉ head_ids head ∧ check_superseded = true) := by
  -- flags of what is missing or changed say nothing about the status
  have hmissing : ∀ detail, ¬ ∃ f ∈ [(⟨"memory_missing", detail⟩ : RefFlag)],
      StatusKind f.kind := by
    intro detail
    simp [StatusKind]
  have hchanged : ∀ c : Bool,
      ∀ f ∈ (if c then [(⟨"memory_content_changed", "text hash mismatch"⟩ : RefFlag)]
      else []), ¬ StatusKind f.kind := by
    intro c f hf hkind
    split at hf
    · rw [List.mem_singleton.mp hf] at hkind
      simp [StatusKind] at hkind
    · cases hf
  unfold check_memory_ref
  cases hget : execute.get memory_id with
  | error e =>
    refine iff_of_false (hmissing _) ?_
    rintro ⟨⟨record, text, h, -⟩, -⟩
    cases h
  | ok record =>
    cases htext : memory_text record with
    | none =>
      simp only [htext]
      refine iff_of_false (hmissing _) ?_
      rintro ⟨⟨record, text, h, hsome⟩, -⟩
      cases h
      rw [htext] at hsome
      cases hsome
    | some text =>
      simp only [htext]
      have hfound : ∃ record' text, Except.ok (ε := Exn) record = .ok record' ∧
          memory_text record' = some text := ⟨record, text, rfl, htext⟩
      -- the text is there, and its head is asked for
      cases hresolve : execute.resolve_head memory_id with
      | error e =>
        refine iff_of_true ⟨_, List.mem_append_right _ List.mem_cons_self, .inr rfl⟩ ?_
        exact ⟨hfound, .inl ⟨e, rfl⟩⟩
      | ok head =>
        simp only
        split
        · rename_i hc
          refine iff_of_true ⟨_, List.mem_append_right _ List.mem_cons_self, .inl rfl⟩ ?_
          exact ⟨hfound, .inr ⟨head, rfl, hc⟩⟩
        · rename_i hc
          refine iff_of_false ?_ ?_
          · rintro ⟨f, hf, hkind⟩
            exact hchanged _ f hf hkind
          · rintro ⟨-, ⟨e, h⟩ | ⟨head', h, hwhy⟩⟩
            · cases h
            · cases h
              exact hc hwhy

/-- The entry says that the memory is history. -/
def historical (d : Dict) : Bool :=
  match Dict.get d "historical" with
  | .bool true => true
  | _ => false

/-- A page lists an entry as one of its sources. -/
def Lists (site : Site) (page : Page) (d : Dict) : Prop :=
  ∃ markdown front items, page.read_text = .ok markdown ∧
    parse_frontmatter site.safe_load markdown = .ok front ∧
    source_entries page front = .ok items ∧ Json.obj d ∈ items

theorem starts_with_append (start s : String) : starts_with (start ++ s) start = true := by
  unfold starts_with
  rw [List.isPrefixOf_iff_prefix, String.toList_append]
  exact List.prefix_append _ _

/-- A reference to a memory is checked against the store, and for supersession unless it is
historical. -/
theorem check_ref_mem {site : Site} {execute : Execute} {check_superseded : Bool} {d : Dict}
    (id : Id) :
    check_ref rt site execute check_superseded d ("mem:" ++ id) =
      .ok (check_memory_ref rt execute id (Dict.get d "content_hash")
        (check_superseded && !historical d)) := by
  have hid : String.ofList (("mem:" ++ id).toList.drop 4) = id := by
    rw [String.toList_append]
    change String.ofList id.toList = id
    exact String.ofList_toList
  unfold check_ref
  rw [if_pos (starts_with_append "mem:" id), hid]
  rfl

/-- What an entry that refers to a memory is flagged for. -/
theorem check_entry_mem {site : Site} {execute : Execute} {rel : String} {check_superseded : Bool}
    {d : Dict} {id : Id} (hd : Dict.get d "ref" = .str ("mem:" ++ id)) :
    ∃ flags, check_entry rt site execute rel check_superseded (.obj d) = .ok flags ∧
      ((∃ f ∈ flags, StatusKind f.kind) ↔
        ∃ f ∈ check_memory_ref rt execute id (Dict.get d "content_hash")
          (check_superseded && !historical d), StatusKind f.kind) ∧
      ∀ f ∈ flags, f.page = rel ∧ f.ref = some ("mem:" ++ id) := by
  refine ⟨(if (Dict.get d "content_hash").truthy then []
      else [⟨⟨"missing_content_hash", ""⟩, rel, some ("mem:" ++ id)⟩]) ++
    (check_memory_ref rt execute id (Dict.get d "content_hash")
      (check_superseded && !historical d)).map fun f => ⟨f, rel, some ("mem:" ++ id)⟩, ?_, ?_, ?_⟩
  · unfold check_entry
    simp only [hd, check_ref_mem]
    rfl
  · -- a missing hash is flagged, but not as a status
    have hmissing : ∀ f ∈ (if (Dict.get d "content_hash").truthy then []
        else [(⟨⟨"missing_content_hash", ""⟩, rel, some ("mem:" ++ id)⟩ : Flag)]),
        ¬ StatusKind f.kind := by
      intro f hf
      split at hf
      · cases hf
      · rw [List.mem_singleton.mp hf]
        simp [StatusKind]
    constructor
    · rintro ⟨f, hf, hkind⟩
      rcases List.mem_append.mp hf with hf | hf
      · exact absurd hkind (hmissing f hf)
      · obtain ⟨g, hg, rfl⟩ := List.mem_map.mp hf
        exact ⟨g, hg, hkind⟩
    · rintro ⟨g, hg, hkind⟩
      exact ⟨_, List.mem_append_right _ (List.mem_map_of_mem hg), hkind⟩
  · intro f hf
    rcases List.mem_append.mp hf with hf | hf
    · split at hf
      · cases hf
      · rw [List.mem_singleton.mp hf]
        exact ⟨rfl, rfl⟩
    · obtain ⟨g, -, rfl⟩ := List.mem_map.mp hf
      exact ⟨rfl, rfl⟩

/-- A flag with a reference comes from an entry with that reference. -/
theorem flag_of_entry {site : Site} {execute : Execute} {rel : String} {check_superseded : Bool}
    {entry : Json} {flags : List Flag} {ref : String}
    (h : check_entry rt site execute rel check_superseded entry = .ok flags) {f : Flag}
    (hf : f ∈ flags) (href : f.ref = some ref) :
    f.page = rel ∧ ∃ d, entry = .obj d ∧ Dict.get d "ref" = .str ref := by
  have hmalformed : ∀ flags : List Flag, Except.ok (ε := Exn)
      [(⟨⟨"malformed_source_entry", fmt rt entry⟩, rel, none⟩ : Flag)] = .ok flags →
        f ∈ flags → False := by
    intro flags hflags hf
    cases hflags
    rw [List.mem_singleton.mp hf] at href
    cases href
  unfold check_entry at h
  cases entry with
  | obj d =>
    simp only at h
    split at h
    · rename_i s hs
      obtain ⟨found, -, h⟩ := Except.bind_ok.mp h
      cases h
      rcases List.mem_append.mp hf with hf | hf
      · split at hf
        · cases hf
        · rw [List.mem_singleton.mp hf] at href ⊢
          cases href
          exact ⟨rfl, d, rfl, hs⟩
      · obtain ⟨g, -, rfl⟩ := List.mem_map.mp hf
        cases href
        exact ⟨rfl, d, rfl, hs⟩
    · exact (hmalformed flags h hf).elim
  | _ => exact (hmalformed flags h hf).elim

/-- Nothing else on a page is flagged with a reference. -/
theorem check_page_flags {site : Site} {execute : Execute} {page : Page} {flags : List Flag}
    (h : check_page rt site execute page = .ok flags) {f : Flag} {ref : String}
    (href : f.ref = some ref) :
    f ∈ flags ↔ ∃ d, Lists site page d ∧ ∃ found,
      check_entry rt site execute page.rel (!is_blog page.rel) (.obj d) = .ok found ∧
        f ∈ found := by
  unfold check_page at h
  obtain ⟨markdown, hmarkdown, h⟩ := Except.bind_ok.mp h
  obtain ⟨front, hfront, h⟩ := Except.bind_ok.mp h
  obtain ⟨items, hitems, h⟩ := Except.bind_ok.mp h
  obtain ⟨found, hfound, h⟩ := Except.bind_ok.mp h
  obtain ⟨links, -, h⟩ := Except.bind_ok.mp h
  cases h
  have hlists : ∀ d, Lists site page d ↔ Json.obj d ∈ items := by
    intro d
    constructor
    · rintro ⟨markdown', front', items', hmarkdown', hfront', hitems', hd⟩
      rw [hmarkdown] at hmarkdown'
      cases hmarkdown'
      rw [hfront] at hfront'
      cases hfront'
      rw [hitems] at hitems'
      cases hitems'
      exact hd
    · exact fun hd => ⟨markdown, front, items, hmarkdown, hfront, hitems, hd⟩
  -- the flags of the metadata and of the links name no reference
  have hmetadata : f ∉ check_metadata page front := by
    intro hf
    unfold check_metadata at hf
    have hnone : f.ref = none := by
      split at hf
      · cases hf
      · simp only [List.mem_append] at hf
        rcases hf with (hf | hf) | hf
        · split at hf
          · rw [List.mem_singleton.mp hf]
          · cases hf
        · split at hf
          · rw [List.mem_singleton.mp hf]
          · cases hf
        · split at hf
          · cases hf
          · rw [List.mem_singleton.mp hf]
    rw [hnone] at href
    cases href
  have hlinks : f ∉ links.map fun g => (⟨g, page.rel, none⟩ : Flag) := by
    intro hf
    obtain ⟨g, -, rfl⟩ := List.mem_map.mp hf
    cases href
  rw [List.mem_append, List.mem_append, List.mem_flatten]
  constructor
  · rintro ((hf | ⟨flags, hflags, hf⟩) | hf)
    · exact absurd hf hmetadata
    · obtain ⟨entry, hentry, hchecked⟩ := (Except.mem_of_mapM hfound flags).mp hflags
      obtain ⟨-, d, rfl, -⟩ := flag_of_entry hchecked hf href
      exact ⟨d, (hlists d).mpr hentry, flags, hchecked, hf⟩
    · exact absurd hf hlinks
  · rintro ⟨d, hd, flags, hchecked, hf⟩
    have hmem := (Except.mem_of_mapM hfound flags).mpr ⟨_, (hlists d).mp hd, hchecked⟩
    exact .inl (.inr ⟨flags, hmem, hf⟩)

/-- The references of a report that are flagged for their status. -/
theorem run_check_status {site : Site} {execute : Execute} {report : Report}
    (h : run_check rt site execute = .ok report) (rel : String) (id : Id) :
    (∃ f ∈ report.flags, f.page = rel ∧ f.ref = some ("mem:" ++ id) ∧ StatusKind f.kind) ↔
      ∃ page ∈ site.pages, page.rel = rel ∧ ∃ d, Lists site page d ∧
        Dict.get d "ref" = .str ("mem:" ++ id) ∧
        ∃ f ∈ check_memory_ref rt execute id (Dict.get d "content_hash")
          (!is_blog page.rel && !historical d), StatusKind f.kind := by
  unfold run_check at h
  obtain ⟨found, hfound, h⟩ := Except.bind_ok.mp h
  obtain ⟨nav, hnav, h⟩ := Except.bind_ok.mp h
  cases h
  -- the flags of the navigation name no reference
  have hroutes : ∀ f ∈ nav, f.ref = none := by
    intro f hf
    unfold nav_flags at hnav
    split at hnav
    · cases hnav
      cases hf
    · obtain ⟨routes, -, hnav⟩ := Except.bind_ok.mp hnav
      cases hnav
      rcases List.mem_append.mp hf with hf | hf
      · obtain ⟨g, -, rfl⟩ := List.mem_map.mp hf
        rfl
      · obtain ⟨g, -, rfl⟩ := List.mem_map.mp hf
        rfl
  constructor
  · rintro ⟨f, hf, hrel, href, hkind⟩
    rcases List.mem_append.mp hf with hf | hf
    · obtain ⟨flags, hflags, hf⟩ := List.mem_flatten.mp hf
      obtain ⟨page, hpage, hchecked⟩ := (Except.mem_of_mapM hfound flags).mp hflags
      obtain ⟨d, hd, flags', hentry, hf⟩ := (check_page_flags hchecked href).mp hf
      obtain ⟨hsame, d', hobj, href⟩ := flag_of_entry hentry hf href
      cases hobj
      obtain ⟨flags'', hentry', hstatus, -⟩ :=
        @check_entry_mem rt site execute page.rel (!is_blog page.rel) d id href
      rw [hentry] at hentry'
      cases hentry'
      exact ⟨page, hpage, hsame.symm.trans hrel, d, hd, href, hstatus.mp ⟨f, hf, hkind⟩⟩
    · rw [hroutes f hf] at href
      cases href
  · rintro ⟨page, hpage, hrel, d, hd, href, hkinds⟩
    obtain ⟨flags, hchecked⟩ : ∃ flags, check_page rt site execute page = .ok flags :=
      Except.mapM_returns.mp ⟨found, hfound⟩ page hpage
    obtain ⟨flags', hentry, hstatus, hall⟩ :=
      @check_entry_mem rt site execute page.rel (!is_blog page.rel) d id href
    obtain ⟨f, hf, hkind⟩ := hstatus.mpr hkinds
    obtain ⟨hsame, href'⟩ := hall f hf
    have hmem := (check_page_flags hchecked href').mpr ⟨d, hd, flags', hentry, hf⟩
    refine ⟨f, List.mem_append_left _ (List.mem_flatten.mpr ⟨flags, ?_, hmem⟩),
      hsame.trans hrel, href', hkind⟩
    exact (Except.mem_of_mapM hfound flags).mpr ⟨page, hpage, hchecked⟩

/-! ## When the checker gets through -/

/-- The files an entry of a page refers to can be read. -/
def ReadableEntry (rt : Runtime) (site : Site) (entry : Json) : Prop :=
  ∀ d ref, entry = .obj d → Dict.get d "ref" = .str ref → starts_with ref "mem:" = false →
    starts_with ref "sources/" = true →
    ∃ found, check_source_ref rt site ref (Dict.get d "content_hash") = .ok found

/-- A page and what it refers to can be read. -/
structure ReadablePage (rt : Runtime) (site : Site) (page : Page) : Prop where
  content : ∃ markdown front items, page.read_text = .ok markdown ∧
    parse_frontmatter site.safe_load markdown = .ok front ∧ source_entries page front = .ok items ∧
    (∀ entry ∈ items, ReadableEntry rt site entry) ∧
    ∃ found, check_body_links site page.rel markdown = .ok found

/-- The pages of the wiki, and its navigation, can be read. -/
def Readable (rt : Runtime) (site : Site) : Prop :=
  (∀ page ∈ site.pages, ReadablePage rt site page) ∧ ∃ flags, nav_flags site = .ok flags

/-- An entry is checked without raising exactly when it is readable. -/
theorem check_entry_returns {site : Site} {execute : Execute} {rel : String}
    {check_superseded : Bool} {entry : Json} :
    (∃ flags, check_entry rt site execute rel check_superseded entry = .ok flags) ↔
      ReadableEntry rt site entry := by
  unfold ReadableEntry check_entry
  cases entry with
  | obj d =>
    simp only
    split
    · rename_i ref href
      -- of the references only those into the sources can raise
      have hfound : (∃ found, check_ref rt site execute check_superseded d ref = .ok found) ↔
          (starts_with ref "mem:" = false → starts_with ref "sources/" = true →
            ∃ found, check_source_ref rt site ref (Dict.get d "content_hash") = .ok found) := by
        unfold check_ref
        simp only
        by_cases hmem : starts_with ref "mem:" = true
        · rw [if_pos hmem]
          exact iff_of_true ⟨_, rfl⟩ fun h => by rw [hmem] at h; cases h
        · rw [if_neg hmem]
          rw [Bool.not_eq_true] at hmem
          by_cases hsource : starts_with ref "sources/" = true
          · rw [if_pos hsource]
            exact ⟨fun h _ _ => h, fun h => h hmem hsource⟩
          · rw [if_neg hsource]
            exact iff_of_true ⟨_, rfl⟩ fun _ h => absurd h hsource
      constructor
      · rintro ⟨flags, h⟩ d' ref' hd href' hmem hsource
        cases hd
        rw [href] at href'
        cases href'
        obtain ⟨found, hcheck, -⟩ := Except.bind_ok.mp h
        exact hfound.mp ⟨found, hcheck⟩ hmem hsource
      · intro h
        obtain ⟨found, hcheck⟩ := hfound.mpr fun hmem hsource => h d ref rfl href hmem hsource
        exact ⟨_, Except.bind_ok.mpr ⟨found, hcheck, rfl⟩⟩
    · rename_i hnot
      refine iff_of_true ⟨_, rfl⟩ fun d' ref hd href => ?_
      cases hd
      exact absurd href (hnot ref)
  | _ => exact iff_of_true ⟨_, rfl⟩ fun d ref h => by cases h

/-- A page is checked without raising exactly when it is readable. -/
theorem check_page_returns {site : Site} {execute : Execute} {page : Page} :
    (∃ flags, check_page rt site execute page = .ok flags) ↔ ReadablePage rt site page := by
  unfold check_page
  constructor
  · rintro ⟨flags, h⟩
    obtain ⟨markdown, hmarkdown, h⟩ := Except.bind_ok.mp h
    obtain ⟨front, hfront, h⟩ := Except.bind_ok.mp h
    obtain ⟨items, hitems, h⟩ := Except.bind_ok.mp h
    obtain ⟨found, hfound, h⟩ := Except.bind_ok.mp h
    obtain ⟨links, hlinks, -⟩ := Except.bind_ok.mp h
    refine ⟨markdown, front, items, hmarkdown, hfront, hitems, fun entry hentry => ?_,
      links, hlinks⟩
    exact check_entry_returns.mp (Except.mapM_returns.mp ⟨found, hfound⟩ entry hentry)
  · rintro ⟨markdown, front, items, hmarkdown, hfront, hitems, hentries, links, hlinks⟩
    obtain ⟨found, hfound⟩ := Except.mapM_returns.mpr fun entry hentry =>
      (@check_entry_returns rt site execute page.rel (!is_blog page.rel) entry).mpr
        (hentries entry hentry)
    refine ⟨_, Except.bind_ok.mpr ⟨markdown, hmarkdown, Except.bind_ok.mpr ⟨front, hfront,
      Except.bind_ok.mpr ⟨items, hitems, Except.bind_ok.mpr ⟨found, hfound,
        Except.bind_ok.mpr ⟨links, hlinks, rfl⟩⟩⟩⟩⟩⟩

/-- The checker gets through when everything can be read, whatever the store answers. -/
theorem run_check_returns {site : Site} {execute : Execute} :
    (∃ report, run_check rt site execute = .ok report) ↔ Readable rt site := by
  unfold run_check Readable
  constructor
  · rintro ⟨report, h⟩
    obtain ⟨found, hfound, h⟩ := Except.bind_ok.mp h
    obtain ⟨nav, hnav, -⟩ := Except.bind_ok.mp h
    exact ⟨fun page hpage => check_page_returns.mp (Except.mapM_returns.mp ⟨found,
      hfound⟩ page hpage), nav, hnav⟩
  · rintro ⟨hpages, nav, hnav⟩
    obtain ⟨found, hfound⟩ := Except.mapM_returns.mpr fun page hpage =>
      (@check_page_returns rt site execute page).mpr (hpages page hpage)
    exact ⟨_, Except.bind_ok.mpr ⟨found, hfound, Except.bind_ok.mpr ⟨nav, hnav, rfl⟩⟩⟩

/-! ## Currency -/

/-- A page that gives current guidance refers to the memory, and not as history. -/
def Cites (site : Site) (page : Page) (id : Id) : Prop :=
  page ∈ site.pages ∧ is_blog page.rel = false ∧
    ∃ d, Lists site page d ∧ Dict.get d "ref" = .str ("mem:" ++ id) ∧ historical d = false

/-- The report flags the status of a memory on a page. -/
def Reported (result : Except Exn Report) (page : Page) (id : Id) : Prop :=
  ∃ report, result = .ok report ∧
    ∃ f ∈ report.flags, f.page = page.rel ∧ f.ref = some ("mem:" ++ id) ∧ StatusKind f.kind

/-- What the report says of the memories that current guidance refers to: the superseded ones
are flagged, and the active ones are not, when their heads are found. -/
def Currency (rt : Runtime) (site : Site) (host : Host)
    (fault : ops.Request → Call → World → Option Exn) (w : World) : Prop :=
  ∀ page id, Cites site page id → Stored w id →
    (successors w id ≠ [] → Reported (run_check rt site (store_execute host fault w)) page id) ∧
    (successors w id = [] → (∃ head, (store_execute host fault w).resolve_head id = .ok head) →
      ¬ Reported (run_check rt site (store_execute host fault w)) page id)

/-- The store answers with a text, and either its walk to the heads fails or it meets one. -/
def Verifiable (host : Host) (fault : ops.Request → Call → World → Option Exn) (w : World)
    (id : Id) : Prop :=
  ¬ Unreadable host (fault (.get id)) w id ∧ HasText w id ∧
    ((∃ y, Near (SupersededBy w) MAX_CHAIN_DEPTH id y ∧
      Unreadable host (fault (.resolve_head id)) w y) ∨
      ∃ y, Near (SupersededBy w) MAX_CHAIN_DEPTH id y ∧ Tip w y)

/-- A superseded memory is flagged where the checker finds its text and is not left without
heads. -/
theorem superseded_status {id : Id} {recorded_hash : Json} (hx : Stored w id)
    (hids : successors w id ≠ []) :
    (∃ f ∈ check_memory_ref rt (store_execute host fault w) id recorded_hash true,
      StatusKind f.kind) ↔
      Verifiable host fault w id := by
  rw [check_memory_ref_status, store_get_text hx, Verifiable, and_assoc]
  refine and_congr_right fun _ => and_congr_right fun _ => ?_
  rcases store_resolve_cases hx with ⟨hfails, hunreadable⟩ | ⟨head, hok, hserved, hheads⟩
  · exact iff_of_true (.inl hfails) (.inl hunreadable)
  · -- a superseded memory is no head, so that it is missing from any heads there are
    have hnot : id ∉ head_ids head := fun h => hids ((hheads.exact id).mp h).2.head.2
    constructor
    · rintro (⟨e, he⟩ | ⟨head', hok', hne, -⟩)
      · rw [hok] at he
        cases he
      · rw [hok] at hok'
        cases hok'
        obtain ⟨y, hy⟩ := List.exists_mem_of_ne_nil _ hne
        exact .inr ⟨y, (hheads.exact y).mp hy⟩
    · rintro (⟨y, hy, hunreadable⟩ | ⟨y, hy⟩)
      · exact absurd hunreadable (hserved y hy)
      · exact .inr ⟨head, hok, List.ne_nil_of_mem ((hheads.exact y).mpr hy), hnot, rfl⟩

/-- An active memory is not flagged when its heads are found. -/
theorem active_status {id : Id} {recorded_hash : Json} {check_superseded : Bool} (hx : Stored w id)
    (hids : successors w id = []) {head : Json}
    (hhead : (store_execute host fault w).resolve_head id = .ok head) :
    ¬ ∃ f ∈ check_memory_ref rt (store_execute host fault w) id recorded_hash check_superseded,
      StatusKind f.kind := by
  rw [check_memory_ref_status]
  rintro ⟨-, ⟨e, he⟩ | ⟨head', hok', hne, hnot, -⟩⟩
  · rw [hhead] at he
    cases he
  rw [hhead] at hok'
  cases hok'
  rcases store_resolve_cases hx with ⟨⟨e, hfails⟩, -⟩ | ⟨head', hok, -, hheads⟩
  · rw [hhead] at hfails
    cases hfails
  rw [hhead] at hok
  cases hok
  -- whatever head there is, it is the memory itself
  obtain ⟨y, hy⟩ := List.exists_mem_of_ne_nil _ hne
  have hreach := ((hheads.exact y).mp hy).1.reach
  rcases ReflTransGen.cases_head hreach with rfl | ⟨z, hz, -⟩
  · exact hnot hy
  · rw [SupersededBy, hids] at hz
    simp at hz

/-- **Currency of a wiki.** For every store and every wiki, the checker flags every superseded
memory that current guidance refers to, and no active one whose heads are found, if and only
if for each such superseded memory the wiki can be read, the store shows its text, and the
walk to its heads fails or meets one within the depth limit. -/
theorem superseded_reported (rt : Runtime) (site : Site) (host : Host)
    (fault : ops.Request → Call → World → Option Exn) (w : World) :
    Currency rt site host fault w ↔
      ∀ page id, Cites site page id → Stored w id → successors w id ≠ [] →
        Readable rt site ∧ Verifiable host fault w id := by
  constructor
  -- a page that is flagged was read, and the memory it cites was looked up
  · intro h page id hcites hx hids
    obtain ⟨report, hrun, hflag⟩ := (h page id hcites hx).1 hids
    obtain ⟨page', -, hrel, d, -, -, hstatus⟩ := (run_check_status hrun page.rel id).mp hflag
    have hiff := @superseded_status rt host fault w id (Dict.get d "content_hash") hx hids
    refine ⟨run_check_returns.mp ⟨report, hrun⟩, hiff.mp ?_⟩
    rw [check_memory_ref_status] at hstatus ⊢
    refine ⟨hstatus.1, hstatus.2.imp_right ?_⟩
    rintro ⟨head, hok, hne, hnot, -⟩
    exact ⟨head, hok, hne, hnot, rfl⟩
  · intro h page id hcites hx
    refine ⟨fun hids => ?_, fun hids hhead => ?_⟩
    · obtain ⟨hreadable, hverifiable⟩ := h page id hcites hx hids
      obtain ⟨hpage, hblog, d, hd, href, hcurrent⟩ := hcites
      obtain ⟨report, hrun⟩ :=
        (@run_check_returns rt site (store_execute host fault w)).mpr hreadable
      refine ⟨report, hrun, (run_check_status hrun page.rel id).mpr ⟨page, hpage, rfl, d,
        hd, href, ?_⟩⟩
      rw [hblog, hcurrent]
      exact (superseded_status hx hids).mpr hverifiable
    · rintro ⟨report, hrun, hflag⟩
      obtain ⟨head, hhead⟩ := hhead
      obtain ⟨page', -, hrel, d, -, -, hstatus⟩ := (run_check_status hrun page.rel id).mp hflag
      exact active_status hx hids hhead hstatus

/-- A page that cites one memory. -/
def one_page : Site where
  pages := [⟨"content/docs/a.md", "a.md", .ok "---\ncites m1\n---\ntext\n"⟩]
  safe_load _ := .ok (some (.obj [("summary", .str "s"), ("topic_key", .str "k"),
    ("sources", .list [.obj [("ref", .str "mem:m1"), ("content_hash", .str "#A")]])]))
  locate _ := .ok .missing
  read_section _ _ := .ok none
  follow _ _ := .ok .missing
  nav := none

/-- The memory it cites was superseded by another one, which was deleted since: the report is
clean. -/
theorem dangling_unreported :
    run_check .plain one_page (store_execute .plain (fun _ _ _ => none) (Step.runs .plain dangling))
        = .ok ⟨1, 0, [], true⟩ ∧
      ¬ Currency .plain one_page .plain (fun _ _ _ => none) (Step.runs .plain dangling) := by
  have hrun : run_check .plain one_page
      (store_execute .plain (fun _ _ _ => none) (Step.runs .plain dangling)) =
        .ok ⟨1, 0, [], true⟩ := rfl
  refine ⟨hrun, fun h => ?_⟩
  have hcites : Cites one_page
      ⟨"content/docs/a.md", "a.md", .ok "---\ncites m1\n---\ntext\n"⟩ "m1" :=
    ⟨List.mem_cons_self, by decide, _, ⟨_, _, _, rfl, rfl, rfl, List.mem_cons_self⟩, rfl, rfl⟩
  have hstored : Stored (Step.runs .plain dangling) "m1" := by
    unfold Stored
    decide
  obtain ⟨report, hreport, f, hf, -⟩ := (h _ _ hcites hstored).1 (by decide)
  rw [hrun] at hreport
  cases hreport
  cases hf

end wiki

end Memline
