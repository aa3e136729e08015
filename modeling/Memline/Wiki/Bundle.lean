/-
The evidence bundle an article is written from.

References are memories, with or without `mem:` in front of their ids, or sections of documents.
Each one that can be read goes into the bundle, its text sanitized; the others are listed as
unresolved. A reference is dropped when it was given before, in the same spelling.
-/
import Memline.Lib.Keyed
import Memline.Sanitizer
import Memline.Wiki.Currency

set_option autoImplicit false

namespace Memline.bundle

open Py wiki

/-! ## What is in a bundle -/

structure BundledMemory where
  id : String
  created_at : Json
  writer : Json
  /-- Nothing when the store could not tell. -/
  superseded : Option Bool
  sha256 : String
  text : String

structure SourceSection where
  ref : String
  document : String
  heading : Option String
  sha256 : String
  text : String

/-- A reference that could not be read, and why. -/
structure Unresolved where
  ref : String
  error : String
  deriving DecidableEq

structure Bundle where
  unresolved : List Unresolved := []
  sanitized : Bool := true
  placeholder_counts : List (String × ℕ) := []
  review_flags : List ReviewFlag := []
  memories : List BundledMemory
  source_sections : List SourceSection

/-! ## References -/

/-- The documents below the wiki root. -/
structure Root where
  /-- Where a path from the root leads. -/
  locate : String → Target
  read_section : String → Option String → Option String

variable (rt : Runtime)

/-- One `sources/<path>#<heading>` citation as bundle material. -/
def resolve_source (root : Root) (ref : String) : Unresolved ⊕ SourceSection :=
  let (path_part, heading) := partition_mark ref
  let heading := if heading = "" then none else some heading
  match root.locate path_part with
  | .outside => .inl ⟨ref, "path escapes the wiki root"⟩
  | .missing => .inl ⟨ref, "file missing"⟩
  | .found =>
    match root.read_section path_part heading with
    | none => .inl ⟨ref, "section not found"⟩
    | some text => .inr ⟨ref, path_part, heading, sha256_text rt text, text⟩

/-- `type(x).__name__`. -/
def type_name : Json → String
  | .null => "NoneType"
  | .bool _ => "bool"
  | .int _ => "int"
  | .float _ => "float"
  | .str _ => "str"
  | .list _ => "list"
  | .obj _ => "dict"

/-- `(metadata or {}).get("writer_agent_id")`. -/
def writer_of (metadata : Json) : Except Exn Json :=
  match metadata.or_else (.obj []) with
  | .obj fields => .ok (Dict.get fields "writer_agent_id")
  | x => .error (.other ("'" ++ type_name x ++ "' object has no attribute 'get'"))

/-- A field of a record, where it has fields. -/
def record_get (record : Json) (key : String) : Json :=
  match record with
  | .obj fields => Dict.get fields key
  | _ => .null

/-- Whether a memory has other heads than itself, if the store can tell. -/
def is_superseded (execute : Execute) (memory_id : String) : Option Bool :=
  match execute.resolve_head memory_id with
  | .error _ => none
  | .ok head => some ((head_ids head).any fun id => id ≠ memory_id)

/-- One memory as it should appear in a bundle, or an error entry. -/
def resolve_one (execute : Execute)
    (memory_id : String) : Except Exn (Unresolved ⊕ BundledMemory) :=
  match execute.get memory_id with
  -- what cannot be read is listed, and stops nothing
  | .error exc => .ok (.inl ⟨memory_id, exc.toStr⟩)
  | .ok record =>
    match memory_text record with
    | none => .ok (.inl ⟨memory_id, "record has no memory text"⟩)
    | some text => do
      let writer ← writer_of (record_get record "metadata")
      pure <| .inr ⟨memory_id, record_get record "created_at", writer,
        is_superseded execute memory_id, sha256_text rt text, text⟩

def is_source (ref : String) : Bool := starts_with ref "sources/"

/-- `ref[4:] if ref.startswith("mem:") else ref`. -/
def memory_id_of (ref : String) : String :=
  if starts_with ref "mem:" then String.ofList (ref.toList.drop 4) else ref

/-- The memory ids among the references, in order; a reference is dropped when it was there
before. -/
def memory_ids (refs : List String) : List String :=
  (refs.eraseDups.filter fun ref => !is_source ref).map memory_id_of

/-- The documents among the references. -/
def source_refs (refs : List String) : List String := refs.eraseDups.filter is_source

/-! ## The bundle -/

/-- Some texts are scrubbed, one after the other, by one sanitizer. -/
def scrub_all {α : Type} (text : α → String) (put : α → String → α) : List α →
    StateM Sanitizer (List α)
  | [] => pure []
  | x :: xs => do
    let (s, scrubbed) := (← get).scrub (text x)
    set s
    let rest ← scrub_all text put xs
    pure (put x scrubbed :: rest)

def scrub_memories : List BundledMemory → StateM Sanitizer (List BundledMemory) :=
  scrub_all BundledMemory.text fun m text => { m with text }

def scrub_sections : List SourceSection → StateM Sanitizer (List SourceSection) :=
  scrub_all SourceSection.text fun s text => { s with text }

/-- `Sanitizer(redactions) if sanitize else None`. -/
def sanitizer_for (cls : Classes) (domains repo_hosts : Option (List String)) (sanitize : Bool)
    (redactions : List (String × String)) : Except Exn (Option Sanitizer) :=
  if sanitize then do
    let rules ← sanitize_rules cls domains repo_hosts
    pure (some ⟨redactions, rules, {}⟩)
  else .ok none

/-- `sanitizer.mapping`: what each placeholder stands for. -/
def mapping (s : Sanitizer) : List (String × String) :=
  s.numbering.assigned.map fun e => (e.2, e.1.2)

/-- Return the bundle and the placeholder mapping. -/
def build_bundle (cls : Classes) (domains repo_hosts : Option (List String)) (execute : Execute)
    (wiki_root : Option Root) (sanitize : Bool) (redactions : List (String × String))
    (cleared refs : List String) :
    Except Exn (Bundle × List (String × String)) := do
  let resolved ← (memory_ids refs).mapM (resolve_one rt execute)
  let ok := resolved.filterMap Sum.getRight?
  let sources := (wiki_root.map fun root => (source_refs refs).map (resolve_source rt root)).getD []
  let sources_ok := sources.filterMap Sum.getRight?
  let reviewed := cleared ++ redactions.map Prod.fst
  let texts := Keyed.put_all id [] (ok.map (fun m => (m.id, m.text)) ++ sources_ok.map fun s =>
    (s.ref, s.text))
  -- the texts are flagged as they are, before they are scrubbed
  let flags := review_flags cls texts reviewed
  let unresolved := resolved.filterMap Sum.getLeft? ++ sources.filterMap Sum.getLeft?
  match ← sanitizer_for cls domains repo_hosts sanitize redactions with
  | none => pure (⟨unresolved, false, [], flags, ok, sources_ok⟩, [])
  | some s =>
    -- one sanitizer for all texts: a value has the same placeholder everywhere
    let (memories, s) := (scrub_memories ok).run s
    let (source_sections, s) := (scrub_sections sources_ok).run s
    pure (⟨unresolved, true, s.numbering.counts, flags, memories, source_sections⟩, mapping s)

/-! ## Which memories are in it -/

variable {rt}

theorem scrub_all_map {α β : Type} (text : α → String) (put : α → String → α) (f : α → β)
    (hf : ∀ x t, f (put x t) = f x) (xs : List α) (s : Sanitizer) :
    ((scrub_all text put xs).run s).1.map f = xs.map f := by
  induction xs generalizing s with
  | nil => rfl
  | cons x xs ih =>
    show f (put x (s.scrub (text x)).2) ::
      ((scrub_all text put xs).run (s.scrub (text x)).1).1.map f = _
    rw [hf, ih, List.map_cons]

theorem scrub_memories_ids (ms : List BundledMemory) (s : Sanitizer) :
    ((scrub_memories ms).run s).1.map BundledMemory.id = ms.map BundledMemory.id :=
  scrub_all_map BundledMemory.text (fun m text => { m with text }) BundledMemory.id
    (fun _ _ => rfl) ms s

/-- The store has the memory, with a text. -/
def Readable (execute : Execute) (memory_id : String) : Prop :=
  ∃ record, execute.get memory_id = .ok record ∧ (memory_text record).isSome

/-- A memory that was resolved has its id, and could be read. -/
theorem resolve_one_right {execute : Execute} {memory_id : String} {m : BundledMemory}
    (h : resolve_one rt execute memory_id = .ok (.inr m)) :
    m.id = memory_id ∧ Readable execute memory_id := by
  unfold resolve_one at h
  split at h
  · cases h
  · rename_i record hrecord
    split at h
    · cases h
    · rename_i text htext
      obtain ⟨writer, -, h⟩ := Except.bind_ok.mp h
      cases h
      exact ⟨rfl, record, hrecord, by rw [htext]; rfl⟩

/-- A memory that was not resolved could not be read. -/
theorem resolve_one_left {execute : Execute} {memory_id : String} {u : Unresolved}
    (h : resolve_one rt execute memory_id = .ok (.inl u)) : ¬ Readable execute memory_id := by
  rintro ⟨record, hrecord, htext⟩
  unfold resolve_one at h
  rw [hrecord] at h
  dsimp only at h
  split at h
  · rename_i hnone
    rw [hnone] at htext
    cases htext
  · obtain ⟨writer, -, h⟩ := Except.bind_ok.mp h
    cases h

open Classical in
/-- The ids of the memories are those among the references that can be read, as often as they are
there. -/
theorem ids_of_resolved {execute : Execute} {ids : List String}
    {resolved : List (Unresolved ⊕ BundledMemory)}
    (h : ids.mapM (resolve_one rt execute) = .ok resolved) :
    (resolved.filterMap Sum.getRight?).map BundledMemory.id = ids.filter fun id =>
      Readable execute id := by
  induction ids generalizing resolved with
  | nil =>
    cases h
    rfl
  | cons id ids ih =>
    rw [List.mapM_cons] at h
    obtain ⟨one, hone, h⟩ := Except.bind_ok.mp h
    obtain ⟨rest, hrest, h⟩ := Except.bind_ok.mp h
    cases h
    cases one with
    | inl u =>
      rw [List.filterMap_cons_none rfl, ih hrest, List.filter_cons_of_neg]
      simpa using resolve_one_left hone
    | inr m =>
      obtain ⟨hid, hreadable⟩ := resolve_one_right hone
      show m.id :: (rest.filterMap Sum.getRight?).map BundledMemory.id = _
      rw [ih hrest, hid, List.filter_cons_of_pos]
      simpa using hreadable

open Classical in
/-- The memories of a bundle are those of the references that could be read, in their order. -/
theorem build_bundle_ids {cls : Classes} {domains repo_hosts : Option (List String)}
    {execute : Execute} {wiki_root : Option Root} {sanitize : Bool}
    {redactions : List (String × String)} {cleared refs : List String} {b : Bundle}
    {placeholders : List (String × String)}
    (h : build_bundle rt cls domains repo_hosts execute wiki_root sanitize redactions cleared refs =
      .ok (b, placeholders)) :
    b.memories.map BundledMemory.id = (memory_ids refs).filter fun id => Readable execute id := by
  obtain ⟨resolved, hresolved, h⟩ := Except.bind_ok.mp h
  have hids := ids_of_resolved hresolved
  obtain ⟨s, -, h⟩ := Except.bind_ok.mp h
  cases s with
  | none =>
    cases h
    exact hids
  | some s =>
    cases h
    rw [← hids]
    exact scrub_memories_ids _ s

theorem scrub_sections_refs (ss : List SourceSection) (s : Sanitizer) :
    ((scrub_sections ss).run s).1.map SourceSection.ref = ss.map SourceSection.ref :=
  scrub_all_map SourceSection.text (fun s text => { s with text }) SourceSection.ref
    (fun _ _ => rfl) ss s

/-- A section that was resolved has its reference. -/
theorem resolve_source_ref {root : Root} {ref : String} {s : SourceSection}
    (h : resolve_source rt root ref = .inr s) : s.ref = ref := by
  unfold resolve_source at h
  dsimp only at h
  split at h
  · cases h
  · cases h
  · split at h
    · cases h
    · cases h
      rfl

/-- The sections that are read were asked for. -/
theorem refs_of_sources {wiki_root : Option Root} {refs : List String} {ref : String}
    (h : ref ∈ ((((wiki_root.map fun root =>
        (source_refs refs).map (resolve_source rt root)).getD []).filterMap
          Sum.getRight?).map SourceSection.ref)) : ref ∈ source_refs refs := by
  obtain ⟨s, hs, rfl⟩ := List.mem_map.mp h
  obtain ⟨x, hx, hright⟩ := List.mem_filterMap.mp hs
  cases wiki_root with
  | none => cases hx
  | some root =>
    obtain ⟨r, hr, rfl⟩ := List.mem_map.mp hx
    rw [resolve_source_ref (Sum.getRight?_eq_some_iff.mp hright)]
    exact hr

/-- The sections of a bundle are documents that were asked for. -/
theorem build_bundle_sections {cls : Classes} {domains repo_hosts : Option (List String)}
    {execute : Execute} {wiki_root : Option Root} {sanitize : Bool}
    {redactions : List (String × String)} {cleared refs : List String} {b : Bundle}
    {placeholders : List (String × String)}
    (h : build_bundle rt cls domains repo_hosts execute wiki_root sanitize redactions cleared refs =
      .ok (b, placeholders))
    {ref : String} (href : ref ∈ b.source_sections.map SourceSection.ref) :
    ref ∈ refs ∧ is_source ref = true := by
  have hsource : ref ∈ source_refs refs := by
    obtain ⟨resolved, -, h⟩ := Except.bind_ok.mp h
    obtain ⟨s, -, h⟩ := Except.bind_ok.mp h
    cases s with
    | none =>
      cases h
      exact refs_of_sources href
    | some s =>
      cases h
      exact refs_of_sources ((congrArg (fun l => ref ∈ l) (scrub_sections_refs _ _)).mp href)
  obtain ⟨hmem, hkind⟩ := List.mem_filter.mp hsource
  exact ⟨List.mem_eraseDups.mp hmem, hkind⟩

end Memline.bundle
