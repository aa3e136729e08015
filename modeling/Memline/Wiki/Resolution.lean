/-
What a shortened reference stands for, to the verifier and to the packet builder.

Both take an exact reference as it is, and both look for the memories whose ids a shortened one
begins. The verifier looks through the set of the bundle's memory references, the builder through
the list of its memories. The two differ when a memory is in the bundle twice, and it is there twice
when it was asked for with `mem:` before its id and without.
-/
import Mathlib.Order.CompletePartialOrder
import Memline.Lib.Lists
import Memline.Wiki.ReviewBundle

set_option autoImplicit false

namespace Memline.wiki.draft

open Lists Regex bundle

/-! ## What each of them finds -/

/-- The reference a cited one stands for. -/
def Standing.ref (cited : String) : Standing → Option String
  | .known => some cited
  | .abbreviates full => some full
  | .unknown => none

/-- A memory reference that begins like another one. -/
def begins (ref full : String) : Bool := (ref.toList.drop 4).isPrefixOf (full.toList.drop 4)

/-- A prefix is resolved when exactly one known reference begins with it. -/
theorem resolve_prefix_eq_some {ref full : String} {refs : List String} (hrefs : refs.Nodup) :
    resolve_prefix ref refs = some full ↔
      starts_with ref "mem:" = true ∧ Only (begins ref) refs full := by
  have hfilter : refs.filter (begins ref) = [full] ↔ Only (begins ref) refs full := by
    rw [filter_eq_singleton_iff]
    refine and_iff_left_of_imp ?_
    intro honly
    exact List.count_eq_one_of_mem hrefs ((honly full).mpr rfl).1
  have hbegins : (refs.filter fun r => (ref.toList.drop 4).isPrefixOf (r.toList.drop 4)) =
      refs.filter (begins ref) := rfl
  rw [ resolve_prefix]
  by_cases hmem : starts_with ref "mem:" = true
  · rw [if_pos hmem, ← hfilter, and_iff_right hmem]
    simp only [hbegins]
    cases hl : refs.filter (begins ref) with
    | nil => simp
    | cons r rs => cases rs <;> simp
  · rw [if_neg hmem]
    exact iff_of_false (fun h => by cases h) fun h => hmem h.1

/-- The memory references of a bundle, as often as they are there. -/
def refs_of (b : Bundle) : List String := b.memories.map memory_ref

def sections_of (b : Bundle) : List String := b.source_sections.map SourceSection.ref

/-- What the verifier knows: the references and sections of the bundle. -/
theorem mem_known {b : Bundle} {ref : String} :
    ref ∈ (bundle_index b).known ↔ ref ∈ refs_of b ∨ ref ∈ sections_of b := by
  rw [Index.known, List.mem_eraseDups, List.mem_append]
  exact or_congr List.mem_eraseDups List.mem_eraseDups

/-- What the packet builder finds: the references and sections of the bundle. -/
theorem find_isSome {b : Bundle} {ref : String} :
    (Keyed.find id (evidence_index b).index ref).isSome = true ↔
      ref ∈ refs_of b ∨ ref ∈ sections_of b := by
  rw [Keyed.find_isSome, evidence_index, Keyed.mem_slots_put_all, Keyed.slots_append,
    List.mem_append, refs_of, sections_of]
  simp only [Keyed.slots, List.map_nil, List.not_mem_nil, false_or, List.map_map]
  rfl

/-- What the verifier takes a reference for. -/
theorem standing_ref {b : Bundle} {ref full : String}
    (hknown : ¬ (ref ∈ refs_of b ∨ ref ∈ sections_of b)) :
    (standing (bundle_index b) ref).ref ref = some full ↔
      starts_with ref "mem:" = true ∧ Only (begins ref) (refs_of b) full := by
  have honly : Only (begins ref) (refs_of b).eraseDups full ↔
      Only (begins ref) (refs_of b) full := by
    simp only [Only, List.mem_eraseDups]
  rw [standing, if_neg (mt mem_known.mp hknown), ← honly,
    ← resolve_prefix_eq_some (nodup_eraseDups _)]
  have hrefs : (bundle_index b).memory_refs = (refs_of b).eraseDups := rfl
  rw [hrefs]
  cases resolve_prefix ref (refs_of b).eraseDups with
  | none => exact iff_of_false (fun h => by cases h) (fun h => by cases h)
  | some r => exact Iff.rfl

/-- What the builder takes a reference for. -/
theorem resolved_ref {b : Bundle} {ref full : String}
    (hknown : ¬ (ref ∈ refs_of b ∨ ref ∈ sections_of b)) :
    (resolve_reference ref (evidence_index b)).resolved_ref = some full ↔
      starts_with ref "mem:" = true ∧ Only (begins ref) (refs_of b) full ∧
        (refs_of b).count full = 1 := by
  have hnone : Keyed.find id (evidence_index b).index ref = none := by
    rw [← Option.not_isSome_iff_eq_none, find_isSome]
    exact hknown
  have hbegins : ((refs_of b).filter fun r => (ref.toList.drop 4).isPrefixOf (r.toList.drop 4)) =
      (refs_of b).filter (begins ref) :=
    rfl
  have hrefs : (evidence_index b).memory_refs = refs_of b := rfl
  rw [resolve_reference, hnone, ← filter_eq_singleton_iff]
  dsimp only
  by_cases hmem : starts_with ref "mem:" = true
  · rw [if_pos hmem, and_iff_right hmem]
    simp only [hrefs, hbegins]
    cases hl : (refs_of b).filter (begins ref) with
    | nil => simp
    | cons r rs => cases rs <;> simp
  · rw [if_neg hmem]
    exact iff_of_false (fun h => by cases h) fun h => hmem h.1

/-- A known reference is taken for itself by both. -/
theorem resolved_exact {b : Bundle} {ref : String}
    (hknown : ref ∈ refs_of b ∨ ref ∈ sections_of b) :
    (standing (bundle_index b) ref).ref ref =
      (resolve_reference ref (evidence_index b)).resolved_ref := by
  obtain ⟨evidence, hfind⟩ := Option.isSome_iff_exists.mp (find_isSome.mpr hknown)
  rw [standing, if_pos (mem_known.mpr hknown), resolve_reference, hfind]
  rfl

/-- They differ over a reference just when it abbreviates one memory that is in the bundle more than
once. -/
theorem resolved_alike_iff {b : Bundle} {ref : String} :
    (standing (bundle_index b) ref).ref ref =
      (resolve_reference ref (evidence_index b)).resolved_ref ↔
      ∀ full, ¬ (ref ∈ refs_of b ∨ ref ∈ sections_of b) → starts_with ref "mem:" = true →
        Only (begins ref) (refs_of b) full →
        (refs_of b).count full = 1 := by
  by_cases hknown : ref ∈ refs_of b ∨ ref ∈ sections_of b
  · exact iff_of_true (resolved_exact hknown) fun full h => absurd hknown h
  · constructor
    · intro h full _ hmem honly
      have hfull := (standing_ref hknown).mpr ⟨hmem, honly⟩
      rw [h] at hfull
      exact ((resolved_ref hknown).mp hfull).2.2
    · intro h
      apply Option.ext
      intro full
      rw [standing_ref hknown, resolved_ref hknown]
      exact and_congr_right fun hmem => (and_iff_left_of_imp (h full hknown hmem)).symm

/-! ## What a bundle is asked for -/

/-- A memory that was asked for and could be read. -/
def Held (execute : Execute) (refs : List String) (memory_id : String) : Prop :=
  ∃ ref ∈ refs, is_source ref = false ∧ memory_id_of ref = memory_id ∧
    bundle.Readable execute memory_id

/-- A reference is no memory's own and begins the reference of one memory only. -/
def Abbreviates (execute : Execute) (refs : List String) (ref memory_id : String) : Prop :=
  ∃ stem, ref = "mem:" ++ stem ∧ stem ≠ memory_id ∧
    ∀ other, (Held execute refs other ∧ stem.toList <+: other.toList) ↔ other = memory_id

/-- A memory was asked for in both spellings. -/
def AskedTwice (refs : List String) (memory_id : String) : Prop :=
  "mem:" ++ memory_id ∈ refs ∧ memory_id ∈ refs ∧ starts_with memory_id "mem:" = false ∧
    is_source memory_id = false

theorem starts_with_iff {s start : String} :
    starts_with s start = true ↔ ∃ rest, s = start ++ rest := by
  rw [starts_with, List.isPrefixOf_iff_prefix]
  constructor
  · rintro ⟨rest, hrest⟩
    exact ⟨String.ofList rest,
      String.toList_inj.mp (by rw [← hrest, String.toList_append, String.toList_ofList])⟩
  · rintro ⟨rest, rfl⟩
    rw [String.toList_append]
    exact List.prefix_append _ _

theorem memory_id_of_append (memory_id : String) :
    memory_id_of ("mem:" ++ memory_id) = memory_id := by
  have hmem : starts_with ("mem:" ++ memory_id) "mem:" = true :=
    starts_with_iff.mpr ⟨memory_id, rfl⟩
  rw [memory_id_of, if_pos hmem, String.toList_append]
  exact String.ofList_toList

/-- No reference to a memory is one to a source. -/
theorem is_source_mem (memory_id : String) : is_source ("mem:" ++ memory_id) = false := by
  rw [← Bool.not_eq_true, is_source, starts_with, List.isPrefixOf_iff_prefix, String.toList_append]
  intro h
  have hfirst := (List.cons_prefix_cons.mp h).1
  exact absurd hfirst (by decide)

/-- The two spellings of a memory. -/
theorem memory_id_of_eq_iff {ref memory_id : String} :
    memory_id_of ref = memory_id ↔
      ref = "mem:" ++ memory_id ∨ (ref = memory_id ∧ starts_with memory_id "mem:" = false) := by
  by_cases hmem : starts_with ref "mem:" = true
  · obtain ⟨rest, rfl⟩ := starts_with_iff.mp hmem
    rw [memory_id_of_append]
    constructor
    · rintro rfl
      exact .inl rfl
    · rintro (h | ⟨rfl, h⟩)
      · exact (String.append_right_inj _).mp h
      · rw [hmem] at h
        cases h
  · rw [memory_id_of, if_neg hmem]
    rw [Bool.not_eq_true] at hmem
    constructor
    · rintro rfl
      exact .inr ⟨rfl, hmem⟩
    · rintro (rfl | ⟨rfl, -⟩)
      · rw [starts_with_iff.mpr ⟨memory_id, rfl⟩] at hmem
        cases hmem
      · rfl

/-- References to memories begin as their ids do. -/
theorem begins_mem {stem memory_id : String} :
    begins ("mem:" ++ stem) ("mem:" ++ memory_id) = true ↔ stem.toList <+: memory_id.toList := by
  rw [begins, List.isPrefixOf_iff_prefix, String.toList_append, String.toList_append]
  exact Iff.rfl

section bundle

variable {rt : Runtime} {cls : Classes} {domains repo_hosts : Option (List String)}
    {execute : Execute}
  {wiki_root : Option Root} {sanitize : Bool} {redactions : List (String × String)}
  {cleared refs : List String} {b : Bundle} {placeholders : List (String × String)}
  (h : build_bundle rt cls domains repo_hosts execute wiki_root sanitize redactions cleared refs =
    .ok (b, placeholders))

include h

open Classical in
/-- The memory references of a bundle, by the references that were asked for. -/
theorem refs_of_bundle : refs_of b =
    (refs.eraseDups.filter fun ref => !is_source ref &&
      decide (bundle.Readable execute (memory_id_of ref))).map
      fun ref => "mem:" ++ memory_id_of ref := by
  have hids := build_bundle_ids h
  have hrefs : refs_of b = (b.memories.map BundledMemory.id).map fun memory_id =>
      "mem:" ++ memory_id := by
    rw [List.map_map]
    rfl
  rw [hrefs, hids, memory_ids, List.filter_map, List.map_map, List.filter_filter]
  congr 1
  apply List.filter_congr
  intro ref _
  exact Bool.and_comm _ _

/-- The memories that a bundle refers to are those that are held. -/
theorem mem_refs_of {memory_id : String} :
    "mem:" ++ memory_id ∈ refs_of b ↔ Held execute refs memory_id := by
  rw [refs_of_bundle h, List.mem_map]
  simp only [List.mem_filter, List.mem_eraseDups, Bool.and_eq_true, Bool.not_eq_true',
    decide_eq_true_eq, String.append_right_inj]
  constructor
  · rintro ⟨ref, ⟨href, hsource, hread⟩, rfl⟩
    exact ⟨ref, href, hsource, rfl, hread⟩
  · rintro ⟨ref, href, hsource, rfl, hread⟩
    exact ⟨ref, ⟨href, hsource, hread⟩, rfl⟩

/-- A memory is in the bundle once, unless both spellings of it were asked for. -/
theorem count_refs_of {memory_id : String} (hheld : Held execute refs memory_id) :
    (refs_of b).count ("mem:" ++ memory_id) = 1 ↔ ¬ AskedTwice refs memory_id := by
  have hpos : 0 < (refs_of b).count ("mem:" ++ memory_id) :=
    List.count_pos_iff.mpr ((mem_refs_of h).mpr hheld)
  have htwice : 2 ≤ (refs_of b).count ("mem:" ++ memory_id) ↔ AskedTwice refs memory_id := by
    obtain ⟨-, -, -, -, hread⟩ := hheld
    rw [refs_of_bundle h, two_le_count_map ((nodup_eraseDups refs).filter _)]
    simp only [List.mem_filter, List.mem_eraseDups, Bool.and_eq_true, Bool.not_eq_true',
      decide_eq_true_eq, String.append_right_inj, memory_id_of_eq_iff]
    constructor
    · rintro ⟨ref, ⟨href, hs, -⟩, ref', ⟨href', hs', -⟩, hne, hid, hid'⟩
      rcases hid with rfl | ⟨rfl, hm⟩
      · rcases hid' with rfl | ⟨rfl, hm'⟩
        · exact absurd rfl hne
        · exact ⟨href, href', hm', hs'⟩
      · rcases hid' with rfl | ⟨rfl, hm'⟩
        · exact ⟨href', href, hm, hs⟩
        · exact absurd rfl hne
    · rintro ⟨hmem, hbare, hm, hs⟩
      have hread' : bundle.Readable execute (memory_id_of ("mem:" ++ memory_id)) := by
        rwa [memory_id_of_append]
      have hown : memory_id_of memory_id = memory_id := memory_id_of_eq_iff.mpr (.inr ⟨rfl, hm⟩)
      refine ⟨"mem:" ++ memory_id, ⟨hmem, is_source_mem _, hread'⟩, memory_id,
        ⟨hbare, hs, by rwa [hown]⟩, ?_, .inl rfl, .inr ⟨rfl, hm⟩⟩
      intro heq
      rw [← heq, starts_with_iff.mpr ⟨memory_id, rfl⟩] at hm
      cases hm
  rw [← htwice]
  omega

/-- One reference of the bundle begins like another: one memory that was asked for has such an
id. -/
theorem only_begins_iff {stem memory_id : String} :
    Only (begins ("mem:" ++ stem)) (refs_of b) ("mem:" ++ memory_id) ↔
    ∀ other, (Held execute refs other ∧ stem.toList <+: other.toList) ↔ other = memory_id := by
  constructor
  · intro honly other
    rw [← mem_refs_of h, ← begins_mem, honly, String.append_right_inj]
  · intro honly ref
    constructor
    · rintro ⟨hin, hbegins⟩
      rw [refs_of_bundle h] at hin
      obtain ⟨r, -, rfl⟩ := List.mem_map.mp hin
      rw [← refs_of_bundle h] at hin
      rw [(honly _).mp ⟨(mem_refs_of h).mp hin, begins_mem.mp hbegins⟩]
    · rintro rfl
      rw [mem_refs_of h, begins_mem]
      exact (honly memory_id).mpr rfl

/-- A reference to a memory is none to a document. -/
theorem mem_not_section {memory_id : String} : "mem:" ++ memory_id ∉ sections_of b := by
  intro hin
  have hsource := (build_bundle_sections h hin).2
  rw [is_source_mem] at hsource
  cases hsource

/-- **One reading of a citation.** The verifier and the packet builder take each citation of a draft
for the same, unless it shortens the reference of a memory that the bundle has twice. -/
theorem resolve_alike_iff (draft_markdown : String) :
    ∀ token ∈ groups CITATION draft_markdown.toList,
    ((standing (bundle_index b) token).ref token =
      (resolve_reference token (evidence_index b)).resolved_ref ↔
      ∀ memory_id, Abbreviates execute refs token memory_id → ¬ AskedTwice refs memory_id) := by
  intro token _
  rw [resolved_alike_iff]
  constructor
  · rintro halike memory_id ⟨stem, rfl, hne, honly⟩
    rw [← count_refs_of h ((honly memory_id).mpr rfl).1]
    refine halike _ ?_ (starts_with_iff.mpr ⟨stem, rfl⟩) ((only_begins_iff h).mpr honly)
    rintro (hin | hin)
    · exact hne ((honly stem).mp ⟨(mem_refs_of h).mp hin, List.prefix_rfl⟩)
    · exact mem_not_section h hin
  · intro halike full hknown hmem honly
    obtain ⟨stem, rfl⟩ := starts_with_iff.mp hmem
    have hin := ((honly full).mpr rfl).1
    rw [refs_of_bundle h] at hin
    obtain ⟨r, -, rfl⟩ := List.mem_map.mp hin
    rw [← refs_of_bundle h] at hin
    rw [count_refs_of h ((mem_refs_of h).mp hin)]
    refine halike _ ⟨stem, rfl, ?_, (only_begins_iff h).mp honly⟩
    rintro rfl
    exact hknown (.inl hin)

end bundle

/-- A store with one memory. -/
def one_memory : Execute where
  get memory_id := if memory_id = "0123456789ab" then
    .ok (.obj [("memory", .str "The cache is warm.")]) else .error (.other "not found")
  resolve_head memory_id := .ok (.obj [("id", .str memory_id)])

/-- What the store gives for some references, nothing scrubbed. -/
def asked (refs : List String) : Except Exn (Bundle × List (String × String)) :=
  build_bundle Runtime.plain Classes.ascii none none one_memory none false [] [] refs

def shortening : String := "The cache is warm.^[mem:01234567]"

/-- Asked for once, the memory is what both take the shortened citation for. -/
theorem asked_once : ∃ b placeholders, asked ["mem:0123456789ab"] = .ok (b, placeholders) ∧
    (standing (bundle_index b) "mem:01234567").ref "mem:01234567" =
      (resolve_reference "mem:01234567" (evidence_index b)).resolved_ref := by
  obtain ⟨b, placeholders, hrun⟩ :
      ∃ b placeholders, asked ["mem:0123456789ab"] = .ok (b, placeholders) := ⟨_, _, rfl⟩
  refine ⟨b, placeholders, hrun, (resolve_alike_iff hrun shortening _ (by decide +kernel)).mpr ?_⟩
  rintro memory_id - ⟨-, hbare, hmem, -⟩
  rw [List.mem_singleton.mp hbare] at hmem
  exact absurd hmem (by decide)

/-- Asked for under both its names, the memory is twice in the index: the verifier takes the
shortened citation for it, the packet builder for nothing. -/
theorem asked_twice :
    ∃ b placeholders, asked ["mem:0123456789ab", "0123456789ab"] = .ok (b, placeholders) ∧
    "mem:01234567" ∈ groups CITATION shortening.toList ∧
      (standing (bundle_index b) "mem:01234567").ref "mem:01234567" = some "mem:0123456789ab" ∧
        (resolve_reference "mem:01234567" (evidence_index b)).resolved_ref = none :=
  ⟨_, _, rfl, by decide +kernel, by decide +kernel, by decide +kernel⟩

end Memline.wiki.draft
