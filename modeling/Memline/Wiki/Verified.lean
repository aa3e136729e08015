/-
What a clean report says of a draft.

Every token of a draft without findings is the reference of an item of the bundle, the items are
those the draft cites and those the sidecar lists as unused, no item both, and whatever the sidecar
gives as evidence is in the bundle. A section under a heading is either empty or cites something.
-/
import Memline.Text
import Memline.Wiki.Resolution

set_option autoImplicit false

namespace Memline.wiki.draft

open Py Lists Regex bundle

/-! ## What is said -/

/-- The references of a bundle's items. -/
def items (b : Bundle) : Set String := {ref | ref ∈ refs_of b ∨ ref ∈ sections_of b}

/-- What the draft cites. -/
def cited (draft : List Char) : Set String := {ref | ref ∈ groups CITATION draft}

/-- A reference, or the one it abbreviates. -/
def resolved (b : Bundle) (ref : String) : String :=
  let full := resolve_prefix ref (bundle_index b).memory_refs
  full.getD ref

/-- What the sidecar lists as unused. -/
def unused (b : Bundle) (claims : Dict) : Set String :=
  {ref | ∃ listed s, Dict.get claims "unused_evidence_refs" = .list listed ∧ .str s ∈ listed ∧
    ref = resolved b s}

/-- An entry of a list of evidence anywhere in a sidecar. -/
inductive Evidential : Json → Json → Prop
  | entry {fields : List (String × Json)} {refs : List Json} {ref : Json}
    (hfield : ("evidence_refs", .list refs) ∈ fields) (href : ref ∈ refs) :
    Evidential (.obj fields) ref
  | field {fields : List (String × Json)} {key : String} {value ref : Json}
    (hfield : (key, value) ∈ fields) (hkey : key ≠ "evidence_refs") (h : Evidential value ref) :
    Evidential (.obj fields) ref
  | item {values : List Json} {value ref : Json} (hitem : value ∈ values)
      (h : Evidential value ref) : Evidential (.list values) ref

/-- A stretch of a draft from a heading to the next one, or to the end. -/
def Headed (draft sec : List Char) : Prop :=
  ∃ before after, draft = before ++ sec ++ after ∧ (before = [] ∨ before.getLast? = some '\n') ∧
    opens_heading sec = true ∧
    (after = [] ∨ ∃ rest, after = '\n' :: rest ∧ opens_heading rest = true) ∧
      ∀ u v, sec = u ++ '\n' :: v → opens_heading (v ++ after) = false

/-- There is a citation in a text. -/
def Cites (text : List Char) : Prop :=
  ∃ w, is_reference w = true ∧ ']' ∉ w ∧ '^' :: '[' :: (w ++ [']']) <:+: text

/-- A draft that rests on its bundle. -/
structure Supported (draft : List Char) (b : Bundle) (claims : Dict) : Prop where
  tokens : ∀ token ∈ groups CITATION_TOKEN draft, token ∈ items b
  accounted : items b = cited draft ∪ unused b claims
  disjoint : Disjoint (cited draft) (unused b claims)
  evidence : ∀ ref, Evidential (.obj claims) ref → ∃ s, ref = .str s ∧ resolved b s ∈ items b
  sections : ∀ sec, Headed draft sec → body_of sec ≠ "" → Cites (body_of sec).toList

/-! ## Tokens -/

/-- A citation matches in whole when a reference is between its brackets. -/
theorem fullmatch_citation {w : List Char} (hw : ']' ∉ w) :
    fullmatch CITATION ('^' :: '[' :: (w ++ [']'])) = is_reference w := by
  rw [Bool.eq_iff_iff, fullmatch, List.any_eq_true, is_reference_iff hw]
  constructor
  · rintro ⟨q, hq, -⟩
    obtain ⟨v, hv, rest, hafter, -⟩ := (mem_run_bracketed plain_reference).mp hq
    have hread := bracketed_eq_some.mpr ⟨rfl, avoids_reference.not_mem hv, rest, hafter⟩
    rw [bracketed_eq_some.mpr ⟨rfl, hw, [], rfl⟩] at hread
    rwa [(Prod.mk.inj (Option.some.inj hread)).2]
  · intro hv
    refine ⟨_, (mem_run_bracketed plain_reference).mpr ⟨w, hv, [], rfl, rfl⟩, ?_⟩
    simp [Place.behind, Place.skip]

/-- Where every token is a citation the tokens are the citations. -/
theorem scan_citations {off : ℕ} {l : List Char} {ms : List Match} (h : Scan token_reader off l ms)
    (hall : ∀ e ∈ ms, is_reference e.group = true) : Scan citation_reader off l ms := by
  induction h with
  | nil off => exact .nil off
  | @skip off c l ms hnone h ih =>
    refine .skip ?_ (ih hall)
    rw [citation_reader, Option.filter_eq_none_iff]
    intro e he href
    have hempty := Option.filter_eq_none_iff.mp hnone e he
    rw [decide_eq_true_eq, not_not] at hempty
    rw [hempty] at href
    cases href
  | @found off k l g ms hsome h ih =>
    obtain ⟨hfirst, hrest⟩ := List.forall_mem_cons.mp hall
    have hbracketed := (Option.filter_eq_some_iff.mp hsome).1
    exact .found (Option.filter_eq_some_iff.mpr ⟨hbracketed, hfirst⟩) (ih hrest)

/-! ## Sections -/

/-- A heading starts a section, whatever is before it. -/
theorem sections_append (x : List Char) {rest : List Char} (h : opens_heading rest = true) :
    ∃ front, sections (x ++ '\n' :: rest) = front ++ sections rest ∧ front ≠ [] := by
  induction x with
  | nil =>
    refine ⟨[[]], ?_, List.cons_ne_nil _ _⟩
    rw [List.nil_append, sections, if_pos (by simp [h])]
    rfl
  | cons c x ih =>
    obtain ⟨front, hfront, hne⟩ := ih
    rw [List.cons_append, sections]
    split
    · exact ⟨[] :: front, by rw [hfront]; rfl, List.cons_ne_nil _ _⟩
    · obtain ⟨first, more, rfl⟩ := List.exists_cons_of_ne_nil hne
      rw [hfront]
      exact ⟨(c :: first) :: more, rfl, List.cons_ne_nil _ _⟩

/-- A stretch without further headings is the first section. -/
theorem sections_head {sec after : List Char}
    (hafter : after = [] ∨ ∃ rest, after = '\n' :: rest ∧ opens_heading rest = true)
    (h : ∀ u v, sec = u ++ '\n' :: v → opens_heading (v ++ after) = false) :
    ∃ more, sections (sec ++ after) = sec :: more := by
  induction sec with
  | nil =>
    rcases hafter with rfl | ⟨rest, rfl, hrest⟩
    · exact ⟨[], rfl⟩
    · refine ⟨sections rest, ?_⟩
      rw [List.nil_append, sections, if_pos (by simp [hrest])]
  | cons c sec ih =>
    obtain ⟨more, hmore⟩ := ih fun u v hsec => h (c :: u) v (by rw [hsec]; rfl)
    refine ⟨more, ?_⟩
    rw [List.cons_append, sections, if_neg, hmore]
    intro hc
    rw [Bool.and_eq_true, decide_eq_true_eq] at hc
    rw [h [] sec (by rw [hc.1]; rfl)] at hc
    exact Bool.false_ne_true hc.2

/-- A heading starts with a hash, and what follows the space does not matter. -/
theorem opens_heading_append {l : List Char} (h : opens_heading l = true) (after : List Char) :
    opens_heading (l ++ after) = true := by
  simp only [opens_heading, Bool.and_eq_true, beq_iff_eq] at h ⊢
  obtain ⟨hlen, hspace⟩ := h
  obtain ⟨hlt, -⟩ := List.getElem?_eq_some_iff.mp hspace
  have htake : (l ++ after).takeWhile (· == '#') = l.takeWhile (· == '#') := by
    rw [List.takeWhile_append, if_neg]
    intro heq
    omega
  rw [htake]
  exact ⟨hlen, by rw [List.getElem?_append_left hlt, hspace]⟩

/-- A section that opens with a heading starts with a hash. -/
theorem heading_starts {sec : List Char} (h : opens_heading sec = true) :
    starts_with (heading_of sec) "#" = true := by
  obtain ⟨rest, rfl⟩ : ∃ rest, sec = '#' :: rest := by
    cases sec with
    | nil => cases h
    | cons c rest =>
      refine ⟨rest, ?_⟩
      by_contra hc
      have hne : ¬ (c == '#') = true := by
        rw [beq_iff_eq]
        rintro rfl
        exact hc rfl
      rw [opens_heading, List.takeWhile_cons_of_neg (p := (· == '#')) hne] at h
      cases h
  have hfull : Mem0.strip (String.ofList ('#' :: rest)) ≠ "" := by
    intro hempty
    have hblank := Mem0.strip_eq_empty_iff.mp hempty
    rw [String.toList_ofList] at hblank
    exact absurd (hblank '#' List.mem_cons_self) (by decide)
  obtain ⟨s, more, hlines, hstart⟩ := @ledger.lines_from_head ['#'] (List.cons_ne_nil _ _) rest
  have hsplit : ledger.splitlines (String.ofList ('#' :: rest)) = s :: more := by
    rw [ledger.splitlines, String.toList_ofList, ← hlines]
    rfl
  rw [heading_of, if_neg hfull, hsplit, starts_with, List.isPrefixOf_iff_prefix]
  exact hstart

/-- What a search finds is in the text. -/
theorem search_some {r : Regex} {before text : List Char} {e : Place × Place}
    (h : search r before text = some e) :
    ∃ s l, text = s ++ l ∧ e.1.after = l ∧ e.2 ∈ run r e.1 := by
  induction text generalizing before with
  | nil =>
    obtain ⟨q, hq, rfl⟩ := Option.map_eq_some_iff.mp h
    exact ⟨[], [], rfl, rfl, List.mem_of_mem_head? hq⟩
  | cons c text ih =>
    rw [search] at h
    split at h
    · rename_i q hq
      cases h
      exact ⟨[], c :: text, rfl, rfl, List.mem_of_mem_head? hq⟩
    · obtain ⟨s, l, rfl, hl, hrun⟩ := ih h
      exact ⟨c :: s, l, rfl, hl, hrun⟩

theorem cites_of_search {text : List Char} (h : (search CITATION [] text).isNone = false) :
    Cites text := by
  cases hsearch : search CITATION [] text with
  | none =>
    rw [hsearch] at h
    cases h
  | some e =>
    obtain ⟨s, l, rfl, hl, hrun⟩ := search_some hsearch
    obtain ⟨found, hfound, -⟩ := readsBy_citation.sound hrun
    rw [hl] at hfound
    obtain ⟨hread, href⟩ := Option.filter_eq_some_iff.mp hfound
    obtain ⟨-, hw, rest, rfl⟩ := bracketed_eq_some.mp hread
    exact ⟨found.2, href, hw, s, rest, by simp⟩

theorem mem_sections {draft sec : List Char} (h : Headed draft sec) : sec ∈ sections draft := by
  obtain ⟨before, after, rfl, hbefore, hopens, hafter, hin⟩ := h
  obtain ⟨more, hmore⟩ := sections_head hafter hin
  rcases hbefore with rfl | hbefore
  · rw [List.nil_append, hmore]
    exact List.mem_cons_self
  · obtain ⟨x, rfl⟩ := List.getLast?_eq_some_iff.mp hbefore
    obtain ⟨front, hfront, -⟩ := sections_append x (opens_heading_append hopens after)
    rw [List.append_assoc, List.append_assoc, List.singleton_append, hfront, hmore]
    exact List.mem_append_right _ List.mem_cons_self

/-! ## The sidecar -/

theorem and_findings {a b : Collected} (h : (a.and b).findings = []) :
    a.findings = [] ∧ b.findings = [] :=
  List.append_eq_nil_iff.mp h

/-- A list without findings holds references only. -/
theorem collect_refs_clean {path : String} {refs : List Json}
    (h : (collect_refs path (.list refs)).findings = []) {ref : Json} (href : ref ∈ refs) :
    ∃ s, ref = .str s ∧ s ∈ (collect_refs path (.list refs)).refs := by
  rw [collect_refs] at h ⊢
  induction refs with
  | nil => cases href
  | cons x refs ih =>
    obtain ⟨hx, hrest⟩ := and_findings h
    rcases List.mem_cons.mp href with rfl | href
    · cases ref with
      | str s =>
        by_cases hok : (starts_with s "mem:" || starts_with s "sources/") = true
        · refine ⟨s, rfl, List.mem_append_left _ ?_⟩
          rw [collect_ref, if_pos hok]
          exact List.mem_singleton.mpr rfl
        · rw [collect_ref, if_neg hok] at hx
          cases hx
      | _ => cases hx
    · obtain ⟨s, hs, hin⟩ := ih hrest href
      exact ⟨s, hs, List.mem_append_right _ hin⟩

/-- Each value of a list was collected from without a finding. -/
theorem collect_items_mem {path : String} {n : ℕ} {values : List Json} {value : Json}
    (hvalue : value ∈ values) (h : (collect_items path n values).findings = []) :
    ∃ p, (collect_sidecar_refs p value).findings = [] ∧
      (collect_sidecar_refs p value).refs ⊆ (collect_items path n values).refs := by
  induction values generalizing n with
  | nil => cases hvalue
  | cons x values ih =>
    rw [collect_items] at h ⊢
    obtain ⟨hx, hrest⟩ := and_findings h
    rcases List.mem_cons.mp hvalue with rfl | hvalue
    · exact ⟨_, hx, List.subset_append_left _ _⟩
    · obtain ⟨p, hp, hsub⟩ := ih hvalue hrest
      exact ⟨p, hp, List.Subset.trans hsub (List.subset_append_right _ _)⟩

/-- Each field of an object was collected from without a finding. -/
theorem collect_fields_mem {path key : String} {fields : List (String × Json)} {value : Json}
    (hfield : (key, value) ∈ fields) (h : (collect_fields path fields).findings = []) :
    ∃ p, (if key = "evidence_refs" then collect_refs p value
      else collect_sidecar_refs p value).findings = [] ∧
      (if key = "evidence_refs" then collect_refs p value else collect_sidecar_refs p value).refs ⊆
        (collect_fields path fields).refs := by
  induction fields with
  | nil => cases hfield
  | cons x fields ih =>
    obtain ⟨k, v⟩ := x
    rw [collect_fields] at h ⊢
    obtain ⟨hx, hrest⟩ := and_findings h
    rcases List.mem_cons.mp hfield with heq | hfield
    · cases heq
      exact ⟨_, hx, List.subset_append_left _ _⟩
    · obtain ⟨p, hp, hsub⟩ := ih hfield hrest
      exact ⟨p, hp, List.Subset.trans hsub (List.subset_append_right _ _)⟩

/-- Without findings every evidential entry, however deep, is a reference that was collected. -/
theorem collected {value ref : Json} (h : Evidential value ref) {path : String}
    (hclean : (collect_sidecar_refs path value).findings = []) :
    ∃ s, ref = .str s ∧ s ∈ (collect_sidecar_refs path value).refs := by
  induction h generalizing path with
  | entry hfield href =>
    rw [collect_sidecar_refs] at hclean ⊢
    obtain ⟨p, hp, hsub⟩ := collect_fields_mem hfield hclean
    rw [if_pos rfl] at hp hsub
    obtain ⟨s, hs, hin⟩ := collect_refs_clean hp href
    exact ⟨s, hs, hsub hin⟩
  | field hfield hkey _ ih =>
    rw [collect_sidecar_refs] at hclean ⊢
    obtain ⟨p, hp, hsub⟩ := collect_fields_mem hfield hclean
    rw [if_neg hkey] at hp hsub
    obtain ⟨s, hs, hin⟩ := ih hp
    exact ⟨s, hs, hsub hin⟩
  | item hitem _ ih =>
    rw [collect_sidecar_refs] at hclean ⊢
    obtain ⟨p, hp, hsub⟩ := collect_items_mem hitem hclean
    obtain ⟨s, hs, hin⟩ := ih hp
    exact ⟨s, hs, hsub hin⟩

/-! ## A clean report -/

section clean

variable {cls : Classes} {domains : Option (List String)} {draft_markdown : String} {b : Bundle}
    {claims : Dict} {report : Report}

theorem standing_eq_known {i : Index} {ref : String} : standing i ref = .known ↔ ref ∈ i.known := by
  rw [standing]
  by_cases hin : ref ∈ i.known
  · rw [if_pos hin]
    exact iff_of_true rfl hin
  · rw [if_neg hin]
    refine iff_of_false ?_ hin
    split
    · intro h
      cases h
    · intro h
      cases h

/-- Without findings all citations are exact. -/
theorem standing_of_clean {i : Index} {cites : List String} (h : citation_findings i cites = [])
    {ref : String} (href : ref ∈ cites) : standing i ref = .known := by
  have hnil := List.flatMap_eq_nil_iff.mp h ref (List.mem_eraseDups.mpr href)
  split at hnil
  · assumption
  · cases hnil
  · cases hnil

theorem abbreviated_of_clean {i : Index} {cites : List String}
    (h : citation_findings i cites = []) : abbreviated i cites = [] := by
  apply List.filterMap_eq_nil_iff.mpr
  intro ref href
  rw [standing_of_clean h (List.mem_eraseDups.mp href)]

theorem list_finding_eq_nil {kind : String} {refs : List String} :
    list_finding kind (sorted refs) = [] ↔ refs = [] := by
  have hsorted : sorted refs = [] ↔ refs = [] := by
    rw [← List.length_eq_zero_iff, ← List.length_eq_zero_iff, sorted, List.length_insertionSort]
  rw [list_finding, ← hsorted]
  split
  · exact iff_of_true rfl (by assumption)
  · exact iff_of_false (List.cons_ne_nil _ _) (by assumption)

/-- Without findings the references are in the bundle or abbreviate one that is. -/
theorem resolved_mem {kind : String} {refs : List String}
    (h : ref_findings kind (bundle_index b) refs = []) {ref : String} (href : ref ∈ refs) :
    resolved b ref ∈ (bundle_index b).known := by
  have hsorted : ref ∈ sorted refs := (List.mem_insertionSort _).mpr href
  have hnil := List.map_eq_nil_iff.mp h
  have hor := List.filter_eq_nil_iff.mp hnil ref hsorted
  rw [decide_eq_true_eq, not_and_or, not_not] at hor
  rw [resolved]
  cases hfull : resolve_prefix ref (bundle_index b).memory_refs with
  | none => exact hor.resolve_right fun hne => hne hfull
  | some full =>
    obtain ⟨-, honly⟩ := (resolve_prefix_eq_some (nodup_eraseDups _)).mp hfull
    exact mem_known.mpr (.inl (List.mem_eraseDups.mp ((honly full).mpr rfl).1))

/-- The references the sidecar lists as unused, as the verifier resolves them. -/
def unused_refs (b : Bundle) (claims : Dict) : List String :=
  resolve_all (bundle_index b) (strings (unused_raw claims).1).eraseDups

/-- What a clean report has found. -/
structure Clean (draft : List Char) (b : Bundle) (claims : Dict) : Prop where
  tokens : token_findings draft = []
  citations : citation_findings (bundle_index b) (groups CITATION draft) = []
  sections : section_findings draft = []
  sidecar : (collect_sidecar_refs "$" (.obj claims)).findings = []
  evidence :
      ref_findings "claim_ref_not_in_bundle" (bundle_index b)
        (collect_sidecar_refs "$" (.obj claims)).refs.eraseDups = []
  listed : (unused_raw claims).2 = []
  unused :
      ref_findings "unused_ref_not_in_bundle" (bundle_index b)
        (strings (unused_raw claims).1).eraseDups = []
  once : ∀ ref ∈ groups CITATION draft, ref ∉ unused_refs b claims
  all : ∀ ref ∈ (bundle_index b).known, ref ∉ groups CITATION draft → ref ∈ unused_refs b claims

/-- A report without findings has passed each of its checks. -/
theorem verify_clean (h : verify cls domains draft_markdown b (some claims) = .ok report)
    (hclean : report.clean = true) : Clean draft_markdown.toList b claims := by
  obtain ⟨patterns, -, h⟩ := Except.bind_ok.mp h
  cases h
  simp only [List.isEmpty_iff, List.append_eq_nil_iff] at hclean
  obtain ⟨⟨⟨⟨⟨⟨⟨⟨⟨⟨⟨⟨⟨⟨-, -⟩, htokens⟩, hcitations⟩, hsections⟩, -⟩, -⟩, -⟩, hsidecar⟩, hevidence⟩,
      hlisted⟩, -⟩, hunused⟩, hboth⟩, hleft⟩ := hclean
  have hknown : ∀ ref ∈ groups CITATION draft_markdown.toList, ref ∈ (bundle_index b).known :=
    fun ref href => standing_eq_known.mp (standing_of_clean hcitations href)
  rw [if_pos (Option.isSome_some)] at hleft
  rw [list_finding_eq_nil, abbreviated_of_clean hcitations, List.filter_eq_nil_iff] at hboth hleft
  simp only [List.lookup_nil, Option.getD_none, List.map_id', List.mem_filter, List.mem_eraseDups,
    decide_eq_true_eq, not_and, not_not] at hboth hleft
  refine ⟨htokens, hcitations, hsections, hsidecar, hevidence, hlisted, hunused, ?_, ?_⟩
  · intro ref href hin
    exact hboth ref ⟨href, hknown ref href⟩ hin (hknown ref href)
  · intro ref href hnot
    exact hleft ref ⟨href, hnot⟩

/-- Without findings, every token is a citation, and the reference of an item. -/
theorem tokens_cited {draft : List Char} (h : Clean draft b claims) :
    groups CITATION_TOKEN draft = groups CITATION draft := by
  have hscan := readsBy_token.scan draft
  have hall : ∀ e ∈ finditer CITATION_TOKEN draft, is_reference e.group = true := by
    intro e he
    obtain ⟨-, l, k, -, -, -, hread⟩ := hscan.mem readsBy_token.toClosed he
    obtain ⟨hread, -⟩ := Option.filter_eq_some_iff.mp hread
    obtain ⟨-, hclosing, -⟩ := bracketed_eq_some.mp hread
    have htoken : String.ofList e.group ∈ (groups CITATION_TOKEN draft).eraseDups :=
      List.mem_eraseDups.mpr (List.mem_map.mpr ⟨e, he, rfl⟩)
    have hmatch := List.filter_eq_nil_iff.mp (List.map_eq_nil_iff.mp h.tokens) _ htoken
    rw [String.toList_ofList, Bool.not_eq_true, Bool.not_eq_false'] at hmatch
    rw [← fullmatch_citation hclosing]
    exact hmatch
  rw [groups, groups,
    (readsBy_citation.scan draft).unique readsBy_citation.toClosed (scan_citations hscan hall)]

theorem mem_strings {values : List Json} {s : String} : s ∈ strings values ↔ .str s ∈ values := by
  rw [strings, List.mem_filterMap]
  constructor
  · rintro ⟨x, hx, h⟩
    split at h
    · cases h
      exact hx
    · cases h
  · intro h
    exact ⟨_, h, rfl⟩

/-- Without findings, what is listed as unused is a list, if it is anything. -/
theorem mem_unused {draft : List Char} (h : Clean draft b claims) {ref : String} :
    ref ∈ unused_refs b claims ↔ ref ∈ unused b claims := by
  have hraw : ∀ s, .str s ∈ (unused_raw claims).1 ↔
      ∃ listed, Dict.get claims "unused_evidence_refs" = .list listed ∧ .str s ∈ listed := by
    have hlisted := h.listed
    intro s
    rw [unused_raw, Json.or_else] at hlisted ⊢
    generalize Dict.get claims "unused_evidence_refs" = x at hlisted ⊢
    by_cases htruthy : x.truthy = true
    · rw [if_pos htruthy] at hlisted ⊢
      cases x with
      | list listed => simp
      | _ => cases hlisted
    · rw [if_neg htruthy]
      refine iff_of_false List.not_mem_nil ?_
      rintro ⟨listed, rfl, hs⟩
      cases listed with
      | nil => cases hs
      | cons y ys => exact htruthy rfl
  rw [unused_refs, resolve_all, List.mem_eraseDups, List.mem_map, unused]
  simp only [List.mem_eraseDups, mem_strings, hraw]
  constructor
  · rintro ⟨s, ⟨listed, hlisted, hs⟩, rfl⟩
    exact ⟨listed, s, hlisted, hs, rfl⟩
  · rintro ⟨listed, s, hlisted, hs, rfl⟩
    exact ⟨s, ⟨listed, hlisted, hs⟩, rfl⟩

/-- **A clean draft.** A draft that is found clean rests on its bundle: every citation, every
section and every reference of its sidecar. -/
theorem clean_supported (h : verify cls domains draft_markdown b (some claims) = .ok report)
    (hclean : report.clean = true) : Supported draft_markdown.toList b claims := by
  -- a clean report has none of the findings
  have hc := verify_clean h hclean
  have hknown : ∀ ref ∈ groups CITATION draft_markdown.toList, ref ∈ items b :=
    fun ref href => mem_known.mp (standing_eq_known.mp (standing_of_clean hc.citations href))
  have hunused : ∀ ref ∈ unused b claims, ref ∈ items b := by
    rintro ref ⟨listed, s, hlisted, hs, rfl⟩
    have hraw : (unused_raw claims).1 = listed := by
      rw [unused_raw, hlisted]
      cases listed with
      | nil => cases hs
      | cons x xs => rfl
    refine mem_known.mp (resolved_mem hc.unused (List.mem_eraseDups.mpr (mem_strings.mpr ?_)))
    rw [hraw]
    exact hs
  refine ⟨?_, ?_, ?_, ?_, ?_⟩
  · intro token htoken
    rw [tokens_cited hc] at htoken
    exact hknown token htoken
  -- every item is cited or listed as unused, and there are no others
  · apply Set.Subset.antisymm
    · intro ref href
      by_cases hin : ref ∈ groups CITATION draft_markdown.toList
      · exact .inl hin
      · exact .inr ((mem_unused hc).mp (hc.all ref (mem_known.mpr href) hin))
    · exact Set.union_subset hknown hunused
  · rw [Set.disjoint_left]
    intro ref href hin
    exact hc.once ref href ((mem_unused hc).mpr hin)
  · intro ref href
    obtain ⟨s, rfl, hs⟩ := collected href hc.sidecar
    exact ⟨s, rfl, mem_known.mp (resolved_mem hc.evidence (List.mem_eraseDups.mpr hs))⟩
  · intro sec hsec hbody
    apply cites_of_search
    have hnot :=
      List.filter_eq_nil_iff.mp (List.map_eq_nil_iff.mp hc.sections) sec (mem_sections hsec)
    obtain ⟨-, -, -, -, hopens, -, -⟩ := hsec
    rw [heading_starts hopens, Bool.true_and, decide_eq_true hbody, Bool.true_and,
      Bool.not_eq_true] at hnot
    exact hnot

end clean

def two_items : Bundle where
  memories := [⟨"0123456789ab", .null, .null, some false, "#", "The cache is warm."⟩]
  source_sections :=
  [⟨"sources/notes.md#Cache", "sources/notes.md", some "Cache", "#", "Warm it first."⟩]

def two_claims : Dict :=
  [("summary", .str "On the cache."),
    ("claims", .list [.obj [("evidence_refs", .list [.str "mem:01234567"])]]),
    ("unused_evidence_refs", .list [.str "sources/notes.md#Cache"])]

/-- The draft with two items rests on them. -/
theorem two_items_supported :
    Supported "# Cache\nThe cache is warm.^[mem:0123456789ab]".toList two_items two_claims := by
  obtain ⟨report, hrun, hclean⟩ :
      ∃ report, verify Classes.ascii (some ["corp"])
        "# Cache\nThe cache is warm.^[mem:0123456789ab]"
      two_items (some two_claims) = .ok report ∧ report.clean = true := ⟨_, rfl, by decide +kernel⟩
  exact clean_supported hrun hclean

end Memline.wiki.draft
