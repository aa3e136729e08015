/-
What refreshes do to a directory of pages.

The index writes into READMEs, the relations into all other pages, so that every file has one
pair of markers that matters to it.
-/
import Mathlib.Data.List.Dedup
import Memline.Lib.Check
import Memline.Wiki.Index

set_option autoImplicit false

namespace Memline.wiki

open Lists (around)

/-! ## Which files a generator writes -/

/-- The markers of the generator that may write a file. -/
def own (p : String) : Markers :=
  if Paths.name p ∈ NON_ENTRY then index_markers else related_markers

theorem name_readme (shelf : String) : Paths.name (readme shelf) = "README.md" := by
  have hlast : ∀ cs : List Char, (cs ++ "/README.md".toList).rtakeWhile (· ≠ '/') =
      "README.md".toList := by
    intro cs
    have hcut : cs ++ "/README.md".toList = (cs ++ ['/']) ++ "README.md".toList := by simp
    rw [hcut, List.rtakeWhile, List.reverse_append, List.takeWhile_append_of_pos (by simp)]
    simp
  rw [Paths.name, readme, String.toList_append, hlast, String.ofList_toList]

/-- A README is written between the markers of listings. -/
theorem own_readme (shelf : String) : own (readme shelf) = index_markers := by
  rw [own, name_readme, if_pos (by decide)]

/-- A page is written between the markers of related pages. -/
theorem own_of_is_page {p : String} (h : is_page p = true) : own p = related_markers := by
  have hname : Paths.name p ∉ NON_ENTRY := by
    rw [is_page, Bool.and_eq_true] at h
    simpa using h.2
  rw [own, if_neg hname]

/-- A page is a file that is listed as one. -/
theorem mem_pages {c : Content} {page : String × String} (h : page ∈ c.pages) :
    is_page page.1 = true ∧ ∃ t, c.file page.1 = some t ∧ page.2 = String.ofList (read_text t) := by
  obtain ⟨p, hp, rfl⟩ := List.mem_map.mp h
  obtain ⟨hpaths, hpage⟩ := List.mem_filter.mp hp
  obtain ⟨t, ht⟩ := Option.isSome_iff_exists.mp ((c.mem_paths p).mp hpaths)
  exact ⟨hpage, t, ht, by rw [ht]; rfl⟩

/-- A block is made for a page that names evidence. -/
theorem mem_related_blocks {g : Generator} {k : Thresholds} {c : Content}
    {blocks : List (String × String)} (h : related_blocks g k c = .ok blocks) {b : String × String}
    (hb : b ∈ blocks) :
    ∃ page ∈ c.pages, page.1 = b.1 ∧
      ∃ front refs, parse_frontmatter g.safe_load page.2 = .ok front ∧
      refs_of front = .ok refs ∧ refs ≠ [] := by
  obtain ⟨refs, hrefs, hrest⟩ := Except.bind_ok.mp h
  obtain ⟨titles, -, hblocks⟩ := Except.bind_ok.mp hrest
  cases hblocks
  obtain ⟨e, he, rfl⟩ := List.mem_map.mp hb
  obtain ⟨r, hr, rfl⟩ := List.mem_map.mp (List.mem_insertionSort _ |>.mp he)
  obtain ⟨found, hfound, hfilter⟩ := Except.bind_ok.mp hrefs
  cases hfilter
  obtain ⟨hmem, hne⟩ := List.mem_filter.mp hr
  obtain ⟨page, hpage, hmade⟩ := (Except.mem_of_mapM hfound r).mp hmem
  obtain ⟨front, hfront, hmade⟩ := Except.bind_ok.mp hmade
  obtain ⟨rs, hrs, hmade⟩ := Except.bind_ok.mp hmade
  cases hmade
  exact ⟨page, hpage, rfl, front, rs, hfront, hrs, of_decide_eq_true hne⟩

/-! ## A file through any number of refreshes -/

/-- What can be refreshed. -/
inductive Call where
  | index
  | related (k : Thresholds)
  | all (k : Thresholds)

/-- What a call leaves, also when it raises. -/
def Call.run (g : Generator) (c : Content) : Call → Content
  | .index => (build_index g c).content
  | .related k => (build_related g k c).content
  | .all k => (refresh g k c).content

def run_calls (g : Generator) (c : Content) (calls : List Call) : Content :=
  calls.foldl (Call.run g) c

/-- A file is rewritten by its own generator only. -/
def Evolves (c c' : Content) (p : String) : Prop :=
  ∀ t, c.file p = some t → ∃ t', c'.file p = some t' ∧
    Relation.ReflTransGen (Rewritten (own p)) t t'

theorem Evolves.refl (c : Content) (p : String) : Evolves c c p := fun t ht => ⟨t, ht, .refl⟩

theorem Evolves.trans {c c' c'' : Content} {p : String} (h : Evolves c c' p)
    (h' : Evolves c' c'' p) : Evolves c c'' p := by
  intro t ht
  obtain ⟨t', ht', hsteps⟩ := h t ht
  obtain ⟨t'', ht'', hsteps'⟩ := h' t' ht'
  exact ⟨t'', ht'', hsteps.trans hsteps'⟩

/-- A generator that writes only its own files. -/
theorem write_regions_evolves {m : Markers} {orders : List (String × Except Exn String)}
    {p : String} (h : p ∈ orders.map Prod.fst → own p = m) (c : Content) :
    Evolves c (write_regions m orders c).content p := by
  intro t ht
  by_cases hp : p ∈ orders.map Prod.fst
  · rw [h hp]
    exact write_regions_rewrites orders ht
  · exact ⟨t, (write_regions_of_notMem hp c).trans ht, .refl⟩

/-- What the index leaves: nothing written, or its listings. -/
theorem build_index_content (g : Generator) (c : Content) :
    (build_index g c).content = c ∨ ∃ es, collect g c = .ok es ∧
      (build_index g c).content = (write_regions index_markers
        ((listed_shelves c es).map fun s => (readme s, render_shelf g es s)) c).content := by
  unfold build_index
  cases hes : collect g c with
  | error e => exact .inl rfl
  | ok es =>
    refine .inr ⟨es, rfl, ?_⟩
    simp only
    split
    · rfl
    · split
      · rfl
      · rfl

theorem build_index_evolves (g : Generator) (c : Content) (p : String) :
    Evolves c (build_index g c).content p := by
  rcases build_index_content g c with h | ⟨es, -, h⟩
  · rw [h]
    exact Evolves.refl c p
  · rw [h]
    refine write_regions_evolves (fun hp => ?_) c
    rw [List.map_map] at hp
    obtain ⟨s, -, rfl⟩ := List.mem_map.mp hp
    exact own_readme s

/-- Building the related pages evolves every file. -/
theorem build_related_evolves (g : Generator) (k : Thresholds) (c : Content) (p : String) :
    Evolves c (build_related g k c).content p := by
  unfold build_related
  cases hblocks : related_blocks g k c with
  | error e => exact Evolves.refl c p
  | ok blocks =>
    refine write_regions_evolves (fun hp => ?_) c
    rw [List.map_map] at hp
    obtain ⟨b, hb, rfl⟩ := List.mem_map.mp hp
    obtain ⟨page, hpage, hb, -⟩ := mem_related_blocks hblocks hb
    have hpage := (mem_pages hpage).1
    rw [hb] at hpage
    exact own_of_is_page hpage

/-- A refresh builds the listings, and the related pages unless the listings have raised. -/
theorem refresh_content (g : Generator) (k : Thresholds) (c : Content) :
    (refresh g k c).content = (build_index g c).content ∨
      (refresh g k c).content = (build_related g k (build_index g c).content).content := by
  unfold refresh
  simp only
  split
  · exact .inl rfl
  · exact .inr rfl

theorem Call.evolves (g : Generator) (c : Content) (call : Call) (p : String) :
    Evolves c (call.run g c) p := by
  cases call with
  | index => exact build_index_evolves g c p
  | related k => exact build_related_evolves g k c p
  | all k =>
    change Evolves c (refresh g k c).content p
    rcases refresh_content g k c with h | h
    · rw [h]
      exact build_index_evolves g c p
    · rw [h]
      exact (build_index_evolves g c p).trans (build_related_evolves g k _ p)

/-- The run lemma. -/
theorem run_calls_evolves (g : Generator) (c : Content) (calls : List Call) (p : String) :
    Evolves c (run_calls g c calls) p := by
  induction calls generalizing c with
  | nil => exact Evolves.refl c p
  | cons call calls ih => exact (call.evolves g c p).trans (ih _)

/-- A file that no generator writes: what is no page, unless it has an opening marker and is the
README of a shelf with pages; or a page that names no evidence. -/
def Unwritten (g : Generator) (paths : List String) (p : String) (t : List Char) : Prop :=
  if Paths.name p ∈ NON_ENTRY then index_markers.opening <:+: t →
    ∀ q ∈ paths, is_page q = true → Paths.parent q ≠ "" → readme (Paths.parent q) ≠ p
  else ∀ front refs, is_page p = true →
    parse_frontmatter g.safe_load (String.ofList (read_text t)) = .ok front →
    refs_of front = .ok refs → refs = []

/-- A README asks for its listing with an opening marker. -/
theorem opts_in_iff {c : Content} {s : String} {t : List Char} (ht : c.file (readme s) = some t) :
    opts_in c s = true ↔ index_markers.opening <:+: t := by
  rw [opts_in, ht]
  exact decide_eq_true_iff.trans
    (infix_read_text index_markers.opening_solid.ne_nil index_markers.opening_line t)

/-- The shelf of an entry is that of a page. -/
theorem mem_collect {g : Generator} {c : Content} {es : List Entry} (hes : collect g c = .ok es)
    {e : Entry} (he : e ∈ es) : ∃ q ∈ c.paths, is_page q = true ∧ e.shelf = Paths.parent q := by
  obtain ⟨found, hfound, hsorted⟩ := Except.bind_ok.mp hes
  cases hsorted
  rw [List.mem_insertionSort, Except.mem_of_mapM hfound] at he
  obtain ⟨page, hpage, hentry⟩ := he
  obtain ⟨q, hq, rfl⟩ := List.mem_map.mp hpage
  obtain ⟨hpaths, hispage⟩ := List.mem_filter.mp hq
  obtain ⟨front, -, hentry⟩ := Except.bind_ok.mp hentry
  cases hentry
  exact ⟨q, hpaths, hispage, rfl⟩

theorem build_index_paths (g : Generator) (c : Content) :
    (build_index g c).content.paths = c.paths := by
  rcases build_index_content g c with hc | ⟨es, -, hc⟩
  · rw [hc]
  · rw [hc, write_regions_paths]

theorem build_related_paths (g : Generator) (k : Thresholds) (c : Content) :
    (build_related g k c).content.paths = c.paths := by
  unfold build_related
  split
  · rfl
  · exact write_regions_paths _ c

/-- Building the listings leaves a file that it does not write. -/
theorem build_index_unwritten {g : Generator} {c : Content} {p : String} {t : List Char}
    (ht : c.file p = some t) (h : Unwritten g c.paths p t) :
    (build_index g c).content.file p = some t := by
  rcases build_index_content g c with hc | ⟨es, hes, hc⟩
  · rwa [hc]
  · rw [hc, write_regions_of_notMem _ c, ht]
    intro hp
    rw [List.map_map] at hp
    obtain ⟨s, hs, hps⟩ := List.mem_map.mp hp
    change readme s = p at hps
    subst hps
    obtain ⟨hshelf, hopts⟩ := List.mem_filter.mp hs
    rw [List.mem_insertionSort, List.mem_dedup, List.mem_filter] at hshelf
    obtain ⟨e, he, rfl⟩ := List.mem_map.mp hshelf.1
    obtain ⟨q, hq, hpage, hparent⟩ := mem_collect hes he
    rw [Unwritten, name_readme, if_pos (by decide)] at h
    refine h ((opts_in_iff ht).mp hopts) q hq hpage ?_ (by rw [hparent])
    rw [← hparent]
    exact of_decide_eq_true hshelf.2

/-- Building the related pages leaves a file that they do not write. -/
theorem build_related_unwritten {g : Generator} {k : Thresholds} {c : Content} {p : String}
    {t : List Char} (ht : c.file p = some t) (h : Unwritten g c.paths p t) :
    (build_related g k c).content.file p = some t := by
  unfold build_related
  cases hblocks : related_blocks g k c with
  | error e => exact ht
  | ok blocks =>
    simp only
    rw [write_regions_of_notMem _ c, ht]
    intro hp
    rw [List.map_map] at hp
    obtain ⟨b, hb, hbp⟩ := List.mem_map.mp hp
    change b.1 = p at hbp
    subst hbp
    obtain ⟨page, hpage, hpb, front, refs, hfront, hrefs, hne⟩ := mem_related_blocks hblocks hb
    obtain ⟨hispage, t', ht', htext⟩ := mem_pages hpage
    rw [hpb] at hispage ht'
    have hname : Paths.name b.1 ∉ NON_ENTRY := by
      rw [is_page, Bool.and_eq_true] at hispage
      simpa using hispage.2
    rw [ht', Option.some.injEq] at ht
    subst ht
    rw [Unwritten, if_neg hname] at h
    rw [htext] at hfront
    exact hne (h front refs hispage hfront hrefs)

/-- Any number of calls leave a file that none of them writes. -/
theorem run_calls_unwritten {g : Generator} {c : Content} {p : String} {t : List Char}
    (calls : List Call) (ht : c.file p = some t) (h : Unwritten g c.paths p t) :
    (run_calls g c calls).file p = some t := by
  induction calls generalizing c with
  | nil => exact ht
  | cons call calls ih =>
    -- a call leaves the file, and which files there are
    have hcall : (call.run g c).file p = some t ∧ (call.run g c).paths = c.paths := by
      cases call with
      | index => exact ⟨build_index_unwritten ht h, build_index_paths g c⟩
      | related k => exact ⟨build_related_unwritten ht h, build_related_paths g k c⟩
      | all k =>
        change (refresh g k c).content.file p = some t ∧ (refresh g k c).content.paths = c.paths
        rcases refresh_content g k c with hc | hc
        · rw [hc]
          exact ⟨build_index_unwritten ht h, build_index_paths g c⟩
        · rw [hc, build_related_paths, build_index_paths]
          refine ⟨build_related_unwritten (build_index_unwritten ht h) ?_, rfl⟩
          rwa [build_index_paths]
    refine ih hcall.1 ?_
    rwa [hcall.2]

/-- **Prose survives.** Whatever is refreshed, in whatever order and how often, the prose of a
file is in it afterwards, unchanged and in order, when its opening markers are closed and it has
no carriage returns, or when no generator writes it. -/
theorem prose_preserved {g : Generator} {c : Content} {p : String} {t : List Char}
    (ht : c.file p = some t) (h : Fit (own p) t ∨ Unwritten g c.paths p t) (calls : List Call) :
    ∃ t', (run_calls g c calls).file p = some t' ∧ Preserved (own p) t t' := by
  rcases h with hfit | hunwritten
  · obtain ⟨t', ht', hsteps⟩ := run_calls_evolves g c calls p t ht
    exact ⟨t', ht', preserved_of_rewritings hfit hsteps⟩
  · exact ⟨t, run_calls_unwritten calls ht hunwritten, preserved_self t⟩

/-- A shelf with one page, and a README with the given text. -/
def shelf_with (text : String) : Content where
  paths := ["docs/README.md", "docs/a.md"]
  file p := if p = "docs/README.md" then some text.toList
    else if p = "docs/a.md" then some "Body.\n".toList else none
  mem_paths p := by
    simp only [List.mem_cons, List.not_mem_nil, or_false]
    split
    · simp [*]
    · split
      · simp [*]
      · simp [*]
  nodup := by decide

/-- A generator whose pages have no front matter to be read. -/
def bare : Generator where
  rt := .plain
  safe_load _ := .ok none
  lower s := s

/-- A listing between its markers is refreshed. -/
theorem shelf_preserved : ∃ t',
    (run_calls bare (shelf_with "Hand-written.\n<!-- index:begin --><!-- index:end -->\n") [.index,
      .index]).file
      "docs/README.md" = some t' ∧
    Preserved (own "docs/README.md")
      "Hand-written.\n<!-- index:begin --><!-- index:end -->\n".toList t' :=
  prose_preserved rfl (.inl (by
    have hown : own "docs/README.md" = index_markers := own_readme "docs"
    rw [hown]
    exact .inr ⟨"Hand-written.\n".toList, [], "\n".toList, rfl, by decide, by decide, by decide,
      by decide, by decide⟩))
    [.index, .index]

/-- An opening marker that has lost its closing one: the second call takes the author's text. -/
theorem orphan_not_preserved : ∃ t',
    (run_calls bare (shelf_with "<!-- index:begin -->\nHand-written.\n") [.index, .index]).file
      "docs/README.md" = some t' ∧
    ¬ Preserved (own "docs/README.md") "<!-- index:begin -->\nHand-written.\n".toList t' := by
  refine ⟨"<!-- index:begin -->\n- [a](a.md)\n<!-- index:end -->\n".toList, by decide +kernel, ?_⟩
  unfold Preserved
  decide +kernel

end Memline.wiki
