/-
When a refresh leaves nothing for the next one to do, whatever the regions held before.

All that is put into the regions is made from the front matters, so that what matters is that
these come out of a refresh as they went in: that no region reaches into them. A region that no
generator writes keeps what it held; a text that closes a region early, or a carriage return,
is written again every time.
-/
import Mathlib.Data.List.Dedup
import Memline.Wiki.FrontMatter
import Memline.Wiki.Listing
import Memline.Wiki.Refresh

set_option autoImplicit false

namespace Memline.wiki

open Py

/-! ## Front matters are all that is read -/

/-- The pages of a directory, and what is read of each. -/
def fronts (g : Generator) (c : Content) : List (String × Except Exn Dict) :=
  c.pages.map fun page => (page.1, parse_frontmatter g.safe_load page.2)

/-- Reading something from every page. -/
theorem mapM_fronts {β : Type} (g : Generator) (c : Content) (f : String → Dict → Except Exn β) :
    (c.pages.mapM fun page => do
      let front ← parse_frontmatter g.safe_load page.2
      f page.1 front) = (fronts g c).mapM fun e => e.2 >>= f e.1 := by
  rw [fronts, List.mapM_map]
  rfl

section congr

variable {g : Generator} {c c' : Content}

/-- Collecting entries reads of each page its front matter only. -/
theorem collect_eq (g : Generator) (c : Content) :
    collect g c = (fun found => found.insertionSort (listed_before g)) <$>
      (fronts g c).mapM fun e => e.2 >>= fun front => pure (entry_of g e.1 front) := by
  rw [← mapM_fronts g c fun path front => pure (entry_of g path front)]
  rfl

/-- Contents of the same front matters have the same entries. -/
theorem collect_congr (h : fronts g c = fronts g c') : collect g c = collect g c' := by
  rw [collect_eq, collect_eq, h]

end congr

/-! ## The blocks of a refresh -/

/-- A front matter that the generators can use. -/
def Usable (front : Dict) : Prop :=
  (Dict.get front "status").hashable = true ∧ ∃ refs, refs_of front = .ok refs

/-- Every page can be read. -/
def Legible (g : Generator) (c : Content) : Prop :=
  ∀ e ∈ fronts g c, ∃ front, e.2 = .ok front ∧ Usable front

/-- What the index puts where. -/
def index_blocks (g : Generator) (c : Content) : List (String × String) :=
  match collect g c with
  | .error _ => []
  | .ok es => (listed_shelves c es).map fun s =>
    (readme s, match render_shelf g es s with
      | .ok body => body
      | .error _ => "")

/-- What the relations put where. -/
def blocks_of (g : Generator) (k : Thresholds) (c : Content) : List (String × String) :=
  match related_blocks g k c with
  | .error _ => []
  | .ok blocks => blocks

section blocks

variable {g : Generator} {k : Thresholds} {c c' : Content}

/-- Contents of the same front matters are both legible, or neither is. -/
theorem Legible.congr (h : fronts g c = fronts g c') (hc : Legible g c) : Legible g c' := by
  unfold Legible
  rwa [← h]

/-- The entries of legible pages. -/
theorem Legible.entries (h : Legible g c) : ∃ es, collect g c = .ok es ∧
    ∀ e, e ∈ es ↔ ∃ p front, (p, .ok front) ∈ fronts g c ∧ entry_of g p front = e := by
  have hreturns : ∃ found, ((fronts g c).mapM fun e => e.2 >>=
      fun front => pure (entry_of g e.1 front))
      = .ok found := by
    refine Except.mapM_returns.mpr fun e he => ?_
    obtain ⟨front, hfront, -⟩ := h e he
    exact ⟨entry_of g e.1 front, by rw [hfront]; rfl⟩
  obtain ⟨found, hfound⟩ := hreturns
  refine ⟨found.insertionSort (listed_before g), by rw [collect_eq, hfound]; rfl, fun e => ?_⟩
  rw [List.mem_insertionSort, Except.mem_of_mapM hfound]
  constructor
  · rintro ⟨x, hx, hmade⟩
    obtain ⟨front, hfront, hmade⟩ := Except.bind_ok.mp hmade
    cases hmade
    exact ⟨x.1, front, hfront ▸ hx, rfl⟩
  · rintro ⟨p, front, hmem, rfl⟩
    exact ⟨(p, .ok front), hmem, rfl⟩

/-- A status that can be hashed is in a set or not. -/
theorem in_set_returns {status : Json} (h : status.hashable = true) (s : List Json) :
    ∃ b, raising (status.in_set s) = .ok b := by
  rw [Json.in_set, if_pos h]
  exact ⟨_, rfl⟩

/-- A shelf is rendered when every status of its entries can be a key. -/
theorem render_shelf_returns {es : List Entry} (h : ∀ e ∈ es, e.status.hashable = true)
    (shelf : String) : ∃ body, render_shelf g es shelf = .ok body := by
  have hline : ∀ e ∈ es, ∃ line, render_entry g e shelf = .ok line := by
    intro e he
    have hshows : ∃ b, shows_status e.status = .ok b := by
      unfold shows_status
      split
      · obtain ⟨b, hb⟩ := in_set_returns (h e he) NORMAL_STATUS
        exact ⟨!b, by rw [hb]; rfl⟩
      · exact ⟨false, rfl⟩
    obtain ⟨b, hb⟩ := hshows
    exact ⟨_, by rw [render_entry, hb]; rfl⟩
  unfold render_shelf
  split
  · exact ⟨_, rfl⟩
  · rename_i listed hlisted
    obtain ⟨lines, hlines⟩ := Except.mapM_returns.mpr fun e he =>
      hline e (List.mem_of_mem_filter he)
    exact ⟨_, by rw [hlines]; rfl⟩

/-- The listings of legible pages, all of them made. -/
theorem Legible.listings (h : Legible g c) {es : List Entry} (hes : collect g c = .ok es) :
    (∀ e ∈ es, e.status.hashable = true) ∧
      (listed_shelves c es).map (fun s => (readme s, render_shelf g es s))
      = (index_blocks g c).map fun b => (b.1, .ok b.2) := by
  obtain ⟨es', hes', hmem⟩ := h.entries
  rw [hes, Except.ok.injEq] at hes'
  subst hes'
  have hhash : ∀ e ∈ es, e.status.hashable = true := by
    intro e he
    obtain ⟨p, front, hp, rfl⟩ := (hmem e).mp he
    obtain ⟨front', hfront', husable, -⟩ := h _ hp
    cases hfront'
    exact husable
  refine ⟨hhash, ?_⟩
  rw [index_blocks, hes]
  simp only [List.map_map]
  refine List.map_congr_left fun s _ => ?_
  obtain ⟨body, hbody⟩ := render_shelf_returns (g := g) hhash s
  simp only [Function.comp_apply, hbody]

/-- The references and titles of legible pages. -/
theorem Legible.relations (h : Legible g c) :
    ∃ refs titles, page_refs g c = .ok refs ∧ titles_of g c = .ok titles := by
  have hrefs : ∃ refs, page_refs g c = .ok refs := by
    have hreturns : ∃ found, ((fronts g c).mapM fun e => e.2 >>= refs_at e.1) = .ok found := by
      refine Except.mapM_returns.mpr fun e he => ?_
      obtain ⟨front, hfront, -, refs, hrefs⟩ := h e he
      refine ⟨(e.1, refs), ?_⟩
      rw [hfront]
      exact Except.bind_ok.mpr ⟨front, rfl, Except.bind_ok.mpr ⟨refs, hrefs, rfl⟩⟩
    obtain ⟨found, hfound⟩ := hreturns
    refine ⟨found.filter fun e => e.2 ≠ [], Except.bind_ok.mpr ⟨found, ?_, rfl⟩⟩
    exact (mapM_fronts g c refs_at).trans hfound
  have htitles : ∃ titles, titles_of g c = .ok titles := by
    rw [titles_of, mapM_fronts g c fun path front => pure (path, title_of g path front)]
    refine Except.mapM_returns.mpr fun e he => ?_
    obtain ⟨front, hfront, -⟩ := h e he
    exact ⟨_, by rw [hfront]; rfl⟩
  obtain ⟨refs, hrefs⟩ := hrefs
  obtain ⟨titles, htitles⟩ := htitles
  exact ⟨refs, titles, hrefs, htitles⟩

end blocks

/-! ## Where the blocks go, and what they say -/

section blocks

variable {g : Generator} {k : Thresholds} {c c' : Content}

end blocks

/-! ## Directories that settle -/

/-- A page does not begin with dashes, or its front matter is closed before its region begins. -/
def Closed (t : List Char) : Prop :=
  ¬ "---".toList <+: t ∨ ∃ front, (¬ related_markers.opening <:+: t ∧ Fronted front (read_text t)) ∨
    ∃ u x v, t = related_markers.framed u x v ∧ ¬ related_markers.opening <:+: u ∧
      Fronted front (read_text u)

/-- Two files that differ at most in what their region holds: text that does not close it, and
without carriage returns. -/
def AlikeFiles (m : Markers) (o o' : Option (List Char)) : Prop :=
  o = o' ∨ ∃ u x x' v, o = some (m.framed u x v) ∧ o' = some (m.framed u x' v) ∧
    ¬ m.opening <:+: u ∧
    Tame m x ∧ Tame m x'

section settle

variable {g : Generator} {k : Thresholds} {c c' : Content}

/-- What a refresh leaves, when it does not raise. -/
def left (g : Generator) (k : Thresholds) (c : Content) : Content :=
  (write_blocks related_markers (blocks_of g k c)
    (write_blocks index_markers (index_blocks g c) c).content).content

/-- What lies before the region of a page closes its front matter. -/
theorem Closed.before {t u x v : List Char} (h : Closed t) (ht : t = related_markers.framed u x v)
    (hu : ¬ related_markers.opening <:+: u) : ¬ "---".toList <+: u ∨
      ∃ front, Fronted front (read_text u) := by
  subst ht
  rcases h with hdashes | ⟨front, ⟨hnone, -⟩ | ⟨u₁, x₁, v₁, heq, hu₁, hfront⟩⟩
  · refine .inl fun hin => hdashes (hin.trans ?_)
    rw [Markers.framed, List.append_assoc]
    exact List.prefix_append _ _
  · exact absurd (related_markers.opening_infix_framed u x v) hnone
  · have hstart := related_markers.framed_start heq hu hu₁
    subst hstart
    exact .inr ⟨front, hfront⟩

/-- A file whose region differs has a region. -/
theorem AlikeFiles.cases {m : Markers} {o o' : Option (List Char)} (h : AlikeFiles m o o') :
    o = o' ∨ (∃ t, o = some t ∧ m.opening <:+: t) ∧ ∃ t', o' = some t' ∧ m.opening <:+: t' := by
  rcases h with h | ⟨u, x, x', v, rfl, rfl, -⟩
  · exact .inl h
  · exact .inr ⟨⟨_, rfl, m.opening_infix_framed u x v⟩, _, rfl, m.opening_infix_framed u x' v⟩

end settle

/-! ## Listings, old and new -/

end Memline.wiki
