/-
Substitutions made one after the other in one text.

A finder cuts a text into the stretches that it finds and the characters that it leaves; a
substitution puts something in the place of every stretch found, and the next one looks at the
text as it is then. When what is put in begins and ends with characters at which every finder
stops, the finders see each stretch that the earlier ones have left as a text of its own:
`Woven.run` says so, and `taken_iff` tells from it which characters are gone in the end.
-/
import Mathlib.Data.List.Flatten
import Mathlib.Data.List.Induction
import Mathlib.Data.List.Nodup
import Mathlib.Data.List.Pairwise
import Mathlib.Tactic.Common

set_option autoImplicit false

namespace Rewriting

variable {α β μ σ : Type}

/-! ## Cutting and filling -/

/-- A text cut up, from left to right: characters that are left, and stretches that are found. -/
abbrev Cut (α : Type) := List (α ⊕ List α)

/-- The text that was cut. -/
def text : Cut α → List α
  | [] => []
  | .inl c :: ps => c :: text ps
  | .inr t :: ps => t ++ text ps

/-- The stretches that are found. -/
def founds : Cut α → List (List α)
  | [] => []
  | .inl _ :: ps => founds ps
  | .inr t :: ps => t :: founds ps

/-- The stretches that are left, before, between and behind those that are found. -/
def gaps : Cut α → List (List α)
  | [] => [[]]
  | .inl c :: ps =>
    match gaps ps with
    | [] => [[c]]
    | g :: gs => (c :: g) :: gs
  | .inr _ :: ps => [] :: gaps ps

/-- Substitution. What is put in may depend on what was put in before. -/
def fill (put : σ → List α → σ × List α) : σ → Cut α → σ × List α
  | s, [] => (s, [])
  | s, .inl c :: ps => ((fill put s ps).1, c :: (fill put s ps).2)
  | s, .inr t :: ps => ((fill put (put s t).1 ps).1, (put s t).2 ++ (fill put (put s t).1 ps).2)

/-- A way to cut texts. -/
structure Finder (α : Type) where
  cut : List α → Cut α
  text_cut : ∀ t, text (cut t) = t

/-- The stretches on both sides of the character are cut as texts of their own. -/
def Finder.StopsAt (f : Finder α) (c : α) : Prop :=
  ∀ a b, f.cut (a ++ c :: b) = f.cut a ++ .inl c :: f.cut b

/-- A finder and what is put in the place of what it finds. -/
structure Step (σ α : Type) where
  finder : Finder α
  put : σ → List α → σ × List α

/-- One substitution after the other. -/
def run : List (Step σ α) → σ → List α → σ × List α
  | [], s, t => (s, t)
  | k :: ks, s, t =>
    let done := fill k.put s (k.finder.cut t)
    run ks done.1 done.2

/-- What every finder leaves of the stretches that those before it have left. -/
def left : List (Finder α) → List α → List (List α)
  | [], t => [t]
  | f :: fs, t => (gaps (f.cut t)).flatMap (left fs)

/-- A character that some finder finds, each of them looking at one of the stretches that those
before it have left. -/
inductive Taken : List (Finder α) → List α → α → Prop
  | here {f : Finder α} {fs : List (Finder α)} {t s : List α} {y : α} (hs : s ∈ founds (f.cut t))
      (hy : y ∈ s) :
      Taken (f :: fs) t y
  | later {f : Finder α} {fs : List (Finder α)} {t g : List α} {y : α} (hg : g ∈ gaps (f.cut t))
      (h : Taken fs g y) : Taken (f :: fs) t y

@[simp] theorem text_append (ps qs : Cut α) : text (ps ++ qs) = text ps ++ text qs := by
  induction ps with
  | nil => rfl
  | cons p ps ih =>
    cases p with
    | inl c => simp [text, ih]
    | inr t => simp [text, ih]

theorem gaps_ne_nil (ps : Cut α) : gaps ps ≠ [] := by
  cases ps with
  | nil => simp [gaps]
  | cons p ps =>
    cases p with
    | inl c =>
      rw [gaps]
      split
      · simp
      · simp
    | inr t => simp [gaps]

/-- A text is what is left of it and what is found in it. -/
theorem text_perm (ps : Cut α) : (text ps).Perm ((gaps ps).flatten ++ (founds ps).flatten) := by
  induction ps with
  | nil => rfl
  | cons p ps ih =>
    cases p with
    | inl c =>
      rw [text, gaps, founds]
      cases hgaps : gaps ps with
      | nil => exact absurd hgaps (gaps_ne_nil ps)
      | cons g gs =>
        rw [hgaps] at ih
        exact ih.cons c
    | inr t =>
      rw [text, gaps, founds, List.flatten_cons, List.flatten_cons, List.nil_append]
      have hswap : (t ++ (gaps ps).flatten).Perm ((gaps ps).flatten ++ t) := List.perm_append_comm
      have hmove := hswap.append_right (founds ps).flatten
      rw [List.append_assoc, List.append_assoc] at hmove
      exact (ih.append_left t).trans hmove

/-- What lies between the matches is part of the text, in its order. -/
theorem gaps_sublist (ps : Cut α) : (gaps ps).flatten.Sublist (text ps) := by
  induction ps with
  | nil => exact List.Sublist.refl _
  | cons p ps ih =>
    cases p with
    | inl c =>
      rw [text, gaps]
      cases hgaps : gaps ps with
      | nil => exact absurd hgaps (gaps_ne_nil ps)
      | cons g gs =>
        rw [hgaps] at ih
        exact ih.cons_cons c
    | inr t =>
      rw [text, gaps, List.flatten_cons, List.nil_append]
      exact ih.trans (List.sublist_append_right t _)

/-- What all of the rules leave is part of the text, in its order. -/
theorem left_sublist (fs : List (Finder α)) (t : List α) : (left fs t).flatten.Sublist t := by
  induction fs generalizing t with
  | nil => rw [left, List.flatten_singleton]
  | cons f fs ih =>
    have hparts : ∀ gs : List (List α), (gs.flatMap (left fs)).flatten.Sublist gs.flatten := by
      intro gs
      induction gs with
      | nil => exact List.Sublist.refl _
      | cons g gs ihg =>
        rw [List.flatMap_cons, List.flatten_append, List.flatten_cons]
        exact (ih g).append ihg
    have hgaps := gaps_sublist (f.cut t)
    rw [f.text_cut] at hgaps
    exact (hparts _).trans hgaps

/-- Filling two cuts, the second one from the state that the first leaves. -/
theorem fill_append (put : σ → List α → σ × List α) (s : σ) (ps qs : Cut α) :
    (fill put s (ps ++ qs)).2 = (fill put s ps).2 ++ (fill put (fill put s ps).1 qs).2 := by
  induction ps generalizing s with
  | nil => rfl
  | cons p ps ih =>
    cases p with
    | inl c => simp [fill, ih]
    | inr t => simp [fill, ih]

/-- What relates the states before and after every putting in relates those of a run. -/
theorem run_related {R : σ → σ → Prop} (hrefl : ∀ s, R s s)
    (htrans : ∀ {s t u}, R s t → R t u → R s u) {ks : List (Step σ α)}
    (hput : ∀ k ∈ ks, ∀ s t, R s (k.put s t).1) (s : σ) (t : List α) : R s (run ks s t).1 := by
  induction ks generalizing s t with
  | nil => exact hrefl s
  | cons k ks ih =>
    rw [List.forall_mem_cons] at hput
    have hfill : ∀ s (ps : Cut α), R s (fill k.put s ps).1 := by
      intro s ps
      induction ps generalizing s with
      | nil => exact hrefl s
      | cons p ps ihp =>
        cases p with
        | inl c => exact ihp s
        | inr u => exact htrans (hput.1 s u) (ihp _)
    exact htrans (hfill s _) (ih hput.2 _ _)

/-! ## Characters with marks -/

/-- The same cut of a text whose characters carry marks. -/
def mark : Cut α → List (α × μ) → Cut (α × μ)
  | [], _ => []
  | .inl _ :: _, [] => []
  | .inl _ :: ps, m :: t => .inl m :: mark ps t
  | .inr u :: ps, t => .inr (t.take u.length) :: mark ps (t.drop u.length)

/-- Marking the positions of a cut keeps its text. -/
theorem text_mark {ps : Cut α} {t : List (α × μ)} (h : text ps = t.map Prod.fst) :
    text (mark ps t) = t := by
  induction ps generalizing t with
  | nil =>
    rw [text, eq_comm, List.map_eq_nil_iff] at h
    rw [h]
    rfl
  | cons p ps ih =>
    cases p with
    | inl c =>
      cases t with
      | nil => cases h
      | cons m t =>
        rw [text, List.map_cons, List.cons.injEq] at h
        rw [mark, text, ih h.2]
    | inr u =>
      rw [text] at h
      have hrest : text ps = (t.drop u.length).map Prod.fst := by
        rw [List.map_drop, ← h, List.drop_left]
      rw [mark, text, ih hrest, List.take_append_drop]

/-- A finder that does not look at the marks. -/
def Finder.marked (f : Finder α) : Finder (α × μ) where
  cut t := mark (f.cut (t.map Prod.fst)) t
  text_cut _ := text_mark (f.text_cut _)

theorem mark_append {ps qs : Cut α} {t u : List (α × μ)} (h : text ps = t.map Prod.fst) :
    mark (ps ++ qs) (t ++ u) = mark ps t ++ mark qs u := by
  induction ps generalizing t with
  | nil =>
    rw [text, eq_comm, List.map_eq_nil_iff] at h
    rw [h]
    rfl
  | cons p ps ih =>
    cases p with
    | inl c =>
      cases t with
      | nil => cases h
      | cons m t =>
        rw [text, List.map_cons, List.cons.injEq] at h
        rw [List.cons_append, List.cons_append, mark, mark, ih h.2, List.cons_append]
    | inr w =>
      rw [text] at h
      have hlen : w.length ≤ t.length := by
        have hlens := congrArg List.length h
        rw [List.length_append, List.length_map] at hlens
        omega
      have hrest : text ps = (t.drop w.length).map Prod.fst := by
        rw [List.map_drop, ← h, List.drop_left]
      rw [List.cons_append, mark, mark, List.take_append_of_le_length hlen,
        List.drop_append_of_le_length hlen, ih hrest, List.cons_append]

/-- A finder stops at a character whatever mark it carries. -/
theorem Finder.StopsAt.marked {f : Finder α} {c : α} (h : f.StopsAt c) (m : μ) :
    f.marked.StopsAt (c, m) := by
  intro a b
  change mark (f.cut ((a ++ (c, m) :: b).map Prod.fst)) (a ++ (c, m) :: b) = _
  rw [List.map_append, List.map_cons, h, mark_append (f.text_cut _)]
  rfl

/-- The marks make no difference to what is put in. -/
theorem fill_mark {put : σ → List α → σ × List α} {put' : σ → List (α × μ) → σ × List (α × μ)}
    (hput : ∀ s u, (put' s u).1 = (put s (u.map Prod.fst)).1 ∧
      (put' s u).2.map Prod.fst = (put s (u.map Prod.fst)).2)
    (s : σ) {ps : Cut α} {t : List (α × μ)} (h : text ps = t.map Prod.fst) :
    (fill put' s (mark ps t)).1 = (fill put s ps).1 ∧
      (fill put' s (mark ps t)).2.map Prod.fst = (fill put s ps).2 := by
  induction ps generalizing s t with
  | nil => exact ⟨rfl, rfl⟩
  | cons p ps ih =>
    cases p with
    | inl c =>
      cases t with
      | nil => cases h
      | cons m t =>
        rw [text, List.map_cons, List.cons.injEq] at h
        obtain ⟨hstate, htext⟩ := ih s h.2
        rw [mark, fill, fill, List.map_cons, hstate, htext, h.1]
        exact ⟨rfl, rfl⟩
    | inr u =>
      rw [text] at h
      have hfound : (t.take u.length).map Prod.fst = u := by
        rw [List.map_take, ← h, List.take_left]
      have hrest : text ps = (t.drop u.length).map Prod.fst := by
        rw [List.map_drop, ← h, List.drop_left]
      obtain ⟨hstate, htext⟩ := hput s (t.take u.length)
      rw [hfound] at hstate htext
      obtain ⟨hstate', htext'⟩ := ih (put s u).1 hrest
      rw [mark, fill, fill, List.map_append, hstate, htext, hstate', htext']
      exact ⟨rfl, rfl⟩

/-- Nor to a run of substitutions. -/
theorem run_mark {ι : Type} (finder : ι → Finder α) (put : ι → σ → List α → σ × List α)
    (put' : ι → σ → List (α × μ) → σ × List (α × μ))
    (hput : ∀ i s u, (put' i s u).1 = (put i s (u.map Prod.fst)).1 ∧
      (put' i s u).2.map Prod.fst = (put i s (u.map Prod.fst)).2)
    (is : List ι) (s : σ) (t : List (α × μ)) :
    (run (is.map fun i => ⟨(finder i).marked, put' i⟩) s t).1
        = (run (is.map fun i => ⟨finder i, put i⟩) s (t.map Prod.fst)).1 ∧
      (run (is.map fun i => ⟨(finder i).marked, put' i⟩) s t).2.map Prod.fst
        = (run (is.map fun i => ⟨finder i, put i⟩) s (t.map Prod.fst)).2 := by
  induction is generalizing s t with
  | nil => exact ⟨rfl, rfl⟩
  | cons i is ih =>
    obtain ⟨hstate, htext⟩ := fill_mark (hput i) s ((finder i).text_cut (t.map Prod.fst))
    have hrest :=
      ih (fill (put' i) s ((finder i).marked.cut t)).1 (fill (put' i) s ((finder i).marked.cut t)).2
    have hcut : (finder i).marked.cut t = mark ((finder i).cut (t.map Prod.fst)) t := rfl
    rw [hcut, hstate, htext] at hrest
    simp only [List.map_cons, run, hcut, hstate]
    exact hrest

/-! ## Stretches between blocks -/

/-- What is put in: characters of its own, between two at which the finders stop. -/
structure Block (stop own : α → Prop) (b : List α) : Prop where
  shape : ∃ o x e, b = o :: x ++ [e] ∧ stop o ∧ stop e
  own : ∀ y ∈ b, own y

/-- A text that consists of the given stretches with blocks between them. -/
inductive Woven (stop own : α → Prop) : List (List α) → List α → Prop
  | single (t : List α) : Woven stop own [t] t
  | block {g b t : List α} {gs : List (List α)} (hb : Block stop own b) (h : Woven stop own gs t) :
      Woven stop own (g :: gs) (g ++ b ++ t)

section woven

variable {stop own : α → Prop}

/-- A woven text goes on behind a block. -/
theorem Woven.append {gs hs : List (List α)} {t b u : List α} (ht : Woven stop own gs t)
    (hb : Block stop own b) (hu : Woven stop own hs u) :
    Woven stop own (gs ++ hs) (t ++ b ++ u) := by
  induction ht with
  | single t => exact .block hb hu
  | @block g b' t gs hb' _ ih =>
    have h := Woven.block (g := g) hb' ih
    simp only [List.append_assoc, List.cons_append] at h ⊢
    exact h

/-- A character in front goes to the first stretch. -/
theorem Woven.cons {g : List α} {gs : List (List α)} {t : List α} (c : α)
    (h : Woven stop own (g :: gs) t) : Woven stop own ((c :: g) :: gs) (c :: t) := by
  cases h with
  | single => exact .single _
  | block hb h => exact .block hb h

/-- Characters of other origin are in a stretch. -/
theorem Woven.mem_iff {gs : List (List α)} {t : List α} (h : Woven stop own gs t) {y : α}
    (hy : ¬ own y) : y ∈ t ↔ y ∈ gs.flatten := by
  induction h with
  | single t => simp
  | block hb _ ih =>
    have hnot := fun hmem => hy (hb.own y hmem)
    rw [List.mem_append, List.mem_append, List.flatten_cons, List.mem_append, ih]
    tauto

variable {put : σ → List α → σ × List α} (hput : ∀ s t, Block stop own (put s t).2)

include hput

/-- A cut text is filled with blocks between what is left of it. -/
theorem woven_fill (s : σ) (ps : Cut α) : Woven stop own (gaps ps) (fill put s ps).2 := by
  induction ps generalizing s with
  | nil => exact .single []
  | cons p ps ih =>
    cases p with
    | inl c =>
      have h := ih s
      rw [gaps, fill]
      cases hgaps : gaps ps with
      | nil => exact absurd hgaps (gaps_ne_nil ps)
      | cons g gs =>
        rw [hgaps] at h
        exact h.cons c
    | inr t =>
      rw [gaps, fill]
      exact .block (g := []) (hput s t) (ih (put s t).1)

/-- What is put in is put into what is own. -/
theorem own_fill (s : σ) {ps : Cut α} (h : ∀ y ∈ text ps, own y) :
    ∀ y ∈ (fill put s ps).2, own y := by
  induction ps generalizing s with
  | nil => exact h
  | cons p ps ih =>
    cases p with
    | inl c =>
      rw [text, List.forall_mem_cons] at h
      rw [fill]
      exact List.forall_mem_cons.mpr ⟨h.1, ih s h.2⟩
    | inr t =>
      rw [text, List.forall_mem_append] at h
      rw [fill]
      exact List.forall_mem_append.mpr ⟨(hput s t).own, ih _ h.2⟩

variable {f : Finder α} (hstop : ∀ c, stop c → f.StopsAt c)

include hstop

/-- A block is cut by itself, and stays a block. -/
theorem Block.cut {b : List α} (h : Block stop own b) : ∃ ps : Cut α,
    (∀ a c, f.cut (a ++ b ++ c) = f.cut a ++ ps ++ f.cut c) ∧
      ∀ s, Block stop own (fill put s ps).2 := by
  obtain ⟨o, x, e, rfl, ho, he⟩ := h.shape
  refine ⟨.inl o :: (f.cut x ++ [.inl e]), fun a c => ?_,
    fun s => ⟨⟨o, (fill put s (f.cut x)).2, e, ?_, ho, he⟩, ?_⟩⟩
  · have hopen := hstop o ho a (x ++ e :: c)
    have hclose := hstop e he x c
    simp only [List.append_assoc, List.cons_append, List.nil_append] at hopen hclose ⊢
    rw [hopen, hclose]
  · rw [fill, fill_append]
    rfl
  · refine own_fill hput s fun y hy => h.own y ?_
    rw [text, text_append, f.text_cut] at hy
    exact hy

/-- **A substitution looks at each stretch by itself.** -/
theorem Woven.fill {gs : List (List α)} {t : List α} (h : Woven stop own gs t) (s : σ) :
    Woven stop own (gs.flatMap fun g => gaps (f.cut g)) (fill put s (f.cut t)).2 := by
  induction h generalizing s with
  | single t =>
    rw [List.flatMap_singleton]
    exact woven_fill hput s _
  | block hb _ ih =>
    obtain ⟨ps, hcut, hblock⟩ := hb.cut hput hstop
    rw [hcut, fill_append, fill_append, List.flatMap_cons]
    exact (woven_fill hput s _).append (hblock _) (ih _)

end woven

/-- **What one substitution after the other leaves** are the stretches that the finders leave of
each other's. -/
theorem Woven.run {stop own : α → Prop} {ks : List (Step σ α)}
    (hput : ∀ k ∈ ks, ∀ s t, Block stop own (k.put s t).2)
    (hstop : ∀ k ∈ ks, ∀ c, stop c → k.finder.StopsAt c) {gs : List (List α)} {t : List α}
    (h : Woven stop own gs t) (s : σ) :
    Woven stop own (gs.flatMap (left (ks.map Step.finder))) (run ks s t).2 := by
  induction ks generalizing gs t s with
  | nil =>
    have hsame : gs.flatMap (left ([] : List (Finder α))) = gs := List.flatMap_singleton' gs
    rw [List.map_nil, hsame]
    exact h
  | cons k ks ih =>
    rw [List.forall_mem_cons] at hput hstop
    have hstep :=
      ih hput.2 hstop.2 (h.fill hput.1 hstop.1 s) (Rewriting.fill k.put s (k.finder.cut t)).1
    rw [List.flatMap_assoc] at hstep
    exact hstep

/-! ## What is gone in the end -/

/-- What the first rule and the others leave is left by the others of a gap of the first. -/
theorem mem_left_cons {f : Finder α} {fs : List (Finder α)} {t : List α} {y : α} :
    y ∈ (left (f :: fs) t).flatten ↔ ∃ g ∈ gaps (f.cut t), y ∈ (left fs g).flatten := by
  simp only [left, List.mem_flatten, List.mem_flatMap]
  constructor
  · rintro ⟨l, ⟨g, hg, hl⟩, hy⟩
    exact ⟨g, hg, l, hl, hy⟩
  · rintro ⟨g, hg, l, hl, hy⟩
    exact ⟨l, ⟨g, hg, hl⟩, hy⟩

/-- What two lists of rules leave is left by the second of a piece that the first leaves. -/
theorem mem_left_append {fs fs' : List (Finder α)} {t : List α} {y : α} :
    y ∈ (left (fs ++ fs') t).flatten ↔ ∃ g ∈ left fs t, y ∈ (left fs' g).flatten := by
  induction fs generalizing t with
  | nil => simp [left]
  | cons f fs ih =>
    rw [List.cons_append, mem_left_cons, left]
    simp only [ih, List.mem_flatMap]
    constructor
    · rintro ⟨u, hu, g, hg, hy⟩
      exact ⟨g, ⟨u, hu, hg⟩, hy⟩
    · rintro ⟨g, ⟨u, hu, hg⟩, hy⟩
      exact ⟨u, hu, g, hg, hy⟩

/-- The characters of a text without repetition that are not left are those that some finder
finds in what is left before it. -/
theorem taken_iff {fs : List (Finder α)} {t : List α} (ht : t.Nodup) {y : α} :
    Taken fs t y ↔ y ∈ t ∧ y ∉ (left fs t).flatten := by
  induction fs generalizing t with
  | nil =>
    constructor
    · intro h
      cases h
    · rintro ⟨hy, hnot⟩
      rw [left, List.flatten_singleton] at hnot
      exact absurd hy hnot
  | cons f fs ih =>
    -- a cut parts the text into its gaps and its matches, which share nothing
    have hperm := text_perm (f.cut t)
    rw [f.text_cut] at hperm
    have hnodup := hperm.nodup_iff.mp ht
    rw [List.nodup_append'] at hnodup
    obtain ⟨hgaps, -, hapart⟩ := hnodup
    obtain ⟨hgap, hdisjoint⟩ := List.nodup_flatten.mp hgaps
    rw [mem_left_cons]
    constructor
    · intro h
      cases h with
      | here hs hy =>
        have hfound := List.mem_flatten_of_mem hs hy
        refine ⟨hperm.mem_iff.mpr (List.mem_append_right _ hfound), ?_⟩
        rintro ⟨g, hg, hleft⟩
        exact hapart (List.mem_flatten_of_mem hg ((left_sublist fs g).subset hleft)) hfound
      | @later _ _ _ g _ hg h =>
        obtain ⟨hyg, hnot⟩ := (ih (hgap g hg)).mp h
        refine ⟨hperm.mem_iff.mpr (List.mem_append_left _ (List.mem_flatten_of_mem hg hyg)), ?_⟩
        rintro ⟨g', hg', hleft⟩
        by_cases hsame : g' = g
        · rw [hsame] at hleft
          exact hnot hleft
        · -- it is in one stretch only
          have hsymm : Std.Symm (List.Disjoint (α := α)) := ⟨fun _ _ => List.disjoint_symm⟩
          exact hdisjoint.forall hg' hg hsame ((left_sublist fs g').subset hleft) hyg
    · rintro ⟨hy, hnot⟩
      rcases List.mem_append.mp (hperm.mem_iff.mp hy) with hmem | hfound
      · obtain ⟨g, hg, hyg⟩ := List.mem_flatten.mp hmem
        exact .later hg ((ih (hgap g hg)).mpr ⟨hyg, fun hleft => hnot ⟨g, hg, hleft⟩⟩)
      · obtain ⟨s, hs, hys⟩ := List.mem_flatten.mp hfound
        exact .here hs hys

/-! ## Finders that do not disturb one another -/

/-- A last rule is applied to the pieces that the others leave. -/
theorem left_concat (fs : List (Finder α)) (f : Finder α) (t : List α) :
    left (fs ++ [f]) t = (left fs t).flatMap fun s => gaps (f.cut s) := by
  induction fs generalizing t with
  | nil => simp [left]
  | cons f' fs ih =>
    rw [List.cons_append, left, left, List.flatMap_assoc]
    exact congrArg (fun g => List.flatMap g _) (funext ih)

/-- Nothing is left of nothing. -/
theorem eq_nil_of_mem_gaps {f : Finder α} {u : List α} (h : u ∈ gaps (f.cut [])) : u = [] := by
  have hsub := gaps_sublist (f.cut [])
  rw [f.text_cut, List.sublist_nil, List.flatten_eq_nil_iff] at hsub
  exact hsub u h

section undisturbed

variable [DecidableEq α]

/-- The part of a stretch that lies in another one. -/
def meet (s g : List α) : List α := s.filter fun y => y ∈ g

/-- The stretches of a text outside of what the finders find in it, each of them in the whole
text. -/
def outside (fs : List (Finder α)) (t : List α) : List (List α) :=
  fs.foldl (fun ss f => ss.flatMap fun s => (gaps (f.cut t)).map (meet s)) [t]

/-- Of each stretch outside of what the others find, a finder leaves by itself just the parts that
it leaves of it in the whole text. -/
def Undisturbed (fs : List (Finder α)) (f : Finder α) (t : List α) : Prop :=
  ∀ s ∈ outside fs t, (∀ u ∈ gaps (f.cut s), u ≠ [] → ∃ g ∈ gaps (f.cut t), u = meet s g) ∧
    ∀ g ∈ gaps (f.cut t), meet s g ≠ [] → meet s g ∈ gaps (f.cut s)

/-- No finder is disturbed by those before it. -/
def Independent (fs : List (Finder α)) (t : List α) : Prop :=
  ∀ k (h : k < fs.length), Undisturbed (fs.take k) (fs.get ⟨k, h⟩) t

instance (fs : List (Finder α)) (f : Finder α) (t : List α) : Decidable (Undisturbed fs f t) :=
  inferInstanceAs (Decidable (∀ s ∈ outside fs t,
    (∀ u ∈ gaps (f.cut s), u ≠ [] → ∃ g ∈ gaps (f.cut t), u = meet s g) ∧
      ∀ g ∈ gaps (f.cut t), meet s g ≠ [] → meet s g ∈ gaps (f.cut s)))

instance (fs : List (Finder α)) (t : List α) : Decidable (Independent fs t) :=
  inferInstanceAs (Decidable (∀ k (h : k < fs.length), Undisturbed (fs.take k) (fs.get ⟨k, h⟩) t))

variable {fs : List (Finder α)} {f : Finder α} {t : List α}

/-- Rules are independent of one another when the last one is disturbed by none before it, and those
are independent. -/
theorem Independent.concat_iff :
    Independent (fs ++ [f]) t ↔ Independent fs t ∧ Undisturbed fs f t := by
  constructor
  · intro h
    constructor
    · intro k hk
      have hlast := h k (by rw [List.length_append]; omega)
      rwa [List.take_append_of_le_length (Nat.le_of_lt hk), List.get_eq_getElem,
        List.getElem_append_left hk] at hlast
    · have hlast := h fs.length (by simp)
      rwa [List.take_left, List.get_eq_getElem, List.getElem_concat_length] at hlast
      rfl
  · rintro ⟨h, hf⟩ k hk
    rw [List.length_append, List.length_singleton, Nat.lt_succ_iff_lt_or_eq] at hk
    rcases hk with hk | rfl
    · rw [List.take_append_of_le_length (Nat.le_of_lt hk), List.get_eq_getElem,
        List.getElem_append_left hk]
      exact h k hk
    · rw [List.take_left, List.get_eq_getElem, List.getElem_concat_length rfl]
      exact hf

/-- What lies outside the matches of all rules, once the last one is known. -/
theorem mem_outside_concat {u : List α} :
    u ∈ outside (fs ++ [f]) t ↔ ∃ s ∈ outside fs t, ∃ g ∈ gaps (f.cut t), u = meet s g := by
  simp only [outside, List.foldl_append, List.foldl_cons, List.foldl_nil, List.mem_flatMap,
    List.mem_map, eq_comm]

/-- What is left by finders one after the other is then what lies outside of all that they find in
the whole text. -/
theorem mem_left_iff (h : Independent fs t) {u : List α} (hu : u ≠ []) :
    u ∈ left fs t ↔ u ∈ outside fs t := by
  -- by the last finder, which looks at the stretches that the others leave
  induction fs using List.reverseRecOn generalizing u with
  | nil => simp [left, outside]
  | append_singleton fs f ih =>
    obtain ⟨hfs, hf⟩ := Independent.concat_iff.mp h
    rw [left_concat, List.mem_flatMap, mem_outside_concat]
    constructor
    · rintro ⟨s, hs, hus⟩
      have hne : s ≠ [] := by
        rintro rfl
        exact hu (eq_nil_of_mem_gaps hus)
      have hout := (ih hfs hne).mp hs
      obtain ⟨g, hg, heq⟩ := (hf s hout).1 u hus hu
      exact ⟨s, hout, g, hg, heq⟩
    · rintro ⟨s, hs, g, hg, rfl⟩
      have hne : s ≠ [] := by
        rintro rfl
        exact hu rfl
      exact ⟨s, (ih hfs hne).mpr hs, (hf s hs).2 g hg hu⟩

/-- It lies in no stretch outside that it was found in the whole text. -/
theorem notMem_outside (ht : t.Nodup) (hf : f ∈ fs) {y : α} (hy : y ∈ (founds (f.cut t)).flatten)
    {s : List α} (hs : s ∈ outside fs t) : y ∉ s := by
  have hperm := text_perm (f.cut t)
  rw [f.text_cut] at hperm
  have hapart := (List.nodup_append'.mp (hperm.nodup_iff.mp ht)).2.2
  induction fs using List.reverseRecOn generalizing s with
  | nil => cases hf
  | append_singleton fs f' ih =>
    obtain ⟨s', hs', g, hg, rfl⟩ := mem_outside_concat.mp hs
    intro hmem
    obtain ⟨hys, hyg⟩ := List.mem_filter.mp hmem
    rcases List.mem_append.mp hf with hf | hf
    · exact ih hf hs' hys
    · rw [List.mem_singleton.mp hf] at hapart hy
      exact hapart (List.mem_flatten_of_mem hg (of_decide_eq_true hyg)) hy

/-- Everything is taken that one of the finders finds in the whole text. -/
theorem Independent.taken (h : Independent fs t) (ht : t.Nodup) (hf : f ∈ fs) {y : α}
    (hy : y ∈ (founds (f.cut t)).flatten) : Taken fs t y := by
  have hmem : y ∈ t := by
    have hperm := text_perm (f.cut t)
    rw [f.text_cut] at hperm
    exact hperm.mem_iff.mpr (List.mem_append_right _ hy)
  refine (taken_iff ht).mpr ⟨hmem, fun hleft => ?_⟩
  obtain ⟨s, hs, hys⟩ := List.mem_flatten.mp hleft
  have hout := (mem_left_iff h (List.ne_nil_of_mem hys)).mp hs
  exact notMem_outside ht hf hy hout hys

end undisturbed

/-- The first gap is at the beginning of the text, and every other one is a part of it. -/
theorem gaps_parts (ps : Cut α) :
    ∃ g gs, gaps ps = g :: gs ∧ g <+: text ps ∧ ∀ u ∈ gs, u <:+: text ps := by
  induction ps with
  | nil => exact ⟨[], [], rfl, List.prefix_rfl, nofun⟩
  | cons p ps ih =>
    obtain ⟨g, gs, hgaps, hfirst, hothers⟩ := ih
    cases p with
    | inl c =>
      refine ⟨c :: g, gs, by rw [gaps, hgaps], ?_, fun u hu => ?_⟩
      · exact (List.prefix_cons_inj c).mpr hfirst
      · exact (hothers u hu).trans (List.suffix_cons c _).isInfix
    | inr t =>
      refine ⟨[], gaps ps, rfl, List.nil_prefix, fun u hu => ?_⟩
      rw [hgaps] at hu
      have hbehind : text ps <:+: text (.inr t :: ps) := (List.suffix_append t _).isInfix
      rcases List.mem_cons.mp hu with rfl | hu
      · exact hfirst.isInfix.trans hbehind
      · exact (hothers u hu).trans hbehind

theorem infix_of_mem_gaps {f : Finder α} {t u : List α} (h : u ∈ gaps (f.cut t)) : u <:+: t := by
  obtain ⟨g, gs, hgaps, hfirst, hothers⟩ := gaps_parts (f.cut t)
  rw [f.text_cut] at hfirst hothers
  rw [hgaps] at h
  rcases List.mem_cons.mp h with rfl | h
  · exact hfirst.isInfix
  · exact hothers u h

/-- What no finder finds in any part of the stretch around it is left. -/
theorem mem_left_of_not_found {fs : List (Finder α)} {s : List α} {y : α} (hy : y ∈ s)
    (h : ∀ f ∈ fs, ∀ u, u <:+: s → y ∉ (founds (f.cut u)).flatten) : y ∈ (left fs s).flatten := by
  induction fs generalizing s with
  | nil => simpa [left] using hy
  | cons f fs ih =>
    obtain ⟨hf, hfs⟩ := List.forall_mem_cons.mp h
    have hperm := text_perm (f.cut s)
    rw [f.text_cut] at hperm
    -- the first finder leaves it, in a stretch that is a part of this one
    rcases List.mem_append.mp (hperm.mem_iff.mp hy) with hgap | hfound
    · obtain ⟨g, hg, hyg⟩ := List.mem_flatten.mp hgap
      refine mem_left_cons.mpr ⟨g, hg, ih hyg fun f' hf' u hu => ?_⟩
      exact hfs f' hf' u (hu.trans (infix_of_mem_gaps hg))
    · exact absurd hfound (hf s List.infix_rfl)

end Rewriting
