/-
What the generators put between their markers.

A listing and a block of relations are made of titles, summaries, states and links, with
brackets, dashes and line ends between them. A region can hold the whole just when it can hold
each of these.
-/
import Memline.Lib.Check
import Memline.Text
import Memline.Wiki.Index

set_option autoImplicit false

namespace Memline.wiki

open Mem0 (isspace)

/-! ## Texts that close no region -/

/-- The end of a region, in angle brackets, has nothing of what a line has beside its texts. -/
structure Angled (m : Markers) : Prop where
  opens : ∃ cs, m.closing = '<' :: cs
  closes : ∃ cs, m.closing = cs ++ ['>']
  apart : ∀ c ∈ "])\x60/\n".toList, c ∉ m.closing

section tame

variable {m : Markers}

/-- A text in front that begins no marker. -/
theorem Tame.after (hm : Angled m) {a s : List Char} (ha : '<' ∉ a ∧ '\r' ∉ a) (h : Tame m s) :
    Tame m (a ++ s) := by
  obtain ⟨cs, hopens⟩ := hm.opens
  refine ⟨fun hin => h.1 ?_, ?_⟩
  · rw [hopens] at hin ⊢
    exact Lists.infix_append_of_notMem ha.1 hin
  · rw [List.mem_append, not_or]
    exact ⟨ha.2, h.2⟩

/-- A text behind that ends no marker. -/
theorem Tame.before (hm : Angled m) {a s : List Char} (ha : '>' ∉ a ∧ '\r' ∉ a) (h : Tame m s) :
    Tame m (s ++ a) := by
  obtain ⟨cs, hcloses⟩ := hm.closes
  refine ⟨fun hin => h.1 ?_, ?_⟩
  · rw [hcloses] at hin ⊢
    exact Lists.append_infix_of_notMem ha.1 hin
  · rw [List.mem_append, not_or]
    exact ⟨h.2, ha.2⟩

/-- Two texts with a character between them that is in no marker. -/
theorem Tame.join (hm : Angled m) {s t : List Char} {c : Char} (hs : Tame m s) (ht : Tame m t)
    (hc : c ∈ "])\x60/\n".toList) : Tame m (s ++ c :: t) := by
  have hcr : c ≠ '\r' := by
    rintro rfl
    exact absurd hc (by decide)
  refine ⟨fun hin => ?_, ?_⟩
  · rcases (Lists.infix_append_cons_iff m.closing_solid.ne_nil (hm.apart c hc)).mp hin with h | h
    · exact hs.1 h
    · exact ht.1 h
  · simp [hs.2, ht.2, Ne.symm hcr]

/-- A text that does not end in space is not cut when what follows it loses its own. -/
theorem Tame.start {s : List Char} (post : List Char) (hs : s.rdropWhile isspace = s)
    (h : Tame m ((s ++ post).rdropWhile isspace)) : Tame m s := by
  rw [rdropWhile_append_of_self hs] at h
  exact h.infix (List.prefix_append _ _).isInfix

end tame

/-! ## Listings -/

section listing

variable {g : Generator} {e : Entry} {base line : String}

end listing

/-! ## Relations -/

end Memline.wiki
