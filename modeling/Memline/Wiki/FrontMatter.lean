/-
Where the front matter of a page ends.

The closing line of a front matter is the first line of three dashes that only spaces follow.
What comes after that line has no part in what is read: not the text of the page, nor what a
generator puts into it.
-/
import Memline.Wiki.Region

set_option autoImplicit false

namespace Memline.wiki

open Mem0 (isspace)

/-- A line of three dashes begins here, after the end of another line. -/
def Fence (t : List Char) : Prop := "\n---".toList <+: t ∧ '\n' ∈ (t.drop 4).takeWhile isspace

instance (t : List Char) : Decidable (Fence t) := inferInstanceAs (Decidable (_ ∧ _))

/-- A text is the beginning of a page as far as the dashes that close its front matter. -/
def Opens (front head : List Char) : Prop :=
  ∃ w, head = "---".toList ++ (w ++ '\n' :: (front ++ "\n---".toList)) ∧
    (∀ d ∈ w, isspace d = true) ∧
    '\n' ∉ (front ++ "\n---".toList).takeWhile isspace ∧
    ∀ k < front.length, ¬ Fence ((front ++ "\n---".toList).drop k)

/-- A page begins with a front matter. -/
def Fronted (front t : List Char) : Prop :=
  ∃ head tail, Opens front head ∧ t = head ++ tail ∧ '\n' ∈ tail.takeWhile isspace

/-- A page goes on as it likes once its front matter is closed. -/
theorem Fronted.append {front u : List Char} (h : Fronted front u) (v : List Char) :
    Fronted front (u ++ v) := by
  obtain ⟨head, tail, hopens, rfl, htail⟩ := h
  refine ⟨head, tail ++ v, hopens, List.append_assoc _ _ _, ?_⟩
  rw [List.takeWhile_append]
  split
  · rename_i hlen
    have hall : tail.takeWhile isspace = tail := (List.takeWhile_prefix _).eq_of_length hlen
    rw [hall] at htail
    exact List.mem_append_left _ htail
  · exact htail

end Memline.wiki
