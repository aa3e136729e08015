/-
The files below `content`, and a generator's way through some of them.

A generator rewrites one region in each of a list of files. What it puts there may fail to be
made: it stops then, and what it has written so far stays written.
-/
import Memline.Lib.Paths
import Memline.Wiki.Region

set_option autoImplicit false

namespace Memline.wiki

/-- The files of a directory: their paths in order, and what they hold. -/
structure Content where
  paths : List String
  file : String → Option (List Char)
  mem_paths : ∀ p, p ∈ paths ↔ (file p).isSome = true
  nodup : paths.Nodup

namespace Content

/-- A file that exists is written. -/
def write (c : Content) (p : String) (t : List Char) : Content where
  paths := c.paths
  file q := if q = p then (c.file p).map fun _ => t else c.file q
  mem_paths q := by
    rw [c.mem_paths]
    split
    · rename_i h
      subst h
      rw [Option.isSome_map]
    · rfl
  nodup := c.nodup

/-- `write_region` on a path: a file that does not exist is left that way. -/
def write_region (c : Content) (m : Markers) (p : String) (body : String) : Content × Bool :=
  match c.file p with
  | none => (c, false)
  | some t =>
    let r := wiki.write_region m t body
    if r.2 then (c.write p r.1, true) else (c, false)

end Content

/-- What a generator leaves: the files, the paths of those it wrote, and what stopped it. -/
structure Written where
  content : Content
  written : List String
  raised : Option Exn

/-- The loop of a generator: for each path, what to put into its region. -/
def write_regions (m : Markers) : List (String × Except Exn String) → Content → Written
  | [], c => ⟨c, [], none⟩
  | (_, .error e) :: _, c => ⟨c, [], some e⟩
  | (p, .ok body) :: rest, c =>
    let r := c.write_region m p body
    let w := write_regions m rest r.1
    { w with written := if r.2 then p :: w.written else w.written }

/-! ## What the loop does to one file -/

section frame

variable {m : Markers}

theorem Content.write_region_paths (c : Content) (p body : String) :
    (c.write_region m p body).1.paths = c.paths := by
  unfold Content.write_region
  split
  · rfl
  · simp only
    split
    · rfl
    · rfl

theorem Content.write_region_elsewhere (c : Content) {p q : String} (h : q ≠ p) (body : String) :
    (c.write_region m p body).1.file q = c.file q := by
  unfold Content.write_region
  split
  · rfl
  · simp only
    split
    · exact if_neg h
    · rfl

theorem Content.write_region_self (c : Content) (p body : String) :
    (c.write_region m p body).1.file p = (c.file p).map fun t =>
      (wiki.write_region m t body).1 := by
  unfold Content.write_region
  cases hfile : c.file p with
  | none => exact hfile
  | some t =>
    simp only [Option.map_some]
    by_cases hwritten : (wiki.write_region m t body).2 = true
    · rw [if_pos hwritten]
      simp [Content.write, hfile]
    · rw [if_neg hwritten]
      have heq : updated m body (read_text t) = read_text t := by
        by_contra hne
        exact hwritten (by rw [wiki.write_region_of_ne hne])
      rw [wiki.write_region_of_eq heq]
      exact hfile

theorem write_regions_paths (orders : List (String × Except Exn String)) (c : Content) :
    (write_regions m orders c).content.paths = c.paths := by
  induction orders generalizing c with
  | nil => rfl
  | cons o orders ih =>
    obtain ⟨p, body | body⟩ := o
    · rfl
    · exact (ih _).trans (c.write_region_paths p body)

/-- A file whose path is on no order stays as it is. -/
theorem write_regions_of_notMem {orders : List (String × Except Exn String)} {q : String}
    (h : q ∉ orders.map Prod.fst) (c : Content) :
    (write_regions m orders c).content.file q = c.file q := by
  induction orders generalizing c with
  | nil => rfl
  | cons o orders ih =>
    obtain ⟨p, body | body⟩ := o
    · rfl
    · rw [List.map_cons, List.mem_cons, not_or] at h
      exact (ih h.2 _).trans (c.write_region_elsewhere h.1 body)

/-- Any file is rewritten a number of times. -/
theorem write_regions_rewrites (orders : List (String × Except Exn String)) {c : Content}
    {q : String} {t : List Char} (h : c.file q = some t) :
    ∃ t', (write_regions m orders c).content.file q = some t' ∧
      Relation.ReflTransGen (Rewritten m) t t' := by
  induction orders generalizing c t with
  | nil => exact ⟨t, h, .refl⟩
  | cons o orders ih =>
    obtain ⟨p, body | body⟩ := o
    · exact ⟨t, h, .refl⟩
    · by_cases hq : q = p
      · subst hq
        have hself := c.write_region_self (m := m) q body
        rw [h, Option.map_some] at hself
        obtain ⟨t', ht', hrest⟩ := ih hself
        exact ⟨t', ht', .head ⟨body, rfl⟩ hrest⟩
      · exact ih ((c.write_region_elsewhere hq body).trans h)

/-- The loop when nothing raises: each block once. -/
def write_blocks (m : Markers) (blocks : List (String × String)) (c : Content) : Written :=
  write_regions m (blocks.map fun b => (b.1, .ok b.2)) c

end frame

end Memline.wiki
