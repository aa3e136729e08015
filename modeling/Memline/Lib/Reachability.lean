/-
Acyclic relations under the one update a successor list allows.

A store that keeps, for each node, the list of its successors changes one node
at a time: the edges leaving `a` are replaced by edges to the nodes of `B`, all
others stay. `redirect` is that update on an arbitrary relation. What is needed
about it is one decomposition of its paths (`reach_redirect`): a path either
never leaves `a`, or it first arrives at `a` and last departs from it along one
of the new edges. Everything else here (when one update, or a second one on top
of it, closes a cycle) is read off that.

`Within` bounds the length of every path from a node; it is what a walk with a
depth limit needs in order to reach a node that has no successors. `Near` bounds
the length of one path, and `Swept` is what a sweep by levels knows of it: after
`n` levels the nodes seen are those within `n` edges.
-/
import Mathlib.Logic.Relation
import Mathlib.Data.Set.Basic

set_option autoImplicit false

namespace Reachability

open Relation

variable {α : Type*} {E F : α → α → Prop}

/-- No node reaches itself along at least one edge. -/
def Acyclic (E : α → α → Prop) : Prop := ∀ x, ¬ TransGen E x x

/-- A graph with fewer edges than an acyclic one is acyclic. -/
theorem Acyclic.mono (hF : Acyclic F) (h : ∀ x y, E x y → F x y) : Acyclic E :=
  fun x hx => hF x (TransGen.mono h _ _ hx)

theorem acyclic_of_no_edges (h : ∀ x y, ¬ E x y) : Acyclic E := by
  intro x hx
  obtain ⟨y, hy, -⟩ := TransGen.head'_iff.mp hx
  exact h x y hy

/-- A set that holds the start, is closed under the edges and misses the target
certifies that the target is out of reach. -/
theorem not_reach_of_closed {X : Set α} {a b : α} (hb : b ∈ X)
    (hclosed : ∀ x ∈ X, ∀ y, E x y → y ∈ X) (ha : a ∉ X) : ¬ ReflTransGen E b a := by
  intro h
  have hX : a ∈ X := by
    clear ha
    induction h with
    | refl => exact hb
    | tail _ hxy ih => exact hclosed _ ih _ hxy
  exact ha hX

/-! ## Replacing the edges that leave one node -/

/-- `E` with the edges leaving `a` replaced by edges to the nodes of `B`. -/
def redirect (E : α → α → Prop) (a : α) (B : Set α) (x y : α) : Prop :=
  (x = a ∧ y ∈ B) ∨ (x ≠ a ∧ E x y)

/-- The edges of `E` that do not leave `a`. -/
def avoiding (E : α → α → Prop) (a : α) (x y : α) : Prop := x ≠ a ∧ E x y

theorem avoiding_le {a x y : α} (h : ReflTransGen (avoiding E a) x y) : ReflTransGen E x y :=
  ReflTransGen.mono (fun _ _ hxy => hxy.2) _ _ h

/-- A path after the update either never leaves `a`, or arrives at `a` without
having left it before, and departs from it for the last time along a new edge. -/
theorem reach_redirect {a x y : α} {B : Set α} (h : ReflTransGen (redirect E a B) x y) :
    ReflTransGen (avoiding E a) x y ∨
      ReflTransGen (avoiding E a) x a ∧ ∃ b ∈ B, ReflTransGen (avoiding E a) b y := by
  induction h using ReflTransGen.head_induction_on with
  | refl => exact .inl .refl
  | head hxz _ ih =>
    rcases hxz with ⟨rfl, hz⟩ | hxz
    · rcases ih with ih | ⟨-, ih⟩
      · exact .inr ⟨.refl, _, hz, ih⟩
      · exact .inr ⟨.refl, ih⟩
    · rcases ih with ih | ⟨iha, ihb⟩
      · exact .inl (ih.head hxz)
      · exact .inr ⟨iha.head hxz, ihb⟩

/-- Redirecting `a` to nodes that do not reach it closes no cycle. -/
theorem Acyclic.redirect {a : α} {B : Set α} (hE : Acyclic E)
    (hB : ∀ b ∈ B, ¬ ReflTransGen E b a) : Acyclic (redirect E a B) := by
  intro x hx
  obtain ⟨z, hxz, hzx⟩ := TransGen.head'_iff.mp hx
  rcases reach_redirect hzx with h | ⟨hza, b, hb, hbx⟩
  · rcases hxz with ⟨rfl, hz⟩ | ⟨-, hxz⟩
    · exact hB z hz (avoiding_le h)
    · exact hE x (TransGen.head' hxz (avoiding_le h))
  · rcases hxz with ⟨rfl, -⟩ | ⟨-, hxz⟩
    · exact hB b hb (avoiding_le hbx)
    · exact hB b hb (((avoiding_le hbx).tail hxz).trans (avoiding_le hza))

/-- An update whose new successors reach the node closes a cycle. -/
theorem not_acyclic_redirect {a b : α} {B : Set α} (hb : b ∈ B)
    (h : ReflTransGen (redirect E a B) b a) : ¬ Acyclic (redirect E a B) :=
  fun hacyc => hacyc a (TransGen.head' (.inl ⟨rfl, hb⟩) h)

/-- A node without successors loses nothing when it is redirected. -/
theorem le_redirect {a : α} {B : Set α} (ha : ∀ y, ¬ E a y) {x y : α} (h : E x y) :
    redirect E a B x y := by
  refine .inr ⟨?_, h⟩
  rintro rfl
  exact ha y h

/-- What reaches what after redirecting a node that had no successors. -/
theorem reach_redirect_iff {a x y : α} {B : Set α} (ha : ∀ y, ¬ E a y) :
    ReflTransGen (redirect E a B) x y ↔
      ReflTransGen E x y ∨ ReflTransGen E x a ∧ ∃ b ∈ B, ReflTransGen E b y := by
  have hle : ∀ {x y}, ReflTransGen E x y → ReflTransGen (redirect E a B) x y :=
    fun h => ReflTransGen.mono (fun _ _ => le_redirect ha) _ _ h
  constructor
  · intro h
    rcases reach_redirect h with h | ⟨hxa, b, hb, hby⟩
    · exact .inl (avoiding_le h)
    · exact .inr ⟨avoiding_le hxa, b, hb, avoiding_le hby⟩
  · rintro (h | ⟨hxa, b, hb, hby⟩)
    · exact hle h
    · exact (hle hxa).trans ((hle hby).head (.inl ⟨rfl, hb⟩))

/-- Two redirections of nodes that had no successors, each harmless on its own,
close a cycle exactly when each new successor list reaches the other node. -/
theorem acyclic_redirect_redirect_iff {a b : α} {B C : Set α} (hE : Acyclic E)
    (ha : ∀ y, ¬ E a y) (hB : ∀ x ∈ B, ¬ ReflTransGen E x a)
    (hC : ∀ x ∈ C, ¬ ReflTransGen E x b) :
    Acyclic (redirect (redirect E a B) b C) ↔
      ¬ ((∃ c ∈ C, ReflTransGen E c a) ∧ ∃ x ∈ B, ReflTransGen E x b) := by
  have hF : Acyclic (redirect E a B) := hE.redirect hB
  constructor
  · rintro hacyc ⟨⟨c, hc, hca⟩, x, hx, hxb⟩
    by_cases hab : a = b
    · subst hab
      exact hC c hc hca
    · have hcb : ReflTransGen (redirect E a B) c b :=
        (reach_redirect_iff ha).mpr (.inr ⟨hca, x, hx, hxb⟩)
      -- the path to `b` may be cut at its first visit to `b`, so it survives the update of `b`
      have hcut : ∀ {z : α}, ReflTransGen (redirect E a B) z b →
          ReflTransGen (redirect (redirect E a B) b C) z b := by
        intro z hz
        induction hz using ReflTransGen.head_induction_on with
        | refl => exact .refl
        | @head z w hzw _ ih =>
          by_cases hzb : z = b
          · subst hzb
            exact .refl
          · exact ih.head (.inr ⟨hzb, hzw⟩)
      exact not_acyclic_redirect hc (hcut hcb) hacyc
  · intro hno
    refine hF.redirect (fun c hc hcb => ?_)
    rcases (reach_redirect_iff ha).mp hcb with h | ⟨hca, hxb⟩
    · exact hC c hc h
    · exact hno ⟨⟨c, hc, hca⟩, hxb⟩

/-! ## Bounded paths and nodes without successors -/

/-- Every path from `x` has at most `n` edges. -/
def Within (E : α → α → Prop) : ℕ → α → Prop
  | 0, x => ∀ y, ¬ E x y
  | n + 1, x => ∀ y, E x y → Within E n y

/-- What is within some steps is within one more. -/
theorem Within.succ {n : ℕ} {x : α} (h : Within E n x) : Within E (n + 1) x := by
  induction n generalizing x with
  | zero => exact fun y hy => absurd hy (h y)
  | succ n ih => exact fun y hy => ih (h y hy)

/-- A bounded node reaches a node without successors. -/
theorem Within.exists_sink {n : ℕ} {x : α} (h : Within E n x) :
    ∃ y, ReflTransGen E x y ∧ ∀ z, ¬ E y z := by
  induction n generalizing x with
  | zero => exact ⟨x, .refl, h⟩
  | succ n ih =>
    by_cases hx : ∃ y, E x y
    · obtain ⟨y, hy⟩ := hx
      obtain ⟨z, hz, hsink⟩ := ih (h y hy)
      exact ⟨z, hz.head hy, hsink⟩
    · exact ⟨x, .refl, fun z hz => hx ⟨z, hz⟩⟩

/-! ## Sweeping by levels -/

/-- `y` can be reached from `x` along at most `n` edges. -/
def Near (E : α → α → Prop) : ℕ → α → α → Prop
  | 0, x, y => y = x
  | n + 1, x, y => Near E n x y ∨ ∃ z, Near E n x z ∧ E z y

/-- What is near stays near when the distance grows. -/
theorem Near.mono {m n : ℕ} {x y : α} (h : Near E m x y) (hmn : m ≤ n) : Near E n x y := by
  induction hmn with
  | refl => exact h
  | step _ ih => exact .inl ih

theorem Near.refl (n : ℕ) (x : α) :
    Near E n x x := Near.mono (show Near E 0 x x from rfl) (Nat.zero_le n)

theorem Near.reach {n : ℕ} {x y : α} (h : Near E n x y) : ReflTransGen E x y := by
  induction n generalizing y with
  | zero =>
    rw [show y = x from h]
  | succ n ih =>
    rcases h with h | ⟨z, hz, hzy⟩
    · exact ih h
    · exact (ih hz).tail hzy

/-- The nodes seen after `n` levels: those within `n` edges, of which the visited ones
have all their successors seen. -/
structure Swept (E : α → α → Prop) (x : α) (n : ℕ) (visited frontier : Set α) : Prop where
  seen : ∀ y, y ∈ visited ∨ y ∈ frontier ↔ Near E n x y
  closed : ∀ z ∈ visited, ∀ y, E z y → y ∈ visited ∨ y ∈ frontier

/-- At the start nothing is visited, and `x` is next. -/
theorem Swept.start {x : α} {visited frontier : Set α} (hvisited : ∀ y, y ∉ visited)
    (hfrontier : ∀ y, y ∈ frontier ↔ y = x) : Swept E x 0 visited frontier where
  seen := fun y => ⟨fun hy => (hfrontier y).mp (hy.resolve_left (hvisited y)),
    fun hy => .inr ((hfrontier y).mpr hy)⟩
  closed := fun z hz => absurd hz (hvisited z)

/-- The step lemma: one more level is visited, and its successors come next. -/
theorem Swept.level {x : α} {n : ℕ} {visited frontier visited' next : Set α}
    (h : Swept E x n visited frontier) (hvisited : ∀ y, y ∈ visited' ↔ y ∈ visited ∨ y ∈ frontier)
    (hnext : ∀ y, y ∈ next ↔ ∃ z ∈ frontier, z ∉ visited ∧ E z y) :
    Swept E x (n + 1) visited' next := by
  have hnear : ∀ y, y ∈ visited' ↔ Near E n x y := fun y => (hvisited y).trans (h.seen y)
  have hclosed : ∀ z ∈ visited', ∀ y, E z y → y ∈ visited' ∨ y ∈ next := by
    intro z hz y hzy
    by_cases hv : z ∈ visited
    · exact .inl ((hvisited y).mpr (h.closed z hv y hzy))
    · have hf : z ∈ frontier := ((hvisited z).mp hz).resolve_left hv
      exact .inr ((hnext y).mpr ⟨z, hf, hv, hzy⟩)
  refine ⟨fun y => ⟨?_, ?_⟩, hclosed⟩
  · rintro (hy | hy)
    · exact .inl ((hnear y).mp hy)
    · obtain ⟨z, hz, -, hzy⟩ := (hnext y).mp hy
      exact .inr ⟨z, (h.seen z).mp (.inr hz), hzy⟩
  · rintro (hy | ⟨z, hz, hzy⟩)
    · exact .inl ((hnear y).mpr hy)
    · exact hclosed z ((hnear z).mpr hz) y hzy

/-- A sweep with nothing left to visit has seen everything that can be reached. -/
theorem Swept.exhausted {x : α} {n : ℕ} {visited frontier : Set α}
    (h : Swept E x n visited frontier) (hempty : ∀ y, y ∉ frontier) (y : α) : y ∈ visited ↔
      ReflTransGen E x y := by
  constructor
  · intro hy
    exact ((h.seen y).mp (.inl hy)).reach
  · intro hxy
    induction hxy with
    | refl => exact ((h.seen x).mpr (Near.refl n x)).resolve_right (hempty x)
    | tail _ hzy ih => exact (h.closed _ ih _ hzy).resolve_right (hempty _)

end Reachability
