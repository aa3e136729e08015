/-
Checks that collect complaints and may raise.

A `Check` runs on after a complaint, so that one run reports everything that is wrong; an
error ends it. A check is `Clean` when it returns and has not complained, and the rules
say what a clean check has checked: a sequence is clean when each of its parts is.
-/
import Mathlib.Data.List.Basic
import Mathlib.Data.List.Forall2

set_option autoImplicit false

/-- A check with results in `α`, complaints in `κ` and errors in `ε`. -/
def Check (ε κ α : Type) : Type := Except ε (α × List κ)

namespace Check

variable {ε κ α β σ : Type}

def bind (x : Check ε κ α) (f : α → Check ε κ β) : Check ε κ β :=
  match x with
  | .error e => .error e
  | .ok (a, ks) =>
    match f a with
    | .error e => .error e
    | .ok (b, ls) => .ok (b, ks ++ ls)

instance : Monad (Check ε κ) where
  pure a := .ok (a, [])
  bind := bind

/-- Note a complaint and go on. -/
def complain (k : κ) : Check ε κ Unit := .ok ((), [k])

/-- Complain in case of `c`. -/
def complain_if (c : Bool) (k : κ) : Check ε κ Unit := if c then complain k else pure ()

/-- What may raise, and does not complain. -/
def lift (x : Except ε α) : Check ε κ α :=
  match x with
  | .error e => .error e
  | .ok a => .ok (a, [])

/-- It returns `a` and has nothing to complain about. -/
def Clean (x : Check ε κ α) (a : α) : Prop := x = .ok (a, [])

/-- A check that only returns is clean, and returns what it was given. -/
theorem clean_pure {a b : α} : Clean (pure a : Check ε κ α) b ↔ a = b := by
  constructor
  · intro h
    cases h
    rfl
  · rintro rfl
    rfl

theorem not_clean_complain (k : κ) (u : Unit) : ¬ Clean (complain k : Check ε κ Unit) u := by
  intro h
  cases h

/-- A guarded complaint is clean exactly when its guard does not hold. -/
theorem clean_complain_if {c : Bool} {k : κ} {u : Unit} :
    Clean (complain_if c k : Check ε κ Unit) u ↔ c = false := by
  cases c with
  | false => exact ⟨fun _ => rfl, fun _ => rfl⟩
  | true => exact ⟨fun h => absurd h (not_clean_complain k u), fun h => absurd h (by simp)⟩

/-- A lifted computation is clean exactly when it succeeds: it can raise, but not complain. -/
theorem clean_lift {x : Except ε α} {a : α} : Clean (lift x : Check ε κ α) a ↔ x = .ok a := by
  cases x with
  | error e => exact ⟨fun h => (nomatch h), fun h => (nomatch h)⟩
  | ok b =>
    constructor
    · intro h
      cases h
      rfl
    · intro h
      cases h
      rfl

/-- The rule of sequences. -/
theorem clean_bind {x : Check ε κ α} {f : α → Check ε κ β} {b : β} :
    Clean (x >>= f) b ↔ ∃ a, Clean x a ∧ Clean (f a) b := by
  change bind x f = _ ↔ _
  constructor
  · intro h
    rcases x with e | ⟨a, ks⟩
    · cases h
    unfold bind at h
    simp only at h
    rcases hf : f a with e | ⟨b', ls⟩
    · rw [hf] at h
      cases h
    · rw [hf] at h
      injection h with h
      obtain ⟨rfl, hnil⟩ := Prod.mk.inj h
      obtain ⟨rfl, rfl⟩ := List.append_eq_nil_iff.mp hnil
      exact ⟨a, rfl, hf⟩
  · rintro ⟨a, hx, hf⟩
    unfold Clean at hx hf
    subst hx
    unfold bind
    simp only [hf]
    rfl

/-- One check after another is clean exactly when both are. -/
theorem clean_seq {x : Check ε κ Unit} {f : Unit → Check ε κ β} {b : β} :
    Clean (x >>= f) b ↔ Clean x () ∧ Clean (f ()) b := by
  rw [clean_bind]
  exact ⟨fun ⟨_, h⟩ => h, fun h => ⟨(), h⟩⟩

theorem clean_nil {f : σ → α → Check ε κ σ} {s t : σ} :
    Clean (([] : List α).foldlM f s) t ↔ s = t := clean_pure

/-- A loop over a list is clean exactly when its first round is and the rest, from where that leaves
off. -/
theorem clean_cons {f : σ → α → Check ε κ σ} {s t : σ} {x : α} {xs : List α} :
    Clean ((x :: xs).foldlM f s) t ↔ ∃ u, Clean (f s x) u ∧ Clean (xs.foldlM f u) t := by
  rw [List.foldlM_cons, clean_bind]

/-- The rule of loops: what every clean turn keeps holds at the end. -/
theorem Clean.foldlM {f : σ → α → Check ε κ σ} {xs : List α} {s t : σ} {P : σ → Prop}
    (h : Clean (xs.foldlM f s) t) (hs : P s)
    (hf : ∀ s, ∀ x ∈ xs, ∀ u, P s → Clean (f s x) u → P u) : P t := by
  induction xs generalizing s with
  | nil =>
    rw [clean_nil] at h
    exact h ▸ hs
  | cons x xs ih =>
    obtain ⟨u, hx, hxs⟩ := clean_cons.mp h
    refine ih hxs (hf s x List.mem_cons_self u hs hx) ?_
    exact fun s y hy => hf s y (List.mem_cons_of_mem _ hy)

/-- A clean loop is clean in every turn. -/
theorem clean_forM {f : α → Check ε κ PUnit} {xs : List α} {u : PUnit} :
    Clean (xs.forM f) u ↔ ∀ x ∈ xs, Clean (f x) ⟨⟩ := by
  induction xs with
  | nil => exact ⟨fun _ _ hx => absurd hx List.not_mem_nil, fun _ => rfl⟩
  | cons x xs ih =>
    rw [List.forall_mem_cons, ← ih]
    change Clean (f x >>= fun _ => xs.forM f) u ↔ _
    rw [clean_bind]
    exact ⟨fun ⟨_, hx, hxs⟩ => ⟨hx, hxs⟩, fun ⟨hx, hxs⟩ => ⟨⟨⟩, hx, hxs⟩⟩

/-! ## Checks that finish -/

/-- It does not raise, whatever the complaints. -/
def Finishes (x : Check ε κ α) : Prop := ∃ r, x = .ok r

theorem finishes_pure (a : α) : Finishes (pure a : Check ε κ α) := ⟨(a, []), rfl⟩

theorem finishes_complain (k : κ) : Finishes (complain k : Check ε κ Unit) := ⟨((), [k]), rfl⟩

/-- Complaining, guarded or not, does not keep a check from finishing. -/
theorem finishes_complain_if (c : Bool) (k : κ) : Finishes (complain_if c k : Check ε κ Unit) := by
  cases c with
  | true => exact finishes_complain k
  | false => exact finishes_pure ()

/-- A lifted computation finishes exactly when it does not raise. -/
theorem finishes_lift {x : Except ε α} : Finishes (lift x : Check ε κ α) ↔ ∃ a, x = .ok a := by
  cases x with
  | error e => exact ⟨fun ⟨_, h⟩ => (nomatch h), fun ⟨_, h⟩ => (nomatch h)⟩
  | ok a => exact ⟨fun _ => ⟨a, rfl⟩, fun _ => ⟨(a, []), rfl⟩⟩

/-- What goes on finishing has finished its first part. -/
theorem Finishes.left {x : Check ε κ α} {f : α → Check ε κ β} (h : Finishes (x >>= f)) :
    Finishes x := by
  cases x with
  | error e =>
    obtain ⟨_, h⟩ := h
    cases h
  | ok r => exact ⟨r, rfl⟩

/-- What comes after a value that is known. -/
theorem finishes_bind_of {x : Check ε κ α} {f : α → Check ε κ β} {a : α} {ks : List κ}
    (h : x = .ok (a, ks)) : Finishes (x >>= f) ↔ Finishes (f a) := by
  subst h
  change Finishes (bind (.ok (a, ks)) f) ↔ _
  simp only [bind, Finishes]
  cases f a with
  | error e => simp
  | ok r => exact ⟨fun _ => ⟨_, rfl⟩, fun _ => ⟨_, rfl⟩⟩

/-- A lifted computation that succeeds is passed over. -/
theorem finishes_lift_bind {x : Except ε α} {f : α → Check ε κ β} {a : α} (h : x = .ok a) :
    Finishes (lift x >>= f) ↔ Finishes (f a) := by
  subst h
  exact finishes_bind_of rfl

/-- The rule of sequences, where what follows finishes or not whatever the value. -/
theorem finishes_bind {x : Check ε κ α} {f : α → Check ε κ β} {P : Prop}
    (h : ∀ a, Finishes (f a) ↔ P) : Finishes (x >>= f) ↔ Finishes x ∧ P := by
  rcases x with e | ⟨a, ks⟩
  · exact ⟨fun ⟨_, h⟩ => (nomatch h), fun ⟨⟨_, h⟩, _⟩ => (nomatch h)⟩
  · rw [finishes_bind_of rfl, h a]
    exact ⟨fun hP => ⟨⟨_, rfl⟩, hP⟩, And.right⟩

/-- The rule of sequences, where the first part finishes anyway. -/
theorem finishes_after {x : Check ε κ α} {f : α → Check ε κ β} {P : Prop} (hx : Finishes x)
    (h : ∀ a, Finishes (f a) ↔ P) : Finishes (x >>= f) ↔ P := by
  rw [finishes_bind h]
  exact ⟨And.right, fun hP => ⟨hx, hP⟩⟩

/-- A check that finishes is passed over: what remains is whether the rest finishes. -/
theorem finishes_seq {x : Check ε κ Unit} {f : Unit → Check ε κ β} (hx : Finishes x) :
    Finishes (x >>= f) ↔ Finishes (f ()) := finishes_after hx fun _ => Iff.rfl

/-- The rule of sequences, where the last part finishes anyway. -/
theorem finishes_last {x : Check ε κ α} {f : α → Check ε κ β} (h : ∀ a, Finishes (f a)) :
    Finishes (x >>= f) ↔ Finishes x := by
  have hlast : Finishes (x >>= f) ↔ Finishes x ∧ True := finishes_bind fun a => iff_true_intro (h a)
  rw [hlast, and_true]

/-- The rule of loops: one finishes when every turn does, whatever the state. -/
theorem finishes_foldlM {f : σ → α → Check ε κ σ} {Ok : α → Prop} {xs : List α}
    (h : ∀ x ∈ xs, ∀ s, Finishes (f s x) ↔ Ok x) (s : σ) :
    Finishes (xs.foldlM f s) ↔ ∀ x ∈ xs, Ok x := by
  induction xs generalizing s with
  | nil => exact ⟨fun _ _ hx => absurd hx List.not_mem_nil, fun _ => finishes_pure s⟩
  | cons x xs ih =>
    obtain ⟨hx, hxs⟩ := List.forall_mem_cons.mp h
    rw [List.foldlM_cons, finishes_bind fun u => ih hxs u, hx, List.forall_mem_cons]

/-- A loop finishes exactly when every round of it does. -/
theorem finishes_forM {f : α → Check ε κ PUnit} {xs : List α} :
    Finishes (xs.forM f) ↔ ∀ x ∈ xs, Finishes (f x) := by
  induction xs with
  | nil => exact ⟨fun _ _ hx => absurd hx List.not_mem_nil, fun _ => finishes_pure _⟩
  | cons x xs ih =>
    rw [List.forall_mem_cons, ← ih]
    exact finishes_bind fun _ => Iff.rfl

end Check

namespace Except

variable {ε α β σ : Type}

/-- What every turn of a loop that may raise keeps. -/
theorem foldlM_ok {f : σ → α → Except ε σ} {P : σ → Prop} {xs : List α} {s t : σ}
    (h : xs.foldlM f s = .ok t) (hs : P s) (hf : ∀ s, ∀ x ∈ xs, ∀ u, P s → f s x = .ok u → P u) :
    P t := by
  induction xs generalizing s with
  | nil =>
    cases h
    exact hs
  | cons x xs ih =>
    rw [List.foldlM_cons] at h
    change Except.bind (f s x) _ = _ at h
    cases hfirst : f s x with
    | error e =>
      rw [hfirst] at h
      cases h
    | ok u =>
      rw [hfirst] at h
      refine ih h (hf s x List.mem_cons_self u hs hfirst) ?_
      exact fun s y hy => hf s y (List.mem_cons_of_mem _ hy)

/-- A sequence that did not raise. -/
theorem bind_ok {x : Except ε α} {f : α → Except ε β} {b : β} :
    (x >>= f) = .ok b ↔ ∃ a, x = .ok a ∧ f a = .ok b := by
  cases x with
  | error e => exact ⟨fun h => (nomatch h), fun ⟨_, h, _⟩ => (nomatch h)⟩
  | ok a =>
    constructor
    · exact fun h => ⟨a, rfl, h⟩
    · rintro ⟨_, ⟨⟩, h⟩
      exact h

/-- What holds of the items seen so far, through a whole run. -/
theorem foldlM_seen {f : σ → α → Except ε σ} {P : List α → σ → Prop}
    (hstep : ∀ seen s x s', P seen s → f s x = .ok s' → P (seen ++ [x]) s') {xs seen : List α}
    {s t : σ} (hs : P seen s) (h : xs.foldlM f s = .ok t) : P (seen ++ xs) t := by
  induction xs generalizing seen s with
  | nil =>
    cases h
    rwa [List.append_nil]
  | cons x xs ih =>
    rw [List.foldlM_cons] at h
    obtain ⟨s', hfirst, hrest⟩ := bind_ok.mp h
    have hall := ih (hstep seen s x s' hs hfirst) hrest
    rwa [List.append_assoc, List.singleton_append] at hall

/-- A run in which no step raises. -/
theorem foldlM_total {f : σ → α → Except ε σ} {xs : List α}
    (h : ∀ x ∈ xs, ∀ s, ∃ s', f s x = .ok s') (s : σ) : ∃ t, xs.foldlM f s = .ok t := by
  induction xs generalizing s with
  | nil => exact ⟨s, rfl⟩
  | cons x xs ih =>
    obtain ⟨hx, hxs⟩ := List.forall_mem_cons.mp h
    obtain ⟨s', hfirst⟩ := hx s
    obtain ⟨t, hrest⟩ := ih hxs s'
    exact ⟨t, by rw [List.foldlM_cons, hfirst]; exact hrest⟩

/-- A run in which no step raises as long as something holds that every step keeps. -/
theorem foldlM_keeps {f : σ → α → Except ε σ} {P : σ → Prop} {xs : List α}
    (h : ∀ x ∈ xs, ∀ s, P s → ∃ s', f s x = .ok s' ∧ P s') {s : σ} (hs : P s) :
    ∃ t, xs.foldlM f s = .ok t ∧ P t := by
  induction xs generalizing s with
  | nil => exact ⟨s, rfl, hs⟩
  | cons x xs ih =>
    obtain ⟨hx, hxs⟩ := List.forall_mem_cons.mp h
    obtain ⟨s', hfirst, hs'⟩ := hx s hs
    obtain ⟨t, hrest, ht⟩ := ih hxs hs'
    exact ⟨t, by rw [List.foldlM_cons, hfirst]; exact hrest, ht⟩

/-- A loop whose turns do not raise is a fold. -/
theorem foldlM_pure {f : σ → α → Except ε σ} {g : σ → α → σ} {xs : List α}
    (h : ∀ x ∈ xs, ∀ s, f s x = .ok (g s x)) (s : σ) : xs.foldlM f s = .ok (xs.foldl g s) := by
  induction xs generalizing s with
  | nil => rfl
  | cons x xs ih =>
    rw [List.foldlM_cons, h x List.mem_cons_self]
    exact ih (fun y hy => h y (List.mem_cons_of_mem _ hy)) (g s x)

/-- A loop whose turns raise or not whatever came before. -/
theorem foldlM_iff {f : σ → α → Except ε σ} {g : σ → α → σ} {Ok : α → Prop}
    (h : ∀ s x t, f s x = .ok t ↔ Ok x ∧ t = g s x) {xs : List α} {s t : σ} :
    xs.foldlM f s = .ok t ↔ (∀ x ∈ xs, Ok x) ∧ t = xs.foldl g s := by
  constructor
  · intro hrun
    induction xs generalizing s with
    | nil =>
      cases hrun
      exact ⟨by simp, rfl⟩
    | cons x xs ih =>
      rw [List.foldlM_cons] at hrun
      obtain ⟨u, hfirst, hrest⟩ := bind_ok.mp hrun
      obtain ⟨hx, rfl⟩ := (h s x u).mp hfirst
      obtain ⟨hxs, heq⟩ := ih hrest
      exact ⟨List.forall_mem_cons.mpr ⟨hx, hxs⟩, heq⟩
  · rintro ⟨hall, rfl⟩
    exact foldlM_pure (fun x hx u => (h u x (g u x)).mpr ⟨hall x hx, rfl⟩) s

/-- A map that does not raise. -/
theorem mapM_ok {f : α → Except ε β} {g : α → β} {xs : List α} (h : ∀ x ∈ xs, f x = .ok (g x)) :
    xs.mapM f = .ok (xs.map g) := by
  induction xs with
  | nil => rfl
  | cons x xs ih =>
    rw [List.mapM_cons, h x List.mem_cons_self, ih fun y hy => h y (List.mem_cons_of_mem _ hy)]
    rfl

/-- Mapping an action returns when the action does at every element. -/
theorem mapM_returns {f : α → Except ε β} {xs : List α} :
    (∃ ys, xs.mapM f = .ok ys) ↔ ∀ x ∈ xs, ∃ y, f x = .ok y := by
  induction xs with
  | nil => exact ⟨fun _ _ hx => absurd hx List.not_mem_nil, fun _ => ⟨[], rfl⟩⟩
  | cons x xs ih =>
    rw [List.forall_mem_cons, ← ih]
    constructor
    · rintro ⟨ys, h⟩
      rw [List.mapM_cons] at h
      obtain ⟨y, hy, h⟩ := bind_ok.mp h
      obtain ⟨zs, hzs, -⟩ := bind_ok.mp h
      exact ⟨⟨y, hy⟩, zs, hzs⟩
    · rintro ⟨⟨y, hy⟩, zs, hzs⟩
      refine ⟨y :: zs, ?_⟩
      rw [List.mapM_cons]
      exact bind_ok.mpr ⟨y, hy, bind_ok.mpr ⟨zs, hzs, rfl⟩⟩

/-- What a mapped action returned are its results at the elements. -/
theorem mem_of_mapM {f : α → Except ε β} {xs : List α} {ys : List β} (h : xs.mapM f = .ok ys)
    (y : β) : y ∈ ys ↔ ∃ x ∈ xs, f x = .ok y := by
  induction xs generalizing ys with
  | nil =>
    cases h
    simp
  | cons x xs ih =>
    rw [List.mapM_cons] at h
    obtain ⟨z, hz, h⟩ := bind_ok.mp h
    obtain ⟨zs, hzs, h⟩ := bind_ok.mp h
    cases h
    rw [List.mem_cons, ih hzs]
    simp only [List.exists_mem_cons_iff, hz, Except.ok.injEq]
    rw [eq_comm]

/-- A sequence fails where its first part does, or where that succeeds and the second part fails. -/
theorem bind_error {x : Except ε α} {f : α → Except ε β} {e : ε} :
    (x >>= f) = .error e ↔ x = .error e ∨ ∃ a, x = .ok a ∧ f a = .error e := by
  cases x with
  | error e' =>
    constructor
    · intro h
      exact .inl (congrArg Except.error (Except.error.inj h))
    · rintro (h | ⟨a, ha, -⟩)
      · exact congrArg Except.error (Except.error.inj h)
      · cases ha
  | ok a =>
    constructor
    · intro h
      exact .inr ⟨a, rfl, h⟩
    · rintro (h | ⟨b, hb, h⟩)
      · cases h
      · cases hb
        exact h

/-- A mapped action returns the list of what it returns. -/
theorem mapM_forall₂ {f : α → Except ε β} {xs : List α} {ys : List β} :
    xs.mapM f = .ok ys ↔ List.Forall₂ (fun x y => f x = .ok y) xs ys := by
  induction xs generalizing ys with
  | nil =>
    rw [List.mapM_nil, List.forall₂_nil_left_iff]
    exact ⟨fun h => by cases h; rfl, fun h => by rw [h]; rfl⟩
  | cons x xs ih =>
    rw [List.mapM_cons, List.forall₂_cons_left_iff, bind_ok]
    constructor
    · rintro ⟨y, hy, h⟩
      obtain ⟨zs, hzs, h⟩ := bind_ok.mp h
      cases h
      exact ⟨y, zs, hy, ih.mp hzs, rfl⟩
    · rintro ⟨y, zs, hy, hzs, rfl⟩
      exact ⟨y, hy, bind_ok.mpr ⟨zs, ih.mpr hzs, rfl⟩⟩

/-- A mapped action raises what it raises at the first element at which it raises. -/
theorem mapM_error {f : α → Except ε β} {xs : List α} {e : ε} :
    xs.mapM f = .error e ↔
      ∃ before x after, xs = before ++ x :: after ∧ (∀ y ∈ before, ∃ z, f y = .ok z) ∧
        f x = .error e := by
  induction xs with
  | nil =>
    rw [List.mapM_nil]
    constructor
    · intro h
      cases h
    · rintro ⟨before, x, after, h, -⟩
      exact absurd h.symm (List.append_ne_nil_of_right_ne_nil _ (List.cons_ne_nil _ _))
  | cons x xs ih =>
    rw [List.mapM_cons, bind_error]
    constructor
    · rintro (hx | ⟨y, hy, h⟩)
      · exact ⟨[], x, xs, rfl, nofun, hx⟩
      · rcases bind_error.mp h with hrest | ⟨zs, -, h⟩
        · obtain ⟨before, w, after, rfl, hbefore, hw⟩ := ih.mp hrest
          exact ⟨x :: before, w, after, rfl, List.forall_mem_cons.mpr ⟨⟨y, hy⟩, hbefore⟩, hw⟩
        · cases h
    · rintro ⟨before, w, after, hsplit, hbefore, hw⟩
      cases before with
      | nil =>
        obtain ⟨rfl, rfl⟩ := List.cons.inj hsplit
        exact .inl hw
      | cons x' before =>
        obtain ⟨rfl, rfl⟩ := List.cons.inj hsplit
        obtain ⟨⟨y, hy⟩, hbefore⟩ := List.forall_mem_cons.mp hbefore
        exact .inr ⟨y, hy, bind_error.mpr (.inl (ih.mpr ⟨before, w, after, rfl, hbefore, hw⟩))⟩

/-- What a mapped action keeps of every element, it keeps of the list. -/
theorem map_of_mapM {γ : Type} {f : α → Except ε β} {g : β → γ} {k : α → γ}
    (hf : ∀ x y, f x = .ok y → g y = k x) {xs : List α} {ys : List β} (h : xs.mapM f = .ok ys) :
    ys.map g = xs.map k := by
  induction xs generalizing ys with
  | nil =>
    cases h
    rfl
  | cons x xs ih =>
    rw [List.mapM_cons] at h
    obtain ⟨z, hz, h⟩ := bind_ok.mp h
    obtain ⟨zs, hzs, h⟩ := bind_ok.mp h
    cases h
    rw [List.map_cons, List.map_cons, hf x z hz, ih hzs]

end Except
