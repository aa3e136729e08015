/-
The order of fields.

Two values are equal as JSON when their objects have the same fields in whatever order. A value with
its fields by key at every depth stands for all that are equal to it (`ordered_eq_iff`); `dumps`
writes that value, so that its text is read as it and two values have one text exactly when they are
equal.
-/
import Memline.Lib.JsonWriting
import Memline.Lib.Lists
import Mathlib.Data.List.Nodup
import Mathlib.Data.List.Perm.Subperm

set_option autoImplicit false

namespace Py.JsonText

open Json

variable {L : Language} {p : Printer}

/-- What holds of a value if it holds of its parts. -/
theorem parts_induction {P : Json → Prop} (null : P .null) (bool : ∀ b, P (.bool b))
    (int : ∀ n, P (.int n)) (float : ∀ q, P (.float q)) (str : ∀ s, P (.str s))
    (list : ∀ xs, (∀ x ∈ xs, P x) → P (.list xs))
    (obj : ∀ fields : List (String × Json), (∀ e ∈ fields, P e.2) → P (.obj fields)) (x : Json) :
    P x :=
  @Json.rec P (fun xs => ∀ x ∈ xs, P x) (fun fields => ∀ e ∈ fields, P e.2) (fun e => P e.2)
    null bool int float str list obj nofun (fun _ _ hx hxs =>
      List.forall_mem_cons.mpr ⟨hx, hxs⟩) nofun
    (fun _ _ he hfields => List.forall_mem_cons.mpr ⟨he, hfields⟩) (fun _ _ hx => hx) x

/-! ## Fields by key -/

def by_key (a b : String × Json) : Prop := a.1 ≤ b.1

instance : DecidableRel by_key := fun a b => inferInstanceAs (Decidable (a.1 ≤ b.1))

mutual

/-- The value with its fields by key, at every depth. -/
def ordered : Json → Json
  | .list xs => .list (orderedList xs)
  | .obj fields => .obj ((orderedFields fields).insertionSort by_key)
  | x => x

def orderedList : List Json → List Json
  | [] => []
  | x :: xs => ordered x :: orderedList xs

def orderedFields : List (String × Json) → List (String × Json)
  | [] => []
  | (key, x) :: fields => (key, ordered x) :: orderedFields fields

end

theorem orderedList_eq (xs : List Json) : orderedList xs = xs.map ordered := by
  induction xs with
  | nil => rfl
  | cons x xs ih => rw [orderedList, ih, List.map_cons]

/-- Ordering fields orders their values and leaves their keys. -/
theorem orderedFields_eq (fields : List (String × Json)) :
    orderedFields fields = fields.map fun e => (e.1, ordered e.2) := by
  induction fields with
  | nil => rfl
  | cons e fields ih => rw [orderedFields, ih, List.map_cons]

/-! ### Parts -/

/-- The items of a list are as deep as the list allows. -/
theorem depthList_le {xs : List Json} {n : ℕ} : depthList xs ≤ n ↔ ∀ x ∈ xs, depth x ≤ n := by
  induction xs with
  | nil => simp [depthList]
  | cons x xs ih => rw [depthList, max_le_iff, ih, List.forall_mem_cons]

/-- The values of an object are as deep as the object allows. -/
theorem depthFields_le {fields : List (String × Json)} {n : ℕ} :
    depthFields fields ≤ n ↔ ∀ e ∈ fields, depth e.2 ≤ n := by
  induction fields with
  | nil => simp [depthFields]
  | cons e fields ih => rw [depthFields, max_le_iff, ih, List.forall_mem_cons]

/-- The numbers of a list are within the limit when those of its items are. -/
theorem short_intsList_iff {xs : List Json} :
    short_intsList L xs = true ↔ ∀ x ∈ xs, short_ints L x = true := by
  induction xs with
  | nil => simp [short_intsList]
  | cons x xs ih => rw [short_intsList, Bool.and_eq_true, ih, List.forall_mem_cons]

/-- The numbers of an object are within the limit when those of its values are. -/
theorem short_intsFields_iff {fields : List (String × Json)} :
    short_intsFields L fields = true ↔ ∀ e ∈ fields, short_ints L e.2 = true := by
  induction fields with
  | nil => simp [short_intsFields]
  | cons e fields ih => rw [short_intsFields, Bool.and_eq_true, ih, List.forall_mem_cons]

/-- The floats of a list are read back when those of its items are. -/
theorem floatsReadList_iff {xs : List Json} :
    FloatsReadList L p xs ↔ ∀ x ∈ xs, FloatsRead L p x := by
  induction xs with
  | nil => simp [FloatsReadList]
  | cons x xs ih => rw [FloatsReadList, ih, List.forall_mem_cons]

/-- The floats of an object are read back when those of its values are. -/
theorem floatsReadFields_iff {fields : List (String × Json)} :
    FloatsReadFields L p fields ↔ ∀ e ∈ fields, FloatsRead L p e.2 := by
  induction fields with
  | nil => simp [FloatsReadFields]
  | cons e fields ih => rw [FloatsReadFields, ih, List.forall_mem_cons]

/-- The objects in a list have distinct keys when those in its items have. -/
theorem distinctList_iff {xs : List Json} : DistinctList xs ↔ ∀ x ∈ xs, Distinct x := by
  induction xs with
  | nil => simp [DistinctList]
  | cons x xs ih => rw [DistinctList, ih, List.forall_mem_cons]

/-- The objects in an object have distinct keys when those in its values have. -/
theorem distinctFields_iff {fields : List (String × Json)} :
    DistinctFields fields ↔ ∀ e ∈ fields, Distinct e.2 := by
  induction fields with
  | nil => simp [DistinctFields]
  | cons e fields ih => rw [DistinctFields, ih, List.forall_mem_cons]

/-- A value that the language writes: no object has a key twice, and nothing is beyond the
limits. -/
structure Dumpable (L : Language) (p : Printer) (x : Json) : Prop where
  depth_le : depth x ≤ L.max_depth
  ints : short_ints L x = true
  floats : FloatsRead L p x
  keys : Distinct x

theorem mem_ordered_fields {fields : List (String × Json)} {e : String × Json} :
    e ∈ (orderedFields fields).insertionSort by_key ↔ ∃ f ∈ fields, (f.1, ordered f.2) = e := by
  rw [List.mem_insertionSort, orderedFields_eq, List.mem_map]

theorem keys_ordered_perm (fields : List (String × Json)) :
    (((orderedFields fields).insertionSort by_key).map Prod.fst).Perm (fields.map Prod.fst) := by
  refine ((List.perm_insertionSort by_key _).map Prod.fst).trans ?_
  rw [orderedFields_eq, List.map_map]
  exact .refl _

/-- Ordering the fields keeps what is said of the parts of a value, one level down, and of the keys
of its objects in whatever order. -/
theorem ordered_keeps {P : ℕ → Json → Prop} {C : ℕ → Prop} {K : List String → Prop}
    (hK : ∀ ks ks' : List String, ks.Perm ks' → K ks → K ks')
    (hlist : ∀ n xs, P n (.list xs) ↔ C n ∧ ∀ x ∈ xs, P (n - 1) x)
    (hobj : ∀ n (fields : List (String × Json)),
      P n (.obj fields) ↔ C n ∧ K (fields.map Prod.fst) ∧ ∀ e ∈ fields, P (n - 1) e.2) (x : Json) :
    ∀ n, P n x → P n (ordered x) := by
  induction x using parts_induction with
  | list xs ih =>
    intro n h
    rw [hlist] at h
    rw [ordered, hlist, orderedList_eq]
    refine ⟨h.1, fun y hy => ?_⟩
    obtain ⟨x, hx, rfl⟩ := List.mem_map.mp hy
    exact ih x hx (n - 1) (h.2 x hx)
  | obj fields ih =>
    intro n h
    rw [hobj] at h
    rw [ordered, hobj]
    refine ⟨h.1, hK _ _ (keys_ordered_perm fields).symm h.2.1, fun e he => ?_⟩
    obtain ⟨f, hf, rfl⟩ := mem_ordered_fields.mp he
    exact ih f hf (n - 1) (h.2.2 f hf)
  | _ => exact fun n h => h

/-- A value that can be written can be written with its fields in order. -/
theorem Dumpable.ordered {x : Json} (h : Dumpable L p x) : Dumpable L p (ordered x) where
  depth_le := by
    refine ordered_keeps (P := fun n x => depth x ≤ n) (C := fun n => 1 ≤ n) (K := fun _ => True)
      (fun _ _ _ _ => trivial) (fun n xs => ?_) (fun n fields => ?_) x _ h.depth_le
    · rw [depth, ← depthList_le]
      omega
    · rw [depth, ← depthFields_le]
      simp only [true_and]
      omega
  ints :=
  ordered_keeps (P := fun _ x => short_ints L x = true) (C := fun _ => True) (K := fun _ => True)
    (fun _ _ _ _ => trivial) (fun n xs => by rw [short_ints, short_intsList_iff, true_and])
    (fun n fields => by rw [short_ints, short_intsFields_iff, true_and, true_and]) x 0 h.ints
  floats :=
  ordered_keeps (P := fun _ x => FloatsRead L p x) (C := fun _ => True) (K := fun _ => True)
    (fun _ _ _ _ => trivial) (fun n xs => by rw [FloatsRead, floatsReadList_iff, true_and])
    (fun n fields => by rw [FloatsRead, floatsReadFields_iff, true_and, true_and]) x 0 h.floats
  keys := ordered_keeps (P := fun _ x => Distinct x) (C := fun _ => True) (K := List.Nodup)
    (fun _ _ hperm hnodup => hperm.nodup_iff.mp hnodup)
    (fun n xs => by rw [Distinct, distinctList_iff, true_and])
    (fun n fields => by rw [Distinct, distinctFields_iff, true_and]) x 0 h.keys

/-! ## Equality -/

mutual

/-- The same value, whatever the order of the fields. -/
def Equal : Json → Json → Prop
  | .list xs, .list ys => EqualList xs ys
  | .obj fields, .obj others => fields.length = others.length ∧ EqualFields fields others
  | x, y => x = y

def EqualList : List Json → List Json → Prop
  | [], [] => True
  | x :: xs, y :: ys => Equal x y ∧ EqualList xs ys
  | _, _ => False

/-- Each field has an equal one in the other object. -/
def EqualFields : List (String × Json) → List (String × Json) → Prop
  | [], _ => True
  | (key, x) :: fields, others => (∃ y, others.lookup key = some y ∧ Equal x y) ∧
      EqualFields fields others

end

/-- An object has equal fields in another one when each key is found there with an equal value. -/
theorem equalFields_iff {fields others : List (String × Json)} :
    EqualFields fields others ↔ ∀ e ∈ fields, ∃ y, others.lookup e.1 = some y ∧ Equal e.2 y := by
  induction fields with
  | nil => simp [EqualFields]
  | cons e fields ih => rw [EqualFields, ih, List.forall_mem_cons]

/-- Fields by key, with no key twice, are one list for all their orders. -/
theorem sorted_eq_iff {d e : List (String × Json)} (hd : (d.map Prod.fst).Nodup) :
    d.insertionSort by_key = e.insertionSort by_key ↔ d.Perm e := by
  have htotal : Std.Total by_key := ⟨fun a b => String.le_total a.1 b.1⟩
  have htrans : IsTrans (String × Json) by_key := ⟨fun _ _ _ => String.le_trans⟩
  constructor
  · intro h
    exact (List.perm_insertionSort by_key d).symm.trans (h ▸ List.perm_insertionSort by_key e)
  · intro h
    have hperm : (d.insertionSort by_key).Perm (e.insertionSort by_key) :=
      (List.perm_insertionSort by_key d).trans (h.trans (List.perm_insertionSort by_key e).symm)
    have hkeys : ∀ a b, a ∈ d.insertionSort by_key → b ∈ e.insertionSort by_key → by_key a b →
        by_key b a → a = b := ?_
    · exact hperm.eq_of_pairwise hkeys (List.pairwise_insertionSort by_key d)
        (List.pairwise_insertionSort by_key e)
    intro a b ha hb hab hba
    rw [List.mem_insertionSort] at ha hb
    exact List.inj_on_of_nodup_map hd ha (h.mem_iff.mpr hb) (String.le_antisymm hab hba)

/-- An ordered field is a field with its value ordered. -/
theorem mem_orderedFields {fields : List (String × Json)} {e : String × Json} :
    e ∈ orderedFields fields ↔ ∃ f ∈ fields, (f.1, ordered f.2) = e := by
  rw [orderedFields_eq, List.mem_map]

theorem keys_orderedFields (fields : List (String × Json)) :
    (orderedFields fields).map Prod.fst = fields.map Prod.fst := by
  rw [orderedFields_eq, List.map_map]
  rfl

/-- Lists are equal item by item when their ordered items are the same. -/
theorem orderedList_eq_iff {xs ys : List Json}
    (h : ∀ x ∈ xs, ∀ y ∈ ys, ordered x = ordered y ↔ Equal x y) :
    orderedList xs = orderedList ys ↔ EqualList xs ys := by
  induction xs generalizing ys with
  | nil => cases ys <;> simp [orderedList, EqualList]
  | cons x xs ih =>
    cases ys with
    | nil => simp [orderedList, EqualList]
    | cons y ys =>
      rw [orderedList, orderedList, List.cons.injEq, EqualList,
        h x List.mem_cons_self y List.mem_cons_self,
        ih fun x' hx' y' hy' => h x' (List.mem_cons_of_mem x hx') y' (List.mem_cons_of_mem y hy')]

/-- Objects are equal when their ordered fields are the same up to their order. -/
theorem orderedFields_perm_iff {d e : List (String × Json)} (hd : (d.map Prod.fst).Nodup)
    (he : (e.map Prod.fst).Nodup) (h : ∀ f ∈ d, ∀ g ∈ e, ordered f.2 = ordered g.2 ↔
      Equal f.2 g.2) :
    (orderedFields d).Perm (orderedFields e) ↔ d.length = e.length ∧ EqualFields d e := by
  have hlength : ∀ fields, (orderedFields fields).length = fields.length := by
    intro fields
    rw [orderedFields_eq, List.length_map]
  rw [equalFields_iff]
  constructor
  · intro hperm
    refine ⟨by rw [← hlength d, ← hlength e, hperm.length_eq], fun f hf => ?_⟩
    have hmem : (f.1, ordered f.2) ∈ orderedFields e :=
      hperm.mem_iff.mp (mem_orderedFields.mpr ⟨f, hf, rfl⟩)
    obtain ⟨g, hg, heq⟩ := mem_orderedFields.mp hmem
    obtain ⟨hkey, hvalue⟩ := Prod.mk.inj heq
    refine ⟨g.2, ?_, (h f hf g hg).mp hvalue.symm⟩
    rw [← hkey]
    exact Lists.lookup_of_mem he hg
  · rintro ⟨hcount, hfields⟩
    have hnodup : (orderedFields d).Nodup :=
      List.Nodup.of_map Prod.fst (by rw [keys_orderedFields]; exact hd)
    have hsub : orderedFields d ⊆ orderedFields e := by
      intro f' hf'
      obtain ⟨f, hf, rfl⟩ := mem_orderedFields.mp hf'
      obtain ⟨y, hlookup, hequal⟩ := hfields f hf
      obtain ⟨before, after, hsplit, -⟩ := List.lookup_eq_some_iff.mp hlookup
      have hmem : (f.1, y) ∈ e := by simp [hsplit]
      exact mem_orderedFields.mpr ⟨(f.1, y), hmem, by rw [(h f hf _ hmem).mpr hequal]⟩
    exact (List.subperm_of_subset hnodup hsub).perm_of_length_le (by rw [hlength, hlength, hcount])

/-- A value stands with its fields by key for all that are equal to it. -/
theorem ordered_eq_iff (x : Json) :
    ∀ {y : Json}, Distinct x → Distinct y → (ordered x = ordered y ↔ Equal x y) := by
  induction x using parts_induction with
  | list xs ih =>
    intro y hx hy
    cases y with
    | list ys =>
      rw [Distinct, distinctList_iff] at hx hy
      rw [ordered, ordered, Json.list.injEq, Equal]
      exact orderedList_eq_iff fun x hx' y hy' => ih x hx' (hx x hx') (hy y hy')
    | _ => simp [ordered, Equal]
  | obj fields ih =>
    intro y hx hy
    cases y with
    | obj others =>
      rw [Distinct, distinctFields_iff] at hx hy
      rw [ordered, ordered, Json.obj.injEq, Equal,
        sorted_eq_iff (by rw [keys_orderedFields]; exact hx.1)]
      exact orderedFields_perm_iff hx.1 hy.1 fun f hf g hg => ih f hf (hx.2 f hf) (hy.2 g hg)
    | _ => simp [ordered, Equal]
  | _ => intro y _ _; cases y <;> simp [ordered, Equal]

/-! ## The texts -/

/-- Putting lists together with a separator in front of every one but the first. -/
theorem intercalate_cons {α : Type} (sep l : List α) (ls : List (List α)) :
    sep.intercalate (l :: ls) = l ++ ls.flatMap (sep ++ ·) := by
  induction ls generalizing l with
  | nil => simp
  | cons m ls ih =>
    rw [List.intercalate_cons_cons, ih, List.flatMap_cons, List.append_assoc, List.append_assoc]

section texts

variable (st : Style)

/-- The items of a list as they are written, one behind the other. -/
theorem writeItems_eq (level : ℕ) (xs : List Json) :
    writeItems st p level xs =
      (xs.map (write st p (level + 1))).flatMap ((',' :: st.comma level) ++ ·) ++
        (st.closing level ++ [']']) := by
  induction xs with
  | nil => rfl
  | cons x xs ih => rw [writeItems, ih, List.map_cons, List.flatMap_cons]; simp

/-- A field. -/
def write_field (level : ℕ) (e : String × Json) : List Char :=
  quote st e.1 ++ ':' :: (st.colon ++ write st p (level + 1) e.2)

/-- The fields of an object as they are written, one behind the other. -/
theorem writeFields_eq (level : ℕ) (fields : List (String × Json)) :
    writeFields st p level fields =
      (fields.map (write_field (p := p) st level)).flatMap ((',' :: st.comma level) ++ ·) ++
        (st.closing level ++ ['\x7d']) := by
  induction fields with
  | nil => rfl
  | cons e fields ih => rw [writeFields, ih, List.map_cons, List.flatMap_cons]; simp [write_field]

end texts

/-- Quoting a text in a style is escaping its characters between quotes. -/
theorem toList_quoted (st : Style) (hescape : ∀ c, st.escape c = (escape c).toList) (s : String) :
    (quoted s).toList = quote st s := by
  have hchars : (s.toList.map escape).flatMap String.toList = s.toList.flatMap st.escape := by
    rw [List.flatMap_map]
    exact congrArg (s.toList.flatMap ·) (funext fun c => (hescape c).symm)
  rw [quoted, String.toList_append, String.toList_append, String.toList_join, hchars, quote]
  rfl

theorem dumpsList_eq (xs : List Json) : dumpsList p xs = xs.map (dumps p) := by
  induction xs with
  | nil => rfl
  | cons x xs ih => rw [dumpsList, ih, List.map_cons]

theorem dumpsFields_eq (fields : List (String × Json)) :
    dumpsFields p fields = fields.map fun e => (e.1, dumps p e.2) := by
  induction fields with
  | nil => rfl
  | cons e fields ih => rw [dumpsFields, ih, List.map_cons]

/-- The canonical text is that of the value with its fields by key. -/
theorem toList_dumps (x : Json) :
    ∀ level, (dumps p x).toList = write .compact p level (ordered x) := by
  have hitems : ∀ (opening closing : String) (line : String) (lines : List String),
      (opening ++ ",".intercalate (line :: lines) ++ closing).toList =
        opening.toList ++ (line.toList ++
          ((lines.map String.toList).flatMap ([','] ++ ·) ++ closing.toList)) := by
    intro opening closing line lines
    simp only [String.toList_append, String.toList_intercalate, List.map_cons, intercalate_cons,
      List.append_assoc]
    rfl
  induction x using parts_induction with
  | list xs ih =>
    intro level
    cases xs with
    | nil =>
      simp only [dumps, dumpsList, ordered, orderedList, write]
      decide
    | cons x xs =>
      have htexts : (xs.map (dumps p)).map String.toList =
          (xs.map ordered).map (write .compact p (level + 1)) := by
        rw [List.map_map, List.map_map]
        exact List.map_congr_left fun y hy => ih y (List.mem_cons_of_mem x hy) (level + 1)
      rw [dumps, dumpsList_eq, List.map_cons, hitems, ordered, orderedList_eq, List.map_cons, write,
        writeItems_eq, htexts, ih x List.mem_cons_self (level + 1)]
      rfl
  | obj fields ih =>
    intro level
    have htext : ∀ f ∈ fields.insertionSort by_key, (quoted f.1 ++ ":" ++ dumps p f.2).toList =
        write_field (p := p) .compact level (f.1, ordered f.2) := by
      intro f hf
      rw [String.toList_append, String.toList_append, toList_quoted .compact fun _ => rfl,
        ih f ((List.mem_insertionSort by_key).mp hf) (level + 1), write_field, List.append_assoc]
      rfl
    -- the order is by the keys, which are the same before and after the values are written
    have hsorted : (orderedFields fields).insertionSort by_key =
        (fields.insertionSort by_key).map fun f => (f.1, ordered f.2) := by
      rw [orderedFields_eq]
      exact (List.map_insertionSort by_key by_key (fun f => (f.1, ordered f.2)) fields
        fun _ _ _ _ => Iff.rfl).symm
    have hdumped : (dumpsFields p fields).insertionSort (fun a b => a.1 ≤ b.1) =
        (fields.insertionSort by_key).map fun f => (f.1, dumps p f.2) := by
      rw [dumpsFields_eq]
      exact (List.map_insertionSort by_key (fun a b : String × String => a.1 ≤ b.1) (fun f =>
        (f.1, dumps p f.2)) fields
        fun _ _ _ _ => Iff.rfl).symm
    rw [dumps, ordered]
    rw [hdumped, hsorted]
    generalize fields.insertionSort by_key = sorted at htext
    cases sorted with
    | nil =>
      simp only [List.map_nil, write]
      decide
    | cons e sorted =>
      have htexts : (sorted.map fun f => quoted f.1 ++ ":" ++ dumps p f.2).map String.toList =
          (sorted.map fun f => (f.1, ordered f.2)).map (write_field (p := p) .compact level) := by
        rw [List.map_map, List.map_map]
        exact List.map_congr_left fun f hf => htext f (List.mem_cons_of_mem e hf)
      rw [List.map_map, List.map_cons, hitems, List.map_cons, write, writeFields_eq, ← htexts]
      have hfirst := htext e List.mem_cons_self
      simp only [Function.comp_def, hfirst, write_field]
      simp [Style.compact]
  | str s =>
    intro level
    simp only [dumps, ordered, write]
    exact toList_quoted .compact (fun _ => rfl) s
  | _ => exact fun level => by simp only [dumps, ordered, write]

end Py.JsonText
