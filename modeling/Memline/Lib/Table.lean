/-
Tables of rows in insertion order, under the statements SQLite offers.

A table is the list of its rows, oldest first; the position of a row is its
rowid. `update` is `UPDATE … SET … WHERE …`, `insertOrIgnore` is
`INSERT OR IGNORE`, `delete` is `DELETE … WHERE …`. A uniqueness constraint is
`Unique` of the constrained columns, and each statement has the lemma that says
it keeps one.

For a table that is only ever appended to and rewritten, `Evolves R` says that
each row is still where it was, rewritten at most as `R` allows. It composes
along a run when `R` does.
-/
import Mathlib.Data.List.Nodup
import Mathlib.Data.List.Basic

set_option autoImplicit false

namespace SqlTable

variable {ρ κ : Type}

/-! ## Statements -/

/-- `UPDATE t SET f WHERE p`. -/
def update (p : ρ → Bool) (f : ρ → ρ) (t : List ρ) : List ρ :=
  t.map fun r => if p r then f r else r

/-- The `rowcount` of an `UPDATE` or a `DELETE`. -/
def rowcount (p : ρ → Bool) (t : List ρ) : ℕ := t.countP p

/-- `INSERT OR IGNORE`: nothing happens when some row conflicts with the new one. -/
def insertOrIgnore (conflict : ρ → ρ → Bool) (r : ρ) (t : List ρ) : List ρ :=
  if t.any (conflict r) then t else t ++ [r]

/-- `DELETE FROM t WHERE p`. -/
def delete (p : ρ → Bool) (t : List ρ) : List ρ := t.filter fun r => !p r

@[simp] theorem length_update (p : ρ → Bool) (f : ρ → ρ) (t : List ρ) :
    (update p f t).length = t.length := List.length_map ..

/-- The rows after an update are those before, some of them changed. -/
theorem mem_update {p : ρ → Bool} {f : ρ → ρ} {t : List ρ} {r : ρ} :
    r ∈ update p f t ↔ ∃ r₀ ∈ t, (if p r₀ then f r₀ else r₀) = r := List.mem_map

/-- The rows after a deletion are those that were not meant. -/
theorem mem_delete {p : ρ → Bool} {t : List ρ} {r : ρ} :
    r ∈ delete p t ↔ r ∈ t ∧ p r = false := by
  simp [delete, List.mem_filter]

theorem rowcount_pos {p : ρ → Bool} {t : List ρ} :
    0 < rowcount p t ↔ ∃ r ∈ t, p r = true := by
  simp [rowcount, List.countP_pos_iff]

/-- An `UPDATE` that matches no row changes nothing. -/
theorem update_eq_self {p : ρ → Bool} {f : ρ → ρ} {t : List ρ} (h : ∀ r ∈ t, p r = false) :
    update p f t = t := by
  unfold update
  conv_rhs => rw [← List.map_id t]
  refine List.map_congr_left (fun r hr => ?_)
  simp [h r hr]

/-- A row is inserted at the end, or ignored because of one that is there. -/
theorem insertOrIgnore_cases (conflict : ρ → ρ → Bool) (r : ρ) (t : List ρ) :
    ((∃ r' ∈ t, conflict r r' = true) ∧ insertOrIgnore conflict r t = t) ∨
      ((∀ r' ∈ t, conflict r r' = false) ∧ insertOrIgnore conflict r t = t ++ [r]) := by
  unfold insertOrIgnore
  by_cases h : t.any (conflict r) = true
  · rw [if_pos h]
    obtain ⟨r', hr', hc⟩ := List.any_eq_true.mp h
    exact .inl ⟨⟨r', hr', hc⟩, rfl⟩
  · rw [if_neg h]
    refine .inr ⟨fun r' hr' => ?_, rfl⟩
    simpa using fun hc => h (List.any_eq_true.mpr ⟨r', hr', hc⟩)

/-! ## Uniqueness constraints -/

/-- No two rows agree on `key`. -/
def Unique (key : ρ → κ) (t : List ρ) : Prop := (t.map key).Nodup

variable {key : ρ → κ} {t : List ρ}

theorem unique_nil : Unique key ([] : List ρ) := List.nodup_nil

theorem Unique.eq_of_key_eq (h : Unique key t) {a b : ρ} (ha : a ∈ t) (hb : b ∈ t)
    (hab : key a = key b) : a = b :=
  List.inj_on_of_nodup_map h ha hb hab

/-- An update that leaves keys alone leaves them unique. -/
theorem Unique.update (h : Unique key t) {p : ρ → Bool} {f : ρ → ρ}
    (hf : ∀ r, key (f r) = key r) : Unique key (update p f t) := by
  have hkeys : (SqlTable.update p f t).map key = t.map key := by
    simp only [SqlTable.update, List.map_map]
    refine List.map_congr_left (fun r _ => ?_)
    simp only [Function.comp_apply]
    split
    · exact hf r
    · rfl
  simpa [Unique, hkeys] using h

theorem Unique.delete (h : Unique key t) (p : ρ → Bool) : Unique key (delete p t) :=
  (List.filter_sublist.map key).nodup h

/-- A row with a key of its own may be appended. -/
theorem Unique.concat (h : Unique key t) {r : ρ} (hr : ∀ r' ∈ t, key r' ≠ key r) :
    Unique key (t ++ [r]) := by
  rw [Unique, List.map_append, List.map_singleton]
  refine List.Nodup.append h (List.nodup_singleton _) ?_
  rw [List.disjoint_singleton]
  intro hmem
  obtain ⟨r', hr', hk⟩ := List.mem_map.mp hmem
  exact hr r' hr' hk

/-- An insertion that gives way to rows of its key leaves keys unique. -/
theorem Unique.insertOrIgnore (h : Unique key t) {conflict : ρ → ρ → Bool} {r : ρ}
    (hc : ∀ r', key r = key r' → conflict r r' = true) :
    Unique key (insertOrIgnore conflict r t) := by
  rcases insertOrIgnore_cases conflict r t with ⟨-, he⟩ | ⟨hno, he⟩
  · rwa [he]
  · rw [he]
    refine h.concat fun r' hr' hk => ?_
    have := hno r' hr'
    rw [hc r' hk.symm] at this
    exact Bool.noConfusion this

/-! ## Lookup by key -/

section lookup

variable [DecidableEq κ]

/-- `SELECT * FROM t WHERE key = k`, first match. -/
def lookup (key : ρ → κ) (k : κ) (t : List ρ) : Option ρ := t.find? fun r => key r = k

theorem mem_of_lookup {k : κ} {r : ρ} (h : lookup key k t = some r) : r ∈ t ∧ key r = k := by
  refine ⟨List.mem_of_find?_eq_some h, ?_⟩
  simpa using List.find?_some h

theorem Unique.lookup_eq (h : Unique key t) {r : ρ} (hr : r ∈ t) :
    lookup key (key r) t = some r := by
  cases hl : lookup key (key r) t with
  | none =>
    have := List.find?_eq_none.mp hl r hr
    simp at this
  | some r' =>
    obtain ⟨hmem, hk⟩ := mem_of_lookup hl
    rw [h.eq_of_key_eq hmem hr hk]

/-- Looking up after an update that leaves keys alone is updating what was looked up. -/
theorem lookup_update {p : ρ → Bool} {f : ρ → ρ} (hf : ∀ r, key (f r) = key r) (k : κ) :
    lookup key k (update p f t) = (lookup key k t).map fun r => if p r then f r else r := by
  induction t with
  | nil => rfl
  | cons r t ih =>
    have hkey : key (if p r then f r else r) = key r := by split <;> simp [hf]
    simp only [lookup, update, List.map_cons, List.find?_cons] at ih ⊢
    rw [hkey]
    split
    · rfl
    · exact ih

end lookup

/-! ## Tables that only grow -/

/-- Every row is where it was, rewritten at most as `R` allows. -/
def Evolves (R : ρ → ρ → Prop) (t t' : List ρ) : Prop :=
  ∀ (i : ℕ) (r : ρ), t[i]? = some r → ∃ r', t'[i]? = some r' ∧ R r r'

variable {R : ρ → ρ → Prop} {t' t'' : List ρ}

theorem Evolves.refl (hR : ∀ r, R r r) (t : List ρ) : Evolves R t t :=
  fun _ r hr => ⟨r, hr, hR r⟩

theorem Evolves.trans (hR : ∀ a b c, R a b → R b c → R a c) (h : Evolves R t t')
    (h' : Evolves R t' t'') : Evolves R t t'' := by
  intro i r hr
  obtain ⟨r', hr', hrr'⟩ := h i r hr
  obtain ⟨r'', hr'', hr'r''⟩ := h' i r' hr'
  exact ⟨r'', hr'', hR _ _ _ hrr' hr'r''⟩

/-- Evolving in a narrower way is evolving in a wider one. -/
theorem Evolves.mono {S : ρ → ρ → Prop} (h : Evolves R t t') (hRS : ∀ a b, R a b → S a b) :
    Evolves S t t' := by
  intro i r hr
  obtain ⟨r', hr', hrr'⟩ := h i r hr
  exact ⟨r', hr', hRS _ _ hrr'⟩

theorem Evolves.and {S : ρ → ρ → Prop} (h : Evolves R t t') (h' : Evolves S t t') :
    Evolves (fun a b => R a b ∧ S a b) t t' := by
  intro i r hr
  obtain ⟨a, ha, hra⟩ := h i r hr
  obtain ⟨b, hb, hrb⟩ := h' i r hr
  obtain rfl : a = b := Option.some.inj (ha.symm.trans hb)
  exact ⟨a, ha, hra, hrb⟩

theorem Evolves.mem (h : Evolves R t t') {r : ρ} (hr : r ∈ t) : ∃ r' ∈ t', R r r' := by
  obtain ⟨i, hi⟩ := List.mem_iff_getElem?.mp hr
  obtain ⟨r', hr', hrr'⟩ := h i r hi
  exact ⟨r', List.mem_of_getElem? hr', hrr'⟩

/-- A row found by its key is found again, rewritten, as long as its key stays. -/
theorem Evolves.lookup [DecidableEq κ] (h : Evolves R t t') (hu : Unique key t')
    (hkey : ∀ a b, R a b → key b = key a) {k : κ} {r : ρ} (hr : lookup key k t = some r) :
    ∃ r', SqlTable.lookup key k t' = some r' ∧ R r r' := by
  obtain ⟨hmem, rfl⟩ := mem_of_lookup hr
  obtain ⟨r', hr', hrr'⟩ := h.mem hmem
  refine ⟨r', ?_, hrr'⟩
  rw [← hkey r r' hrr']
  exact hu.lookup_eq hr'

/-- An update evolves a table when it evolves the rows that it meets. -/
theorem evolves_update {p : ρ → Bool} {f : ρ → ρ} (hR : ∀ r, R r r)
    (hf : ∀ r ∈ t, p r = true → R r (f r)) : Evolves R t (update p f t) := by
  intro i r hr
  refine ⟨if p r then f r else r, by simp [update, hr], ?_⟩
  split
  · rename_i hp
    exact hf r (List.mem_of_getElem? hr) hp
  · exact hR r

/-- An insertion evolves a table: what was there stays. -/
theorem evolves_insertOrIgnore (hR : ∀ r, R r r) (conflict : ρ → ρ → Bool) (r : ρ) :
    Evolves R t (insertOrIgnore conflict r t) := by
  rcases insertOrIgnore_cases conflict r t with ⟨-, he⟩ | ⟨-, he⟩
  · rw [he]
    exact .refl hR t
  · rw [he]
    intro i r' hr'
    refine ⟨r', ?_, hR r'⟩
    rw [List.getElem?_append_left (List.getElem?_eq_some_iff.mp hr').1]
    exact hr'

end SqlTable
