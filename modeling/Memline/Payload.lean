/-
Payloads: the dictionaries a memory is stored as, and the errors that functions
on them raise.

A payload maps field names to JSON values. The code below reads a value in three
ways only: its truth value, `str(value)`, and, for a list, the elements. A value
is therefore kept as an `Atom` (null, a string, or any other value by its `str`
and its truth value) or as a list of atoms; a list nested deeper is an atom.
`dict.get` does not tell an absent key from a null one, `key in d` does, so both
readings are here.
-/
import Mathlib.Data.List.AList

set_option autoImplicit false

namespace Memline

/-- Ids of memories, pairs and sessions are strings throughout the source. -/
abbrev Id : Type := String

/-- The tally of a number, which grows in the order of strings. -/
def tally (n : ℕ) : String := String.ofList (List.replicate (n + 1) '1')

theorem tally_injective (pre : String) : Function.Injective fun n => pre ++ tally n := by
  intro m n h
  have hlen := congrArg String.length h
  simpa [tally, String.length_append] using hlen

/-- The exceptions the modelled code raises, by class. -/
inductive Exn where
  | staleness_error (msg : String)
  | value_error (msg : String)
  | llm_error (msg : String)
  | click_exception (msg : String)
  | other (msg : String)
  deriving DecidableEq, Repr

/-! ## Values -/

inductive Atom where
  | none
  | str (s : String)
  | other (repr : String) (truthy : Bool)
  deriving DecidableEq, Repr

namespace Atom

/-- `bool(value)`. -/
def truthy : Atom → Bool
  | none => false
  | str s => s ≠ ""
  | other _ t => t

/-- `str(value)`. -/
def toStr : Atom → String
  | none => "None"
  | str s => s
  | other r _ => r

end Atom

inductive Value where
  | atom (a : Atom)
  | list (vs : List Atom)
  deriving DecidableEq, Repr

namespace Value

@[match_pattern] abbrev none : Value := .atom .none

@[match_pattern] abbrev str (s : String) : Value := .atom (.str s)

def truthy : Value → Bool
  | .atom a => a.truthy
  | .list vs => !vs.isEmpty

/-- `str(value)`, with Python's list syntax around the elements of a list. -/
def toStr : Value → String
  | .atom a => a.toStr
  | .list vs => "[" ++ ", ".intercalate (vs.map Atom.toStr) ++ "]"

/-- `str(value or "")`. -/
def text (v : Value) : String := if v.truthy then v.toStr else ""

/-- `a or b`. -/
def or_else (a b : Value) : Value := if a.truthy then a else b

/-- An optional argument as the value it stores. -/
def ofOption : Option String → Value
  | some s => .str s
  | Option.none => .none

/-- A list of ids as the value it stores. -/
def ofIds (ids : List Id) : Value := .list (ids.map .str)

end Value

/-! ## Dictionaries -/

/-- A Python `dict` with string keys. -/
abbrev Payload : Type := AList (fun _ : String => Value)

namespace Payload

/-- `d.get(key)`: null for an absent key. -/
def get (p : Payload) (key : String) : Value := (p.lookup key).getD .none

/-- `{**p, **patch}`, also `p.update(patch)` and the merge of `set_payload`. -/
def merge (p patch : Payload) : Payload := patch ∪ p

/-- `p[key] = v`. -/
def set (p : Payload) (key : String) (v : Value) : Payload := p.insert key v

/-- The dict literal `{key: v, …}`; a later entry of the same key wins. -/
def ofList (entries : List (String × Value)) : Payload :=
  entries.foldl (fun p e => p.set e.1 e.2) ∅

/-- `p.setdefault(key, v)`. -/
def setdefault (p : Payload) (key : String) (v : Value) : Payload :=
  if key ∈ p then p else p.set key v

/-- The entries of `p` whose key satisfies `keep`. -/
def filterKeys (keep : String → Bool) (p : Payload) : Payload :=
  ⟨p.entries.filter fun e => keep e.1, p.nodupKeys.sublist List.filter_sublist⟩

/-- `bool(p)`. -/
def truthy (p : Payload) : Bool := !p.entries.isEmpty

/-- In a merge of payloads the patch comes first. -/
theorem lookup_merge (p patch : Payload) (key : String) :
    (merge p patch).lookup key = (patch.lookup key).or (p.lookup key) := by
  unfold merge
  by_cases h : key ∈ patch
  · rw [AList.lookup_union_left h]
    obtain ⟨v, hv⟩ := Option.isSome_iff_exists.mp (AList.lookup_isSome.mpr h)
    rw [hv]
    rfl
  · rw [AList.lookup_union_right h, AList.lookup_eq_none.mpr h]
    rfl

/-- A merge leaves alone every key the patch does not carry. -/
theorem get_merge_of_notMem {p patch : Payload} {key : String} (h : key ∉ patch) :
    (merge p patch).get key = p.get key := by
  rw [get, lookup_merge, AList.lookup_eq_none.mpr h]
  rfl

theorem get_merge_of_lookup {p patch : Payload} {key : String} {v : Value}
    (h : patch.lookup key = some v) : (merge p patch).get key = v := by
  rw [get, lookup_merge, h]
  rfl

@[simp] theorem lookup_set_self (p : Payload) (key : String) (v : Value) :
    (p.set key v).lookup key = some v := AList.lookup_insert p

theorem lookup_set_ne (p : Payload) {key key' : String} (v : Value) (h : key' ≠ key) :
    (p.set key v).lookup key' = p.lookup key' := AList.lookup_insert_ne h

theorem mem_set {p : Payload} {key key' : String} {v : Value} :
    key' ∈ p.set key v ↔ key' = key ∨ key' ∈ p := AList.mem_insert p

/-- Reading the key that was set gives its value. -/
@[simp] theorem get_set_self (p : Payload) (key : String) (v : Value) :
    (p.set key v).get key = v := by
  rw [get, lookup_set_self]
  rfl

theorem get_set_ne (p : Payload) {key key' : String} (v : Value) (h : key' ≠ key) :
    (p.set key v).get key' = p.get key' := by
  rw [get, lookup_set_ne p v h, get]

/-- A default for one key leaves the others alone. -/
theorem lookup_setdefault_ne (p : Payload) {key key' : String} (v : Value) (h : key' ≠ key) :
    (p.setdefault key v).lookup key' = p.lookup key' := by
  unfold setdefault
  split
  · rfl
  · exact lookup_set_ne p v h

/-- Setting several keys leaves one alone that is not among them. -/
theorem lookup_foldl_set_ne {entries : List (String × Value)} {key : String} (p : Payload)
    (h : ∀ e ∈ entries, e.1 ≠ key) :
    (entries.foldl (fun p e => p.set e.1 e.2) p).lookup key = p.lookup key := by
  induction entries generalizing p with
  | nil => rfl
  | cons e entries ih =>
    rw [List.foldl_cons, ih _ fun x hx => h x (List.mem_cons_of_mem _ hx)]
    exact lookup_set_ne p e.2 (h e List.mem_cons_self).symm

/-- A dict literal has no entry for a key it does not name. -/
theorem lookup_ofList_ne {entries : List (String × Value)} {key : String}
    (h : ∀ e ∈ entries, e.1 ≠ key) : (ofList entries).lookup key = none :=
  lookup_foldl_set_ne ∅ h

/-- A dict literal that says null of a key, if anything, reads as null there. -/
theorem get_ofList_none {entries : List (String × Value)} {key : String}
    (h : ∀ e ∈ entries, e.1 = key → e.2 = .none) : (ofList entries).get key = .none := by
  have hfold : ∀ (es : List (String × Value)) (p : Payload),
      (∀ e ∈ es, e.1 = key → e.2 = .none) → p.get key = .none →
        (es.foldl (fun p e => p.set e.1 e.2) p).get key = .none := by
    intro es
    induction es with
    | nil => exact fun p _ hp => hp
    | cons e es ih =>
      intro p hes hp
      refine ih (p.set e.1 e.2) (fun x hx => hes x (List.mem_cons_of_mem _ hx)) ?_
      by_cases he : e.1 = key
      · rw [hes e List.mem_cons_self he, he]
        exact p.get_set_self _ _
      · rw [p.get_set_ne e.2 (Ne.symm he), hp]
  exact hfold entries ∅ h rfl

/-- A patched field is the patch's or the old one. -/
theorem get_merge_cases (p patch : Payload) (key : String) :
    (merge p patch).get key = p.get key ∨ (merge p patch).get key = patch.get key := by
  cases hv : patch.lookup key with
  | none => exact .inl (get_merge_of_notMem (AList.lookup_eq_none.mp hv))
  | some v =>
    refine .inr ((get_merge_of_lookup hv).trans ?_)
    rw [get, hv]
    rfl

/-- The first entry of a dict literal, when no later one repeats its key. -/
theorem lookup_ofList_head {entries : List (String × Value)} {key : String} (v : Value)
    (h : ∀ e ∈ entries, e.1 ≠ key) : (ofList ((key, v) :: entries)).lookup key = some v := by
  rw [ofList, List.foldl_cons, lookup_foldl_set_ne _ h]
  exact lookup_set_self ∅ key v

@[simp] theorem get_empty (key : String) : (∅ : Payload).get key = .none := rfl

theorem lookup_filterKeys (keep : String → Bool) (p : Payload) (key : String) :
    (filterKeys keep p).lookup key = if keep key then p.lookup key else Option.none := by
  apply Option.ext
  intro v
  have hp := AList.mem_lookup_iff (s := p) (a := key) (b := v)
  have hf := AList.mem_lookup_iff (s := filterKeys keep p) (a := key) (b := v)
  simp only [Option.mem_def] at hp hf ⊢
  rw [hf]
  simp only [filterKeys, List.mem_filter]
  by_cases hk : keep key = true
  · rw [if_pos hk, hp]
    simp [hk]
  · rw [if_neg hk]
    simp [hk]

/-- A nonempty payload is true. -/
theorem truthy_of_mem {p : Payload} {key : String} (h : key ∈ p) : p.truthy = true := by
  unfold truthy
  cases hp : p.entries with
  | nil =>
    rw [AList.mem_keys, AList.keys, hp] at h
    simp at h
  | cons _ _ => rfl

theorem truthy_iff {p : Payload} : p.truthy = true ↔ ∃ key, key ∈ p := by
  constructor
  · intro h
    cases hp : p.entries with
    | nil => simp [truthy, hp] at h
    | cons e es =>
      refine ⟨e.1, ?_⟩
      rw [AList.mem_keys, AList.keys, hp]
      exact List.mem_cons_self
  · rintro ⟨key, h⟩
    exact truthy_of_mem h

theorem truthy_set (p : Payload) (key : String) (v : Value) : (p.set key v).truthy = true :=
  truthy_of_mem (mem_set.mpr (.inl rfl))

theorem mem_merge {p patch : Payload} {key : String} :
    key ∈ p.merge patch ↔ key ∈ patch ∨ key ∈ p := AList.mem_union

theorem truthy_merge {p : Payload} (patch : Payload) (h : p.truthy = true) :
    (p.merge patch).truthy = true := by
  obtain ⟨key, hkey⟩ := truthy_iff.mp h
  exact truthy_of_mem (mem_merge.mpr (.inr hkey))

end Payload

/-! ## Field names -/

def SUPERSEDED_BY : String := "superseded_by"
def SUPERSEDED_AT : String := "superseded_at"
def SUPERSEDED_REASON : String := "superseded_reason"
def TTL_EXPIRES_AT : String := "ttl_expires_at"
def TTL_EXPIRED_AT : String := "ttl_expired_at"
def DISPLACEMENT_PROTECTED_UNTIL : String := "displacement_protected_until"
def DISPLACEMENT_PROTECTION_REASON : String := "displacement_protection_reason"
def DISPLACEMENT_PROTECTED_AT : String := "displacement_protected_at"
def DISPLACEMENT_PROTECTED_BY_AGENT : String := "displacement_protected_by_agent_id"
def DISPLACEMENT_PROTECTED_BY_SESSION : String := "displacement_protected_by_session_id"

/-- The five fields that say whether a memory is in the default pool. -/
def lifecycle_fields : List String :=
  [SUPERSEDED_BY, SUPERSEDED_AT, SUPERSEDED_REASON, TTL_EXPIRES_AT, TTL_EXPIRED_AT]

/-- The fields of a displacement protection, in the order the code clears them. -/
def protection_fields : List String :=
  [DISPLACEMENT_PROTECTED_UNTIL, DISPLACEMENT_PROTECTION_REASON, DISPLACEMENT_PROTECTED_AT,
    DISPLACEMENT_PROTECTED_BY_AGENT, DISPLACEMENT_PROTECTED_BY_SESSION]

/-! ## Reading a payload -/

/-- The successor ids recorded on a payload. -/
def superseded_ids (payload : Payload) : List Id :=
  match payload.get SUPERSEDED_BY with
  | .atom (.str s) => if s = "" then [] else [s]
  | .list vs => (vs.filter Atom.truthy).map Atom.toStr
  | _ => []

def is_invalidated (payload : Payload) : Bool := !(superseded_ids payload).isEmpty

/-- Lazy TTL check: ISO-8601 UTC strings compare in chronological order. -/
def is_ttl_expired (payload : Payload) (now : String) : Bool :=
  let expires := payload.get TTL_EXPIRES_AT
  expires.truthy && decide (expires.toStr ≤ now)

/-- `superseded_ids` reads one field only. -/
theorem superseded_ids_congr {p q : Payload} (h : p.get SUPERSEDED_BY = q.get SUPERSEDED_BY) :
    superseded_ids p = superseded_ids q := by
  rw [superseded_ids, superseded_ids, h]

theorem superseded_ids_of_none {p : Payload} (h : p.get SUPERSEDED_BY = .none) :
    superseded_ids p = [] := by
  rw [superseded_ids, h]

/-- A patch that names no successors adds none. -/
theorem superseded_ids_merge {p patch : Payload} (h : superseded_ids patch = []) :
    superseded_ids (p.merge patch) = superseded_ids p ∨
      superseded_ids (p.merge patch) = [] := by
  cases hv : patch.lookup SUPERSEDED_BY with
  | none =>
    have hnot := AList.lookup_eq_none.mp hv
    exact .inl (superseded_ids_congr (Payload.get_merge_of_notMem hnot))
  | some v =>
    have hpatch : patch.get SUPERSEDED_BY = v := by
      rw [Payload.get, hv]
      rfl
    have hmerge := Payload.get_merge_of_lookup (p := p) hv
    refine .inr ?_
    rw [superseded_ids_congr (hmerge.trans hpatch.symm), h]

/-- A list of nonempty ids reads back as it was written. -/
theorem superseded_ids_of_ids {p : Payload} {ids : List Id} (hne : ∀ i ∈ ids, i ≠ "")
    (h : p.get SUPERSEDED_BY = .ofIds ids) : superseded_ids p = ids := by
  have hfilter : (ids.map Atom.str).filter Atom.truthy = ids.map Atom.str := by
    rw [List.filter_eq_self]
    intro a ha
    obtain ⟨i, hi, rfl⟩ := List.mem_map.mp ha
    simpa [Atom.truthy] using hne i hi
  rw [superseded_ids, h, Value.ofIds]
  simp only [hfilter, List.map_map]
  exact (List.map_congr_left fun _ _ => rfl).trans (List.map_id ids)

end Memline
