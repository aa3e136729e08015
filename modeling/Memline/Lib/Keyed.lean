/-
Dictionaries as lists of entries, in the order of first insertion.

Two keys are one when they have one slot. An entry that comes under a key that is there replaces the
value and keeps the key, so that a dictionary holds as many entries as its keys have slots.
-/
import Mathlib.Data.List.Dedup

set_option autoImplicit false

namespace Keyed

variable {κ σ α : Type} [DecidableEq σ] (slot : κ → σ)

/-- `m[k] = v`. -/
def put : List (κ × α) → κ → α → List (κ × α)
  | [], k, v => [(k, v)]
  | (l, u) :: m, k, v => if slot l = slot k then (l, v) :: m else (l, u) :: put m k v

/-- `m.get(k)`. -/
def find (m : List (κ × α)) (k : κ) : Option α := (m.find? fun e => slot e.1 = slot k).map Prod.snd

def slots (m : List (κ × α)) : List σ := m.map fun e => slot e.1

/-- Entries are put one after the other. -/
def put_all (m entries : List (κ × α)) : List (κ × α) :=
  entries.foldl (fun m e => put slot m e.1 e.2) m

variable {slot} {m entries : List (κ × α)} {k : κ} {v : α}

/-- A new key goes to the end. -/
theorem put_fresh (h : slot k ∉ slots slot m) : put slot m k v = m ++ [(k, v)] := by
  induction m with
  | nil => rfl
  | cons e m ih =>
    rw [slots, List.map_cons, List.mem_cons, not_or] at h
    rw [put, if_neg (fun heq => h.1 heq.symm), ih h.2, List.cons_append]

/-- A known key takes no more room. -/
theorem slots_put_known (h : slot k ∈ slots slot m) :
    slots slot (put slot m k v) = slots slot m := by
  induction m with
  | nil => exact absurd h List.not_mem_nil
  | cons e m ih =>
    rw [put]
    by_cases heq : slot e.1 = slot k
    · rw [if_pos heq]
      rfl
    · rw [slots, List.map_cons, List.mem_cons] at h
      have hrest : slot k ∈ slots slot m := h.resolve_left fun h => heq h.symm
      rw [if_neg heq]
      show slot e.1 :: slots slot (put slot m k v) = slot e.1 :: slots slot m
      rw [ih hrest]

omit [DecidableEq σ] in
theorem slots_append (m n : List (κ × α)) :
    slots slot (m ++ n) = slots slot m ++ slots slot n := List.map_append

/-- Entries under new keys, all different, just follow. -/
theorem put_all_fresh (h : (slots slot (m ++ entries)).Nodup) :
    put_all slot m entries = m ++ entries := by
  induction entries generalizing m with
  | nil => exact (List.append_nil m).symm
  | cons e entries ih =>
    have hslots := h
    rw [slots_append, List.nodup_append] at hslots
    have hnew : slot e.1 ∉ slots slot m := fun hin => hslots.2.2 _ hin _ List.mem_cons_self rfl
    rw [put_all, List.foldl_cons, put_fresh hnew, ← put_all, ih (by rwa [List.append_assoc]),
      List.append_assoc]
    rfl

/-- Putting entries adds no more slots than there are entries. -/
theorem length_put_all_le (m entries : List (κ × α)) :
    (put_all slot m entries).length ≤ m.length + entries.length := by
  induction entries generalizing m with
  | nil => exact Nat.le_refl _
  | cons e entries ih =>
    have hput : (put slot m e.1 e.2).length ≤ m.length + 1 := by
      by_cases hin : slot e.1 ∈ slots slot m
      · have hlen := congrArg List.length (slots_put_known (v := e.2) hin)
        rw [slots, slots, List.length_map, List.length_map] at hlen
        omega
      · rw [put_fresh hin, List.length_append]
        exact Nat.le_refl _
    have hrest := ih (put slot m e.1 e.2)
    rw [put_all, List.foldl_cons, ← put_all, List.length_cons]
    omega

/-- No entry is lost only when no slot is taken twice. -/
theorem nodup_of_length (hm : (slots slot m).Nodup)
    (h : (put_all slot m entries).length = m.length + entries.length) :
    (slots slot (m ++ entries)).Nodup := by
  induction entries generalizing m with
  | nil => rwa [List.append_nil]
  | cons e entries ih =>
    rw [put_all, List.foldl_cons, ← put_all, List.length_cons] at h
    have hle := @length_put_all_le _ _ _ _ slot (put slot m e.1 e.2) entries
    -- an entry under a known key would leave one too few
    have hnew : slot e.1 ∉ slots slot m := by
      intro hin
      have hlen := congrArg List.length (slots_put_known (v := e.2) hin)
      rw [slots, slots, List.length_map, List.length_map] at hlen
      omega
    rw [put_fresh hnew, List.length_append, List.length_singleton] at hle
    rw [put_fresh hnew] at h
    have hsnoc : (slots slot (m ++ [e])).Nodup := by
      rw [slots_append, List.nodup_append]
      refine ⟨hm, List.nodup_singleton _, ?_⟩
      intro s hs t ht heq
      rw [slots, List.map_singleton, List.mem_singleton] at ht
      exact hnew (ht ▸ heq ▸ hs)
    have hrest := ih hsnoc (by rw [h, List.length_append, List.length_singleton]; omega)
    rwa [List.append_assoc] at hrest

/-- A dictionary made of entries has each of their values exactly when no two have one slot. -/
theorem values_perm_iff : ((put_all slot [] entries).map Prod.snd).Perm (entries.map Prod.snd) ↔
    (slots slot entries).Nodup := by
  constructor
  · intro h
    refine nodup_of_length (m := []) List.nodup_nil ?_
    rw [← List.length_map (f := Prod.snd), h.length_eq, List.length_map,
      List.length_nil, Nat.zero_add]
  · intro h
    rw [put_all_fresh (m := []) h, List.nil_append]

/-- The slots after a put are those before, and that of its key. -/
theorem mem_slots_put {s : σ} :
    s ∈ slots slot (put slot m k v) ↔ s ∈ slots slot m ∨ s = slot k := by
  by_cases hin : slot k ∈ slots slot m
  · rw [slots_put_known hin]
    refine (or_iff_left_of_imp ?_).symm
    rintro rfl
    exact hin
  · rw [put_fresh hin, slots_append, List.mem_append]
    exact or_congr_right List.mem_singleton

/-- A dictionary made of entries has their keys. -/
theorem mem_slots_put_all {s : σ} :
    s ∈ slots slot (put_all slot m entries) ↔ s ∈ slots slot m ∨ s ∈ slots slot entries := by
  induction entries generalizing m with
  | nil => exact (or_iff_left List.not_mem_nil).symm
  | cons e entries ih =>
    rw [put_all, List.foldl_cons, ← put_all, ih, mem_slots_put, or_assoc, slots, slots, slots,
      List.map_cons, List.mem_cons]

theorem find_isSome : (find slot m k).isSome = true ↔ slot k ∈ slots slot m := by
  rw [find, Option.isSome_map, List.find?_isSome, slots, List.mem_map]
  simp only [decide_eq_true_eq]

end Keyed
