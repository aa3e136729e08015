/-
Reading the whole store page by page, while others write.

A page is asked for by its offsets, and cut from the rows as they are at that moment. Between
two pages others may add and delete: every row behind a deleted one moves up by one, and one
that moves over the boundary of the next page is on no page at all. `Reading.seen` keeps, for
the proofs only, the rows each page was cut from; the row of a memory is told by its rank.
-/
import Mathlib.Data.List.Sort
import Memline.Payload
import Memline.Lib.Lists

set_option autoImplicit false

namespace Memline.cli

variable {ι : Type} [LinearOrder ι]

/-! ## The store, and a reading of it -/

/-- The memories of a scope, in the order of their ids. -/
structure Rows (ι : Type) [LinearOrder ι] where
  entries : List (ι × Payload)
  sorted : entries.Pairwise fun a b => a.1 < b.1

namespace Rows

/-- The memory is stored. -/
def Has (s : Rows ι) (id : ι) : Prop := id ∈ s.entries.map Prod.fst

instance (s : Rows ι) (id : ι) : Decidable (s.Has id) := inferInstanceAs (Decidable (_ ∈ _))

/-- How many memories come before an id. -/
def rank (s : Rows ι) (id : ι) : ℕ := s.entries.countP fun e => e.1 < id

/-- The memories before a new one, and those behind it, are in order around it. -/
theorem sorted_insert (s : Rows ι) (id : ι) (p : Payload) :
    (s.entries.filter (fun e => e.1 < id) ++ (id, p) :: s.entries.filter fun e => id < e.1).Pairwise
      fun a b => a.1 < b.1 := by
  have hbefore : ∀ e ∈ s.entries.filter (fun e => e.1 < id), e.1 < id := by
    intro e he
    simpa using (List.mem_filter.mp he).2
  have hbehind : ∀ e ∈ s.entries.filter (fun e => id < e.1), id < e.1 := by
    intro e he
    simpa using (List.mem_filter.mp he).2
  rw [List.pairwise_append, List.pairwise_cons]
  refine ⟨s.sorted.filter _, ⟨hbehind, s.sorted.filter _⟩, fun a ha b hb => ?_⟩
  rcases List.mem_cons.mp hb with rfl | hb
  · exact hbefore a ha
  · exact (hbefore a ha).trans (hbehind b hb)

/-- A memory is added under a new id. -/
def add (s : Rows ι) (id : ι) (p : Payload) : Rows ι :=
  if s.Has id then s
  else ⟨s.entries.filter (fun e => e.1 < id) ++ (id, p) :: s.entries.filter fun e => id < e.1,
    s.sorted_insert id p⟩

def delete (s : Rows ι) (id : ι) : Rows ι :=
  ⟨s.entries.filter fun e => e.1 ≠ id, s.sorted.filter _⟩

/-- `get_all`, as assumed of the backend: the first rows in the order of the ids. -/
def get_all (s : Rows ι) (top_k : ℕ) : List (ι × Payload) := s.entries.take top_k

/-- The `list` operation: what `get_all` finds, `[start:stop]` of it. -/
def list (s : Rows ι) (top_k start stop : ℕ) : List (ι × Payload) :=
  ((s.get_all top_k).take stop).drop start

end Rows

/-- How many memories a page holds. -/
def PAGE_SIZE : ℕ := 500

/-- `read_all_memories` at work, and the store it reads. -/
structure Reading (ι : Type) [LinearOrder ι] where
  store : Rows ι
  page : ℕ
  memories : List (ι × Payload)
  returned : Option (List (ι × Payload))
  /-- What the pages so far were cut from. -/
  seen : List (Rows ι)

def Reading.start (store : Rows ι) : Reading ι := ⟨store, 1, [], none, []⟩

/-- One turn of the loop. -/
def Reading.read (r : Reading ι) : Reading ι :=
  if r.returned.isSome then r
  else
    let items := r.store.list (r.page * PAGE_SIZE) ((r.page - 1) * PAGE_SIZE) (r.page * PAGE_SIZE)
    let memories := r.memories ++ items
    let seen := r.seen ++ [r.store]
    if items.length < PAGE_SIZE then { r with memories, seen, returned := some memories }
    else { r with memories, seen, page := r.page + 1 }

/-- What may happen next. -/
inductive Event (ι : Type) where
  | add (id : ι) (p : Payload)
  | delete (id : ι)
  | read

def Reading.step (r : Reading ι) : Event ι → Reading ι
  | .add id p => { r with store := r.store.add id p }
  | .delete id => { r with store := r.store.delete id }
  | .read => r.read

def Reading.run (r : Reading ι) (events : List (Event ι)) : Reading ι := events.foldl Reading.step r

/-- The memory is in the store from the beginning of a run to its end. -/
def Kept (r : Reading ι) (events : List (Event ι)) (id : ι) : Prop :=
  ∀ es, es <+: events → (r.run es).store.Has id

/-! ## What the pages show -/

/-- The memory is on the page that starts after `i` pages. -/
def Shown (seen : List (Rows ι)) (id : ι) (i : ℕ) : Prop :=
  ∃ s, seen[i]? = some s ∧ i * PAGE_SIZE ≤ s.rank id ∧ s.rank id < (i + 1) * PAGE_SIZE

/-- The memory comes after a page, and before the next one. -/
def Slips (seen : List (Rows ι)) (id : ι) (i : ℕ) : Prop :=
  ∃ s s', seen[i]? = some s ∧ seen[i + 1]? = some s' ∧ (i + 1) * PAGE_SIZE ≤ s.rank id ∧
    s'.rank id < (i + 1) * PAGE_SIZE

/-- A memory is on the page its rank says. -/
theorem mem_list_iff {s : Rows ι} {id : ι} (h : s.Has id) (i : ℕ) :
    id ∈ (s.list ((i + 1) * PAGE_SIZE) (i * PAGE_SIZE) ((i + 1) * PAGE_SIZE)).map Prod.fst ↔
      i * PAGE_SIZE ≤ s.rank id ∧ s.rank id < (i + 1) * PAGE_SIZE := by
  obtain ⟨e, he, rfl⟩ := List.mem_map.mp h
  have hwindow := Lists.mem_window_iff Prod.fst s.sorted he (i * PAGE_SIZE) ((i + 1) * PAGE_SIZE)
  have hlist : s.list ((i + 1) * PAGE_SIZE) (i * PAGE_SIZE) ((i + 1) * PAGE_SIZE)
      = (s.entries.take ((i + 1) * PAGE_SIZE)).drop (i * PAGE_SIZE) := by
    rw [Rows.list, Rows.get_all, List.take_take, Nat.min_self]
  rw [hlist, Rows.rank, ← hwindow]
  constructor
  · intro hmem
    obtain ⟨e', he', heq⟩ := List.mem_map.mp hmem
    -- an id has one row
    have hids : (s.entries.map Prod.fst).Nodup :=
      List.pairwise_map.mpr (s.sorted.imp fun hlt => hlt.ne)
    have hin : e' ∈ s.entries := List.mem_of_mem_take (List.mem_of_mem_drop he')
    rwa [List.inj_on_of_nodup_map hids he hin heq.symm]
  · exact fun hmem => List.mem_map_of_mem hmem

/-- What a reading knows of the pages it has read. -/
structure Paged (r : Reading ι) : Prop where
  page : r.returned = none → r.page = r.seen.length + 1
  shown : ∀ id, (∀ s ∈ r.seen, s.Has id) → (id ∈ r.memories.map Prod.fst ↔ ∃ i, Shown r.seen id i)
  ended : ∀ out, r.returned = some out → out = r.memories ∧
    ∃ s n, r.seen.length = n + 1 ∧ r.seen[n]? = some s ∧ s.entries.length < (n + 1) * PAGE_SIZE

/-- Before the first page everything is still to be shown. -/
theorem Paged.start (s : Rows ι) : Paged (Reading.start s) where
  page := fun _ => rfl
  shown := by simp [Reading.start, Shown]
  ended := fun out h => by cases h

/-- One more page shows what was shown, and its own memories. -/
theorem shown_snoc {seen : List (Rows ι)} {s : Rows ι} {id : ι} :
    (∃ i, Shown (seen ++ [s]) id i) ↔ (∃ i, Shown seen id i) ∨
      (seen.length * PAGE_SIZE ≤ s.rank id ∧ s.rank id < (seen.length + 1) * PAGE_SIZE) := by
  constructor
  · rintro ⟨i, t, ht, hrank⟩
    rcases Nat.lt_trichotomy i seen.length with hi | rfl | hi
    · rw [List.getElem?_append_left hi] at ht
      exact .inl ⟨i, t, ht, hrank⟩
    · rw [List.getElem?_concat_length] at ht
      cases ht
      exact .inr hrank
    · rw [List.getElem?_eq_none (by rw [List.length_append, List.length_singleton]; omega)] at ht
      cases ht
  · rintro (⟨i, t, ht, hrank⟩ | hrank)
    · exact ⟨i, t, by rw [List.getElem?_append_left (List.getElem?_eq_some_iff.mp ht).1, ht], hrank⟩
    · exact ⟨seen.length, s, List.getElem?_concat_length, hrank⟩

/-- A short page is the end of the rows. -/
theorem length_of_short_page {s : Rows ι} {n : ℕ}
    (h : (s.list ((n + 1) * PAGE_SIZE) (n * PAGE_SIZE) ((n + 1) * PAGE_SIZE)).length < PAGE_SIZE) :
    s.entries.length < (n + 1) * PAGE_SIZE := by
  rw [Rows.list, Rows.get_all, List.take_take, Nat.min_self, List.length_drop,
    List.length_take] at h
  have hsplit : (n + 1) * PAGE_SIZE = n * PAGE_SIZE + PAGE_SIZE := Nat.succ_mul n PAGE_SIZE
  omega

/-- The step lemma: a page that is read. -/
theorem Paged.read {r : Reading ι} (h : Paged r) : Paged r.read := by
  unfold Reading.read
  by_cases hr : r.returned.isSome = true
  · rwa [if_pos hr]
  · rw [if_neg hr]
    have hopen : r.returned = none := by simpa using hr
    have hpage := h.page hopen
    have hitems : r.store.list (r.page * PAGE_SIZE) ((r.page - 1) * PAGE_SIZE) (r.page * PAGE_SIZE)
        = r.store.list ((r.seen.length + 1) * PAGE_SIZE) (r.seen.length * PAGE_SIZE)
          ((r.seen.length + 1) * PAGE_SIZE) := by
      rw [hpage, Nat.add_sub_cancel]
    simp only [hitems]
    have hshown : ∀ id, (∀ s ∈ r.seen ++ [r.store], s.Has id) →
        (id ∈ (r.memories ++ r.store.list ((r.seen.length + 1) * PAGE_SIZE)
          (r.seen.length * PAGE_SIZE)
          ((r.seen.length + 1) * PAGE_SIZE)).map Prod.fst ↔
            ∃ i, Shown (r.seen ++ [r.store]) id i) := by
      intro id hid
      have hseen := h.shown id fun s hs => hid s (List.mem_append_left _ hs)
      have hhas := hid r.store (List.mem_append_right _ List.mem_cons_self)
      rw [List.map_append, List.mem_append, hseen, mem_list_iff hhas, shown_snoc]
    split
    · rename_i hshort
      refine ⟨fun hnone => (nomatch hnone), hshown, fun out hout => ?_⟩
      injection hout with hout
      subst hout
      exact ⟨rfl, r.store, r.seen.length, by simp, List.getElem?_concat_length,
        length_of_short_page hshort⟩
    · refine ⟨fun _ => ?_, hshown, fun out hout => ?_⟩
      · simp [hpage]
      · rw [hopen] at hout
        cases hout

/-- The run lemma. -/
theorem Paged.run {r : Reading ι} (h : Paged r) (events : List (Event ι)) :
    Paged (r.run events) := by
  induction events generalizing r with
  | nil => exact h
  | cons e events ih =>
    refine ih ?_
    cases e with
    | add id p => exact ⟨h.page, h.shown, h.ended⟩
    | delete id => exact ⟨h.page, h.shown, h.ended⟩
    | read => exact h.read

/-- Each page was cut from the store at some moment of the run. -/
theorem seen_of_run (r : Reading ι) (events : List (Event ι)) :
    ∀ s ∈ (r.run events).seen, s ∈ r.seen ∨ ∃ es, es <+: events ∧ s = (r.run es).store := by
  induction events using List.reverseRecOn with
  | nil => exact fun s hs => .inl hs
  | append_singleton events e ih =>
    intro s hs
    rw [Reading.run, List.foldl_append] at hs
    change s ∈ ((r.run events).step e).seen at hs
    have hearlier : s ∈ (r.run events).seen →
        s ∈ r.seen ∨ ∃ es, es <+: events ++ [e] ∧ s = (r.run es).store := by
      intro hs
      rcases ih s hs with h | ⟨es, hes, rfl⟩
      · exact .inl h
      · exact .inr ⟨es, hes.trans (List.prefix_append _ _), rfl⟩
    cases e with
    | add id p => exact hearlier hs
    | delete id => exact hearlier hs
    | read =>
      have hnow : s ∈ (r.run events).seen ++ [(r.run events).store] →
          s ∈ r.seen ∨ ∃ es, es <+: events ++ [.read] ∧ s = (r.run es).store := by
        intro hs
        rcases List.mem_append.mp hs with hs | hs
        · exact hearlier hs
        · exact .inr ⟨events, List.prefix_append _ _, List.mem_singleton.mp hs⟩
      unfold Reading.step Reading.read at hs
      simp only at hs
      split at hs
      · exact hearlier hs
      · split at hs
        · exact hnow hs
        · exact hnow hs

/-- A memory that is stored throughout is on a page, or it slips from behind one page to
before the next. -/
theorem shown_or_slips {seen : List (Rows ι)} {id : ι} {s : Rows ι} {n : ℕ}
    (hlast : seen[n]? = some s) (hshort : s.entries.length < (n + 1) * PAGE_SIZE) :
    (∃ i, Shown seen id i) ∨ ∃ i, Slips seen id i := by
  by_contra hnone
  push Not at hnone
  obtain ⟨hshown, hslips⟩ := hnone
  -- as long as no page shows it, it comes after all of them
  have hbehind : ∀ i t, seen[i]? = some t → (i + 1) * PAGE_SIZE ≤ t.rank id := by
    intro i
    induction i with
    | zero =>
      intro t ht
      by_contra hlt
      exact hshown 0 ⟨t, ht, by omega, by omega⟩
    | succ i ih =>
      intro t ht
      have hi : i < seen.length := by
        have := (List.getElem?_eq_some_iff.mp ht).1
        omega
      have hprev := ih seen[i] (List.getElem?_eq_getElem hi)
      by_contra hlt
      by_cases hfar : (i + 1) * PAGE_SIZE ≤ t.rank id
      · exact hshown (i + 1) ⟨t, ht, hfar, by omega⟩
      · exact hslips i ⟨seen[i], t, List.getElem?_eq_getElem hi, ht, hprev, by omega⟩
  have hrank : s.rank id ≤ s.entries.length := List.countP_le_length
  have := hbehind n s hlast
  omega

/-! ## The whole read -/

/-- **Reading all memories.** What a run of pages and of others' additions and deletions has
returned has every memory that was stored throughout, if and only if every one of these that
slips over the boundary of two pages is on another page. -/
theorem read_all_complete {store : Rows ι} {events : List (Event ι)} {out : List (ι × Payload)}
    (hdone : ((Reading.start store).run events).returned = some out) :
    (∀ id, Kept (Reading.start store) events id → id ∈ out.map Prod.fst) ↔
      ∀ id, Kept (Reading.start store) events id →
        ∀ i, Slips ((Reading.start store).run events).seen id i →
          ∃ j, Shown ((Reading.start store).run events).seen id j := by
  have hpaged := (Paged.start store).run events
  -- the last page was short, so that an id that is kept was shown or slipped
  obtain ⟨rfl, s, n, -, hlast, hshort⟩ := hpaged.ended out hdone
  refine forall₂_congr fun id hkept => ?_
  have hall : ∀ s ∈ ((Reading.start store).run events).seen, s.Has id := by
    intro s hs
    rcases seen_of_run (Reading.start store) events s hs with h | ⟨es, hes, rfl⟩
    · cases h
    · exact hkept es hes
  rw [hpaged.shown id hall]
  constructor
  · exact fun h _ _ => h
  · intro h
    rcases @shown_or_slips _ _ _ id _ _ hlast hshort with hshown | ⟨i, hslips⟩
    · exact hshown
    · exact h i hslips

/-- Memories with the numbers below `n` as their ids. -/
def numbered (n : ℕ) : Rows ℕ where
  entries := (List.range n).map fun i => (i, ∅)
  sorted := by
    rw [List.pairwise_map]
    exact List.pairwise_lt_range

/-- Between the pages, one memory is added and one deleted, both behind the first page. -/
def written_behind : List (Event ℕ) := [.read, .add 1000 ∅, .delete 505, .read]

/-- None of the memories that were there throughout is missed. -/
theorem read_all_behind : ∃ out,
    ((Reading.start (numbered 510)).run written_behind).returned = some out ∧
    ((∀ id, Kept (Reading.start (numbered 510)) written_behind id → id ∈ out.map Prod.fst) ↔
      ∀ id, Kept (Reading.start (numbered 510)) written_behind id →
        ∀ i, Slips ((Reading.start (numbered 510)).run written_behind).seen id i →
          ∃ j, Shown ((Reading.start (numbered 510)).run written_behind).seen id j) := by
  have hdone : ((Reading.start (numbered 510)).run written_behind).returned.isSome = true := by
    decide +kernel
  exact ⟨_, (Option.some_get hdone).symm, read_all_complete (Option.some_get hdone).symm⟩

/-- One memory of the first page is deleted before the second is read: the memory that came
right behind the first page is on neither. -/
theorem read_all_misses : ∃ out,
    ((Reading.start (numbered 501)).run [.read, .delete 0, .read]).returned = some out ∧
      Kept (Reading.start (numbered 501)) [.read, .delete 0, .read] 500 ∧
        500 ∉ out.map Prod.fst := by
  have hdone : ((Reading.start (numbered 501)).run [.read, .delete 0, .read]).returned.isSome =
      true := by
    decide +kernel
  obtain ⟨out, hout⟩ := Option.isSome_iff_exists.mp hdone
  refine ⟨out, hout, fun es hes => ?_, ?_⟩
  · have hall : ∀ k < 4, ((Reading.start (numbered 501)).run
        ([.read, .delete 0, .read].take k)).store.Has 500 := by
      decide +kernel
    rw [List.prefix_iff_eq_take.mp hes]
    exact hall _ (Nat.lt_succ_of_le hes.length_le)
  · rw [(((Paged.start (numbered 501)).run _).ended out hout).1]
    decide +kernel

end Memline.cli
