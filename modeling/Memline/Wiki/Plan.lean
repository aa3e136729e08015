/-
How the store is cut into batches for profiling.

Sessions come in the order of their first memories. Small ones wait in a pack until it is
full, a session at the threshold travels alone, and one above the ceiling is cut into
parts; what belongs to no session is cut up at the end. The pack is flushed from four
places, so what holds of a plan is stated of the plan in the making: the batches made so
far, and the sessions that wait.
-/
import Memline.Lib.Lists
import Memline.Wiki.Coverage

set_option autoImplicit false

namespace Memline.wiki

open Py

inductive Kind where
  | session
  | session_part
  | pack
  | ledger
  deriving DecidableEq

/-- The first and the last day of some memories, of which there is at least one. -/
def span (memories : List Memory) : List String :=
  let dates :=
    (memories.map fun m => String.ofList ((created m).toList.take 10)).insertionSort (· ≤ ·)
  dates.head?.toList ++ dates.getLast?.toList

/-- One session of a pack. -/
structure Packed where
  session_id : Json
  memory_ids : List String
  span : List String
  deriving DecidableEq

structure Batch where
  kind : Kind
  session_ids : List Json
  memory_ids : List String
  memory_count : ℕ
  span : List String
  sessions : List Packed := []
  part : Option (ℕ × ℕ) := none
  batch_id : String := ""
  deriving DecidableEq

/-- The batches so far, and the sessions that wait to travel together. -/
structure Plan where
  batches : List Batch
  pending : List (Json × List Memory)

variable (key : Memory → String)

/-- The sessions that wait, as one batch. -/
def pack_of (pending : List (Json × List Memory)) : Batch :=
  let members := pending.flatMap Prod.snd
  { kind := if 1 < pending.length then .pack else .session
    session_ids := pending.map Prod.fst
    memory_ids := members.map key
    memory_count := members.length
    span := span members
    sessions := pending.map fun e => ⟨e.1, e.2.map key, span e.2⟩ }

def flush_pack (p : Plan) : Plan :=
  if p.pending = [] then p else ⟨p.batches ++ [pack_of key p.pending], []⟩

/-- One part of a session that is too large for one call. -/
def part_of (session_id : Json) (count number : ℕ) (part : List Memory) : Batch where
  kind := .session_part
  session_ids := [session_id]
  memory_ids := part.map key
  memory_count := part.length
  span := span part
  part := some (number, count)

def ledger_of (chunk : List Memory) : Batch where
  kind := .ledger
  session_ids := []
  memory_ids := chunk.map key
  memory_count := chunk.length
  span := span chunk

/-- `range(0, len(ms), n)`, and the slices it makes. -/
def cut_up (n : ℕ) (ms : List Memory) : Result (List (List Memory)) :=
  if n = 0 then .error .value_error else .ok (Lists.slices n ms)

/-- One session finds its place. -/
def place (max_memories : ℕ) (pack_threshold : ℤ) (p : Plan)
    (e : Json × List Memory) : Result Plan :=
  -- too large for a batch: cut up, behind what was waiting
  if max_memories < e.2.length then do
    let parts ← cut_up max_memories e.2
    let flushed := flush_pack key p
    pure { flushed with
      batches := flushed.batches ++ parts.mapIdx fun i part =>
        part_of key e.1 parts.length (i + 1) part }
  else if pack_threshold ≤ e.2.length then
    -- large enough to be a batch of its own
    pure (flush_pack key { flush_pack key p with pending := [e] })
  else
    -- a small group waits with others until they fill a batch
    let p := if max_memories < (p.pending.map fun g => g.2.length).sum + e.2.length
      then flush_pack key p else p
    pure { p with pending := p.pending ++ [e] }

/-- When a session began; there is at least one memory in it. -/
def began (e : Json × List Memory) : String := (e.2.head?.map created).getD ""

/-- `f"b{index:03d}"`. -/
def batch_id (index : ℕ) : String :=
  "b" ++ String.ofList (List.replicate (3 - (toString index).length) '0') ++ toString index

variable (rt : Runtime)

/-- Deterministic batch plan. -/
def plan_batches (memories : List Memory) (since : Option String) (max_memories : ℕ)
    (pack_threshold : ℤ) : Result (List Batch) := do
  let memories ← planned rt memories since
  let g ← group_by_session memories
  let ordered := g.sessions.insertionSort fun e e' => began e ≤ began e'
  let p ← ordered.foldlM (place key max_memories pack_threshold) ⟨[], []⟩
  let chunks ← cut_up max_memories g.ledger
  pure (((flush_pack key p).batches ++ chunks.map (ledger_of key)).mapIdx fun i b =>
    { b with batch_id := batch_id i })

/-! ## The plan in the making -/

variable {key : Memory → String}

/-- The memories of the sessions that wait. -/
def Plan.waiting (p : Plan) : List Memory := p.pending.flatMap Prod.snd

/-- What a plan keeps while sessions find their places: their memories in order, ceilings
kept, small sessions whole and large ones in parts next to each other. -/
structure Packing (key : Memory → String) (n : ℕ) (done : List (List Memory)) (p : Plan) :
    Prop where
  ids : p.batches.flatMap Batch.memory_ids ++ p.waiting.map key = done.flatten.map key
  sized : ∀ b ∈ p.batches,
    b.memory_ids ≠ [] ∧ b.memory_count = b.memory_ids.length ∧ b.memory_count ≤ n
  room : p.waiting.length ≤ n
  peopled : ∀ e ∈ p.pending, e.2 ≠ []
  whole : ∀ g ∈ done, g.length ≤ n →
    (∃ b ∈ p.batches, g.map key <:+: b.memory_ids) ∨ ∃ e ∈ p.pending, e.2 = g
  parts : ∀ g ∈ done, n < g.length → ∃ before parts after, p.batches = before ++ parts ++ after ∧
    parts.flatMap Batch.memory_ids = g.map key

theorem flush_pack_pending (p : Plan) : (flush_pack key p).pending = [] := by
  unfold flush_pack
  split
  · assumption
  · rfl

theorem Packing.start (n : ℕ) : Packing key n [] ⟨[], []⟩ :=
  ⟨rfl, by simp, Nat.zero_le n, by simp, by simp, by simp⟩

/-- Batches that follow leave the parts next to each other. -/
theorem Packing.parts_append {n : ℕ} {done : List (List Memory)} {p : Plan}
    (h : Packing key n done p) (more : List Batch) {g : List Memory} (hg : g ∈ done)
    (hlarge : n < g.length) :
    ∃ before parts after, p.batches ++ more = before ++ parts ++ after ∧
      parts.flatMap Batch.memory_ids = g.map key := by
  obtain ⟨before, parts, after, hsplit, hids⟩ := h.parts g hg hlarge
  exact ⟨before, parts, after ++ more, by rw [hsplit, List.append_assoc], hids⟩

/-- Flushing keeps what was packed and closes the last batch. -/
theorem Packing.flush {n : ℕ} {done : List (List Memory)} {p : Plan} (h : Packing key n done p) :
    Packing key n done (flush_pack key p) := by
  unfold flush_pack
  by_cases hnone : p.pending = []
  · rw [if_pos hnone]
    exact h
  · rw [if_neg hnone]
    have hpack : (pack_of key p.pending).memory_ids = p.waiting.map key := rfl
    refine ⟨?_, fun b hb => ?_, Nat.zero_le n, by simp, fun g hg hsmall => ?_,
      fun g hg hlarge => ?_⟩
    · rw [List.flatMap_append, List.flatMap_singleton, hpack]
      simpa [Plan.waiting] using h.ids
    · rcases List.mem_append.mp hb with hb | hb
      · exact h.sized b hb
      · rw [List.mem_singleton.mp hb]
        refine ⟨?_, by rw [hpack, List.length_map]; rfl, h.room⟩
        obtain ⟨e, rest, hcons⟩ := List.exists_cons_of_ne_nil hnone
        have he := h.peopled e (hcons ▸ List.mem_cons_self)
        rw [hpack, Plan.waiting, hcons]
        simp [he]
    · rcases h.whole g hg hsmall with ⟨b, hb, hin⟩ | ⟨e, he, rfl⟩
      · exact .inl ⟨b, List.mem_append_left _ hb, hin⟩
      · -- the session is one of those that wait
        refine .inl ⟨_, List.mem_append_right _ (List.mem_singleton_self _), ?_⟩
        obtain ⟨before, after, hsplit⟩ := List.append_of_mem he
        refine ⟨(before.flatMap Prod.snd).map key, (after.flatMap Prod.snd).map key, ?_⟩
        rw [hpack, Plan.waiting, hsplit]
        simp
    · exact h.parts_append _ hg hlarge

/-- The memories of numbered batches, put together. -/
theorem flatMap_mapIdx {f : ℕ → List Memory → Batch} {parts : List (List Memory)}
    (h : ∀ i part, (f i part).memory_ids = part.map key) :
    (parts.mapIdx f).flatMap Batch.memory_ids = parts.flatten.map key := by
  induction parts generalizing f with
  | nil => rfl
  | cons part parts ih =>
    rw [List.mapIdx_cons, List.flatMap_cons, h, ih fun i part => h (i + 1) part, List.flatten_cons,
      List.map_append]

/-- Parts of a session put together are the session, and none is empty or above the ceiling. -/
theorem cut_up_ok {n : ℕ} {ms : List Memory} {parts : List (List Memory)}
    (h : cut_up n ms = .ok parts) :
    parts.flatten = ms ∧ ∀ part ∈ parts, part ≠ [] ∧ part.length ≤ n := by
  unfold cut_up at h
  split at h
  · cases h
  · cases h
    have hn : 0 < n := Nat.pos_of_ne_zero ‹_›
    refine ⟨Lists.flatten_slices hn ms, fun part hpart => ?_⟩
    exact ⟨Lists.ne_nil_of_mem_slices hn hpart, Lists.length_le_of_mem_slices hpart⟩

/-- The step lemma: one more session finds its place. -/
theorem Packing.place {n : ℕ} {threshold : ℤ} {done : List (List Memory)} {p p' : Plan}
    {e : Json × List Memory} (h : Packing key n done p) (he : e.2 ≠ [])
    (hplace : place key n threshold p e = .ok p') : Packing key n (done ++ [e.2]) p' := by
  have hflushed := h.flush
  have hnone := @flush_pack_pending key p
  have hids : (flush_pack key p).batches.flatMap Batch.memory_ids = done.flatten.map key := by
    have := hflushed.ids
    rwa [Plan.waiting, hnone, List.flatMap_nil, List.map_nil, List.append_nil] at this
  -- a small session joins what waits
  have hjoin : ∀ q : Plan, Packing key n done q → q.waiting.length + e.2.length ≤ n →
      Packing key n (done ++ [e.2]) { q with pending := q.pending ++ [e] } := by
    intro q hq hroom
    have hwaiting : Plan.waiting { q with pending := q.pending ++ [e] } = q.waiting ++ e.2 := by
      simp [Plan.waiting]
    refine ⟨?_, hq.sized, ?_, fun d hd => ?_, fun g hg hsmall => ?_, fun g hg hlarge => ?_⟩
    · rw [hwaiting, List.map_append, ← List.append_assoc, hq.ids]
      simp
    · rw [hwaiting, List.length_append]
      exact hroom
    · rcases List.mem_append.mp hd with hd | hd
      · exact hq.peopled d hd
      · rw [List.mem_singleton.mp hd]
        exact he
    · rcases List.mem_append.mp hg with hg | hg
      · refine (hq.whole g hg hsmall).imp_right ?_
        rintro ⟨d, hd, hdg⟩
        exact ⟨d, List.mem_append_left _ hd, hdg⟩
      · refine .inr ⟨e, List.mem_append_right _ (List.mem_singleton_self e), ?_⟩
        rw [List.mem_singleton.mp hg]
    · rcases List.mem_append.mp hg with hg | hg
      · exact hq.parts g hg hlarge
      · rw [List.mem_singleton.mp hg] at hlarge
        omega
  unfold wiki.place at hplace
  by_cases hlarge : n < e.2.length
  · rw [if_pos hlarge] at hplace
    obtain ⟨parts, hcut, hplace⟩ := Except.bind_ok.mp hplace
    cases hplace
    obtain ⟨hflatten, hparts⟩ := cut_up_ok hcut
    have hnew : (parts.mapIdx fun i part => part_of key e.1 parts.length (i + 1) part).flatMap
        Batch.memory_ids = e.2.map key := by
      rw [flatMap_mapIdx (fun i part => rfl), hflatten]
    refine ⟨?_, fun b hb => ?_, hflushed.room, hflushed.peopled, fun g hg hsmall => ?_,
      fun g hg hlarge => ?_⟩
    · rw [Plan.waiting, hnone, List.flatMap_append, hids, hnew]
      simp
    · rcases List.mem_append.mp hb with hb | hb
      · exact hflushed.sized b hb
      · obtain ⟨i, hi, rfl⟩ := List.mem_mapIdx.mp hb
        obtain ⟨hne, hle⟩ := hparts _ (List.getElem_mem hi)
        refine ⟨?_, (List.length_map _).symm, hle⟩
        simpa [part_of] using hne
    · rcases List.mem_append.mp hg with hg | hg
      · refine (hflushed.whole g hg hsmall).imp_left ?_
        rintro ⟨b, hb, hin⟩
        exact ⟨b, List.mem_append_left _ hb, hin⟩
      · rw [List.mem_singleton.mp hg] at hsmall
        omega
    · rcases List.mem_append.mp hg with hg | hg
      · exact hflushed.parts_append _ hg hlarge
      · rw [List.mem_singleton.mp hg]
        exact ⟨_, _, [], (List.append_nil _).symm, hnew⟩
  · rw [if_neg hlarge] at hplace
    by_cases halone : threshold ≤ e.2.length
    · rw [if_pos halone] at hplace
      cases hplace
      have hempty : (flush_pack key p).waiting = [] := by rw [Plan.waiting, hnone, List.flatMap_nil]
      have hone := hjoin (flush_pack key p) hflushed (by rw [hempty, List.length_nil]; omega)
      rw [hnone, List.nil_append] at hone
      exact hone.flush
    · rw [if_neg halone] at hplace
      cases hplace
      have hsum : (p.pending.map fun g => g.2.length).sum = p.waiting.length := by
        rw [Plan.waiting, List.length_flatMap]
      by_cases hfull : n < (p.pending.map fun g => g.2.length).sum + e.2.length
      · rw [if_pos hfull]
        have hempty : (flush_pack key p).waiting = [] := by
          rw [Plan.waiting, hnone, List.flatMap_nil]
        exact hjoin _ hflushed (by rw [hempty, List.length_nil]; omega)
      · rw [if_neg hfull]
        exact hjoin p h (by omega)

/-- The run lemma. -/
theorem Packing.run {n : ℕ} {threshold : ℤ} {es : List (Json × List Memory)} {p : Plan}
    (hes : ∀ e ∈ es, e.2 ≠ []) (hrun : es.foldlM (wiki.place key n threshold) ⟨[], []⟩ = .ok p) :
    Packing key n (es.map Prod.snd) p := by
  let P : List (Json × List Memory) → Plan → Prop := fun seen p =>
    (∀ e ∈ seen, e.2 ≠ []) → Packing key n (seen.map Prod.snd) p
  have hstep : ∀ seen q e q', P seen q → wiki.place key n threshold q e = .ok q' →
      P (seen ++ [e]) q' := by
    intro seen q e q' hq hplace hseen
    rw [List.map_append, List.map_singleton]
    exact (hq fun d hd => hseen d (List.mem_append_left _ hd)).place
      (hseen e (List.mem_append_right _ (List.mem_singleton_self e))) hplace
  have hstart : P [] ⟨[], []⟩ := fun _ => .start n
  exact Except.foldlM_seen hstep hstart hrun hes

/-- Nothing raises under a ceiling of at least one memory. -/
theorem place_ok {n : ℕ} (hn : 1 ≤ n) (threshold : ℤ) (p : Plan) (e : Json × List Memory) :
    ∃ p', place key n threshold p e = .ok p' := by
  unfold place cut_up
  rw [if_neg (by omega : ¬ n = 0)]
  split
  · exact ⟨_, rfl⟩
  · split
    · exact ⟨_, rfl⟩
    · exact ⟨_, rfl⟩

/-! ## Sessions as they are grouped -/

instance (m n : Memory) : Decidable (SameSession m n) := inferInstanceAs (Decidable (_ ∧ _ ∧ _))

/-- The memories of one session, in the order they were made. -/
def session_of (memories : List Memory) (m : Memory) : List Memory :=
  (memories.insertionSort earlier).filter fun n => decide (n = m ∨ SameSession m n)

/-- What grouping keeps of the memories themselves. -/
structure Split (seen : List Memory) (g : Groups) : Prop extends Grouped seen g where
  peopled : ∀ e ∈ g.sessions, e.2 ≠ [] ∧ e.2.Sublist seen
  outside : ∀ e ∈ g.sessions, ∀ m ∈ e.2, is_ledger LEDGER_SOURCE m = false
  alone : ∀ e ∈ g.sessions, e.1.hash_key = none → e.2.length = 1
  perm : (g.sessions.flatMap Prod.snd ++ g.ledger).Perm seen

/-- The step lemma. -/
theorem Split.step {seen : List Memory} {g g' : Groups} {m : Memory} (h : Split seen g)
    (hg : group LEDGER_SOURCE g m = .ok g') : Split (seen ++ [m]) g' := by
  have hgrouped := h.toGrouped.step hg
  have hlater : ∀ e ∈ g.sessions, e.2.Sublist (seen ++ [m]) := fun e he =>
    (h.peopled e he).2.trans (List.sublist_append_left seen [m])
  unfold group at hg
  by_cases hledger : is_ledger LEDGER_SOURCE m = true
  · rw [if_pos hledger] at hg
    cases hg
    refine ⟨hgrouped, fun e he => ⟨(h.peopled e he).1, hlater e he⟩, h.outside, h.alone, ?_⟩
    rw [← List.append_assoc]
    exact h.perm.append_right [m]
  · rw [if_neg hledger] at hg
    obtain ⟨sessions, hset, hg⟩ := Except.bind_ok.mp hg
    cases hg
    unfold Map.set at hset
    split at hset
    · cases hset
      have hnot : is_ledger LEDGER_SOURCE m = false := Bool.not_eq_true _ ▸ hledger
      -- the memory's session is new, or it has an entry whose list grows by the memory
      rcases g.sessions.put_cases (session_id m) ((g.sessions.find (session_id m)).getD [] ++ [m])
        with ⟨hfind, hput, -⟩ | ⟨before, k, u, after, hsplit, hk, hfind, hput⟩
      · -- the first memory of its session
        rw [hfind, Option.getD_none, List.nil_append] at hput
        refine ⟨hgrouped, ?_, ?_, ?_, ?_⟩
        all_goals rw [hfind, Option.getD_none, List.nil_append, hput]
        · intro e he
          rcases List.mem_append.mp he with he | he
          · exact ⟨(h.peopled e he).1, hlater e he⟩
          · rw [List.mem_singleton.mp he]
            exact ⟨List.cons_ne_nil m [], List.sublist_append_right seen [m]⟩
        · intro e he n hn
          rcases List.mem_append.mp he with he | he
          · exact h.outside e he n hn
          · rw [List.mem_singleton.mp he] at hn
            rw [List.mem_singleton.mp hn]
            exact hnot
        · intro e he hnone
          rcases List.mem_append.mp he with he | he
          · exact h.alone e he hnone
          · rw [List.mem_singleton.mp he]
            rfl
        · rw [List.flatMap_append, List.flatMap_singleton, List.append_assoc]
          refine (List.perm_append_comm.append_left _).trans ?_
          rw [← List.append_assoc]
          exact h.perm.append_right [m]
      · -- one more memory of it
        rw [hfind, Option.getD_some] at hput
        have hold : (k, u) ∈ g.sessions := by
          rw [hsplit]
          exact List.mem_append_right _ List.mem_cons_self
        have hmem : ∀ e, e ∈ before ++ (k, u ++ [m]) :: after →
            e ∈ g.sessions ∨ e = (k, u ++ [m]) := by
          intro e he
          rw [hsplit]
          simp only [List.mem_append, List.mem_cons] at he ⊢
          tauto
        refine ⟨hgrouped, ?_, ?_, ?_, ?_⟩
        all_goals rw [hfind, Option.getD_some, hput]
        · intro e he
          rcases hmem e he with he | rfl
          · exact ⟨(h.peopled e he).1, hlater e he⟩
          · exact ⟨by simp, (h.peopled (k, u) hold).2.append_right [m]⟩
        · intro e he n hn
          rcases hmem e he with he | rfl
          · exact h.outside e he n hn
          · rcases List.mem_append.mp hn with hn | hn
            · exact h.outside (k, u) hold n hn
            · rw [List.mem_singleton.mp hn]
              exact hnot
        · intro e he hnone
          rcases hmem e he with he | rfl
          · exact h.alone e he hnone
          · -- the key has been found, so it equals something
            obtain ⟨key, hkey, -⟩ :=
              (Json.eq_iff_hash_key (h.hashable (k, u) hold) ‹_›).mp hk
            rw [hkey] at hnone
            cases hnone
        · -- it is put behind the others of its session, which is no more than a change of
          -- order
          have hperm := h.perm
          rw [hsplit] at hperm
          refine List.Perm.trans ?_ (hperm.append_right [m])
          simp only [List.flatMap_append, List.flatMap_cons, List.append_assoc]
          refine List.Perm.append_left _ (List.Perm.append_left _ ?_)
          rw [← List.append_assoc (after.flatMap Prod.snd)]
          exact List.perm_append_comm
    · cases hset

/-- The run lemma. -/
theorem group_by_session_split {memories : List Memory} {g : Groups}
    (h : group_by_session memories = .ok g) : Split (memories.insertionSort earlier) g := by
  have hstart : Split [] (⟨[], []⟩ : Groups) :=
    ⟨⟨rfl, by simp, by simp, .nil, by simp⟩, by simp, by simp, by simp, .nil⟩
  exact Except.foldlM_seen (fun _ _ _ _ hseen hg => hseen.step hg) hstart h

/-- A group is one whole session, in order. -/
theorem Split.group_eq {memories : List Memory} {g : Groups}
    (h : Split (memories.insertionSort earlier) g) (hnodup : memories.Nodup)
    {e : Json × List Memory} (he : e ∈ g.sessions) {m : Memory} (hm : m ∈ e.2) :
    e.2 = session_of memories m := by
  obtain ⟨-, hsub⟩ := h.peopled e he
  have hsorted : (memories.insertionSort earlier).Nodup :=
    (List.perm_insertionSort earlier memories).nodup_iff.mpr hnodup
  refine Lists.eq_filter_of_sublist hsub hsorted _ fun n hn => ?_
  rw [decide_eq_true_iff]
  constructor
  · intro hin
    obtain ⟨hhash, hkey⟩ := h.member e he m hm
    obtain ⟨hhash', hkey'⟩ := h.member e he n hin
    cases hk : e.1.hash_key with
    | none =>
      -- a key that equals nothing has one memory
      obtain ⟨o, ho⟩ := List.length_eq_one_iff.mp (h.alone e he hk)
      rw [ho, List.mem_singleton] at hm hin
      exact .inl (hin.trans hm.symm)
    | some k =>
      refine .inr ⟨h.outside e he m hm, h.outside e he n hin, ?_⟩
      exact (Json.eq_iff_hash_key hhash hhash').mpr ⟨k, hkey.trans hk, hkey'.trans hk⟩
  · rintro (rfl | ⟨-, hledger, heq⟩)
    · exact hm
    · obtain ⟨e', he', hin⟩ := h.complete n hn hledger
      rw [h.one_entry he he' hm hin heq]
      exact hin

/-! ## The plan -/

/-- The ids that each batch carries: every memory once, none too many, small sessions whole,
large ones in parts next to each other, and the ledger apart. -/
structure Batched (memories : List Memory) (n : ℕ) (contents : List (List String)) : Prop where
  once : contents.flatten.Perm (memories.map Memory.id)
  sized : ∀ ids ∈ contents, ids ≠ [] ∧ ids.length ≤ n
  whole : ∀ m ∈ memories, is_ledger LEDGER_SOURCE m = false → (session_of memories m).length ≤ n →
    ∃ ids ∈ contents, (session_of memories m).map Memory.id <:+: ids
  parts : ∀ m ∈ memories, is_ledger LEDGER_SOURCE m = false → n < (session_of memories m).length →
    ∃ parts, parts <:+: contents ∧ parts.flatten = (session_of memories m).map Memory.id
  apart : ∀ ids ∈ contents, (∀ m ∈ memories, m.id ∈ ids → is_ledger LEDGER_SOURCE m = true) ∨
    ∀ m ∈ memories, m.id ∈ ids → is_ledger LEDGER_SOURCE m = false

/-- The batches of a grouped store. -/
theorem Split.batched {memories : List Memory} {g : Groups} {n : ℕ} {p : Plan}
    {chunks : List (List Memory)} (h : Split (memories.insertionSort earlier) g)
    (hids : (memories.map Memory.id).Nodup) {ordered : List (Json × List Memory)}
    (hordered : ordered.Perm g.sessions) (hp : Packing Memory.id n (ordered.map Prod.snd) p)
    (hnone : p.pending = []) (hchunks : chunks.flatten = g.ledger)
    (hsized : ∀ chunk ∈ chunks, chunk ≠ [] ∧ chunk.length ≤ n) :
    Batched memories n ((p.batches ++ chunks.map (ledger_of Memory.id)).map Batch.memory_ids) := by
  have hsame : ∀ m ∈ memories, ∀ m' ∈ memories, m.id = m'.id → m = m' := fun m hm m' hm' heq =>
    List.inj_on_of_nodup_map hids hm hm' heq
  have hmem : ∀ m, m ∈ memories.insertionSort earlier ↔ m ∈ memories := fun m =>
    (List.perm_insertionSort earlier memories).mem_iff
  -- nobody is waiting any more, so the batches hold all that has been packed
  have hpacked : p.batches.flatMap Batch.memory_ids = (ordered.flatMap Prod.snd).map Memory.id := by
    have hall := hp.ids
    rwa [Plan.waiting, hnone, List.flatMap_nil, List.map_nil, List.append_nil, ← List.flatMap_def]
      at hall
  have hledger : (chunks.map (ledger_of Memory.id)).map Batch.memory_ids
      = chunks.map (List.map Memory.id) := by
    rw [List.map_map]
    rfl
  have hgroup : ∀ m ∈ memories, is_ledger LEDGER_SOURCE m = false →
      session_of memories m ∈ ordered.map Prod.snd := by
    intro m hm hnot
    obtain ⟨e, he, hin⟩ := h.complete m ((hmem m).mpr hm) hnot
    rw [← h.group_eq hids.of_map he hin]
    exact List.mem_map_of_mem (hordered.mem_iff.mpr he)
  rw [List.map_append, hledger]
  -- every id once; no batch too large or empty; small groups whole; large ones in parts;
  -- ledgers apart
  refine ⟨?_, fun ids hin => ?_, fun m hm hnot hsmall => ?_, fun m hm hnot hlarge => ?_,
    fun ids hin => ?_⟩
  · rw [List.flatten_append, ← List.flatMap_def, hpacked, ← List.map_flatten, hchunks,
      ← List.map_append]
    refine List.Perm.map Memory.id ?_
    refine ((hordered.flatMap_right Prod.snd).append_right g.ledger).trans ?_
    exact h.perm.trans (List.perm_insertionSort earlier memories)
  · rcases List.mem_append.mp hin with hin | hin
    · obtain ⟨b, hb, rfl⟩ := List.mem_map.mp hin
      obtain ⟨hne, hcount, hle⟩ := hp.sized b hb
      exact ⟨hne, hcount ▸ hle⟩
    · obtain ⟨chunk, hchunk, rfl⟩ := List.mem_map.mp hin
      obtain ⟨hne, hle⟩ := hsized chunk hchunk
      rw [List.length_map, Ne, List.map_eq_nil_iff]
      exact ⟨hne, hle⟩
  · rcases hp.whole _ (hgroup m hm hnot) hsmall with ⟨b, hb, hin⟩ | ⟨e, he, -⟩
    · exact ⟨_, List.mem_append_left _ (List.mem_map_of_mem hb), hin⟩
    · rw [hnone] at he
      cases he
  · obtain ⟨before, parts, after, hsplit, hparts⟩ := hp.parts _ (hgroup m hm hnot) hlarge
    refine ⟨parts.map Batch.memory_ids, ?_, by rw [← List.flatMap_def, hparts]⟩
    rw [hsplit, List.map_append, List.map_append, List.append_assoc]
    exact ⟨_, _, rfl⟩
  · rcases List.mem_append.mp hin with hin | hin
    · refine .inr fun m hm hid => ?_
      have hall : m.id ∈ (ordered.flatMap Prod.snd).map Memory.id := by
        rw [← hpacked, List.flatMap_def]
        exact List.mem_flatten_of_mem hin hid
      obtain ⟨m', hm', heq⟩ := List.mem_map.mp hall
      obtain ⟨e, he, hin'⟩ := List.mem_flatMap.mp hm'
      have hsession := hordered.mem_iff.mp he
      have hstored := (hmem m').mp ((h.peopled e hsession).2.subset hin')
      rw [hsame m hm m' hstored heq.symm]
      exact h.outside e hsession m' hin'
    · obtain ⟨chunk, hchunk, rfl⟩ := List.mem_map.mp hin
      refine .inl fun m hm hid => ?_
      obtain ⟨m', hm', heq⟩ := List.mem_map.mp hid
      have hin' : m' ∈ g.ledger := hchunks ▸ List.mem_flatten_of_mem hchunk hm'
      rw [h.ledger, List.mem_filter] at hin'
      rw [hsame m hm m' ((hmem m').mp hin'.1) heq.symm]
      exact hin'.2

/-- Numbering the batches changes nothing else. -/
theorem map_label {β : Type} (f : Batch → β) (hf : ∀ b id, f { b with batch_id := id } = f b)
    (number : ℕ → String) (batches : List Batch) :
    (batches.mapIdx fun i b => { b with batch_id := number i }).map f = batches.map f := by
  induction batches generalizing number with
  | nil => rfl
  | cons b batches ih =>
    rw [List.mapIdx_cons, List.map_cons, List.map_cons, hf, ih fun i => number (i + 1)]

/-- Of two memories one is no later than the other. -/
theorem earlier_total (m n : Memory) : earlier m n ∨ earlier n m := by
  unfold earlier
  rcases lt_trichotomy (created m) (created n) with h | h | h
  · exact .inl (.inl h)
  · rcases le_total m.id n.id with hid | hid
    · exact .inl (.inr ⟨h, hid⟩)
    · exact .inr (.inr ⟨h.symm, hid⟩)
  · exact .inr (.inl h)

theorem earlier_trans {l m n : Memory} (h : earlier l m) (h' : earlier m n) : earlier l n := by
  rcases h with h | ⟨h, hid⟩
  · rcases h' with h' | ⟨h', -⟩
    · exact .inl (h.trans h')
    · exact .inl (h' ▸ h)
  · rcases h' with h' | ⟨h', hid'⟩
    · exact .inl (h ▸ h')
    · exact .inr ⟨h.trans h', hid.trans hid'⟩

/-- With distinct ids there is one chronological order. -/
theorem chronological {memories memories' : List Memory} (hids : (memories.map Memory.id).Nodup)
    (h : memories'.Perm memories) :
    memories'.insertionSort earlier = memories.insertionSort earlier := by
  have : Std.Total earlier := ⟨earlier_total⟩
  have : IsTrans Memory earlier := ⟨fun _ _ _ => earlier_trans⟩
  refine List.Perm.eq_of_pairwise (fun m n hm hn hmn hnm =>
    ?_) (List.pairwise_insertionSort earlier _)
    (List.pairwise_insertionSort earlier _) ?_
  · have hm' := h.mem_iff.mp ((List.perm_insertionSort earlier memories').mem_iff.mp hm)
    have hn' := (List.perm_insertionSort earlier memories).mem_iff.mp hn
    refine List.inj_on_of_nodup_map hids hm' hn' ?_
    rcases hmn with hlt | ⟨heq, hid⟩
    · rcases hnm with hlt' | ⟨heq, -⟩
      · exact absurd (hlt.trans hlt') (lt_irrefl _)
      · exact absurd (heq ▸ hlt) (lt_irrefl _)
    · rcases hnm with hlt' | ⟨-, hid'⟩
      · exact absurd (heq ▸ hlt') (lt_irrefl _)
      · exact le_antisymm hid hid'
  · refine (List.perm_insertionSort earlier memories').trans (h.trans ?_)
    exact (List.perm_insertionSort earlier memories).symm

/-- **The plan.** Where no session id is a list or an object, the plan of a whole store has
every memory once, within the ceiling and with its session, and does not depend on the order in
which the store lists them. -/
theorem plan_batches_sound {memories : List Memory} (hids : (memories.map Memory.id).Nodup)
    (hkeys : ∀ m ∈ memories, is_ledger LEDGER_SOURCE m = false → (session_id m).hashable = true)
    {n : ℕ} (hn : 1 ≤ n) (threshold : ℤ) (rt : Runtime) :
    ∃ batches, plan_batches Memory.id rt memories none n threshold = .ok batches ∧
      Batched memories n (batches.map Batch.memory_ids) ∧
      (∀ b ∈ batches, b.memory_count = b.memory_ids.length) ∧
      ∀ memories', memories'.Perm memories →
        plan_batches Memory.id rt memories' none n threshold = .ok batches := by
  -- grouping, packing and cutting up all succeed
  obtain ⟨g, hg⟩ := group_by_session_ok hkeys
  have hsplit := group_by_session_split hg
  set ordered := g.sessions.insertionSort fun e e' => began e ≤ began e' with hdef
  have hordered : ordered.Perm g.sessions := List.perm_insertionSort _ _
  obtain ⟨p, hp⟩ := Except.foldlM_total
    (fun (e : Json × List Memory) (_ : e ∈ ordered) p =>
      @place_ok Memory.id n hn threshold p e) ⟨[], []⟩
  have hpacking :=
    (Packing.run (fun e he => (hsplit.peopled e (hordered.mem_iff.mp he)).1) hp).flush
  have hcut : cut_up n g.ledger = .ok (Lists.slices n g.ledger) := by
    rw [cut_up, if_neg (by omega)]
  obtain ⟨hchunks, hsized⟩ := cut_up_ok hcut
  have hbatched := hsplit.batched hids hordered hpacking (flush_pack_pending p) hchunks hsized
  refine ⟨_, Except.bind_ok.mpr ⟨memories, rfl, Except.bind_ok.mpr ⟨g, hg, Except.bind_ok.mpr
    ⟨p, hp, Except.bind_ok.mpr ⟨_, hcut, rfl⟩⟩⟩⟩, ?_, fun b hb => ?_, fun memories' hperm => ?_⟩
  · rw [map_label Batch.memory_ids (fun _ _ => rfl) batch_id]
    exact hbatched
  · obtain ⟨i, hi, rfl⟩ := List.mem_mapIdx.mp hb
    rcases List.mem_append.mp (List.getElem_mem hi) with hb | hb
    · exact (hpacking.sized _ hb).2.1
    · obtain ⟨chunk, -, heq⟩ := List.mem_map.mp hb
      rw [← heq]
      exact (List.length_map _).symm
  -- the memories are put in order first, so a permutation of them is grouped alike
  · have hgroup : group_by_session memories' = .ok g := by
      rw [← hg, group_by_session, group_by_session, chronological hids hperm]
    exact Except.bind_ok.mpr ⟨memories', rfl, Except.bind_ok.mpr ⟨g, hgroup, Except.bind_ok.mpr
      ⟨p, hp, Except.bind_ok.mpr ⟨_, hcut, rfl⟩⟩⟩⟩

/-- Three memories of a session, and one of the ledger. -/
def four : List Memory :=
  [⟨"c", some "2026-07-02", none, [("session_id", .str "s")]⟩,
    ⟨"a", some "2026-07-01", none, [("session_id", .str "s")]⟩, ⟨"l", none, none, []⟩,
    ⟨"b", some "2026-07-01", none, [("session_id", .str "s")]⟩]

/-- Under a ceiling of two they make three batches. -/
theorem four_planned :
    ∃ batches, plan_batches Memory.id Runtime.plain four none 2 60 = .ok batches ∧
    Batched four 2 (batches.map Batch.memory_ids) ∧
    (∀ b ∈ batches, b.memory_count = b.memory_ids.length) ∧
    ∀ memories', memories'.Perm four →
      plan_batches Memory.id Runtime.plain memories' none 2 60 = .ok batches :=
  plan_batches_sound (by decide +kernel) (by decide +kernel) (by decide) 60 Runtime.plain

/-- A memory whose session id is a list. -/
def listed : Memory := ⟨"a", some "2026-07-01", none, [("session_id", .list [.str "s"])]⟩

/-- Such a session id cannot be a key, so there is no plan. -/
theorem listed_session_unplanned : ([listed].map Memory.id).Nodup ∧
    plan_batches Memory.id Runtime.plain [listed] none 275 60 = .error .type_error := by
  decide +kernel

end Memline.wiki
