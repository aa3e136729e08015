/-
What incremental compile runs cover.

A run begins reading at some moment, reads, and when it is done records the moment it
began as the cursor of the next run. Writers go on meanwhile. A memory is selected again
when its latest stamp, cut to the second, is not below the cursor as text; but the cursor
is a longer text than a stamp, so a stamp in the cursor's own second is below it.
-/
import Memline.Lib.Check
import Memline.Wiki.Batch

set_option autoImplicit false

namespace Memline.wiki

open Py

variable {rt : Runtime}

/-! ## Sessions come whole -/

/-- Two memories of one session. -/
def SameSession (m n : Memory) : Prop :=
  is_ledger LEDGER_SOURCE m = false ∧ is_ledger LEDGER_SOURCE n = false ∧
    (session_id m).eq (session_id n) = true

/-- What grouping keeps: groups are of one session each, and every memory read is in one. -/
structure Grouped (seen : List Memory) (g : Groups) : Prop where
  ledger : g.ledger = seen.filter (is_ledger LEDGER_SOURCE)
  hashable : ∀ e ∈ g.sessions, e.1.hashable = true
  member : ∀ e ∈ g.sessions, ∀ m ∈ e.2,
    (session_id m).hashable = true ∧ (session_id m).hash_key = e.1.hash_key
  distinct : g.sessions.Pairwise fun e e' => Json.eq e.1 e'.1 = false
  complete : ∀ m ∈ seen, is_ledger LEDGER_SOURCE m = false → ∃ e ∈ g.sessions, m ∈ e.2

/-- The step lemma. -/
theorem Grouped.step {seen : List Memory} {g g' : Groups} {m : Memory} (h : Grouped seen g)
    (hg : group LEDGER_SOURCE g m = .ok g') : Grouped (seen ++ [m]) g' := by
  unfold group at hg
  by_cases hledger : is_ledger LEDGER_SOURCE m = true
  · rw [if_pos hledger] at hg
    cases hg
    refine ⟨?_, h.hashable, h.member, h.distinct, fun n hn hnot => ?_⟩
    · rw [List.filter_append, h.ledger, List.filter_cons_of_pos hledger, List.filter_nil]
    · rcases List.mem_append.mp hn with hn | hn
      · exact h.complete n hn hnot
      · rw [List.mem_singleton.mp hn, hledger] at hnot
        cases hnot
  · rw [if_neg hledger] at hg
    obtain ⟨sessions, hset, hg⟩ := Except.bind_ok.mp hg
    cases hg
    unfold Map.set at hset
    split at hset
    · rename_i hhash
      cases hset
      have hledger' : g.ledger = (seen ++ [m]).filter (is_ledger LEDGER_SOURCE) := by
        rw [List.filter_append, h.ledger, List.filter_cons_of_neg hledger, List.filter_nil,
          List.append_nil]
      -- the memory's session is new, or it has an entry whose list grows by the memory
      rcases g.sessions.put_cases (session_id m) ((g.sessions.find (session_id m)).getD [] ++ [m])
        with ⟨hfind, hput, hnew⟩ | ⟨before, k, u, after, hsplit, hk, hfind, hput⟩
      · -- the first memory of its session
        rw [hfind, Option.getD_none, List.nil_append] at hput
        rw [hfind, Option.getD_none, List.nil_append, hput]
        refine ⟨hledger', fun e he => ?_, fun e he n hn => ?_, ?_, fun n hn hnot => ?_⟩
        · rcases List.mem_append.mp he with he | he
          · exact h.hashable e he
          · rw [List.mem_singleton.mp he]
            exact hhash
        · rcases List.mem_append.mp he with he | he
          · exact h.member e he n hn
          · rw [List.mem_singleton.mp he] at hn ⊢
            rw [List.mem_singleton.mp hn]
            exact ⟨hhash, rfl⟩
        · refine List.pairwise_append.mpr ⟨h.distinct, List.pairwise_singleton _ _,
            fun e he e' he' => ?_⟩
          rw [List.mem_singleton.mp he']
          exact hnew e he
        · rcases List.mem_append.mp hn with hn | hn
          · obtain ⟨e, he, hmem⟩ := h.complete n hn hnot
            exact ⟨e, List.mem_append_left _ he, hmem⟩
          · exact ⟨_, List.mem_append_right _ (List.mem_singleton_self _), hn⟩
      · -- one more memory of it
        rw [hfind, Option.getD_some] at hput
        rw [hfind, Option.getD_some, hput]
        have hold : (k, u) ∈ g.sessions := by
          rw [hsplit]
          exact List.mem_append_right _ List.mem_cons_self
        have hmem : ∀ e, e ∈ before ++ (k, u ++ [m]) :: after →
            e ∈ g.sessions ∨ e = (k, u ++ [m]) := by
          intro e he
          rw [hsplit]
          rcases List.mem_append.mp he with he | he
          · exact .inl (List.mem_append_left _ he)
          · rcases List.mem_cons.mp he with he | he
            · exact .inr he
            · exact .inl (List.mem_append_right _ (List.mem_cons_of_mem _ he))
        have hkey : (session_id m).hash_key = k.hash_key := by
          obtain ⟨key, h₁, h₂⟩ := (Json.eq_iff_hash_key (h.hashable _ hold) hhash).mp hk
          rw [h₁, h₂]
        refine ⟨hledger', fun e he => ?_, fun e he n hn => ?_, ?_, fun n hn hnot => ?_⟩
        · rcases hmem e he with he | rfl
          · exact h.hashable e he
          · exact h.hashable (k, u) hold
        · rcases hmem e he with he | rfl
          · exact h.member e he n hn
          · rcases List.mem_append.mp hn with hn | hn
            · exact h.member (k, u) hold n hn
            · rw [List.mem_singleton.mp hn]
              exact ⟨hhash, hkey⟩
        · have hdistinct := h.distinct
          rw [hsplit, ← List.pairwise_map (f := Prod.fst) (R := fun k k' => Json.eq k k' = false)]
            at hdistinct
          rw [← List.pairwise_map (f := Prod.fst) (R := fun k k' => Json.eq k k' = false)]
          simpa using hdistinct
        · rcases List.mem_append.mp hn with hn | hn
          · obtain ⟨e, he, hin⟩ := h.complete n hn hnot
            rw [hsplit] at he
            rcases List.mem_append.mp he with he | he
            · exact ⟨e, List.mem_append_left _ he, hin⟩
            · rcases List.mem_cons.mp he with rfl | he
              · exact ⟨_, List.mem_append_right _ List.mem_cons_self, List.mem_append_left _ hin⟩
              · exact ⟨e, List.mem_append_right _ (List.mem_cons_of_mem _ he), hin⟩
          · exact ⟨_, List.mem_append_right _ List.mem_cons_self, List.mem_append_right _ hn⟩
    · cases hset

/-- The run lemma. -/
theorem group_by_session_grouped {memories : List Memory} {g : Groups}
    (h : group_by_session memories = .ok g) : Grouped (memories.insertionSort earlier) g := by
  have hstart : Grouped [] (⟨[], []⟩ : Groups) := ⟨rfl, by simp, by simp, .nil, by simp⟩
  exact Except.foldlM_seen (fun _ _ _ _ hseen hg => hseen.step hg) hstart h

/-- Memories with equal session ids are in one group. -/
theorem Grouped.one_entry {seen : List Memory} {g : Groups} (h : Grouped seen g)
    {e e' : Json × List Memory} (he : e ∈ g.sessions) (he' : e' ∈ g.sessions) {m n : Memory}
    (hm : m ∈ e.2) (hn : n ∈ e'.2) (heq : (session_id m).eq (session_id n) = true) : e = e' := by
  obtain ⟨hhash, hkey⟩ := h.member e he m hm
  obtain ⟨hhash', hkey'⟩ := h.member e' he' n hn
  obtain ⟨k, hk, hk'⟩ := (Json.eq_iff_hash_key hhash hhash').mp heq
  have hsame : ∀ d ∈ g.sessions, ∀ d' ∈ g.sessions, d.1.hash_key = some k → d'.1.hash_key = some k →
      Json.eq d.1 d'.1 = true := fun d hd d' hd' h₁ h₂ =>
    (Json.eq_iff_hash_key (h.hashable d hd) (h.hashable d' hd')).mpr ⟨k, h₁, h₂⟩
  have hpair := List.pairwise_iff_getElem.mp h.distinct
  have hequal := hsame e he e' he' (hkey ▸ hk) (hkey' ▸ hk')
  have hequal' := hsame e' he' e he (hkey' ▸ hk') (hkey ▸ hk)
  obtain ⟨i, hi, hei⟩ := List.getElem_of_mem he
  obtain ⟨j, hj, hej⟩ := List.getElem_of_mem he'
  rcases lt_trichotomy i j with hij | rfl | hij
  · have hne := hpair i j hi hj hij
    rw [hei, hej, hequal] at hne
    cases hne
  · rw [← hei, ← hej]
  · have hne := hpair j i hj hi hij
    rw [hei, hej, hequal'] at hne
    cases hne

/-- What has moved is selected, and its session with it. -/
theorem select_since_spec {memories selected : List Memory} {since : String}
    (h : select_since rt memories since = .ok selected) {m : Memory} (hm : m ∈ memories)
    (hmoved : since ≤ touched_at rt m) :
    m ∈ selected ∧ ∀ n ∈ memories, SameSession m n → n ∈ selected := by
  obtain ⟨g, hg, h⟩ := Except.bind_ok.mp h
  cases h
  have hgrouped := group_by_session_grouped hg
  have hmem : ∀ n, n ∈ memories ↔ n ∈ memories.insertionSort earlier := fun n =>
    (List.perm_insertionSort earlier memories).mem_iff.symm
  have hsession : ∀ e ∈ g.sessions, m ∈ e.2 → ∀ n ∈ e.2,
      n ∈ (g.sessions.filter fun e => e.2.any fun m => decide (since ≤ touched_at rt m)).flatMap
        Prod.snd := by
    intro e he hin n hn
    refine List.mem_flatMap.mpr ⟨e, List.mem_filter.mpr ⟨he, ?_⟩, hn⟩
    exact List.any_eq_true.mpr ⟨m, hin, decide_eq_true hmoved⟩
  constructor
  · cases hledger : is_ledger LEDGER_SOURCE m with
    | true =>
      refine List.mem_append_right _ (List.mem_filter.mpr ⟨?_, decide_eq_true hmoved⟩)
      rw [hgrouped.ledger]
      exact List.mem_filter.mpr ⟨(hmem m).mp hm, hledger⟩
    | false =>
      obtain ⟨e, he, hin⟩ := hgrouped.complete m ((hmem m).mp hm) hledger
      exact List.mem_append_left _ (hsession e he hin m hin)
  · rintro n hn ⟨hledger, hledger', heq⟩
    obtain ⟨e, he, hin⟩ := hgrouped.complete m ((hmem m).mp hm) hledger
    obtain ⟨e', he', hin'⟩ := hgrouped.complete n ((hmem n).mp hn) hledger'
    have hone := hgrouped.one_entry he he' hin hin' heq
    subst hone
    exact List.mem_append_left _ (hsession e he hin n hin')

/-- Nothing raises while the session ids can be keys. -/
theorem group_by_session_ok {memories : List Memory}
    (h : ∀ m ∈ memories, is_ledger LEDGER_SOURCE m = false → (session_id m).hashable = true) :
    ∃ g, group_by_session memories = .ok g := by
  refine Except.foldlM_total (fun m hm g => ?_) _
  have hmem : m ∈ memories := (List.perm_insertionSort earlier memories).mem_iff.mp hm
  unfold group
  split
  · exact ⟨_, rfl⟩
  · rw [Map.set, if_pos (h m hmem (Bool.not_eq_true _ ▸ ‹_›))]
    exact ⟨_, rfl⟩

/-- What was written since is selected when every session id can be a key. -/
theorem select_since_ok {memories : List Memory} (since : String)
    (h : ∀ m ∈ memories, (session_id m).hashable = true) :
    ∃ selected, select_since rt memories since = .ok selected := by
  obtain ⟨g, hg⟩ := group_by_session_ok fun m hm _ => h m hm
  exact ⟨_, Except.bind_ok.mpr ⟨g, hg, rfl⟩⟩

/-! ## Writing memories -/

/-- What mem0 stores of a new memory: its own stamps only where the metadata has none. -/
def create_memory (id : String) (metadata : Dict) (now : Datetime) : Memory :=
  let created_at := match metadata.lookup "created_at" with
    | none => some now.isoformat
    | some (.str s) => some s
    | some _ => none
  { id, created_at, updated_at := created_at
    metadata := metadata.filter fun e => decide (e.1 ∉ Mem0.core_and_promoted_keys) }

/-- What mem0 makes of a memory that is updated. -/
def update_memory (m : Memory) (metadata : Dict) (now : Datetime) : Memory :=
  let given := metadata.filter fun e => decide (e.1 ∉ Mem0.core_and_promoted_keys)
  { m with
    updated_at := some now.isoformat
    metadata := given.foldl (fun d e => Dict.set d e.1 e.2) m.metadata }

/-- The latest of several texts is no earlier than any of them. -/
theorem le_foldl_max {ss : List String} {s : String} (h : s ∈ ss) (t : String) :
    s ≤ ss.foldl max t := by
  have hmono : ∀ (ss : List String) (t : String), t ≤ ss.foldl max t := by
    intro ss
    induction ss with
    | nil => exact fun t => le_refl t
    | cons s ss ih => exact fun t => (le_max_left t s).trans (ih (max t s))
  induction ss generalizing t with
  | nil => cases h
  | cons u ss ih =>
    rcases List.mem_cons.mp h with rfl | h
    · exact (le_max_right t s).trans (hmono ss (max t s))
    · exact ih h (max t u)

theorem cut_isoformat (t : Datetime) : cut t.isoformat = String.ofList t.stamp := by
  have htake : t.isoformat.toList.take 19 = t.stamp := by
    rw [Datetime.isoformat, String.toList_ofList, List.append_assoc,
      List.take_append_of_le_length (by rw [Datetime.length_stamp]), List.take_of_length_le]
    rw [Datetime.length_stamp]
  rw [cut, htake]

/-- A stamp that a memory carries is not above the moment it was last touched. -/
theorem le_touched_at {m : Memory} {t : Datetime} (h : Json.str t.isoformat ∈ stamps m) :
    String.ofList t.stamp ≤ touched_at rt m := by
  have htruthy : (Json.str t.isoformat).truthy = true := by
    have hne := t.isoformat_ne_empty
    simpa [Json.truthy] using hne
  refine le_foldl_max (List.mem_map.mpr ⟨_, List.mem_filter.mpr ⟨h, htruthy⟩, ?_⟩) ""
  exact cut_isoformat t

/-- A new memory is, unless its metadata has a stamp of its own. -/
theorem create_stamped {metadata : Dict} (h : metadata.lookup "created_at" = none) (id : String)
    (now : Datetime) : String.ofList now.stamp ≤ touched_at rt (create_memory id metadata now) := by
  refine le_touched_at ?_
  simp only [create_memory, h, stamps, Option.map_some, Option.getD_some]
  exact List.mem_cons_self

/-! ## Runs -/

/-- A stored memory, and the moment it was created or last updated. -/
structure Row where
  memory : Memory
  moment : Datetime
  deriving DecidableEq

/-- The store and the compile runs over it. -/
structure Compiling where
  now : Option Datetime
  rows : List Row
  state : State
  /-- When the last completed run began to read. -/
  cursor : Option Datetime
  /-- When any run last began to read. -/
  latest : Option Datetime
  /-- The run in flight: when it began to read, and what it has selected. -/
  reading : Option Datetime
  selected : Option (List Memory)

/-- Nothing written and nothing compiled. -/
def Compiling.start : Compiling := ⟨none, [], EMPTY, none, none, none, none⟩

/-- What happens: writes that land at a moment, stamped no later than that, and the three
parts of a run. -/
inductive Event where
  | create (landed stamped : Datetime) (id : String) (metadata : Dict)
  | update (landed stamped : Datetime) (id : String) (metadata : Dict)
  | delete (landed : Datetime) (id : String)
  | plan (read_at : Datetime)
  | read
  | close (source_hashes : Option (List (String × String)))

/-- The clock does not go back. -/
def Compiling.reached (w : Compiling) (t : Datetime) : Bool :=
  w.now.all fun now => decide (now.le t)

def Compiling.memories (w : Compiling) : List Memory := w.rows.map Row.memory

variable (rt) in
/-- One event, if it can happen. -/
def Compiling.step (w : Compiling) : Event → Option Compiling
  -- the stamp is taken before the row is written
  | .create t u id metadata =>
    if w.reached t ∧ u.le t then
      some { w with now := some t, rows := w.rows ++ [⟨create_memory id metadata u, t⟩] }
    else none
  | .update t u id metadata =>
    if w.reached t ∧ u.le t then
      some { w with
        now := some t
        rows := w.rows.map fun row =>
          if row.memory.id = id then ⟨update_memory row.memory metadata u, t⟩ else row }
    else none
  | .delete t id =>
    if w.reached t then
      some { w with now := some t, rows := w.rows.filter fun row => decide (row.memory.id ≠ id) }
    else none
  -- the moment is noted before anything is read
  | .plan t =>
    if w.reached t then
      some { w with now := some t, latest := some t, reading := some t, selected := none }
    else none
  | .read =>
    match w.reading, planned rt w.memories w.state.last_compile_at with
    | some _, .ok selected => some { w with selected := some selected }
    | _, _ => none
  -- and it is the cursor of the next run
  | .close source_hashes =>
    match w.reading, w.selected with
    | some read_at, some _ =>
      some { w with
        state := close_run rt w.state read_at.isoformat_seconds w.memories source_hashes
        cursor := some read_at, reading := none, selected := none }
    | _, _ => none

/-- A selection covers what was touched since the cursor, and its sessions. -/
def Covers (rows : List Row) (cursor : Option Datetime) (selected : List Memory) : Prop :=
  ∀ row ∈ rows, (∀ c ∈ cursor, c.le row.moment) → row.memory ∈ selected ∧
    ∀ other ∈ rows, SameSession row.memory other.memory → other.memory ∈ selected

variable (rt) in
/-- A write lands in a later second than the one in which a run last began to read, and the
memory it leaves carries a stamp of the second it lands in, or a later one. -/
def Calm (w : Compiling) : Event → Prop
  | .create t u id metadata => (∀ b ∈ w.latest, b.stamp ≠ t.stamp) ∧
      String.ofList t.stamp ≤ touched_at rt (create_memory id metadata u)
  | .update t u id metadata => (∀ b ∈ w.latest, b.stamp ≠ t.stamp) ∧
      ∀ row ∈ w.rows, row.memory.id = id →
        String.ofList t.stamp ≤ touched_at rt (update_memory row.memory metadata u)
  | .plan t => ∀ row ∈ w.rows, row.moment ≠ t
  | _ => True

variable (rt) in
/-- Runs of calm events. -/
inductive CalmRun : Compiling → Prop
  | start : CalmRun .start
  | step {w w' : Compiling} {e : Event} : CalmRun w → Calm rt w e →
      w.step rt e = some w' → CalmRun w'

/-! ## The invariant -/

/-- A beginning that every later row is in a later second than. -/
structure Began (w : Compiling) (b : Datetime) : Prop where
  recent : ∃ c ∈ w.latest, b.le c
  past : ∃ now ∈ w.now, b.le now
  apart : ∀ row ∈ w.rows, b.le row.moment → b.stamp ≠ row.moment.stamp

variable (rt) in
/-- What calm runs keep. -/
structure Kept (w : Compiling) : Prop where
  rows_past : ∀ row ∈ w.rows, ∃ now ∈ w.now, row.moment.le now
  stamped : ∀ row ∈ w.rows, String.ofList row.moment.stamp ≤ touched_at rt row.memory
  latest : ∀ b ∈ w.latest, Began w b
  cursor : ∀ b ∈ w.cursor, Began w b
  reading : ∀ b ∈ w.reading, Began w b
  state : w.state.last_compile_at = w.cursor.map Datetime.isoformat_seconds

/-- A compilation has reached a moment only when the clock has. -/
theorem Compiling.le_of_reached {w : Compiling} {t : Datetime} (h : w.reached t = true) :
    ∀ now ∈ w.now, now.le t := by
  intro now hnow
  unfold reached at h
  rw [Option.mem_def.mp hnow] at h
  exact of_decide_eq_true h

/-- A write after a beginning, in a later second than the last one, is in a later second. -/
theorem Began.write {w : Compiling} {b t : Datetime} (hb : Began w b) (ht : ∀ now ∈ w.now, now.le t)
    (hlatest : ∀ c ∈ w.latest, Began w c) (hcalm : ∀ c ∈ w.latest, c.stamp ≠ t.stamp) :
    b.stamp ≠ t.stamp := by
  obtain ⟨c, hc, hbc⟩ := hb.recent
  obtain ⟨now, hnow, hcnow⟩ := (hlatest c hc).past
  intro heq
  have hct : c.le t := Datetime.le_trans hcnow (ht now hnow)
  refine hcalm c hc (le_antisymm (Datetime.stamp_le hct) ?_)
  rw [← heq]
  exact Datetime.stamp_le hbc

/-- What a write does: rows stay, or land now with a stamp of now. -/
theorem Kept.write {w : Compiling} (h : Kept rt w) {t : Datetime} (ht : w.reached t = true)
    {rows : List Row} (hrows : ∀ row ∈ rows, row ∈ w.rows ∨ (row.moment = t ∧
      String.ofList t.stamp ≤ touched_at rt row.memory ∧ ∀ c ∈ w.latest, c.stamp ≠ t.stamp)) :
    Kept rt { w with now := some t, rows } := by
  have hlater := Compiling.le_of_reached ht
  have hbegan : ∀ b, Began w b → Began { w with now := some t, rows } b := by
    intro b hb
    obtain ⟨now, hnow, hbnow⟩ := hb.past
    refine ⟨hb.recent, ⟨t, rfl, Datetime.le_trans hbnow (hlater now hnow)⟩, fun row hrow hle => ?_⟩
    rcases hrows row hrow with hold | ⟨hmoment, -, hcalm⟩
    · exact hb.apart row hold hle
    · rw [hmoment]
      exact hb.write hlater h.latest hcalm
  refine ⟨fun row hrow => ⟨t, rfl, ?_⟩, fun row hrow => ?_, fun b hb => hbegan b (h.latest b hb),
    fun b hb => hbegan b (h.cursor b hb), fun b hb => hbegan b (h.reading b hb), h.state⟩
  · rcases hrows row hrow with hold | ⟨hmoment, -, -⟩
    · obtain ⟨now, hnow, hle⟩ := h.rows_past row hold
      exact Datetime.le_trans hle (hlater now hnow)
    · rw [hmoment]
      exact Datetime.le_refl t
  · rcases hrows row hrow with hold | ⟨hmoment, hstamped, -⟩
    · exact h.stamped row hold
    · rw [hmoment]
      exact hstamped

/-- The step lemma. -/
theorem Kept.step {w w' : Compiling} {e : Event} (h : Kept rt w) (hcalm : Calm rt w e)
    (hstep : w.step rt e = some w') : Kept rt w' := by
  cases e with
  | create t u id metadata =>
    change (if w.reached t ∧ u.le t then some _ else none) = some w' at hstep
    split at hstep
    · rename_i hguard
      cases hstep
      refine h.write hguard.1 fun row hrow => ?_
      rcases List.mem_append.mp hrow with hrow | hrow
      · exact .inl hrow
      · rw [List.mem_singleton.mp hrow]
        exact .inr ⟨rfl, hcalm.2, hcalm.1⟩
    · cases hstep
  | update t u id metadata =>
    change (if w.reached t ∧ u.le t then some _ else none) = some w' at hstep
    split at hstep
    · rename_i hguard
      cases hstep
      refine h.write hguard.1 fun row hrow => ?_
      obtain ⟨old, hold, rfl⟩ := List.mem_map.mp hrow
      split
      · exact .inr ⟨rfl, hcalm.2 old hold ‹_›, hcalm.1⟩
      · exact .inl hold
    · cases hstep
  | delete t id =>
    change (if w.reached t then some _ else none) = some w' at hstep
    split at hstep
    · rename_i hguard
      cases hstep
      exact h.write hguard fun row hrow => .inl (List.mem_filter.mp hrow).1
    · cases hstep
  | plan t =>
    change (if w.reached t then some _ else none) = some w' at hstep
    split at hstep
    · rename_i hguard
      cases hstep
      have hlater := Compiling.le_of_reached hguard
      have hbegan : ∀ b, Began w b →
          Began { w with now := some t, latest := some t, reading := some t, selected := none }
            b := by
        intro b hb
        obtain ⟨now, hnow, hbnow⟩ := hb.past
        have hbt := Datetime.le_trans hbnow (hlater now hnow)
        exact ⟨⟨t, rfl, hbt⟩, ⟨t, rfl, hbt⟩, hb.apart⟩
      have hnew :
          Began { w with now := some t, latest := some t, reading := some t, selected := none }
          t := by
        refine ⟨⟨t, rfl, Datetime.le_refl t⟩, ⟨t, rfl, Datetime.le_refl t⟩, fun row hrow hle => ?_⟩
        -- a row that is not before the beginning lies at it
        obtain ⟨now, hnow, hrownow⟩ := h.rows_past row hrow
        have hback := Datetime.le_trans hrownow (hlater now hnow)
        exact absurd (Datetime.le_antisymm hback hle) (hcalm row hrow)
      refine ⟨fun row hrow => ?_, h.stamped, fun b hb => ?_, fun b hb => hbegan b (h.cursor b hb),
        fun b hb => ?_, h.state⟩
      · obtain ⟨now, hnow, hrownow⟩ := h.rows_past row hrow
        exact ⟨t, rfl, Datetime.le_trans hrownow (hlater now hnow)⟩
      · cases hb
        exact hnew
      · cases hb
        exact hnew
    · cases hstep
  | read =>
    simp only [Compiling.step] at hstep
    split at hstep
    · cases hstep
      exact ⟨h.rows_past, h.stamped, fun b hb => ⟨(h.latest b hb).recent, (h.latest b hb).past,
        (h.latest b hb).apart⟩, fun b hb => ⟨(h.cursor b hb).recent, (h.cursor b hb).past,
        (h.cursor b hb).apart⟩, fun b hb => ⟨(h.reading b hb).recent, (h.reading b hb).past,
        (h.reading b hb).apart⟩, h.state⟩
    · cases hstep
  | close source_hashes =>
    simp only [Compiling.step] at hstep
    split at hstep
    · rename_i read_at selected hreading hselected
      cases hstep
      refine ⟨h.rows_past, h.stamped, fun b hb => ⟨(h.latest b hb).recent, (h.latest b hb).past,
        (h.latest b hb).apart⟩, fun b hb => ?_, fun b hb => (nomatch hb), rfl⟩
      have hb' := h.reading b (hreading.trans hb)
      exact ⟨hb'.recent, hb'.past, hb'.apart⟩
    · cases hstep

/-- The run lemma. -/
theorem CalmRun.kept {w : Compiling} (h : CalmRun rt w) : Kept rt w := by
  induction h with
  | start => exact ⟨by simp [Compiling.start], by simp [Compiling.start], by simp [Compiling.start],
      by simp [Compiling.start], by simp [Compiling.start], rfl⟩
  | step _ hcalm hstep ih => exact ih.step hcalm hstep

/-- What a run in flight selects covers what was touched since the cursor. -/
theorem Kept.covers {w : Compiling} (h : Kept rt w) {selected : List Memory}
    (hplanned : planned rt w.memories w.state.last_compile_at = .ok selected) :
    Covers w.rows w.cursor selected := by
  intro row hrow hsince
  have hmem : ∀ other ∈ w.rows, other.memory ∈ w.memories := fun other hother =>
    List.mem_map_of_mem hother
  rw [h.state] at hplanned
  cases hcursor : w.cursor with
  | none =>
    rw [hcursor] at hplanned
    cases hplanned
    exact ⟨hmem row hrow, fun other hother _ => hmem other hother⟩
  | some c =>
    rw [hcursor, Option.map_some] at hplanned
    have hne : c.isoformat_seconds ≠ "" := by
      intro heq
      have hlength := congrArg (fun s => s.toList.length) heq
      simp [Datetime.isoformat_seconds, Datetime.length_stamp] at hlength
    have hle := hsince c hcursor
    -- the cursor's second is over when the row lands, so the longer text is below
    have hlt : c.stamp < row.moment.stamp :=
      lt_of_le_of_ne (Datetime.stamp_le hle) ((h.cursor c hcursor).apart row hrow hle)
    have hlists : c.stamp ++ "+00:00".toList < row.moment.stamp ++ [] :=
      append_lt_append _ _ hlt (by rw [Datetime.length_stamp, Datetime.length_stamp])
    rw [List.append_nil] at hlists
    have hsince' : c.isoformat_seconds ≤ String.ofList row.moment.stamp := by
      rw [String.le_iff_toList_le, Datetime.isoformat_seconds]
      simpa only [String.toList_ofList] using le_of_lt hlists
    change (if c.isoformat_seconds = "" then _ else select_since rt w.memories c.isoformat_seconds)
      = .ok selected at hplanned
    rw [if_neg hne] at hplanned
    obtain ⟨hin, hsession⟩ := select_since_spec hplanned (hmem row hrow)
      (hsince'.trans (h.stamped row hrow))
    exact ⟨hin, fun other hother hsame => hsession other.memory (hmem other hother) hsame⟩

/-- What is planned is selected when every session id can be a key. -/
theorem planned_ok {memories : List Memory} (since : Option String)
    (h : ∀ m ∈ memories, (session_id m).hashable = true) :
    ∃ selected, planned rt memories since = .ok selected := by
  unfold planned
  split
  · split
    · exact ⟨memories, rfl⟩
    · exact select_since_ok _ h
  · exact ⟨memories, rfl⟩

/-! ## Coverage -/

/-- A moment after ten on one day. -/
def ten (minute second microsecond : ℕ) (hminute : minute < 60) (hsecond : second < 60)
    (hmicrosecond : microsecond < 1000000) : Datetime :=
  ⟨2026, 1, 1, 10, minute, second, microsecond, Datetime.year_2026_pos, Datetime.year_2026_lt,
    Datetime.first_pos, Datetime.january_le, Datetime.first_pos, Datetime.first_of_january_le,
    by decide, hminute, hsecond, hmicrosecond⟩

def ten_exactly : Datetime :=
  ten 0 0 0 Datetime.no_minute Datetime.no_minute Datetime.no_microsecond

def half_a_second_later : Datetime :=
  ten 0 0 500000 Datetime.no_minute Datetime.no_minute (by decide)

def a_second_later : Datetime := ten 0 1 0 Datetime.no_minute (by decide) Datetime.no_microsecond

def a_minute_later : Datetime := ten 1 0 0 (by decide) Datetime.no_minute Datetime.no_microsecond

/-- One run, one write while or after it reads, and the next run up to its reading. -/
def one_write (t : Datetime) : List Event :=
  [.plan ten_exactly, .read, .close none, .create t t "m1" [], .plan a_minute_later]

/-- **Nothing is selected too late.** After a run of calm events the next run selects everything
that was created or updated at or after the moment the last completed run began to read, and the
sessions of that. -/
theorem incremental_coverage {w : Compiling} (h : CalmRun rt w) (hreading : w.reading.isSome)
    (hkeys : ∀ m ∈ w.memories, (session_id m).hashable = true) :
    ∃ w' selected, w.step rt .read = some w' ∧ w'.selected = some selected ∧
      Covers w.rows w.cursor selected := by
  obtain ⟨read_at, hread_at⟩ := Option.isSome_iff_exists.mp hreading
  obtain ⟨selected, hplanned⟩ := @planned_ok rt _ w.state.last_compile_at hkeys
  refine ⟨{ w with selected := some selected }, selected, ?_, rfl, h.kept.covers hplanned⟩
  simp only [Compiling.step, hread_at, hplanned]

/-- A write a second after the run began is selected. -/
theorem next_second_covered : ∃ w, (one_write a_second_later).foldlM (Compiling.step Runtime.plain)
      .start = some w ∧
    ∃ w' selected, w.step Runtime.plain .read = some w' ∧ w'.selected = some selected ∧
      Covers w.rows w.cursor selected := by
  refine ⟨_, rfl, incremental_coverage ?_ rfl (by decide +kernel)⟩
  have hread : CalmRun Runtime.plain _ := .step (e := .read)
    (.step (e := .plan ten_exactly) .start (by simp [Calm, Compiling.start]) rfl) trivial rfl
  have hwritten : CalmRun Runtime.plain _ :=
    .step (e := .create a_second_later a_second_later "m1" [])
    (.step (e := .close none) hread trivial rfl)
    ⟨fun b hb => by cases hb; decide +kernel, create_stamped rfl "m1" a_second_later⟩ rfl
  refine hwritten.step (e := .plan a_minute_later) (fun row hrow => ?_) rfl
  rw [List.mem_singleton.mp hrow]
  decide +kernel

/-- A write half a second after it began is not. -/
theorem cursor_second_skipped : ∃ w, (one_write half_a_second_later).foldlM
      (Compiling.step Runtime.plain) .start = some w ∧
    ∃ w', w.step Runtime.plain .read = some w' ∧ w'.selected = some [] ∧
      ¬ Covers w.rows w.cursor [] := by
  refine ⟨_, rfl, _, rfl, rfl, fun h => ?_⟩
  have hnone := (h _ List.mem_cons_self fun c hc => by cases hc; decide +kernel).1
  cases hnone

end Memline.wiki
