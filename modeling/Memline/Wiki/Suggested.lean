/-
What becomes of the members and the evidence of associations.

Whether anything is suggested at all depends on the shape of what is offered: a topic that is no
object, or a member that is none, ends the run with an exception. Where the shapes are right every
member is accounted for, and so is the evidence, as long as no id resolves under a spelling with
`mem:` in front of it: such an id is cited as `mem:mem:…`.
-/
import Memline.Wiki.Threads

set_option autoImplicit false

namespace Memline.wiki.suggest

open Py

/-! ## Evidence -/

section evidence

variable (rt : Runtime) (resolve_memory : String → Option String)

/-- What a ref is cited as, if it is. -/
def cited (ref : String) : Option Evidence :=
  if ledger.startsWith ref "sources/" then some ⟨ref, none⟩
  else (resolve_memory ref).map fun text => ⟨"mem:" ++ ref, some (sha256_text rt text)⟩

def unresolvable (ref : String) : Bool :=
  !ledger.startsWith ref "sources/" && (resolve_memory ref).isNone

/-- Each ref once, where it came first. -/
def keep_first (seen refs : List String) : List String :=
  refs.foldl (fun seen r => if r ∈ seen then seen else seen ++ [r]) seen

/-- Each reference is kept once, the first time that it comes. -/
theorem keep_first_spec (seen refs : List String) (h : seen.Nodup) :
    (keep_first seen refs).Nodup ∧ ∀ r, r ∈ keep_first seen refs ↔ r ∈ seen ∨ r ∈ refs := by
  induction refs generalizing seen with
  | nil => exact ⟨h, by simp [keep_first]⟩
  | cons x refs ih =>
    rw [keep_first, List.foldl_cons, ← keep_first]
    by_cases hx : x ∈ seen
    · rw [if_pos hx]
      obtain ⟨hnodup, hmem⟩ := ih seen h
      refine ⟨hnodup, fun r => ?_⟩
      rw [hmem, List.mem_cons]
      constructor
      · rintro (hr | hr)
        · exact .inl hr
        · exact .inr (.inr hr)
      · rintro (hr | rfl | hr)
        · exact .inl hr
        · exact .inl hx
        · exact .inr hr
    · rw [if_neg hx]
      have hsnoc : (seen ++ [x]).Nodup := by
        rw [List.nodup_append]
        refine ⟨h, List.nodup_singleton x, ?_⟩
        intro a ha b hb heq
        rw [List.mem_singleton] at hb
        exact hx (hb ▸ heq ▸ ha)
      obtain ⟨hnodup, hmem⟩ := ih (seen ++ [x]) hsnoc
      refine ⟨hnodup, fun r => ?_⟩
      rw [hmem, List.mem_append, List.mem_singleton, List.mem_cons, or_assoc]

/-- A text is among texts when it is one of them. -/
theorem elem_str (r : String) (seen : List String) :
    Json.elem (.str r) (seen.map .str) = decide (r ∈ seen) := by
  rw [Bool.eq_iff_iff, decide_eq_true_eq, Json.elem, List.any_map, List.any_eq_true]
  constructor
  · rintro ⟨s, hs, heq⟩
    rwa [show r = s by simpa using heq]
  · intro hr
    exact ⟨r, hr, by simp⟩

/-- The references of a topic, each once, are its texts each once. -/
theorem foldl_distinct (seen refs : List String) :
    (refs.map Json.str).foldl (fun seen r => if Json.elem r seen then seen
      else seen ++ [r]) (seen.map .str)
      = (keep_first seen refs).map .str := by
  induction refs generalizing seen with
  | nil => rfl
  | cons x refs ih =>
    rw [List.map_cons, List.foldl_cons, elem_str, keep_first, List.foldl_cons, ← keep_first]
    by_cases hx : x ∈ seen
    · rw [if_pos hx, if_pos (by simpa using hx), ih]
    · rw [if_neg hx, if_neg (by simpa using hx), ← ih, List.map_append]
      rfl

/-- Refs that are not strings do not vanish among the distinct ones. -/
theorem all_str_of_distinct (refs seen : List Json)
    (h : ∀ r ∈ refs.foldl (fun seen r => if Json.elem r seen then seen else seen ++ [r]) seen,
      r.is_str = true) :
    (∀ r ∈ seen, r.is_str = true) ∧ ∀ r ∈ refs, r.is_str = true := by
  induction refs generalizing seen with
  | nil => exact ⟨h, by simp⟩
  | cons x refs ih =>
    rw [List.foldl_cons] at h
    obtain ⟨hseen, hrefs⟩ := ih _ h
    by_cases hx : Json.elem x seen = true
    · rw [if_pos hx] at hseen
      refine ⟨hseen, List.forall_mem_cons.mpr ⟨?_, hrefs⟩⟩
      obtain ⟨y, hy, heq⟩ := List.any_eq_true.mp hx
      cases y with
      | str s =>
        rw [Json.eq_str.mp heq]
        rfl
      | _ => exact absurd (hseen _ hy) (by simp [Json.is_str])
    · rw [if_neg hx] at hseen
      refine ⟨fun r hr => hseen r (List.mem_append_left _ hr), List.forall_mem_cons.mpr ⟨?_, hrefs⟩⟩
      exact hseen x (List.mem_append_right _ (List.mem_singleton_self x))

theorem strs {refs : List Json} (h : ∀ r ∈ refs, r.is_str = true) :
    refs = (refs.map Json.text).map .str := by
  rw [List.map_map]
  refine (List.map_id refs).symm.trans (List.map_congr_left fun r hr => ?_)
  cases r with
  | str s => rfl
  | _ => exact absurd (h _ hr) (by simp [Json.is_str])

/-- One ref, once it is a string. -/
def cite_step (s : List Evidence × List String) (ref : Json) : List Evidence × List String :=
  (s.1 ++ (cited rt resolve_memory ref.text).toList,
    s.2 ++ if unresolvable resolve_memory ref.text then [ref.text] else [])

theorem cite_iff (s : List Evidence × List String) (ref : Json) (t : List Evidence × List String) :
    cite rt resolve_memory s ref = .ok t ↔
      ref.is_str = true ∧ t = cite_step rt resolve_memory s ref := by
  cases ref with
  | str r =>
    have hstep : cite rt resolve_memory s (.str r) =
        .ok (cite_step rt resolve_memory s (.str r)) := by
      show (if ledger.startsWith r "sources/" then pure (s.1 ++ [⟨r, none⟩], s.2) else _) = _
      unfold cite_step cited unresolvable
      by_cases hsource : ledger.startsWith r "sources/" = true
      · simp only [Json.text, hsource, if_true, Option.toList_some, Bool.not_true, Bool.false_and,
          Bool.false_eq_true, if_false, List.append_nil]
        rfl
      · cases hresolved : resolve_memory r with
        | none => simp [Json.text, hsource, hresolved, pure, Except.pure]
        | some text => simp [Json.text, hsource, hresolved, pure, Except.pure]
    rw [hstep, Except.ok.injEq]
    exact ⟨fun h => ⟨rfl, h.symm⟩, fun h => h.2.symm⟩
  | _ => exact ⟨nofun, fun h => absurd h.1 (by simp [Json.is_str])⟩

/-- Citing references goes through them one by one: what resolves is cited, the others are
listed. -/
theorem foldl_cite_step (refs : List String) (s : List Evidence × List String) :
    (refs.map Json.str).foldl (cite_step rt resolve_memory) s
      = (s.1 ++ refs.filterMap (cited rt resolve_memory),
        s.2 ++ refs.filter (unresolvable resolve_memory)) := by
  induction refs generalizing s with
  | nil => simp
  | cons r refs ih =>
    have htext : (Json.str r).text = r := rfl
    rw [List.map_cons, List.foldl_cons, ih, cite_step, htext, List.filterMap_cons, List.filter_cons,
      List.append_assoc, List.append_assoc]
    refine congrArg₂ Prod.mk (congrArg (s.1 ++ ·) ?_) (congrArg (s.2 ++ ·) ?_)
    · cases cited rt resolve_memory r with
      | none => rfl
      | some e => rfl
    · by_cases h : unresolvable resolve_memory r = true
      · rw [if_pos h, if_pos h]
        rfl
      · rw [if_neg h, if_neg h]
        rfl

/-- Citing succeeds exactly on strings, and cites or reports each of them once. -/
theorem evidence_iff {refs : List Json} {out : List Evidence × List String} :
    evidence rt resolve_memory refs = .ok out ↔ (∀ r ∈ refs, r.is_str = true) ∧
      out = ((keep_first [] (refs.map Json.text)).filterMap (cited rt resolve_memory),
        (keep_first [] (refs.map Json.text)).filter (unresolvable resolve_memory)) := by
  have hhash : ∀ r : Json, r.is_str = true → r.hashable = true := by
    intro r hr
    cases r with
    | str s => rfl
    | _ => cases hr
  have hall : (∀ r ∈ refs, r.is_str = true) → evidence rt resolve_memory refs
      = .ok ((keep_first [] (refs.map Json.text)).filterMap (cited rt resolve_memory),
        (keep_first [] (refs.map Json.text)).filter (unresolvable resolve_memory)) := by
    intro hstr
    -- strings have a hash, so that the references are told apart without raising
    have hdistinct : distinct refs = .ok ((keep_first [] (refs.map Json.text)).map .str) := by
      rw [distinct, if_pos (List.all_eq_true.mpr fun r hr => hhash r (hstr r hr)),
        ← foldl_distinct, ← strs hstr]
      rfl
    refine Except.bind_ok.mpr ⟨_, hdistinct,
      (Except.foldlM_iff (cite_iff rt resolve_memory)).mpr ⟨?_, ?_⟩⟩
    · intro r hr
      obtain ⟨s, -, rfl⟩ := List.mem_map.mp hr
      rfl
    · rw [foldl_cite_step, List.nil_append, List.nil_append]
  constructor
  · intro h
    obtain ⟨ds, hds, hrun⟩ := Except.bind_ok.mp h
    unfold distinct at hds
    split at hds
    · cases hds
      have hstr :=
        (all_str_of_distinct refs [] ((Except.foldlM_iff (cite_iff rt resolve_memory)).mp hrun).1).2
      rw [hall hstr, Except.ok.injEq] at h
      exact ⟨hstr, h.symm⟩
    · cases hds
  · rintro ⟨hstr, rfl⟩
    exact hall hstr

end evidence

/-! ## Members -/

/-- What a loop runs through, where it can. -/
def listed (x : Json) : List Json := x.iter.toOption.getD []

/-- The members an association lists. -/
def members_of (topic : Json) : List Json := listed (field topic "members" (.list []))

def key_of (member : Json) : Json × Json := (field member "batch_id", field member "thread_key")

def ids_of (thread : Dict) : List Json :=
  (entries (Dict.get thread "evidence_ids")).toOption.getD []

def member_thread (member : Json) (thread : Dict) : MemberThread :=
  ⟨(key_of member).1, Dict.get thread "session_id", (key_of member).2, Dict.get thread "span"⟩

def missing_of (topic member : Json) : Missing :=
  ⟨field topic "topic_key", (key_of member).1, (key_of member).2⟩

section topics

variable (rt : Runtime) (resolve_memory : String → Option String) (already : List String)
    (threads : Threads)

def thread_of (member : Json) : Option Dict := Keyed.find slot threads (key_of member)

/-- The members whose thread is found. -/
def found (topic : Json) : List MemberThread :=
  (members_of topic).filterMap fun m => (thread_of threads m).map (member_thread m)

/-- The members whose thread is missing. -/
def lost (topic : Json) : List Missing :=
  ((members_of topic).filter fun m => (thread_of threads m).isNone).map (missing_of topic)

/-- The evidence of the members found. -/
def refs_of (topic : Json) : List Json :=
  (members_of topic).flatMap fun m => ((thread_of threads m).map ids_of).getD []

/-- A member is an object that names its thread with hashable values; the thread, if there is one,
has a hashable session and only strings for evidence. -/
structure MemberShaped (member : Json) : Prop where
  object : ∃ fields, member = .obj fields
  key : hashable (key_of member) = true
  session : ∀ thread, thread_of threads member = some thread →
      (Dict.get thread "session_id").hashable = true
  ids : ∀ thread, thread_of threads member = some thread →
      ∃ ids, entries (Dict.get thread "evidence_ids") = .ok ids
  strings : ∀ thread, thread_of threads member = some thread →
      ∀ id ∈ ids_of thread, id.is_str = true

/-- The ledger holds a rejection of the topic. -/
def Suppressed (topic : Json) : Prop :=
  Json.elem (field topic "topic_key") (already.map .str) = true

instance (topic : Json) : Decidable (Suppressed already topic) :=
  inferInstanceAs (Decidable (_ = true))

/-- A topic is an object with a hashable key, and, unless it is suppressed, with members of the
right shape. -/
structure TopicShaped (topic : Json) : Prop where
  object : ∃ fields, topic = .obj fields
  key : (field topic "topic_key").hashable = true
  listed : ¬ Suppressed already topic → ∃ ms, (field topic "members" (.list [])).iter = .ok ms
  members : ¬ Suppressed already topic → ∀ m ∈ members_of topic, MemberShaped threads m

/-- One member, once it can be looked up. -/
def gather_step (topic : Json) (s : Gathered) (member : Json) : Gathered :=
  match thread_of threads member with
  | none => { s with missing := s.missing ++ [missing_of topic member] }
  | some thread =>
    { s with
      members := s.members ++ [member_thread member thread], refs := s.refs ++ ids_of thread }

def Gatherable (member : Json) : Prop :=
  (∃ fields, member = .obj fields) ∧ hashable (key_of member) = true ∧
    ∀ thread, thread_of threads member = some thread →
      ∃ ids, entries (Dict.get thread "evidence_ids") = .ok ids

theorem get_ok {x v : Json} {key : String} :
    x.get key = .ok v ↔ (∃ fields, x = .obj fields) ∧ v = field x key := by
  constructor
  · intro h
    cases x with
    | obj fields =>
      cases h
      exact ⟨⟨fields, rfl⟩, rfl⟩
    | _ => cases h
  · rintro ⟨⟨fields, hobj⟩, rfl⟩
    exact get_obj hobj key

theorem get_or_ok {x v default : Json} {key : String} :
    get_or x key default = .ok v ↔ (∃ fields, x = .obj fields) ∧ v = field x key default := by
  constructor
  · intro h
    cases x with
    | obj fields =>
      cases h
      exact ⟨⟨fields, rfl⟩, rfl⟩
    | _ => cases h
  · rintro ⟨⟨fields, hobj⟩, rfl⟩
    exact get_or_obj hobj key default

/-- A thread is looked up by a key that can be one. -/
theorem threads_get {key : Json × Json} {o : Option Dict} :
    threads.get key = .ok o ↔ hashable key = true ∧ o = Keyed.find slot threads key := by
  rw [Threads.get]
  by_cases h : hashable key = true
  · rw [if_pos h, Except.ok.injEq]
    exact ⟨fun heq => ⟨h, heq.symm⟩, fun heq => heq.2.symm⟩
  · rw [if_neg h]
    exact ⟨nofun, fun heq => absurd heq.1 h⟩

/-- A member is gathered when it can be looked up. -/
theorem gather_iff {topic : Json} (htopic : ∃ fields, topic = .obj fields) (s : Gathered)
    (member : Json) (t : Gathered) :
    gather threads topic s member = .ok t ↔
      Gatherable threads member ∧ t = gather_step threads topic s member := by
  obtain ⟨tfields, htopic⟩ := htopic
  unfold gather_step
  constructor
  · intro h
    obtain ⟨batch_id, hbatch, h⟩ := Except.bind_ok.mp h
    obtain ⟨hobj, rfl⟩ := get_ok.mp hbatch
    obtain ⟨thread_key, hkey, h⟩ := Except.bind_ok.mp h
    obtain ⟨-, rfl⟩ := get_ok.mp hkey
    obtain ⟨o, hfind, h⟩ := Except.bind_ok.mp h
    obtain ⟨hhash, rfl⟩ := (threads_get threads).mp hfind
    -- a member without a thread is noted as missing, one with a thread adds its ids
    cases hthread : thread_of threads member with
    | none =>
      rw [show Keyed.find slot threads (field member "batch_id", field member "thread_key") =
        none from hthread] at h
      obtain ⟨topic_key, htk, h⟩ := Except.bind_ok.mp h
      obtain ⟨-, rfl⟩ := get_ok.mp htk
      cases h
      exact ⟨⟨hobj, hhash, by rw [hthread]; nofun⟩, rfl⟩
    | some thread =>
      rw [show Keyed.find slot threads (field member "batch_id", field member "thread_key") =
        some thread from hthread] at h
      obtain ⟨ids, hids, h⟩ := Except.bind_ok.mp h
      cases h
      refine ⟨⟨hobj, hhash, ?_⟩, ?_⟩
      · intro thread' heq
        rw [hthread, Option.some.injEq] at heq
        exact ⟨ids, heq ▸ hids⟩
      · dsimp only
        rw [ids_of, hids]
        rfl
  · rintro ⟨⟨⟨fields, hobj⟩, hhash, hids⟩, rfl⟩
    refine Except.bind_ok.mpr ⟨_, get_obj hobj _, Except.bind_ok.mpr ⟨_, get_obj hobj _, ?_⟩⟩
    refine Except.bind_ok.mpr ⟨_, (threads_get threads).mpr ⟨hhash, rfl⟩, ?_⟩
    show (match thread_of threads member with | none => _ | some thread => _) = _
    cases hthread : thread_of threads member with
    | none => exact Except.bind_ok.mpr ⟨_, get_obj htopic _, rfl⟩
    | some thread =>
      obtain ⟨ids, hids⟩ := hids thread hthread
      refine Except.bind_ok.mpr ⟨ids, hids, ?_⟩
      dsimp only
      rw [ids_of, hids]
      rfl

/-- Gathering goes through the members one by one: those with a thread are found, the others are
listed. -/
theorem foldl_gather_step (topic : Json) (ms : List Json) (s : Gathered) :
    ms.foldl (gather_step threads topic) s =
      { members := s.members ++ ms.filterMap fun m => (thread_of threads m).map (member_thread m)
        refs := s.refs ++ ms.flatMap fun m => ((thread_of threads m).map ids_of).getD []
        missing := s.missing ++ (ms.filter fun m => (thread_of threads m).isNone).map
          (missing_of topic) } := by
  induction ms generalizing s with
  | nil => simp
  | cons m ms ih =>
    rw [List.foldl_cons, ih, gather_step]
    cases hthread : thread_of threads m with
    | none => simp [hthread]
    | some thread => simp [hthread]

/-! ## Topics -/

/-- Sessions are counted when each can be a key. -/
theorem session_count_iff {members : List MemberThread} {n : ℕ} :
    session_count members = .ok n ↔ (∀ m ∈ members, m.session_id.hashable = true) ∧
      n = (members.map fun m => m.session_id.hash_key).dedup.length := by
  rw [session_count]
  by_cases h : (members.all fun m => m.session_id.hashable) = true
  · rw [if_pos h, Except.ok.injEq]
    exact ⟨fun heq => ⟨List.all_eq_true.mp h, heq.symm⟩, fun heq => heq.2.symm⟩
  · rw [if_neg h]
    exact ⟨nofun, fun heq => absurd (List.all_eq_true.mpr heq.1) h⟩

/-- The refs of a topic, each once. -/
def own_refs (topic : Json) : List String := keep_first [] ((refs_of threads topic).map Json.text)

/-- The suggestion of a topic. -/
def suggested (run number : ℕ) (topic : Json) : Suggestion where
  id := suggestion_id run number
  run := run
  type := field topic "type"
  topic_key := field topic "topic_key"
  title := field topic "title"
  value := field topic "value"
  rationale := field topic "rationale"
  member_threads := found threads topic
  session_count := ((found threads topic).map fun m => m.session_id.hash_key).dedup.length
  evidence := (own_refs threads topic).filterMap (cited rt resolve_memory)
  evidence_gaps := (field topic "evidence_gaps").or_else (.str "none seen")
  conflicts := (field topic "conflicts").or_else (.str "none seen")
  sensitive := (field topic "sensitive").or_else (.str "none seen")
  proposed_location := field topic "proposed_location"
  affected_pages := (field topic "affected_pages").or_else (.str "none")

/-- A value is looked for among texts when it can be a key. -/
theorem in_strings_ok {x : Json} {ss : List String} {b : Bool} :
    x.in_strings ss = .ok b ↔ x.hashable = true ∧ b = Json.elem x (ss.map .str) := by
  rw [Json.in_strings, Json.in_set]
  by_cases h : x.hashable = true
  · rw [if_pos h, Except.ok.injEq]
    exact ⟨fun heq => ⟨h, heq.symm⟩, fun heq => heq.2.symm⟩
  · rw [if_neg h]
    exact ⟨nofun, fun heq => absurd heq.1 h⟩

theorem suggestion_eq {topic : Json} (htopic : ∃ fields, topic = .obj fields) (run number : ℕ) :
    suggestion run number topic (found threads topic)
      ((own_refs threads topic).filterMap (cited rt resolve_memory))
        ((found threads topic).map fun m => m.session_id.hash_key).dedup.length
      = .ok (suggested rt resolve_memory threads run number topic) := by
  obtain ⟨fields, rfl⟩ := htopic
  rfl

/-- Of a member with a thread, what is looked at when the evidence is cited. -/
theorem shaped_iff (m : Json) : MemberShaped threads m ↔
    Gatherable threads m ∧
      ∀ thread, thread_of threads m = some thread →
        (Dict.get thread "session_id").hashable = true ∧ ∀ id ∈ ids_of thread,
          id.is_str = true := by
  constructor
  · intro h
    exact ⟨⟨h.object, h.key, h.ids⟩,
      fun thread hthread => ⟨h.session thread hthread, h.strings thread hthread⟩⟩
  · rintro ⟨⟨hobj, hkey, hids⟩, hrest⟩
    exact ⟨hobj, hkey, fun t ht => (hrest t ht).1, hids, fun t ht => (hrest t ht).2⟩

/-- What is found are the threads of the members. -/
theorem mem_found {topic : Json} {mt : MemberThread} : mt ∈ found threads topic ↔
    ∃ m ∈ members_of topic, ∃ thread, thread_of threads m = some thread ∧
      member_thread m thread = mt := by
  rw [found, List.mem_filterMap]
  simp only [Option.map_eq_some_iff]

/-- The references of a topic are those of its threads. -/
theorem mem_refs_of {topic r : Json} : r ∈ refs_of threads topic ↔
    ∃ m ∈ members_of topic, ∃ thread, thread_of threads m = some thread ∧ r ∈ ids_of thread := by
  rw [refs_of, List.mem_flatMap]
  refine exists_congr fun m => and_congr_right fun _ => ?_
  cases thread_of threads m with
  | none => simp
  | some thread => simp

/-- All that is looked at in the threads found. -/
theorem threads_shaped_iff {topic : Json} :
    (∀ m ∈ members_of topic, ∀ thread, thread_of threads m = some thread →
        (Dict.get thread "session_id").hashable = true ∧ ∀ id ∈ ids_of thread, id.is_str = true) ↔
      (∀ r ∈ refs_of threads topic, r.is_str = true) ∧ ∀ mt ∈ found threads topic,
        mt.session_id.hashable = true := by
  constructor
  · intro h
    refine ⟨fun r hr => ?_, fun mt hmt => ?_⟩
    · obtain ⟨m, hm, thread, hthread, hid⟩ := (mem_refs_of threads).mp hr
      exact (h m hm thread hthread).2 r hid
    · obtain ⟨m, hm, thread, hthread, rfl⟩ := (mem_found threads).mp hmt
      exact (h m hm thread hthread).1
  · rintro ⟨hrefs, hfound⟩ m hm thread hthread
    refine ⟨hfound _ ((mem_found threads).mpr ⟨m, hm, thread, hthread, rfl⟩), fun id hid => ?_⟩
    exact hrefs id ((mem_refs_of threads).mpr ⟨m, hm, thread, hthread, hid⟩)

/-- A topic with the members of which some are found, if their threads have the right shape. -/
def concluded (run : ℕ) (s : Round) (topic : Json) : Round :=
  if (found threads topic).isEmpty then
    { s with missing_threads := s.missing_threads ++ lost threads topic }
  else
    { s with
      suggestions :=
      s.suggestions ++ [suggested rt resolve_memory threads run (s.suggestions.length + 1) topic]
      missing_threads := s.missing_threads ++ lost threads topic
      unresolved_refs := s.unresolved_refs ++
        (own_refs threads topic).filter (unresolvable resolve_memory) }

/-- A topic is concluded when its references are texts and its sessions can be keys. -/
theorem conclude_iff {run : ℕ} {s t : Round} {topic : Json} (hobj : ∃ fields, topic = .obj fields) :
    conclude rt resolve_memory run s topic ⟨found threads topic, refs_of threads topic,
      lost threads topic⟩ = .ok t ↔
      ((∀ r ∈ refs_of threads topic, r.is_str = true) ∧ ∀ mt ∈ found threads topic,
        mt.session_id.hashable = true) ∧
        t = concluded rt resolve_memory threads run s topic := by
  unfold conclude concluded
  dsimp only
  by_cases hnone : (found threads topic).isEmpty = true
  · rw [if_pos hnone, if_pos hnone]
    have hempty := List.isEmpty_iff.mp hnone
    -- where no thread was found there are no references to be strings
    have hrefs : ∀ r, r ∉ refs_of threads topic := by
      intro r hr
      obtain ⟨m, hm, thread, hthread, -⟩ := (mem_refs_of threads).mp hr
      have hmem := (mem_found threads).mpr ⟨m, hm, thread, hthread, rfl⟩
      rw [hempty] at hmem
      cases hmem
    constructor
    · intro h
      cases h
      exact ⟨⟨fun r hr => absurd hr (hrefs r), by simp [hempty]⟩, rfl⟩
    · rintro ⟨-, rfl⟩
      rfl
  · rw [if_neg hnone, if_neg hnone]
    constructor
    · intro h
      obtain ⟨⟨ev, un⟩, hev, h⟩ := Except.bind_ok.mp h
      obtain ⟨hstr, heq⟩ := (evidence_iff rt resolve_memory).mp hev
      rw [Prod.mk.injEq] at heq
      obtain ⟨rfl, rfl⟩ := heq
      obtain ⟨n, hn, h⟩ := Except.bind_ok.mp h
      obtain ⟨hsessions, rfl⟩ := session_count_iff.mp hn
      obtain ⟨new, hnew, h⟩ := Except.bind_ok.mp h
      have heq := suggestion_eq rt resolve_memory threads hobj run (s.suggestions.length + 1)
      rw [own_refs] at heq
      rw [heq, Except.ok.injEq] at hnew
      subst hnew
      cases h
      exact ⟨⟨hstr, hsessions⟩, rfl⟩
    · rintro ⟨⟨hstr, hsessions⟩, rfl⟩
      refine Except.bind_ok.mpr ⟨_, (evidence_iff rt resolve_memory).mpr ⟨hstr, rfl⟩, ?_⟩
      refine Except.bind_ok.mpr ⟨_, session_count_iff.mpr ⟨hsessions, rfl⟩, ?_⟩
      exact Except.bind_ok.mpr ⟨_, suggestion_eq rt resolve_memory threads hobj run _, rfl⟩

/-- The members of a topic are gathered exactly when each can be looked up. -/
theorem gathered_iff {topic : Json} (hobj : ∃ fields, topic = .obj fields) {g : Gathered} :
    (members_of topic).foldlM (gather threads topic) {} = .ok g ↔
      (∀ m ∈ members_of topic, Gatherable threads m) ∧
        g = ⟨found threads topic, refs_of threads topic, lost threads topic⟩ := by
  rw [Except.foldlM_iff (gather_iff threads hobj), foldl_gather_step]
  rfl

/-- The members of a topic are its list of members. -/
theorem listed_of_iter {topic : Json} {ms : List Json}
    (h : (field topic "members" (.list [])).iter = .ok ms) : members_of topic = ms := by
  rw [members_of, listed, h]
  rfl

/-- One topic of the right shape. -/
def proposed (run : ℕ) (s : Round) (topic : Json) : Round :=
  if Suppressed already topic then
    { s with suppressed := s.suppressed ++ [field topic "topic_key"] }
  else concluded rt resolve_memory threads run s topic

/-- A topic is dealt with exactly when it has the right shape. -/
theorem propose_iff (run : ℕ) (s : Round) (topic : Json) (t : Round) :
    propose rt resolve_memory already threads run s topic = .ok t ↔
      TopicShaped already threads topic ∧
        t = proposed rt resolve_memory already threads run s topic := by
  unfold proposed
  constructor
  · intro h
    obtain ⟨topic_key, htk, h⟩ := Except.bind_ok.mp h
    obtain ⟨hobj, rfl⟩ := get_ok.mp htk
    obtain ⟨b, hin, h⟩ := Except.bind_ok.mp h
    obtain ⟨hhash, rfl⟩ := in_strings_ok.mp hin
    -- a suppressed topic is dropped before anything more of it is read
    by_cases hsup : Suppressed already topic
    · rw [if_pos (show Json.elem (field topic "topic_key") (already.map .str) =
        true from hsup)] at h
      rw [if_pos hsup]
      cases h
      exact ⟨⟨hobj, hhash, fun hnot => absurd hsup hnot, fun hnot => absurd hsup hnot⟩, rfl⟩
    · rw [if_neg (show ¬ Json.elem (field topic "topic_key") (already.map .str) =
        true from hsup)] at h
      rw [if_neg hsup]
      obtain ⟨value, hvalue, h⟩ := Except.bind_ok.mp h
      obtain ⟨-, rfl⟩ := get_or_ok.mp hvalue
      obtain ⟨ms, hms, h⟩ := Except.bind_ok.mp h
      obtain ⟨g, hg, h⟩ := Except.bind_ok.mp h
      rw [← listed_of_iter hms] at hg
      obtain ⟨hall, rfl⟩ := (gathered_iff threads hobj).mp hg
      obtain ⟨hthreads, rfl⟩ := (conclude_iff rt resolve_memory threads hobj).mp h
      have hshaped := (threads_shaped_iff threads).mpr hthreads
      exact ⟨⟨hobj, hhash, fun _ => ⟨ms, hms⟩,
        fun _ m hm => (shaped_iff threads m).mpr ⟨hall m hm, hshaped m hm⟩⟩, rfl⟩
  · rintro ⟨hshaped, rfl⟩
    refine Except.bind_ok.mpr ⟨_, get_ok.mpr ⟨hshaped.object, rfl⟩, ?_⟩
    refine Except.bind_ok.mpr ⟨_, in_strings_ok.mpr ⟨hshaped.key, rfl⟩, ?_⟩
    by_cases hsup : Suppressed already topic
    · rw [if_pos (show Json.elem (field topic "topic_key") (already.map .str) = true from hsup),
        if_pos hsup]
      rfl
    · rw [if_neg (show ¬ Json.elem (field topic "topic_key") (already.map .str) = true from hsup),
        if_neg hsup]
      obtain ⟨ms, hms⟩ := hshaped.listed hsup
      have hall := fun m hm => (shaped_iff threads m).mp (hshaped.members hsup m hm)
      have hg := (gathered_iff threads hshaped.object).mpr ⟨fun m hm => (hall m hm).1, rfl⟩
      rw [listed_of_iter hms] at hg
      refine Except.bind_ok.mpr ⟨_, get_or_ok.mpr ⟨hshaped.object, rfl⟩,
        Except.bind_ok.mpr ⟨_, hms, ?_⟩⟩
      refine Except.bind_ok.mpr ⟨_, hg,
        (conclude_iff rt resolve_memory threads hshaped.object).mpr ⟨?_, rfl⟩⟩
      exact (threads_shaped_iff threads).mp fun m hm => (hall m hm).2

/-- A suggestion that was made of a topic. -/
structure Made (topic : Json) (x : Suggestion) : Prop where
  topic_key : x.topic_key = field topic "topic_key"
  members : x.member_threads = found threads topic
  evidence : x.evidence = (own_refs threads topic).filterMap (cited rt resolve_memory)

/-- What is there after some topics. -/
structure Dealt (topics : List Json) (t : Round) : Prop where
  missing : ∀ topic ∈ topics, ¬ Suppressed already topic →
    ∀ e ∈ lost threads topic, e ∈ t.missing_threads
  made : ∀ topic ∈ topics, ¬ Suppressed already topic → found threads topic ≠ [] →
    ∃ x ∈ t.suggestions, Made rt resolve_memory threads topic x
  only : ∀ x ∈ t.suggestions, ∃ topic ∈ topics, ¬ Suppressed already topic ∧
      found threads topic ≠ [] ∧
    Made rt resolve_memory threads topic x
  noted : ∀ topic ∈ topics, ¬ Suppressed already topic → found threads topic ≠ [] →
    ∀ r ∈ own_refs threads topic, unresolvable resolve_memory r = true → r ∈ t.unresolved_refs
  unresolved : ∀ r ∈ t.unresolved_refs, unresolvable resolve_memory r = true

/-- One topic more. -/
theorem Dealt.snoc {run : ℕ} {topics : List Json} {t : Round}
    (h : Dealt rt resolve_memory already threads topics t) (topic : Json) :
    Dealt rt resolve_memory already threads (topics ++ [topic])
      (proposed rt resolve_memory already threads run t topic) := by
  have hlast : ∀ {P : Json → Prop}, (∀ c ∈ topics, P c) → P topic →
      ∀ c ∈ topics ++ [topic], P c := by
    intro P hall hlast c hc
    rcases List.mem_append.mp hc with hc | hc
    · exact hall c hc
    · rw [List.mem_singleton.mp hc]
      exact hlast
  have hfirst : ∀ {x : Suggestion}, (∃ c ∈ topics, ¬ Suppressed already c ∧ found threads c ≠ [] ∧
      Made rt resolve_memory threads c x) → ∃ c ∈ topics ++ [topic], ¬ Suppressed already c ∧
        found threads c ≠ [] ∧
        Made rt resolve_memory threads c x := by
    rintro x ⟨c, hc, hrest⟩
    exact ⟨c, List.mem_append_left _ hc, hrest⟩
  unfold proposed
  -- a topic that is suppressed, one without evidence, and one for which something is
  -- suggested
  by_cases hsup : Suppressed already topic
  · rw [if_pos hsup]
    exact ⟨hlast h.missing fun hnot => absurd hsup hnot, hlast h.made fun hnot => absurd hsup hnot,
      fun x hx => hfirst (h.only x hx), hlast h.noted fun hnot => absurd hsup hnot, h.unresolved⟩
  · rw [if_neg hsup, concluded]
    by_cases hnone : (found threads topic).isEmpty = true
    · have hempty := List.isEmpty_iff.mp hnone
      rw [if_pos hnone]
      refine ⟨hlast (fun c hc hnot e he => List.mem_append_left _ (h.missing c hc hnot e he)) ?_,
        ?_, ?_, ?_, h.unresolved⟩
      · exact fun _ e he => List.mem_append_right _ he
      · exact hlast h.made fun _ hsome => absurd hempty hsome
      · exact fun x hx => hfirst (h.only x hx)
      · exact hlast h.noted fun _ hsome => absurd hempty hsome
    · have hsome : found threads topic ≠ [] := fun hempty => hnone (List.isEmpty_iff.mpr hempty)
      rw [if_neg hnone]
      refine ⟨hlast (fun c hc hnot e he => List.mem_append_left _ (h.missing c hc hnot e he)) ?_,
        ?_, ?_, ?_, ?_⟩
      · exact fun _ e he => List.mem_append_right _ he
      · refine hlast (fun c hc hnot hsome => ?_) fun _ _ =>
          ⟨_, List.mem_append_right _ (List.mem_singleton_self _), rfl, rfl, rfl⟩
        obtain ⟨x, hx, hmade⟩ := h.made c hc hnot hsome
        exact ⟨x, List.mem_append_left _ hx, hmade⟩
      · intro x hx
        rcases List.mem_append.mp hx with hx | hx
        · exact hfirst (h.only x hx)
        · rw [List.mem_singleton.mp hx]
          exact ⟨topic, List.mem_append_right _ (List.mem_singleton_self _), hsup, hsome,
            rfl, rfl, rfl⟩
      · refine hlast (fun c hc hnot hsome r hr hun =>
          List.mem_append_left _ (h.noted c hc hnot hsome r hr hun)) ?_
        exact fun _ _ r hr hun => List.mem_append_right _ (List.mem_filter.mpr ⟨hr, hun⟩)
      · intro r hr
        rcases List.mem_append.mp hr with hr | hr
        · exact h.unresolved r hr
        · exact (List.mem_filter.mp hr).2

/-- All topics. -/
theorem dealt (run : ℕ) (topics : List Json) : Dealt rt resolve_memory already threads topics
    (topics.foldl (proposed rt resolve_memory already threads run) {}) := by
  induction topics using List.reverseRecOn with
  | nil => exact ⟨by simp, by simp, by simp, by simp, by simp⟩
  | append_singleton topics topic ih =>
    rw [List.foldl_append]
    exact ih.snoc rt resolve_memory already threads topic

end topics

/-! ## What is conserved -/

/-- The id of the memory, without `mem:`. -/
def bare (ref : String) : String :=
  if ledger.startsWith ref "mem:" then String.ofList (ref.toList.drop 4) else ref

section conserved

variable (rt : Runtime) (resolve_memory : String → Option String) (threads : Threads)

/-- The evidence has the ref once, with the hash of the memory's text; a source has none. -/
def Held (x : Suggestion) (ref : String) : Prop :=
  if ledger.startsWith ref "sources/" then x.evidence.filter (fun e => e.ref = ref) = [⟨ref, none⟩]
  else ∃ text, resolve_memory (bare ref) = some text ∧
    x.evidence.filter (fun e => e.ref = "mem:" ++ bare ref) =
      [⟨"mem:" ++ bare ref, some (sha256_text rt text)⟩]

/-- Every member of a topic that is not suppressed is in a suggestion or reported missing, and all
evidence of the members of a suggestion is held or reported. -/
structure Conserved (already : List String) (associations : List Json)
    (out : List Suggestion × Report) : Prop where
  members : ∀ topic ∈ associations, ¬ Suppressed already topic → ∀ m ∈ members_of topic,
    (∃ x ∈ out.1, x.topic_key = field topic "topic_key" ∧
      ∃ mt ∈ x.member_threads, (mt.batch_id, mt.thread_key) = key_of m) ∨
    missing_of topic m ∈ out.2.missing_threads
  evidence : ∀ x ∈ out.1, ∀ mt ∈ x.member_threads, ∀ thread,
    Keyed.find slot threads (mt.batch_id, mt.thread_key) = some thread →
      ∀ ref, Json.str ref ∈ ids_of thread →
      Held rt resolve_memory x ref ∨ ref ∈ out.2.unresolved_evidence

/-- An id that resolves under its spelling with `mem:` is among the topic's evidence without it too,
and resolves there. -/
def PrefixFree (topic : Json) : Prop :=
  ∀ id, Json.str ("mem:" ++ id) ∈ refs_of threads topic → resolve_memory ("mem:" ++ id) ≠ none →
    Json.str id ∈ refs_of threads topic ∧ ledger.startsWith id "sources/" = false ∧
      resolve_memory id ≠ none

/-- No reference to a memory is one to a source. -/
theorem mem_source (id : String) : ledger.startsWith ("mem:" ++ id) "sources/" = false := by
  rw [ledger.startsWith, String.toList_append]
  rfl

/-- A reference to a memory without its prefix is the id. -/
theorem bare_mem (id : String) : bare ("mem:" ++ id) = id := by
  have hstart : ledger.startsWith ("mem:" ++ id) "mem:" = true := by
    rw [ledger.startsWith, String.toList_append]
    rfl
  rw [bare, if_pos hstart, String.toList_append]
  exact String.ofList_toList

/-- What starts with the prefix is a reference to a memory. -/
theorem eq_mem_of_startsWith {ref : String} (h : ledger.startsWith ref "mem:" = true) :
    ∃ id, ref = "mem:" ++ id := by
  obtain ⟨rest, hrest⟩ := List.isPrefixOf_iff_prefix.mp h
  refine ⟨String.ofList rest, String.toList_inj.mp ?_⟩
  rw [← hrest, String.toList_append]
  exact congrArg _ String.toList_ofList.symm

/-- A citation says what it cites. -/
theorem cited_inj {r r' : String} {e e' : Evidence} (h : cited rt resolve_memory r = some e)
    (h' : cited rt resolve_memory r' = some e') (heq : e.ref = e'.ref) : r = r' := by
  unfold cited at h h'
  by_cases hr : ledger.startsWith r "sources/" = true
  · rw [if_pos hr] at h
    cases h
    by_cases hr' : ledger.startsWith r' "sources/" = true
    · rw [if_pos hr'] at h'
      cases h'
      exact heq
    · rw [if_neg hr'] at h'
      obtain ⟨text, -, rfl⟩ := Option.map_eq_some_iff.mp h'
      dsimp only at heq
      rw [heq, mem_source] at hr
      cases hr
  · rw [if_neg hr] at h
    obtain ⟨text, -, rfl⟩ := Option.map_eq_some_iff.mp h
    by_cases hr' : ledger.startsWith r' "sources/" = true
    · rw [if_pos hr'] at h'
      cases h'
      dsimp only at heq
      rw [← heq, mem_source] at hr'
      cases hr'
    · rw [if_neg hr'] at h'
      obtain ⟨text', -, rfl⟩ := Option.map_eq_some_iff.mp h'
      exact (String.append_right_inj "mem:").mp heq

/-- Each ref is cited once. -/
theorem filter_cited {refs : List String} (hnodup : refs.Nodup) {r : String} (hr : r ∈ refs)
    {e : Evidence} (he : cited rt resolve_memory r = some e) :
    (refs.filterMap (cited rt resolve_memory)).filter (fun f => f.ref = e.ref) = [e] := by
  obtain ⟨before, after, rfl⟩ := List.append_of_mem hr
  have hapart := hnodup
  rw [List.nodup_append, List.nodup_cons] at hapart
  have hnone : ∀ l : List String, r ∉ l →
      (l.filterMap (cited rt resolve_memory)).filter (fun f => f.ref = e.ref) = [] := by
    intro l hl
    rw [List.filter_eq_nil_iff]
    intro f hf hsame
    obtain ⟨r', hr', hf⟩ := List.mem_filterMap.mp hf
    exact hl (cited_inj rt resolve_memory hf he (by simpa using hsame) ▸ hr')
  have hbefore : r ∉ before := fun hin => hapart.2.2 _ hin _ List.mem_cons_self rfl
  rw [List.filterMap_append, List.filter_append, hnone before hbefore, List.filterMap_cons, he,
    List.nil_append, List.filter_cons_of_pos (by simp), hnone after hapart.2.1.1]

/-- A ref is held or cannot be resolved, unless it resolves under `mem:` alone. -/
theorem held_iff {topic : Json} {x : Suggestion} (hx : Made rt resolve_memory threads topic x)
    {r : String} (hr : r ∈ own_refs threads topic) : Held rt resolve_memory x r ∨
      unresolvable resolve_memory r = true ↔
      ∀ id, r = "mem:" ++ id → resolve_memory r ≠ none →
        id ∈ own_refs threads topic ∧ ledger.startsWith id "sources/" = false ∧
          resolve_memory id ≠ none := by
  have hnodup := (keep_first_spec [] ((refs_of threads topic).map Json.text) List.nodup_nil).1
  -- a memory among the refs is held under its own id
  have hheld : ∀ id text, id ∈ own_refs threads topic → ledger.startsWith id "sources/" = false →
      resolve_memory id = some text →
        x.evidence.filter (fun e => e.ref = "mem:" ++ id) =
          [⟨"mem:" ++ id, some (sha256_text rt text)⟩] := by
    intro id text hid hsource htext
    have hcited : cited rt resolve_memory id = some ⟨"mem:" ++ id, some (sha256_text rt text)⟩ := by
      rw [cited, if_neg (by simp [hsource]), htext]
      rfl
    rw [hx.evidence]
    exact filter_cited rt resolve_memory hnodup hid hcited
  unfold Held
  by_cases hsource : ledger.startsWith r "sources/" = true
  · rw [if_pos hsource]
    constructor
    · rintro - id rfl
      rw [mem_source] at hsource
      cases hsource
    · intro _
      left
      rw [hx.evidence]
      exact filter_cited rt resolve_memory hnodup hr (by rw [cited, if_pos hsource])
  · have hsource' : ledger.startsWith r "sources/" = false := by simpa using hsource
    rw [if_neg hsource]
    have hun : unresolvable resolve_memory r = true ↔ resolve_memory r = none := by
      rw [unresolvable, hsource']
      simp
    rw [hun]
    by_cases hmem : ledger.startsWith r "mem:" = true
    · obtain ⟨id, rfl⟩ := eq_mem_of_startsWith hmem
      rw [bare_mem]
      constructor
      · intro h id' hid' hres
        rw [← (String.append_right_inj "mem:").mp hid']
        rcases h with ⟨text, htext, hfilter⟩ | hnone
        · -- what stands in the evidence under this ref cites the id without `mem:`
          have hin : (⟨"mem:" ++ id, some (sha256_text rt text)⟩ : Evidence) ∈
              x.evidence.filter fun e => e.ref = "mem:" ++ id := by
            rw [hfilter]
            exact List.mem_singleton_self _
          have hev := (List.mem_filter.mp hin).1
          rw [hx.evidence] at hev
          obtain ⟨z, hz, hcited⟩ := List.mem_filterMap.mp hev
          unfold cited at hcited
          by_cases hzsource : ledger.startsWith z "sources/" = true
          · rw [if_pos hzsource] at hcited
            cases hcited
          · rw [if_neg hzsource] at hcited
            obtain ⟨text', htext', heq⟩ := Option.map_eq_some_iff.mp hcited
            have hzid : z = id := (String.append_right_inj "mem:").mp (congrArg Evidence.ref heq)
            subst hzid
            exact ⟨hz, by simpa using hzsource, by rw [htext]; nofun⟩
        · exact absurd hnone hres
      · intro h
        by_cases hres : resolve_memory ("mem:" ++ id) = none
        · exact .inr hres
        · obtain ⟨hid, hidsource, hidres⟩ := h id rfl hres
          obtain ⟨text, htext⟩ := Option.ne_none_iff_exists'.mp hidres
          exact .inl ⟨text, htext, hheld id text hid hidsource htext⟩
    · have hbare : bare r = r := by rw [bare, if_neg hmem]
      rw [hbare]
      constructor
      · rintro - id rfl
        rw [ledger.startsWith, String.toList_append] at hmem
        exact absurd rfl hmem
      · intro _
        cases hres : resolve_memory r with
        | none => exact .inr rfl
        | some text => exact .inl ⟨text, rfl, hheld r text hr hsource' hres⟩

/-- The topic's own references are those of its threads, each once. -/
theorem mem_own_refs {topic : Json} (h : ∀ r ∈ refs_of threads topic, r.is_str = true)
    {r : String} : r ∈ own_refs threads topic ↔ Json.str r ∈ refs_of threads topic := by
  rw [own_refs, (keep_first_spec [] _ List.nodup_nil).2, List.mem_map]
  constructor
  · rintro (hnil | ⟨j, hj, rfl⟩)
    · cases hnil
    · cases j with
      | str s => exact hj
      | _ => exact absurd (h _ hj) (by simp [Json.is_str])
  · intro hr
    exact .inr ⟨_, hr, rfl⟩

/-- **Conservation.** Building suggestions returns, and conserves members and evidence, exactly when
every topic has the right shape and no evidence of a topic that is not suppressed resolves under
`mem:` alone. -/
theorem conserve_iff {associations : List Json} {run : ℕ} {decisions : Option String} :
    (∃ out, build_suggestions rt resolve_memory associations threads run decisions = .ok out ∧
        Conserved rt resolve_memory threads (suppressed_topics decisions) associations out) ↔
      (∀ topic ∈ associations, TopicShaped (suppressed_topics decisions) threads topic) ∧
        ∀ topic ∈ associations, ¬ Suppressed (suppressed_topics decisions) topic →
          PrefixFree resolve_memory threads topic := by
  generalize halready : suppressed_topics decisions = already
  have hdealt := dealt rt resolve_memory already threads run associations
  -- the run returns on topics of the right shape only, and what it returns is the fold
  have hrun : ∀ out, build_suggestions rt resolve_memory associations threads run decisions =
      .ok out ↔
      (∀ topic ∈ associations, TopicShaped already threads topic) ∧
        out = ((associations.foldl (proposed rt resolve_memory already threads run) {}).suggestions,
          report rt (associations.foldl (proposed rt resolve_memory already threads run) {})) := by
    intro out
    rw [build_suggestions, halready]
    constructor
    · intro h
      obtain ⟨s, hs, h⟩ := Except.bind_ok.mp h
      obtain ⟨hall, rfl⟩ :=
        (Except.foldlM_iff (propose_iff rt resolve_memory already threads run)).mp hs
      cases h
      exact ⟨hall, rfl⟩
    · rintro ⟨hall, rfl⟩
      exact Except.bind_ok.mpr ⟨_,
        (Except.foldlM_iff (propose_iff rt resolve_memory already threads run)).mpr ⟨hall, rfl⟩,
        rfl⟩
  generalize associations.foldl (proposed rt resolve_memory already threads run) {} =
    t at hdealt hrun
  -- what could not be resolved is reported once each, in order
  have hreported : ∀ r, r ∈ (report rt t).unresolved_evidence ↔ r ∈ t.unresolved_refs := by
    intro r
    rw [report, List.mem_insertionSort, List.mem_dedup]
  have hstrings : ∀ topic, TopicShaped already threads topic → ¬ Suppressed already topic →
      ∀ r ∈ refs_of threads topic, r.is_str = true := by
    intro topic hshaped hsup r hr
    obtain ⟨m, hm, thread, hthread, hid⟩ := (mem_refs_of threads).mp hr
    exact (hshaped.members hsup m hm).strings thread hthread r hid
  constructor
  · rintro ⟨out, hout, hconserved⟩
    obtain ⟨hall, rfl⟩ := (hrun out).mp hout
    refine ⟨hall, fun topic htopic hsup id hid hres => ?_⟩
    have hstr := hstrings topic (hall topic htopic) hsup
    obtain ⟨m, hm, thread, hthread, hmem⟩ := (mem_refs_of threads).mp hid
    have hfound := (mem_found threads).mpr ⟨m, hm, thread, hthread, rfl⟩
    obtain ⟨x, hx, hmade⟩ := hdealt.made topic htopic hsup (List.ne_nil_of_mem hfound)
    have hkept := hconserved.evidence x hx (member_thread m thread) (by rwa [hmade.members]) thread
      hthread _ hmem
    have hor : Held rt resolve_memory x ("mem:" ++ id) ∨
        unresolvable resolve_memory ("mem:" ++ id) = true :=
      hkept.imp_right fun h => hdealt.unresolved _ ((hreported _).mp h)
    have hown := (mem_own_refs threads hstr).mpr hid
    obtain ⟨hid', hrest⟩ := (held_iff rt resolve_memory threads hmade hown).mp hor id rfl hres
    exact ⟨(mem_own_refs threads hstr).mp hid', hrest⟩
  · rintro ⟨hall, hfree⟩
    refine ⟨_, (hrun _).mpr ⟨hall, rfl⟩, ?_, ?_⟩
    -- every member is in a suggestion of its topic, or reported as missing
    · intro topic htopic hsup m hm
      cases hthread : thread_of threads m with
      | none =>
        refine .inr (hdealt.missing topic htopic hsup _ (List.mem_map.mpr ⟨m,
          List.mem_filter.mpr ⟨hm, ?_⟩, rfl⟩))
        rw [hthread]
        rfl
      | some thread =>
        have hfound := (mem_found threads).mpr ⟨m, hm, thread, hthread, rfl⟩
        obtain ⟨x, hx, hmade⟩ := hdealt.made topic htopic hsup (List.ne_nil_of_mem hfound)
        exact .inl ⟨x, hx, hmade.topic_key, member_thread m thread, by rwa [hmade.members], rfl⟩
    · intro x hx mt hmt thread hthread r hr
      obtain ⟨topic, htopic, hsup, hsome, hmade⟩ := hdealt.only x hx
      have hstr := hstrings topic (hall topic htopic) hsup
      rw [hmade.members] at hmt
      obtain ⟨m, hm, thread', hthread', rfl⟩ := (mem_found threads).mp hmt
      have hsame : thread' = thread := Option.some.inj (hthread'.symm.trans hthread)
      subst hsame
      have hown :=
        (mem_own_refs threads hstr).mpr ((mem_refs_of threads).mpr ⟨m, hm, thread', hthread', hr⟩)
      have hor := (held_iff rt resolve_memory threads hmade hown).mpr ?_
      · exact hor.imp_right fun h =>
          (hreported r).mpr (hdealt.noted topic htopic hsup hsome r hown h)
      · rintro id rfl hres
        obtain ⟨hid, hrest⟩ := hfree topic htopic hsup id ((mem_own_refs threads hstr).mp hown) hres
        exact ⟨(mem_own_refs threads hstr).mpr hid, hrest⟩

end conserved

/-- A thread whose evidence is named with `mem:`, and a topic with that thread. -/
def prefixed_thread : Threads :=
  [((.str "b000", .str "setup"), [("evidence_ids", .list [.str "mem:m1"])])]

def one_topic : Json :=
  .obj [("topic_key", .str "k"),
    ("members", .list [.obj [("batch_id", .str "b000"), ("thread_key", .str "setup")]])]

/-- A topic that is no object raises; an id that resolves with `mem:` in front of it is cited as
another. -/
theorem null_topic_raises_and_prefix_doubles :
    build_suggestions .plain (fun _ => none) [.null] [] 1 none = .error .attribute_error ∧
    (build_suggestions .plain (fun ref => if ref = "mem:m1" ∨
      ref = "m1" then some "text" else none) [one_topic]
        prefixed_thread 1 none).map (fun out => (out.1.map fun x => x.evidence.map Evidence.ref,
          out.2.unresolved_evidence))
      = .ok ([["mem:mem:m1"]], []) :=
  ⟨rfl, by decide +kernel⟩

end Memline.wiki.suggest
