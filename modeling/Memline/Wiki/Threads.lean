/-
What of the profiled threads is there after they were collected.

The threads of well-formed artifacts are all read, and each is put under its batch and its name. The
name is the model's own: two sessions of a pack may have a thread of one name, and then only the
last of the two is left.
-/
import Memline.Lib.Check
import Memline.Wiki.Suggest

set_option autoImplicit false

namespace Memline.wiki.suggest

open Py

/-! ## Well-formed artifacts -/

/-- A field of an object, where there is one. -/
def field (x : Json) (key : String) (default : Json := .null) : Json :=
  match x with
  | .obj fields => (fields.lookup key).getD default
  | _ => default

def items : Json → List Json
  | .list xs => xs
  | _ => []

def fields_of : Json → Dict
  | .obj fields => fields
  | _ => []

def sessions_of (record : Json) : List Json :=
  items (field (field record "profile" (.obj [])) "sessions" (.list []))

def threads_of (session : Json) : List Json := items (field session "threads" (.list []))

/-- The shape the prompt asks for, as far as it is read: a thread may be without a name. -/
structure WellFormed (record : Json) : Prop where
  batch_id : ∃ id, record.item "batch_id" = .ok (.str id)
  batch : ∃ fields, (field record "batch").or_else (.obj []) = .obj fields
  profile : ∃ fields, field record "profile" (.obj []) = .obj fields
  sessions : field (field record "profile" (.obj [])) "sessions" (.list []) =
      .list (sessions_of record)
  session : ∀ s ∈ sessions_of record, (∃ fields, s = .obj fields) ∧
      field s "threads" (.list []) = .list (threads_of s)
  thread : ∀ s ∈ sessions_of record, ∀ t ∈ threads_of s,
    (∃ fields, t = .obj fields) ∧
      (field t "thread_key" = .null ∨ ∃ key, field t "thread_key" = .str key)

/-- An artifact with status ok that is not a superseded copy. -/
def Artifact.finished (a : Artifact) : Bool := a.current && (field a.record "status").eq (.str "ok")

/-- Artifacts are objects, and the finished ones are well-formed. -/
def AllWellFormed (profile_dirs : List (List Artifact)) : Prop :=
  ∀ a ∈ profile_paths profile_dirs, a.current →
    (∃ fields, a.record = .obj fields) ∧ (a.finished → WellFormed a.record)

/-- A thread as it is kept: its own fields, and those of its session and batch. -/
def kept_thread (record session thread : Json) : (Json × Json) × Dict :=
  ((field record "batch_id", (field thread "thread_key").or_else (.str "")),
    Dict.set (Dict.set (Dict.set (Dict.set (fields_of thread)
      "session_id" (field session "session_id")) "span" (field session "span"))
      "batch_id" (field record "batch_id")) "batch_kind"
        (field ((field record "batch").or_else (.obj [])) "kind"))

/-- The threads of an artifact, in order. -/
def artifact_threads (record : Json) : Threads :=
  (sessions_of record).flatMap fun s => (threads_of s).map fun t => kept_thread record s t

/-- Every thread stored in a finished artifact. -/
def stored_threads (profile_dirs : List (List Artifact)) : Threads :=
  ((profile_paths profile_dirs).filter Artifact.finished).flatMap fun a => artifact_threads a.record

/-! ## What is read -/

theorem get_obj {x : Json} {fields : Dict} (h : x = .obj fields) (key : String) :
    x.get key = .ok (field x key) := by
  subst h
  rfl

/-- A field of an object is read, or its default. -/
theorem get_or_obj {x : Json} {fields : Dict} (h : x = .obj fields) (key : String)
    (default : Json) : get_or x key default = .ok (field x key default) := by
  subst h
  rfl

theorem mapping_obj {x : Json} {fields : Dict} (h : x = .obj fields) :
    mapping x = .ok (fields_of x) := by
  subst h
  rfl

/-- `x[key]` is a field of an object. -/
theorem item_ok {x v : Json} {key : String} (h : x.item key = .ok v) :
    (∃ fields, x = .obj fields) ∧ field x key = v := by
  cases x with
  | obj fields =>
    refine ⟨⟨fields, rfl⟩, ?_⟩
    rw [Json.item] at h
    cases hlookup : fields.lookup key with
    | none =>
      rw [hlookup] at h
      cases h
    | some u =>
      rw [hlookup] at h
      cases h
      rw [field, hlookup, Option.getD_some]
  | _ => cases h

variable {record : Json}

/-- A thread of a well-formed artifact is put under its key. -/
theorem load_thread_eq (h : WellFormed record) {s t : Json} (hs : s ∈ sessions_of record)
    (ht : t ∈ threads_of s) (threads : Threads) : load_thread record s threads t
      = .ok (Keyed.put slot threads (kept_thread record s t).1 (kept_thread record s t).2) := by
  obtain ⟨id, hid⟩ := h.batch_id
  obtain ⟨⟨fields, hrecord⟩, hbatch_id⟩ := item_ok hid
  obtain ⟨batch, hbatch⟩ := h.batch
  obtain ⟨sfields, hsession⟩ := (h.session s hs).1
  obtain ⟨⟨tfields, hthread⟩, hkey⟩ := h.thread s hs t ht
  have hentry : thread_entry record s t = .ok (kept_thread record s t) := by
    refine Except.bind_ok.mpr ⟨_, hid, Except.bind_ok.mpr ⟨_, get_obj hthread _, ?_⟩⟩
    refine Except.bind_ok.mpr ⟨_, mapping_obj hthread,
      Except.bind_ok.mpr ⟨_, get_obj hsession _, ?_⟩⟩
    refine Except.bind_ok.mpr ⟨_, get_obj hsession _, Except.bind_ok.mpr ⟨_, get_obj hrecord _, ?_⟩⟩
    refine Except.bind_ok.mpr ⟨_, get_obj hbatch _, ?_⟩
    rw [kept_thread, hbatch_id]
    rfl
  have hhash : hashable (kept_thread record s t).1 = true := by
    rw [kept_thread, hashable, hbatch_id]
    rcases hkey with hnull | ⟨key, hstr⟩
    · rw [hnull]
      rfl
    · rw [hstr, Json.or_else]
      split <;> rfl
  refine Except.bind_ok.mpr ⟨_, hentry, ?_⟩
  exact if_pos hhash

/-- The threads of a session are put under their names. -/
theorem load_session_eq (h : WellFormed record) {s : Json} (hs : s ∈ sessions_of record)
    (threads : Threads) :
    load_session record threads s =
      .ok (Keyed.put_all slot threads ((threads_of s).map fun t => kept_thread record s t)) := by
  obtain ⟨⟨fields, hsession⟩, hthreads⟩ := h.session s hs
  rw [load_session, get_or_obj hsession, hthreads]
  show (threads_of s).foldlM (load_thread record s) threads = _
  rw [Except.foldlM_pure (fun t ht threads => load_thread_eq h hs ht threads), Keyed.put_all,
    List.foldl_map]

/-- An artifact adds its threads when it is finished, and nothing otherwise. -/
theorem load_artifact_eq {a : Artifact}
    (h : a.current → (∃ fields, a.record = .obj fields) ∧ (a.finished → WellFormed a.record))
    (threads : Threads) :
    load_artifact threads a
      = .ok (if a.finished then Keyed.put_all slot threads (artifact_threads a.record)
        else threads) := by
  rw [load_artifact]
  -- set aside, unfinished, or read through with all its sessions
  by_cases hcurrent : a.current = true
  · obtain ⟨⟨fields, hrecord⟩, hwell⟩ := h hcurrent
    rw [if_neg (by simp [hcurrent]), get_obj hrecord]
    show (if !(field a.record "status").eq (.str "ok") then pure threads else _) = _
    by_cases hok : (field a.record "status").eq (.str "ok") = true
    · have hfinished : a.finished = true := by rw [Artifact.finished, hcurrent, hok, Bool.and_self]
      have hw := hwell hfinished
      obtain ⟨pfields, hprofile⟩ := hw.profile
      rw [if_neg (by simp [hok]), if_pos hfinished, get_or_obj hrecord]
      show (do
        let sessions ← (← get_or (field a.record "profile" (.obj [])) "sessions" (.list [])).iter
        sessions.foldlM (load_session a.record) threads) = _
      rw [get_or_obj hprofile, hw.sessions]
      show (sessions_of a.record).foldlM (load_session a.record) threads = _
      rw [Except.foldlM_pure (fun s hs threads => load_session_eq hw hs threads), Keyed.put_all,
        artifact_threads, List.foldl_flatMap]
      rfl
    · have hfinished : ¬ a.finished = true := by
        rw [Artifact.finished, Bool.and_eq_true]
        exact fun h => hok h.2
      rw [if_pos (by simp [hok]), if_neg hfinished]
      rfl
  · have hfinished : ¬ a.finished = true := by
      rw [Artifact.finished, Bool.and_eq_true]
      exact fun h => hcurrent h.1
    rw [if_pos (by simp [hcurrent]), if_neg hfinished]
    rfl

/-- Well-formed artifacts are read without an error, all their threads one after the other. -/
theorem load_threads_eq {profile_dirs : List (List Artifact)} (h : AllWellFormed profile_dirs) :
    load_threads profile_dirs = .ok (Keyed.put_all slot [] (stored_threads profile_dirs)) := by
  rw [load_threads, Except.foldlM_pure (fun a ha threads => load_artifact_eq (h a ha) threads),
    Keyed.put_all, stored_threads, List.foldl_flatMap, List.foldl_filter]
  rfl

/-- **Threads are kept apart.** There is one entry for every stored thread exactly when no two
stored threads have one batch and one name. -/
theorem load_threads_iff {profile_dirs : List (List Artifact)} (h : AllWellFormed profile_dirs) :
    ∃ threads, load_threads profile_dirs = .ok threads ∧
      ((threads.map Prod.snd).Perm ((stored_threads profile_dirs).map Prod.snd) ↔
        ((stored_threads profile_dirs).map fun e => slot e.1).Nodup) :=
  ⟨_, load_threads_eq h, Keyed.values_perm_iff⟩

/-- A session with one thread. -/
def session_with (session_id thread_key memory_id : String) : Json :=
  .obj [("session_id", .str session_id), ("span", .str "2026-07-01..2026-07-01"), ("threads", .list
    [.obj [("thread_key", .str thread_key), ("evidence_ids", .list [.str memory_id])]])]

/-- The artifact of a pack of two sessions. -/
def pack (first second : String) : Artifact where
  path := ["profiles", "b000.json"]
  record := .obj [("batch_id", .str "b000"), ("status", .str "ok"),
    ("batch", .obj [("kind", .str "pack")]),
    ("profile",
      .obj [("sessions", .list [session_with "s1" first "m1", session_with "s2" second "m2"])])]

theorem pack_well_formed (first second : String) : AllWellFormed [[pack first second]] := by
  intro a ha _
  have hpaths : profile_paths [[pack first second]] = [pack first second] := by
    have hjson : ".json".toList.isSuffixOf (pack first second).name.toList = true := by
      show ".json".toList.isSuffixOf "b000.json".toList = true
      decide
    rw [profile_paths, List.flatten_singleton, List.filter_eq_self.mpr (by simpa using hjson)]
    rfl
  rw [hpaths, List.mem_singleton] at ha
  subst ha
  refine ⟨⟨_, rfl⟩, fun _ => ⟨⟨_, rfl⟩, ⟨_, rfl⟩, ⟨_, rfl⟩, rfl, ?_, ?_⟩⟩
  · intro s hs
    rcases List.mem_pair.mp hs with rfl | rfl <;> exact ⟨⟨_, rfl⟩, rfl⟩
  · intro s hs t ht
    rcases List.mem_pair.mp hs with rfl | rfl <;>
    · rw [List.mem_singleton.mp ht]
      exact ⟨⟨_, rfl⟩, .inr ⟨_, rfl⟩⟩

/-- Names apart. -/
theorem pack_loaded : ∃ threads, load_threads [[pack "setup" "teardown"]] = .ok threads ∧
    ((threads.map Prod.snd).Perm ((stored_threads [[pack "setup" "teardown"]]).map Prod.snd) ↔
      ((stored_threads [[pack "setup" "teardown"]]).map fun e => slot e.1).Nodup) :=
  load_threads_iff (pack_well_formed "setup" "teardown")

/-- Two sessions of a pack with a thread of one name: that of the first is gone. -/
theorem pack_overwritten : AllWellFormed [[pack "setup" "setup"]] ∧
    (stored_threads [[pack "setup" "setup"]]).map (fun e => Dict.get e.2 "evidence_ids")
      = [.list [.str "m1"], .list [.str "m2"]] ∧
    (load_threads [[pack "setup" "setup"]]).map (fun threads => threads.map fun e =>
      Dict.get e.2 "evidence_ids")
      = .ok [.list [.str "m2"]] :=
  ⟨pack_well_formed "setup" "setup", by decide +kernel, by decide +kernel⟩

end Memline.wiki.suggest
