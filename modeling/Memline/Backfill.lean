/-
The backfill of the metadata that older memories lack.

Each stored payload is given the fields it ought to have: who wrote it, in which session and where
it comes from. Every value read from the payload is trimmed, the configured ids of a ledger import
are not. Once a patch has been merged the payload asks for no other one, unless it took in a
configured id with blanks around it, or holds a number that is not equal to itself.
-/
import Memline.Lib.Datetime
import Memline.Lib.Json
import Memline.Lib.Lists
import Memline.Text

set_option autoImplicit false

namespace Memline.backfill

open Py

/-- `config`. -/
structure Settings where
  LEDGER_IMPORT_AGENT_ID : String := "opencode"
  LEDGER_IMPORT_SESSION_ID : String := "ses_b8d2ac181351976b11df6be5bb"
  MEMORY_SCHEMA_VERSION : ℤ := 2

/-- A point of the collection. -/
structure Point where
  id : String
  payload : Dict

section

variable (p : Printer) (cfg : Settings)

/-- `str(payload.get(key) or "").strip()`. -/
def trimmed (payload : Dict) (key : String) : String :=
  Mem0.strip (((payload.get key).or_else (.str "")).toStr p)

/-- `s or t`. -/
def or_text (s t : String) : String := if s = "" then t else s

def classify_origin (payload : Dict) : String :=
  if Json.eq (payload.get "source") (.str "agent-memory-ledger") ||
    (payload.get "ledger_file").truthy then
    "ledger_import"
  else if (payload.get "run_id").truthy || (payload.get "session_id").truthy then "live_agent"
  else "legacy_live_agent"

def default_agent_id (payload : Dict) (origin : String) : String :=
  if origin = "ledger_import" then cfg.LEDGER_IMPORT_AGENT_ID
  else or_text (trimmed p payload "agent_id")
    (or_text (trimmed p payload "source") "legacy-unknown")

/-- `str(payload.get("session_id") or payload.get("run_id") or "").strip()`. -/
def existing_session (payload : Dict) : String :=
  Mem0.strip ((((payload.get "session_id").or_else (payload.get "run_id")).or_else (.str "")).toStr
    p)

def default_session_id (payload : Dict) (origin agent_id : String) : String :=
  if existing_session p payload ≠ "" then existing_session p payload
  else if origin = "ledger_import" then cfg.LEDGER_IMPORT_SESSION_ID
  else "legacy-" ++ agent_id

def origin_of (payload : Dict) : String :=
  or_text (trimmed p payload "origin") (classify_origin payload)

def agent_of (payload : Dict) : String := default_agent_id p cfg payload (origin_of p payload)

def session_of (payload : Dict) : String :=
  default_session_id p cfg payload (origin_of p payload) (agent_of p cfg payload)

/-- What `desired_patch` wants each field to be. -/
def desired (payload : Dict) (backfilled_at : String) : Dict :=
  [("agent_id", .str (agent_of p cfg payload)),
    ("run_id", .str (or_text (trimmed p payload "run_id") (session_of p cfg payload))),
    ("session_id", .str (session_of p cfg payload)),
    ("writer_agent_id",
      .str (or_text (trimmed p payload "writer_agent_id") (agent_of p cfg payload))),
    ("origin", .str (origin_of p payload)),
    ("memory_schema_version",
      (payload.get "memory_schema_version").or_else (.int cfg.MEMORY_SCHEMA_VERSION)),
    ("metadata_backfilled_at", (payload.get "metadata_backfilled_at").or_else (.str backfilled_at))]

/-- `x != y`, where `y` may be `x` itself: a container is then equal to itself whatever it holds,
and only `nan` is not. -/
def differs (x y : Json) : Bool := if x = y then decide (x = .float .nan) else !Json.eq x y

def desired_patch (payload : Dict) (backfilled_at : String) : Dict :=
  (desired p cfg payload backfilled_at).filter fun e => differs (payload.get e.1) e.2

/-- `{**payload, **patch}`. -/
def after (payload : Dict) (backfilled_at : String) : Dict :=
  payload.update (desired_patch p cfg payload backfilled_at)

/-- `client.set_payload(payload=patch, points=[id])`. -/
def set_payload (id : String) (patch : Dict) (points : List Point) : List Point :=
  points.map fun pt => if pt.id = id then { pt with payload := pt.payload.update patch } else pt

/-- The loop of `main` over the points that were read: the patches it sends, and what is stored
then. -/
def patch_loop (backfilled_at : String) : List Point → List Point →
    List (String × Dict) × List Point
  | [], stored => ([], stored)
  | pt :: rest, stored =>
    let patch := desired_patch p cfg pt.payload backfilled_at
    if patch = [] then patch_loop backfilled_at rest stored
    else
      let (sent, stored) := patch_loop backfilled_at rest (set_payload pt.id patch stored)
      ((pt.id, patch) :: sent, stored)

end

/-- The keys a patch may hold. -/
def patched_keys : List String :=
  ["agent_id", "run_id", "session_id", "writer_agent_id", "origin", "memory_schema_version",
    "metadata_backfilled_at"]

variable {p : Printer} {cfg : Settings}

/-! ## Trimming -/

theorem or_text_eq_empty {s t : String} : or_text s t = "" ↔ s = "" ∧ t = "" := by
  rw [or_text]
  by_cases hs : s = ""
  · rw [if_pos hs]
    simp [hs]
  · rw [if_neg hs]
    simp [hs]

theorem or_text_of_ne {s : String} (h : s ≠ "") (t : String) : or_text s t = s := if_neg h

theorem or_text_empty (t : String) : or_text "" t = t := if_pos rfl

theorem strip_empty : Mem0.strip "" = "" := Mem0.strip_eq_empty_iff.mpr nofun

/-- The trimmed text of a field that holds a string. -/
theorem trimmed_str {payload : Dict} {key s : String} (h : payload.get key = .str s) :
    trimmed p payload key = Mem0.strip s := by
  rw [trimmed, h, Json.or_else, Json.truthy]
  by_cases hs : s = ""
  · subst hs
    rfl
  · simp [hs, Json.toStr]

theorem strip_trimmed (payload : Dict) (key : String) :
    Mem0.strip (trimmed p payload key) = trimmed p payload key :=
  Mem0.strip_strip _

/-- The generated session id is trimmed already, where the agent id is. -/
theorem strip_legacy {agent_id : String} (hne : agent_id ≠ "")
    (h : Mem0.strip agent_id = agent_id) :
    Mem0.strip ("legacy-" ++ agent_id) = "legacy-" ++ agent_id := by
  obtain ⟨-, -, -, -, -, hstripped⟩ := Mem0.strip_spec agent_id
  rw [h] at hstripped
  have hne' : agent_id.toList ≠ [] := fun hnil => hne (String.toList_inj.mp (by rw [hnil]; rfl))
  have hwhole : Mem0.Stripped ("legacy-".toList ++ agent_id.toList) := by
    refine ⟨?_, ?_⟩
    · intro c hc
      cases Option.mem_some_iff.mp hc
      decide
    · intro c hc
      rw [List.getLast?_append_of_ne_nil _ hne'] at hc
      exact hstripped.2 c hc
  have hnil : Mem0.Blank [] := nofun
  have hstrip := Mem0.strip_of_stripped hwhole hnil hnil
  rw [List.nil_append, List.append_nil, ← String.toList_append, String.ofList_toList] at hstrip
  exact hstrip

/-! ## One patch -/

/-- Only the text itself does not differ from a text. -/
theorem differs_str {x : Json} {s : String} : differs x (.str s) = true ↔ x ≠ .str s := by
  rw [differs]
  by_cases hx : x = .str s
  · rw [if_pos hx, hx]
    simp
  · have hne : Json.eq x (.str s) = false := by
      rw [← Bool.not_eq_true, Json.eq_str]
      exact hx
    rw [if_neg hx, hne]
    simp [hx]

/-- What is desired are the seven keys of a patch, in their order. -/
theorem keys_desired (payload : Dict) (t : String) :
    (desired p cfg payload t).map Prod.fst = patched_keys := rfl

theorem nodup_patched_keys : patched_keys.Nodup := by decide

theorem keys_patch_sublist (payload : Dict) (t : String) :
    ((desired_patch p cfg payload t).map Prod.fst).Sublist patched_keys := by
  rw [← keys_desired (p := p) payload t]
  exact List.filter_sublist.map Prod.fst

/-- A field after the patch is what it was wanted to be, or it was that already. -/
theorem get_patched {payload : Dict} {t key : String} {v : Json}
    (h : (key, v) ∈ desired p cfg payload t) :
    (after p cfg payload t).get key
      = if differs (payload.get key) v then v else payload.get key := by
  have hnodup : ((desired_patch p cfg payload t).map Prod.fst).Nodup :=
    (keys_patch_sublist payload t).nodup nodup_patched_keys
  have hdesired : ((desired p cfg payload t).map Prod.fst).Nodup := nodup_patched_keys
  rw [after, Dict.get_update hnodup]
  by_cases hdiffers : differs (payload.get key) v = true
  · have hmem : (key, v) ∈ desired_patch p cfg payload t := List.mem_filter.mpr ⟨h, hdiffers⟩
    rw [if_pos hdiffers, Lists.lookup_of_mem hnodup hmem]
    rfl
  · have hnone : List.lookup key (desired_patch p cfg payload t) = none := by
      rw [List.lookup_eq_none_iff]
      intro e he
      obtain ⟨hin, hd⟩ := List.mem_filter.mp he
      have hne : e.1 ≠ key := by
        intro heq
        have hlookup := Lists.lookup_of_mem hdesired hin
        rw [heq, Lists.lookup_of_mem hdesired h, Option.some.injEq] at hlookup
        dsimp only at hlookup
        rw [← hlookup, heq] at hd
        exact hdiffers hd
      simpa using Ne.symm hne
    rw [if_neg hdiffers, hnone]
    rfl

/-- A text that is wanted is there after the patch. -/
theorem get_patched_str {payload : Dict} {t key s : String}
    (h : (key, .str s) ∈ desired p cfg payload t) : (after p cfg payload t).get key = .str s := by
  rw [get_patched h]
  by_cases hd : differs (payload.get key) (.str s) = true
  · rw [if_pos hd]
  · rw [if_neg hd]
    by_contra hne
    exact hd (differs_str.mpr hne)

/-! ## The next patch -/

section next

variable {payload : Dict} {t : String}

/-- An id that is read back as it was written. -/
def Kept (s : String) : Prop := Mem0.strip s = s ∨ Mem0.strip s = ""

/-- The payload has, or is given, ids that are read back as they were written, and no number that
is not equal to itself. -/
structure Settled (p : Printer) (cfg : Settings) (payload : Dict) : Prop where
  version : payload.get "memory_schema_version" ≠ .float .nan
  stamp : payload.get "metadata_backfilled_at" ≠ .float .nan
  writer : origin_of p payload = "ledger_import" → trimmed p payload "writer_agent_id" = "" →
    Kept cfg.LEDGER_IMPORT_AGENT_ID
  session : origin_of p payload = "ledger_import" → existing_session p payload = "" →
    Kept cfg.LEDGER_IMPORT_SESSION_ID ∧
      (cfg.LEDGER_IMPORT_SESSION_ID = "" → trimmed p payload "run_id" = "")

/-- A session id is put back as it was when stripping leaves it, or leaves nothing. -/
theorem or_text_strip {s : String} : or_text (Mem0.strip s) s = s ↔ Kept s := by
  rw [Kept, or_text]
  by_cases h : Mem0.strip s = ""
  · rw [if_pos h]
    simp [h]
  · rw [if_neg h]
    simp [h]

/-- A field that is read back, or takes its value from elsewhere. -/
theorem or_text_read_back {w v : String} (hw : Mem0.strip w = w) :
    or_text (Mem0.strip (or_text w v)) v = or_text w v ↔ w ≠ "" ∨ Kept v := by
  by_cases h : w = ""
  · subst h
    rw [or_text_empty, or_text_strip]
    simp
  · rw [or_text_of_ne h, hw, or_text_of_ne h]
    simp [h]

/-- An origin is named, without blanks about it. -/
theorem classify_origin_spec (payload : Dict) :
    classify_origin payload ≠ "" ∧
      Mem0.strip (classify_origin payload) = classify_origin payload := by
  rw [classify_origin]
  split
  · decide +kernel
  · split
    · decide +kernel
    · decide +kernel

/-- An origin that is kept or worked out is named, without blanks about it. -/
theorem origin_of_spec (payload : Dict) :
    origin_of p payload ≠ "" ∧ Mem0.strip (origin_of p payload) = origin_of p payload := by
  have hclassify := classify_origin_spec payload
  rw [origin_of]
  by_cases h : trimmed p payload "origin" = ""
  · rw [h, or_text_empty]
    exact hclassify
  · rw [or_text_of_ne h]
    exact ⟨h, strip_trimmed payload "origin"⟩

/-- The origin is classified once. -/
theorem origin_after : origin_of p (after p cfg payload t) = origin_of p payload := by
  obtain ⟨hne, hstrip⟩ := origin_of_spec (p := p) payload
  have hget : (after p cfg payload t).get "origin" = .str (origin_of p payload) :=
    get_patched_str (by simp [desired])
  rw [origin_of, trimmed_str hget, hstrip, or_text_of_ne hne]

/-- Apart from imports, an agent is named, without blanks about it. -/
theorem agent_of_spec (h : origin_of p payload ≠ "ledger_import") :
    agent_of p cfg payload ≠ "" ∧ Mem0.strip (agent_of p cfg payload) = agent_of p cfg payload := by
  rw [agent_of, default_agent_id, if_neg h]
  by_cases hagent : trimmed p payload "agent_id" = ""
  · rw [hagent, or_text_empty]
    by_cases hsource : trimmed p payload "source" = ""
    · rw [hsource, or_text_empty]
      decide +kernel
    · rw [or_text_of_ne hsource]
      exact ⟨hsource, strip_trimmed payload "source"⟩
  · rw [or_text_of_ne hagent]
    exact ⟨hagent, strip_trimmed payload "agent_id"⟩

/-- The agent of a patched memory is the one that was worked out. -/
theorem agent_after : agent_of p cfg (after p cfg payload t) = agent_of p cfg payload := by
  by_cases h : origin_of p payload = "ledger_import"
  · rw [agent_of, agent_of, origin_after, default_agent_id, default_agent_id, if_pos h, if_pos h]
  · obtain ⟨hne, hstrip⟩ := @agent_of_spec p cfg payload h
    have hget : (after p cfg payload t).get "agent_id" = .str (agent_of p cfg payload) :=
      get_patched_str (by simp [desired])
    rw [agent_of, origin_after, default_agent_id, if_neg h, trimmed_str hget, hstrip,
      or_text_of_ne hne]

/-- The session id of a payload that has none. -/
def generated (p : Printer) (cfg : Settings) (payload : Dict) : String :=
  if origin_of p payload = "ledger_import" then cfg.LEDGER_IMPORT_SESSION_ID
  else "legacy-" ++ agent_of p cfg payload

/-- A session is the one that exists, or a generated one. -/
theorem session_of_eq (payload : Dict) :
    session_of p cfg payload = or_text (existing_session p payload) (generated p cfg payload) := by
  rw [session_of, default_session_id, generated, or_text]
  by_cases h : existing_session p payload = ""
  · rw [if_neg (not_not.mpr h), if_pos h]
  · rw [if_pos h, if_neg h]

/-- A patched memory has the same generated session. -/
theorem generated_after : generated p cfg (after p cfg payload t) = generated p cfg payload := by
  rw [generated, generated, origin_after, agent_after]

/-- The run id of a payload. -/
def run_of (p : Printer) (cfg : Settings) (payload : Dict) : String :=
  or_text (trimmed p payload "run_id") (session_of p cfg payload)

/-- The writer id of a payload. -/
def writer_of (p : Printer) (cfg : Settings) (payload : Dict) : String :=
  or_text (trimmed p payload "writer_agent_id") (agent_of p cfg payload)

/-- The session that exists after a patch is the one that was worked out, stripped. -/
theorem existing_after : existing_session p (after p cfg payload t)
    = Mem0.strip (or_text (session_of p cfg payload) (run_of p cfg payload)) := by
  have hsession : (after p cfg payload t).get "session_id" = .str (session_of p cfg payload) :=
    get_patched_str (by simp [desired])
  have hrun : (after p cfg payload t).get "run_id" = .str (run_of p cfg payload) :=
    get_patched_str (by simp [desired, run_of])
  have hor : ∀ s s' : String, (Json.str s).or_else (.str s') = .str (or_text s s') := by
    intro s s'
    rw [Json.or_else, Json.truthy, or_text]
    by_cases hs : s = ""
    · simp [hs]
    · simp [hs]
  have hend : ∀ s : String, or_text s "" = s := by
    intro s
    by_cases hs : s = ""
    · rw [hs, or_text_empty]
    · exact or_text_of_ne hs ""
  rw [existing_session, hsession, hrun, hor, hor, hend]
  rfl

/-- The session id is read back as it was written. -/
theorem session_after : session_of p cfg (after p cfg payload t) = session_of p cfg payload ↔
    existing_session p payload ≠ "" ∨
      Kept (generated p cfg payload) ∧
        (generated p cfg payload = "" → trimmed p payload "run_id" = "") := by
  have hexisting : Mem0.strip (existing_session p payload) = existing_session p payload :=
    Mem0.strip_strip _
  rw [session_of_eq (after p cfg payload t), existing_after, generated_after, session_of_eq payload]
  by_cases hempty : or_text (existing_session p payload) (generated p cfg payload) = ""
  · -- no session id at all: what is read is the run id
    obtain ⟨he, hg⟩ := or_text_eq_empty.mp hempty
    have hkept : Kept "" := .inl strip_empty
    rw [run_of, session_of_eq, hempty, he, hg, or_text_empty, or_text_eq_empty]
    have hrun : Mem0.strip (or_text (trimmed p payload "run_id") "") =
        trimmed p payload "run_id" := by
      by_cases hr : trimmed p payload "run_id" = ""
      · rw [hr, or_text_empty, strip_empty]
      · rw [or_text_of_ne hr, strip_trimmed]
    rw [hrun]
    simp [hkept]
  · rw [or_text_of_ne hempty, or_text_read_back hexisting]
    by_cases he : existing_session p payload = ""
    · rw [he, or_text_empty] at hempty
      simp [he, hempty]
    · simp [he]

/-- An id of its own kind is read back, a configured one as far as it is trimmed. -/
theorem kept_generated (h : origin_of p payload ≠ "ledger_import") :
    Kept (generated p cfg payload) ∧ generated p cfg payload ≠ "" := by
  obtain ⟨hne, hstrip⟩ := @agent_of_spec p cfg payload h
  rw [generated, if_neg h]
  refine ⟨.inl (strip_legacy hne hstrip), ?_⟩
  intro hempty
  have hlist := congrArg String.toList hempty
  rw [String.toList_append] at hlist
  cases hlist

/-- The run of a patched memory is the one that was worked out, where the session was kept. -/
theorem run_after (hsession : session_of p cfg (after p cfg payload t) = session_of p cfg payload)
    (hkept : Kept (session_of p cfg payload)) :
    run_of p cfg (after p cfg payload t) = run_of p cfg payload := by
  have hrun : (after p cfg payload t).get "run_id" = .str (run_of p cfg payload) :=
    get_patched_str (by simp [desired, run_of])
  rw [run_of, trimmed_str hrun, hsession, run_of,
    or_text_read_back (strip_trimmed payload "run_id")]
  exact .inr hkept

/-- The writer of a patched memory is the one that was worked out, unless a name with blanks about
it was filled in. -/
theorem writer_after : writer_of p cfg (after p cfg payload t) = writer_of p cfg payload ↔
    trimmed p payload "writer_agent_id" ≠ "" ∨ Kept (agent_of p cfg payload) := by
  have hwriter : (after p cfg payload t).get "writer_agent_id" = .str (writer_of p cfg payload) :=
    get_patched_str (by simp [desired, writer_of])
  rw [writer_of, trimmed_str hwriter, agent_after, writer_of,
    or_text_read_back (strip_trimmed payload "writer_agent_id")]

/-- Only what is not a number differs from itself. -/
theorem differs_self {x : Json} : differs x x = true ↔ x = .float .nan := by
  rw [differs, if_pos rfl, decide_eq_true_eq]

/-- A value that stands, unless it is missing: it stands from then on. -/
theorem default_after {key : String} {v w : Json}
    (hv : (∃ s, s ≠ "" ∧ v = .str s) ∨ ∃ n, v = .int n ∧ w = v)
    (h : (key, (payload.get key).or_else v) ∈ desired p cfg payload t) :
    differs ((after p cfg payload t).get key) (((after p cfg payload t).get key).or_else w) =
      false ↔
      payload.get key ≠ .float .nan := by
  rw [get_patched h]
  generalize payload.get key = x
  by_cases hx : x.truthy = true
  · rw [Json.or_else, if_pos hx, ite_self, Json.or_else, if_pos hx,
      ← Bool.not_eq_true, differs_self]
  · -- nan alone differs from itself, and nan is truthy
    have hnan : x ≠ .float .nan := by
      rintro rfl
      exact hx (by decide)
    have hnot : ∀ {y : Json}, y ≠ .float .nan → differs y y = false := by
      intro y hy
      rw [← Bool.not_eq_true, differs_self]
      exact hy
    rw [Json.or_else, if_neg hx]
    refine iff_of_true ?_ hnan
    rcases hv with ⟨s, hs, rfl⟩ | ⟨n, rfl, rfl⟩
    · have htruthy : (Json.str s).truthy = true := by simp [Json.truthy, hs]
      have hdiffers : differs x (.str s) = true := by
        rw [differs_str]
        rintro rfl
        exact hx htruthy
      rw [if_pos hdiffers, Json.or_else, if_pos htruthy]
      exact hnot (by simp)
    · by_cases hdiffers : differs x (.int n) = true
      · have hsame : (Json.int n).or_else (.int n) = .int n := by rw [Json.or_else, ite_self]
        rw [if_pos hdiffers, hsame]
        exact hnot (by simp)
      · rw [if_neg hdiffers, Json.or_else, if_neg hx]
        exact Bool.not_eq_true _ ▸ hdiffers

/-- **One step.** After a patch there is nothing left to patch, whenever it is asked, exactly if the
payload is settled. -/
theorem patch_after_iff (ht : t ≠ "") (u : String) :
    desired_patch p cfg (after p cfg payload t) u = [] ↔ Settled p cfg payload := by
  have hstr : ∀ key s s' : String, (key, .str s) ∈ desired p cfg payload t →
      (differs ((after p cfg payload t).get key) (.str s') = false ↔ s' = s) := by
    intro key s s' hmem
    rw [get_patched_str hmem, ← Bool.not_eq_true, differs_str, not_not, Json.str.injEq, eq_comm]
  have hagent := hstr "agent_id" (agent_of p cfg payload) (agent_of p cfg (after p cfg payload t))
    (by simp [desired])
  have hrun := hstr "run_id" (run_of p cfg payload) (run_of p cfg (after p cfg payload t))
    (by simp [desired, run_of])
  have hsession :=
    hstr "session_id" (session_of p cfg payload) (session_of p cfg (after p cfg payload t))
    (by simp [desired])
  have hwriter :=
    hstr "writer_agent_id" (writer_of p cfg payload) (writer_of p cfg (after p cfg payload t))
    (by simp [desired, writer_of])
  have horigin :=
    hstr "origin" (origin_of p payload) (origin_of p (after p cfg payload t)) (by simp [desired])
  have hversion :=
    @default_after p cfg payload t "memory_schema_version" (.int cfg.MEMORY_SCHEMA_VERSION)
    (.int cfg.MEMORY_SCHEMA_VERSION) (.inr ⟨_, rfl, rfl⟩) (by simp [desired])
  have hstamp :=
    @default_after p cfg payload t "metadata_backfilled_at" (.str t) (.str u) (.inl ⟨t, ht, rfl⟩)
    (by simp [desired])
  -- nothing is left to patch when each field would be written again as it is
  rw [desired_patch, List.filter_eq_nil_iff, desired]
  simp only [Bool.not_eq_true, List.forall_mem_cons, List.not_mem_nil, false_imp_iff,
    implies_true, and_true]
  rw [← run_of, ← writer_of, hagent, hrun, hsession, hwriter, horigin, hversion, hstamp]
  constructor
  · rintro ⟨-, -, hs, hw, -, hv, hm⟩
    refine ⟨hv, hm, ?_, ?_⟩
    · intro ho hempty
      have hkept := (writer_after.mp hw).resolve_left (not_not.mpr hempty)
      rwa [agent_of, default_agent_id, if_pos ho] at hkept
    · intro ho hempty
      have hkept := (session_after.mp hs).resolve_left (not_not.mpr hempty)
      rwa [generated, if_pos ho] at hkept
  · rintro ⟨hv, hm, hw, hs⟩
    have hsame : session_of p cfg (after p cfg payload t) = session_of p cfg payload ∧
        Kept (session_of p cfg payload) := by
      -- a session id that the first pass generates is an existing one for the second, which
      -- strips it
      by_cases hempty : existing_session p payload = ""
      · have hgenerated : Kept (generated p cfg payload) ∧
            (generated p cfg payload = "" → trimmed p payload "run_id" = "") := by
          by_cases ho : origin_of p payload = "ledger_import"
          · have hboth := hs ho hempty
            rwa [generated, if_pos ho]
          · obtain ⟨hkept, hne⟩ := @kept_generated p cfg _ ho
            exact ⟨hkept, fun h => absurd h hne⟩
        refine ⟨session_after.mpr (.inr hgenerated), ?_⟩
        rw [session_of_eq, hempty, or_text_empty]
        exact hgenerated.1
      · refine ⟨session_after.mpr (.inl hempty), ?_⟩
        rw [session_of_eq, or_text_of_ne hempty]
        exact .inl (Mem0.strip_strip _)
    have hwriter' : writer_of p cfg (after p cfg payload t) = writer_of p cfg payload := by
      refine writer_after.mpr ?_
      by_cases hempty : trimmed p payload "writer_agent_id" = ""
      · right
        by_cases ho : origin_of p payload = "ledger_import"
        · have hkept := hw ho hempty
          rwa [agent_of, default_agent_id, if_pos ho]
        · exact .inl (agent_of_spec ho).2
      · exact .inl hempty
    exact ⟨agent_after, run_after hsame.1 hsame.2, hsame.1, hwriter', origin_after, hv, hm⟩

/-- Whether anything is to be patched does not depend on the time. -/
theorem patch_eq_nil_iff {t u : String} (ht : t ≠ "") (hu : u ≠ "") :
    desired_patch p cfg payload t = [] ↔ desired_patch p cfg payload u = [] := by
  have hstamp : ∀ {t : String}, t ≠ "" →
      (differs (payload.get "metadata_backfilled_at")
        ((payload.get "metadata_backfilled_at").or_else (.str t)) = false ↔
        (payload.get "metadata_backfilled_at").truthy = true ∧
          payload.get "metadata_backfilled_at" ≠ .float .nan) := by
    intro t ht
    rw [Json.or_else, ← Bool.not_eq_true]
    by_cases htruthy : (payload.get "metadata_backfilled_at").truthy = true
    · rw [if_pos htruthy, differs_self]
      simp [htruthy]
    · rw [if_neg htruthy, differs_str, not_not]
      refine iff_of_false ?_ fun h => htruthy h.1
      intro heq
      rw [heq] at htruthy
      exact htruthy (by simp [Json.truthy, ht])
  simp only [desired_patch, List.filter_eq_nil_iff, desired, Bool.not_eq_true, List.forall_mem_cons,
    hstamp ht, hstamp hu]

end next

/-! ## The loop -/

/-- The points of a collection, each with an id of its own. -/
structure Collection where
  points : List Point
  nodup : (points.map Point.id).Nodup

/-- A point as the backfill leaves it. -/
def Point.patched (p : Printer) (cfg : Settings) (t : String) (pt : Point) : Point :=
  { pt with payload := after p cfg pt.payload t }

/-- What is sent for some points. -/
def sends (p : Printer) (cfg : Settings) (t : String)
    (points : List Point) : List (String × Dict) :=
  (points.filter fun pt => decide (desired_patch p cfg pt.payload t ≠ [])).map fun pt =>
    (pt.id, desired_patch p cfg pt.payload t)

/-- Setting the payload of a point changes that point alone. -/
theorem set_payload_self {a b : List Point} {pt : Point} (h : ((a ++ pt :: b).map Point.id).Nodup)
    (patch : Dict) :
    set_payload pt.id patch (a ++ pt :: b) =
      a ++ { pt with payload := pt.payload.update patch } :: b := by
  have hother : ∀ l : List Point, (∀ q ∈ l, q.id ≠ pt.id) →
      (l.map fun q => if q.id = pt.id then { q with payload := q.payload.update patch } else q) =
        l := by
    intro l hl
    rw [List.map_congr_left fun q hq => if_neg (hl q hq), List.map_id']
  rw [List.map_append, List.map_cons, List.nodup_append, List.nodup_cons] at h
  obtain ⟨-, ⟨hb, -⟩, ha⟩ := h
  rw [set_payload, List.map_append, List.map_cons, if_pos rfl]
  rw [hother a fun q hq heq => ha q.id (List.mem_map_of_mem hq) pt.id List.mem_cons_self heq]
  rw [hother b fun q hq heq => hb (heq ▸ List.mem_map_of_mem hq)]

/-- The loop sends each point its patch and touches nothing else. -/
theorem patch_loop_eq (t : String) (l a b : List Point) (h : ((a ++ (l ++ b)).map Point.id).Nodup) :
    patch_loop p cfg t l (a ++ (l ++ b)) =
      (sends p cfg t l, a ++ (l.map (Point.patched p cfg t) ++ b)) := by
  induction l generalizing a with
  | nil => rfl
  | cons pt l ih =>
    have hstep : ∀ q : Point, q.id = pt.id →
        patch_loop p cfg t l (a ++ (q :: (l ++ b)))
          = (sends p cfg t l, a ++ (q :: (l.map (Point.patched p cfg t) ++ b))) := by
      intro q hq
      have hids : ((a ++ [q] ++ (l ++ b)).map Point.id).Nodup := by
        simpa [hq] using h
      have hrest := ih (a ++ [q]) hids
      simpa using hrest
    rw [patch_loop, List.cons_append]
    by_cases hpatch : desired_patch p cfg pt.payload t = []
    · have hsame : Point.patched p cfg t pt = pt := by
        rw [Point.patched, after, hpatch]
        rfl
      simp only [hpatch, if_true, hstep pt rfl, sends, List.map_cons, hsame, List.cons_append]
      simp [hpatch]
    · rw [List.cons_append] at h
      simp only [hpatch, if_false]
      rw [set_payload_self h,
        hstep { pt with payload := pt.payload.update (desired_patch p cfg pt.payload t) } rfl]
      simp [sends, hpatch, Point.patched, after]

/-- The collection after a backfill that was interrupted behind its first `n` points. -/
def Collection.interrupted (p : Printer) (cfg : Settings) (t : String) (n : ℕ)
    (c : Collection) : List Point :=
  (patch_loop p cfg t (c.points.take n) c.points).2

/-- An interrupted backfill has patched the first points and left the others. -/
theorem interrupted_eq (t : String) (n : ℕ) (c : Collection) : c.interrupted p cfg t n
    = (c.points.take n).map (Point.patched p cfg t) ++ c.points.drop n := by
  have hsplit : [] ++ (c.points.take n ++ c.points.drop n) = c.points := by
    rw [List.nil_append, List.take_append_drop]
  have hloop :=
    @patch_loop_eq p cfg t (c.points.take n) [] (c.points.drop n) (by rw [hsplit]; exact c.nodup)
  rw [hsplit] at hloop
  rw [Collection.interrupted, hloop, List.nil_append]

theorem ids_interrupted (t : String) (n : ℕ) (c : Collection) :
    (c.interrupted p cfg t n).map Point.id = c.points.map Point.id := by
  have hid : Point.id ∘ Point.patched p cfg t = Point.id := rfl
  rw [interrupted_eq, List.map_append, List.map_map, hid, ← List.map_append, List.take_append_drop]

/-- A run over a whole collection. -/
theorem patch_loop_all (t : String) {points : List Point} (h : (points.map Point.id).Nodup) :
    patch_loop p cfg t points points =
      (sends p cfg t points, points.map (Point.patched p cfg t)) := by
  have hloop := @patch_loop_eq p cfg t points [] [] (by simpa using h)
  simpa using hloop

theorem sends_append (t : String) (l l' : List Point) :
    sends p cfg t (l ++ l') = sends p cfg t l ++ sends p cfg t l' := by
  rw [sends, List.filter_append, List.map_append]
  rfl

/-- Nothing is sent for a point that has been patched, exactly if its payload was settled. -/
theorem sends_patched_iff {t u : String} (ht : t ≠ "") (l : List Point) :
    sends p cfg u (l.map (Point.patched p cfg t)) = [] ↔ ∀ pt ∈ l, Settled p cfg pt.payload := by
  rw [sends, List.map_eq_nil_iff, List.filter_eq_nil_iff]
  simp only [List.forall_mem_map, decide_eq_true_eq, not_not]
  exact forall₂_congr fun pt _ => patch_after_iff ht u

/-- A point that has no patch is left as it is. -/
theorem patched_of_unsent {t : String} {points : List Point} {pt : Point} (hpt : pt ∈ points)
    (h : pt.id ∉ (sends p cfg t points).map Prod.fst) : Point.patched p cfg t pt = pt := by
  have hpatch : desired_patch p cfg pt.payload t = [] := by
    by_contra hne
    refine h (List.mem_map.mpr ⟨(pt.id, desired_patch p cfg pt.payload t), ?_, rfl⟩)
    exact List.mem_map.mpr ⟨pt, List.mem_filter.mpr ⟨hpt, by simpa using hne⟩, rfl⟩
  rw [Point.patched, after, hpatch]
  rfl

/-- **A backfill that is started again.** A patch holds nothing but its seven keys. A second run,
at any time, patches exactly the memories that the first one did not reach and that lack something,
if and only if the payloads it did reach are settled; whatever it does not patch stays as it is. -/
theorem backfill_restart_iff (p : Printer) (cfg : Settings) (c : Collection) (n : ℕ)
    (t u : Datetime) :
    let reached := c.interrupted p cfg t.isoformat n
    let again := patch_loop p cfg u.isoformat reached reached
    (∀ payload, ∀ e ∈ desired_patch p cfg payload t.isoformat, e.1 ∈ patched_keys) ∧
      (∀ payload, desired_patch p cfg (after p cfg payload t.isoformat) u.isoformat = [] ↔
        Settled p cfg payload) ∧
      (again.1.map Prod.fst = (sends p cfg t.isoformat (c.points.drop n)).map Prod.fst ↔
        ∀ pt ∈ c.points.take n, Settled p cfg pt.payload) ∧
      again.2.map Point.id = reached.map Point.id ∧
      ∀ pt ∈ reached, pt.id ∉ again.1.map Prod.fst → pt ∈ again.2 := by
  have ht := t.isoformat_ne_empty
  have hu := u.isoformat_ne_empty
  have hids : ((c.interrupted p cfg t.isoformat n).map Point.id).Nodup := by
    rw [ids_interrupted]
    exact c.nodup
  have hagain := @patch_loop_all p cfg u.isoformat _ hids
  intro reached again
  -- the second run meets the points that were patched before those that were not
  have hsent :
      again.1 = sends p cfg u.isoformat ((c.points.take n).map (Point.patched p cfg t.isoformat))
      ++ sends p cfg u.isoformat (c.points.drop n) := by
    rw [← sends_append, ← interrupted_eq]
    exact congrArg Prod.fst hagain
  have hstored : again.2 = reached.map (Point.patched p cfg u.isoformat) := congrArg Prod.snd hagain
  refine ⟨?_, fun payload => patch_after_iff ht u.isoformat, ?_, ?_, ?_⟩
  · intro payload e he
    exact (keys_patch_sublist payload t.isoformat).subset (List.mem_map_of_mem he)
  · have hsame : (sends p cfg u.isoformat (c.points.drop n)).map Prod.fst
        = (sends p cfg t.isoformat (c.points.drop n)).map Prod.fst := by
      have hneeds : ∀ pt : Point, desired_patch p cfg pt.payload u.isoformat = [] ↔
          desired_patch p cfg pt.payload t.isoformat = [] := fun pt => patch_eq_nil_iff hu ht
      simp only [sends, List.map_map, ne_eq, hneeds]
      rfl
    rw [hsent, List.map_append, hsame, List.append_left_eq_self, List.map_eq_nil_iff,
      sends_patched_iff ht]
  · rw [hstored, List.map_map]
    rfl
  · intro pt hpt hunsent
    rw [hstored]
    -- a point that is sent no patch is stored as it was
    have hsame : Point.patched p cfg u.isoformat pt = pt := by
      refine patched_of_unsent hpt fun hmem => hunsent ?_
      have hfirst : again.1 = sends p cfg u.isoformat reached := congrArg Prod.fst hagain
      rwa [hfirst]
    exact List.mem_map.mpr ⟨pt, hpt, hsame⟩

/-- A memory imported from a ledger, and a configured agent id with a blank behind it: the writer id
that the first run stored is not what the second run reads. With the ids as they come, a schema
version that is not equal to itself is patched for ever. -/
theorem backfill_patches_again :
    (let cfg : Settings := { LEDGER_IMPORT_AGENT_ID := "opencode " }
      let payload : Dict := [("ledger_file", .str "2026-07.md")]
      desired_patch .plain cfg (after .plain cfg payload "2026-07-01T00:00:00+00:00")
        "2026-07-02T00:00:00+00:00"
        = [("writer_agent_id", .str "opencode")]) ∧
      let payload : Dict := [("memory_schema_version", .float .nan)]
      desired_patch .plain {} (after .plain {} payload "2026-07-01T00:00:00+00:00")
        "2026-07-02T00:00:00+00:00"
        = [("memory_schema_version", .float .nan)] := by
  decide +kernel

end Memline.backfill
