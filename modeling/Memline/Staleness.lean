/-
Supersession, TTL and the background check, as the code of `staleness.py`.

Every mutation of a memory here is one payload write: `invalidate`, `revive` and
`set_ttl` read what they check, write one patch and then record it, and nothing
after the write can undo it. `_assert_no_cycle` and `resolve_head` walk the
successor lists breadth first under a depth limit, with a visited set; the loops
of the source are recursions on the levels that are left.
-/
import Memline.Mem0

set_option autoImplicit false

namespace Memline

open Effect

def MAX_CHAIN_DEPTH : ℕ := 100

def DEFAULT_TTL_DAYS : ℚ := 7

def MAX_DISPLACEMENT_PROTECTION_DAYS : ℕ := 90

def MAX_DISPLACEMENT_PROTECTION_REASON_CHARS : ℕ := 500

/-! ## The pair store, with its ids and its clock -/

namespace pair_store

def record_judgment (j : Judgment) : Code (PairRow × Bool) := do
  let pair_id ← Prog.perform (I := Api) .uuid4
  let judged_at ← now_iso
  Prog.perform (I := Api) (.pairs (.record_judgment j pair_id judged_at))

def dispose (pair_id : Id) (disposition : String) (disposed_by : Option String) : Code Bool := do
  let now ← now_iso
  Prog.perform (I := Api) (.pairs (.dispose pair_id disposition disposed_by now))

def reopen (pair_id : Id) : Code Bool :=
  Prog.perform (I := Api) (.pairs (.reopen pair_id))

def close_for_old (old_id : Id) (disposition : String) (disposed_by : Option String := none)
    (kind : Option String := none) : Code ℕ := do
  let now ← now_iso
  Prog.perform (I := Api) (.pairs (.close_for_old old_id disposition disposed_by kind now))

def close_for_deleted_memory (memory_id : Id) : Code ℕ := do
  let now ← now_iso
  Prog.perform (I := Api) (.pairs (.close_for_deleted_memory memory_id now))

def close_for_updated_text (memory_id : Id) (current_text : String) : Code ℕ := do
  let now ← now_iso
  Prog.perform (I := Api) (.pairs (.close_for_updated_text memory_id current_text now))

def has_judgment (new_id old_id : Id) (old_text kind : String) : Code Bool :=
  Prog.perform (I := Api) (.pairs (.has_judgment new_id old_id old_text kind))

def judged_either (probe_id : Id) (probe_text : String) (candidates : List (Id × String)) :
    Code (List Id) :=
  Prog.perform (I := Api) (.pairs (.judged_either probe_id probe_text candidates))

def get (pair_id : Id) : Code (Option PairRow) :=
  Prog.perform (I := Api) (.pairs (.get pair_id))

def consecutive_dismissed_displacement_evidence (old_id : Id) (old_text : String) (required : ℕ) :
    Code EvidenceResult :=
  Prog.perform (I := Api)
    (.pairs (.consecutive_dismissed_displacement_evidence old_id old_text required))

end pair_store

/-! ## Reading and patching one memory -/

/-- Malformed and unknown ids read as missing. -/
def point_payload (memory_id : Id) : Code (Option Payload) :=
  try Prog.perform (I := Api) (.vs_get memory_id) catch _ => pure none

def memory_not_found (memory_id : Id) : Exn :=
  .staleness_error s!"memory not found: {memory_id}"

/-- The text of a memory, as the history records it. -/
def payload_text (payload : Payload) : String := (payload.get "data").text

/-- A best-effort history row of a payload-only mutation. -/
def note_history (memory_id : Id) (payload : Payload) (event now : String)
    (actor_id : Option String) : Code Unit :=
  attempt (Prog.perform (I := Api) (.add_history
    { memory_id, old_memory := .str (payload_text payload)
      new_memory := .str (payload_text payload), event
      updated_at := .str now, actor_id := .ofOption actor_id }))

/-! ## Displacement protection -/

structure ClearResult where
  id : Id
  changed : Bool
  cause : String

/-- The patch that ends a displacement protection. -/
def cleared_protection : Payload := .ofList (protection_fields.map fun f => (f, .none))

def clear_displacement_protection (memory_id : Id) (actor_id : Option String)
    (cause : String := "manual") : Code ClearResult := do
  let found ← point_payload memory_id
  let payload ← expect found (memory_not_found memory_id)
  let changed := protection_fields.any fun field => decide (payload.get field ≠ .none)
  -- nothing is written where there is nothing to clear
  if changed then
    Prog.perform (I := Api) (.vs_set_payload memory_id cleared_protection)
    let now ← now_iso
    note_history memory_id payload "UNPROTECT_DISPLACEMENT" now actor_id
  pure { id := memory_id, changed, cause }

/-- `is_ttl_expired(payload)`: the clock is read when there is a deadline. -/
def ttl_expired_now (payload : Payload) : Code Bool :=
  if (payload.get TTL_EXPIRES_AT).truthy then do
    let now ← now_iso
    pure (is_ttl_expired payload now)
  else pure false

/-- The patch of a displacement protection. -/
def protection_patch (until_ reason now actor_id session_id : String) : Payload :=
  .ofList [(DISPLACEMENT_PROTECTED_UNTIL, .str until_),
    (DISPLACEMENT_PROTECTION_REASON, .str reason), (DISPLACEMENT_PROTECTED_AT, .str now),
    (DISPLACEMENT_PROTECTED_BY_AGENT, .str actor_id),
    (DISPLACEMENT_PROTECTED_BY_SESSION, .str session_id)]

structure ProtectionResult where
  id : Id
  kind : String
  protected_until : String
  reason : String
  protected_by_agent_id : String
  protected_by_session_id : String
  dismissed_evidence_count : ℕ
  dismissed_evidence_pair_ids : List Id

/-- The checks of `set_displacement_protection`: the payload, and the trimmed reason,
actor and session. -/
def check_protection (memory_id : Id) (days : ℚ) (reason : String)
    (actor_id session_id : Option String) : Code (Payload × String × String × String) := do
  let found ← point_payload memory_id
  let payload ← expect found (memory_not_found memory_id)
  refuse_if (is_invalidated payload = true)
    (.staleness_error "cannot protect an invalidated memory")
  let expired ← ttl_expired_now payload
  refuse_if (expired = true) (.staleness_error "cannot protect an expired memory")
  let reason := Mem0.strip reason
  refuse_if (reason = "") (.staleness_error "protection reason must not be empty")
  refuse_if (MAX_DISPLACEMENT_PROTECTION_REASON_CHARS < reason.length)
    (.staleness_error
      s!"protection reason must be <= {MAX_DISPLACEMENT_PROTECTION_REASON_CHARS} characters")
  refuse_if (days ≤ 0 ∨ (MAX_DISPLACEMENT_PROTECTION_DAYS : ℚ) < days)
    (.staleness_error s!"protection days must be > 0 and <= {MAX_DISPLACEMENT_PROTECTION_DAYS}")
  let actor_id := Mem0.strip (actor_id.getD "")
  let session_id := Mem0.strip (session_id.getD "")
  refuse_if (actor_id = "" ∨ session_id = "")
    (.staleness_error "protection requires non-empty actor_id and session_id")
  pure (payload, reason, actor_id, session_id)

/-- Temporarily suppress displacement judging for one existing memory. -/
def set_displacement_protection (memory_id : Id) (days : ℚ) (reason : String)
    (actor_id session_id : Option String) : Code ProtectionResult := do
  let (payload, reason, actor_id, session_id) ←
    check_protection memory_id days reason actor_id session_id
  let evidence ← pair_store.consecutive_dismissed_displacement_evidence memory_id
    (payload_text payload) REQUIRED_CONSECUTIVE_DISPLACEMENT_FALSE_POSITIVES
  refuse_if (evidence.eligible = false)
    (.staleness_error ("protection requires the latest 3 independent displacement " ++
      "suspicions for this exact text version to all be dismissed " ++
      s!"(consecutive dismissed: {evidence.consecutive_count})"))
  let now ← now_iso
  let until_ ← Prog.perform (I := Api) (.now_after days)
  Prog.perform (I := Api)
    (.vs_set_payload memory_id (protection_patch until_ reason now actor_id session_id))
  note_history memory_id payload "PROTECT_DISPLACEMENT" now (some actor_id)
  pure { id := memory_id, kind := KIND_DISPLACEMENT, protected_until := until_, reason
         protected_by_agent_id := actor_id, protected_by_session_id := session_id
         dismissed_evidence_count := evidence.consecutive_count
         dismissed_evidence_pair_ids := evidence.pair_ids }

/-! ## Invalidate, revive, resolve-head -/

/-- One level of the cycle check: the frontier left, the nodes visited and the
next frontier collected so far. -/
def walk_level (target_id : Id) :
    List Id → List Id → List Id → Code (List Id × List Id)
  | [], visited, next_frontier => pure (visited, next_frontier)
  | node :: frontier, visited, next_frontier =>
    if node = target_id then
      throw (.staleness_error s!"invalidate would create a supersession cycle via {node}")
    else if node ∈ visited then walk_level target_id frontier visited next_frontier
    else do
      let payload ← point_payload node
      -- a memory that is missing, or whose read has failed, leads nowhere
      let successors := (payload.map superseded_ids).getD []
      walk_level target_id frontier (node :: visited) (next_frontier ++ successors)

/-- The levels of the cycle check; returns the frontier the limit left over. -/
def walk (target_id : Id) : ℕ → List Id → List Id → Code (List Id)
  | 0, frontier, _ => pure frontier
  | levels + 1, frontier, visited =>
    if frontier = [] then pure []
    else do
      let (visited, next_frontier) ← walk_level target_id frontier visited []
      walk target_id levels next_frontier visited

/-- Refuse an edge that would make `target_id` an ancestor of itself. -/
def assert_no_cycle (target_id : Id) (by_ids : List Id) : Code Unit := do
  let frontier ← walk target_id MAX_CHAIN_DEPTH by_ids []
  refuse_if (frontier ≠ [])
    (.staleness_error s!"supersession chain exceeds {MAX_CHAIN_DEPTH} hops; refusing")

/-- `[b for b in dict.fromkeys(by_ids) if b]`. -/
def distinct_ids (by_ids : List Id) : List Id := by_ids.eraseDups.filter (· ≠ "")

/-- What `invalidate` writes. -/
def invalidate_patch (by_ids : List Id) (now : String)
    (reason actor_id session_id : Option String) : Payload :=
  .ofList ([(SUPERSEDED_BY, .ofIds by_ids), (SUPERSEDED_AT, .str now),
    (SUPERSEDED_REASON, .ofOption reason), ("invalidated_by_agent_id", .ofOption actor_id),
    ("invalidated_session_id", .ofOption session_id)] ++ protection_fields.map fun f => (f, .none))

/-- An invalidated memory is superseded by exactly the ids it was given. -/
theorem superseded_ids_invalidate_patch {p : Payload} {by_ids : List Id} {now : String}
    {reason actor_id session_id : Option String} (h : ∀ b ∈ by_ids, b ≠ "") :
    superseded_ids (p.merge (invalidate_patch by_ids now reason actor_id session_id)) = by_ids := by
  refine superseded_ids_of_ids h (Payload.get_merge_of_lookup ?_)
  unfold invalidate_patch
  rw [List.cons_append]
  refine Payload.lookup_ofList_head _ ?_
  simp [protection_fields, SUPERSEDED_BY, SUPERSEDED_AT, SUPERSEDED_REASON,
    DISPLACEMENT_PROTECTED_UNTIL, DISPLACEMENT_PROTECTION_REASON, DISPLACEMENT_PROTECTED_AT,
    DISPLACEMENT_PROTECTED_BY_AGENT, DISPLACEMENT_PROTECTED_BY_SESSION]

theorem distinct_ids_ne {by_ids : List Id} : ∀ b ∈ distinct_ids by_ids, b ≠ "" := by
  intro b hb
  simpa using (List.mem_filter.mp hb).2

structure InvalidateResult where
  id : Id
  superseded_by : List Id
  superseded_at : String
  superseded_reason : Option String
  closed_open_suspicions : ℕ

/-- Each superseder has to be stored. -/
def require_superseders (by_ids : List Id) : Code Unit :=
  forM by_ids fun by_id => do
    let payload ← point_payload by_id
    refuse_if (payload.isNone = true)
      (.staleness_error s!"superseding memory not found: {by_id}")

def already_invalidated (memory_id : Id) (existing : List Id) : Exn :=
  .staleness_error (s!"memory {memory_id} is already invalidated (superseded_by={existing}); " ++
    "revive it first if this is a correction")

/-- The checks of `invalidate`, which come before anything it writes; returns the
payload they found. -/
def check_invalidate (memory_id : Id) (by_ids : List Id) : Code Payload := do
  refuse_if (by_ids = []) (.staleness_error "invalidate requires at least one superseding id")
  refuse_if (memory_id ∈ by_ids) (.staleness_error "a memory cannot supersede itself")
  let found ← point_payload memory_id
  let payload ← expect found (memory_not_found memory_id)
  refuse_if (superseded_ids payload ≠ [])
    (already_invalidated memory_id (superseded_ids payload))
  require_superseders by_ids
  assert_no_cycle memory_id by_ids
  pure payload

/-- Mark `memory_id` as superseded by `by_ids`. -/
def invalidate (memory_id : Id) (by_ids : List Id) (reason actor_id session_id : Option String) :
    Code InvalidateResult := do
  let by_ids := distinct_ids by_ids
  let payload ← check_invalidate memory_id by_ids
  let now ← now_iso
  Prog.perform (I := Api)
    (.vs_set_payload memory_id (invalidate_patch by_ids now reason actor_id session_id))
  note_history memory_id payload "INVALIDATE" now actor_id
  -- not guarded: a failure is reported though the memory is superseded by now
  let closed ← pair_store.close_for_old memory_id "obsoleted" actor_id
  pure { id := memory_id, superseded_by := by_ids, superseded_at := now
         superseded_reason := reason, closed_open_suspicions := closed }

/-- What `revive` writes. -/
def revive_patch (now : String) (actor_id session_id : Option String) : Payload :=
  .ofList [(SUPERSEDED_BY, .none), (SUPERSEDED_AT, .none), (SUPERSEDED_REASON, .none),
    ("revived_at", .str now), ("revived_by_agent_id", .ofOption actor_id),
    ("revived_session_id", .ofOption session_id)]

structure ReviveResult where
  id : Id
  previous_superseded_by : List Id
  revived_at : String

/-- Clear supersession state so `memory_id` re-enters the default pool. -/
def revive (memory_id : Id) (actor_id session_id : Option String) : Code ReviveResult := do
  let found ← point_payload memory_id
  let payload ← expect found (memory_not_found memory_id)
  let previous := superseded_ids payload
  refuse_if (previous = []) (.staleness_error s!"memory {memory_id} is not invalidated")
  let now ← now_iso
  Prog.perform (I := Api) (.vs_set_payload memory_id (revive_patch now actor_id session_id))
  note_history memory_id payload "REVIVE" now actor_id
  pure { id := memory_id, previous_superseded_by := previous, revived_at := now }

/-- One level of the walk to the heads: visited nodes, next frontier and heads. -/
def heads_level (get_payload : Id → Code (Option Payload)) :
    List Id → List Id → List Id → List Id → Code (List Id × List Id × List Id)
  | [], visited, next_frontier, heads => pure (visited, next_frontier, heads)
  | node :: frontier, visited, next_frontier, heads =>
    if node ∈ visited then heads_level get_payload frontier visited next_frontier heads
    else do
      let found ← get_payload node
      let payload := found.getD ∅
      let successors := superseded_ids payload
      if successors ≠ [] then
        heads_level get_payload frontier (node :: visited) (next_frontier ++ successors) heads
      else if payload.truthy then
        heads_level get_payload frontier (node :: visited) next_frontier (heads ++ [node])
      -- a successor that is not stored is no head
      else heads_level get_payload frontier (node :: visited) next_frontier heads

/-- The levels of the walk to the heads; returns the heads and the hop count. -/
def heads_walk (get_payload : Id → Code (Option Payload)) :
    ℕ → List Id → List Id → List Id → ℕ → Code (List Id × ℕ)
  | 0, _, _, heads, hops => pure (heads, hops)
  | levels + 1, frontier, visited, heads, hops =>
    if frontier = [] then pure (heads, hops)
    else do
      let (visited, next_frontier, heads) ← heads_level get_payload frontier visited [] heads
      heads_walk get_payload levels next_frontier visited heads
        (if next_frontier = [] then hops else hops + 1)

structure HeadResult where
  requested : Id
  heads : List Id
  hops : ℕ

/-- Follow supersession pointers from `memory_id` to the active heads. The loop
runs while at most `MAX_CHAIN_DEPTH` hops have been made. -/
def resolve_head (get_payload : Id → Code (Option Payload)) (memory_id : Id) :
    Code HeadResult := do
  let start ← get_payload memory_id
  refuse_if (start.isNone = true) (memory_not_found memory_id)
  let (heads, hops) ← heads_walk get_payload (MAX_CHAIN_DEPTH + 1) [memory_id] [] [] 0
  pure { requested := memory_id, heads, hops }

/-! ## TTL lifecycle -/

/-- How `set_ttl` is asked to act, in the order in which it looks. -/
inductive TtlMode where
  | clear
  | expire_now
  | deadline (days : Option ℚ) (expires_at : Option String)
  deriving DecidableEq

structure TtlResult where
  id : Id
  ttl_cleared : Bool := false
  ttl_expires_at : Option String := none
  ttl_expired_at : Option String := none

/-- What `set_ttl` writes, given the deadline it schedules. -/
def ttl_patch (mode : TtlMode) (now expires_at : String) (actor_id : Option String) : Payload :=
  match mode with
  | .clear => .ofList [(TTL_EXPIRES_AT, .none), (TTL_EXPIRED_AT, .none)]
  | .expire_now =>
    .ofList [(TTL_EXPIRES_AT, .str now), (TTL_EXPIRED_AT, .str now), ("ttl_set_at", .str now),
      ("ttl_set_by", .ofOption actor_id)]
  | .deadline _ _ =>
    .ofList [(TTL_EXPIRES_AT, .str expires_at), (TTL_EXPIRED_AT, .none),
      ("ttl_set_at", .str now), ("ttl_set_by", .ofOption actor_id)]

/-- The deadline of a scheduled expiry: the given one, or so many days from now. -/
def ttl_deadline : TtlMode → Code String
  | .deadline days none => Prog.perform (I := Api) (.now_after (days.getD DEFAULT_TTL_DAYS))
  | .deadline _ (some expires_at) => pure expires_at
  | _ => pure ""

def ttl_event : TtlMode → String
  | .clear => "TTL_CLEAR"
  | .expire_now => "TTL_EXPIRE"
  | .deadline _ _ => "TTL_SET"

def ttl_result (mode : TtlMode) (memory_id : Id) (now expires_at : String) : TtlResult :=
  match mode with
  | .clear => { id := memory_id, ttl_cleared := true }
  | .expire_now => { id := memory_id, ttl_expires_at := some now, ttl_expired_at := some now }
  | .deadline _ _ => { id := memory_id, ttl_expires_at := some expires_at }

/-- Schedule, renew, clear or materialize the pool exit of one memory, and close
its open expiry flag. -/
def set_ttl (memory_id : Id) (mode : TtlMode) (actor_id : Option String) : Code TtlResult := do
  let found ← point_payload memory_id
  let payload ← expect found (memory_not_found memory_id)
  let now ← now_iso
  let expires_at ← ttl_deadline mode
  Prog.perform (I := Api) (.vs_set_payload memory_id (ttl_patch mode now expires_at actor_id))
  -- only the flags of expiry are closed, whatever the mode
  attempt (do
    let _ ← pair_store.close_for_old memory_id "ttl" actor_id (some KIND_TTL_EXPIRY))
  note_history memory_id payload (ttl_event mode) now actor_id
  pure (ttl_result mode memory_id now expires_at)

structure HarvestResult where
  harvested : ℕ
  error : Option Exn := none

/-- The text an expiry flag is keyed by: the memory's text, salted with the deadline. -/
def salted_text (item : Item) (expires : String) : String :=
  (item.top.get "memory").text ++ "@@" ++ expires

def expiry_judgment (item : Item) (memory_id : Id) (expires now : String) : Judgment where
  kind := KIND_TTL_EXPIRY
  new_id := memory_id
  old_id := memory_id
  old_text := salted_text item expires
  verdict := "TTL_EXPIRED"
  confidence := some 1
  reason := some ("ttl expired at " ++ (if expires = "" then now else expires) ++
    "; the entry left the search pool. \x60stale confirm\x60 accepts the expiry, " ++
    "\x60stale ttl\x60 renews.")

/-- One item of the scan: stamp it, close its suspicions and open an expiry flag. -/
def harvest_item (now : String) (harvested : ℕ) (item : Item) : Code ℕ :=
  let memory_id := item.id
  let meta_ := item.metadata
  -- marked already, or not due by the metadata nor by the item itself
  if memory_id = "" ∨ (meta_.get TTL_EXPIRED_AT).truthy = true then pure harvested
  else if ¬ is_ttl_expired meta_ now ∧ ¬ is_ttl_expired item.top now then pure harvested
  else do
    Prog.perform (I := Api) (.vs_set_payload memory_id (.ofList [(TTL_EXPIRED_AT, .str now)]))
    let text := (item.top.get "memory").text
    attempt (Prog.perform (I := Api) (.add_history
      { memory_id, old_memory := .str text, new_memory := .str text, event := "TTL_EXPIRE"
        updated_at := .str now }))
    let expires := ((meta_.get TTL_EXPIRES_AT).or_else (item.top.get TTL_EXPIRES_AT)).text
    attempt (do
      -- the open pairs are closed first, since what is recorded next is one of them
      let _ ← pair_store.close_for_old memory_id "expired"
      let _ ← pair_store.record_judgment (expiry_judgment item memory_id expires now))
    pure (harvested + 1)

/-- `now or _now_iso()`. -/
def given_now (now : Option String) : Code String :=
  match now with
  | some t => if t = "" then now_iso else pure t
  | none => now_iso

/-- The scan for deadlines that have passed; a failing scan is reported. -/
def scan_expired (host : Host) (now : String) (limit : ℕ) : Code (Except Exn (List Item)) :=
  try
    let items ← Mem0.get_all
      [("user_id", .value host.default_user_id), (TTL_EXPIRES_AT, .lte now)] limit
    pure (.ok items)
  catch e => pure (.error e)

/-- Materialize lazy TTL expiries. -/
def harvest_expired (host : Host) (now : Option String := none) (limit : ℕ := 1000) :
    Code HarvestResult := do
  let now ← given_now now
  let scan ← scan_expired host now limit
  match scan with
  | .error e => pure { harvested := 0, error := some e }
  | .ok items =>
    let harvested ← items.foldlM (harvest_item now) 0
    pure { harvested }

structure GuardResult where
  participates : Bool
  reason : Option String
  deriving DecidableEq

/-- Whether a memory participates in a supersession edge. Fails open on scan errors. -/
def delete_guard (memory_id : Id) : Code GuardResult := do
  let found ← point_payload memory_id
  match found with
  | none => pure ⟨false, some "memory not found"⟩
  | some payload =>
    if superseded_ids payload ≠ [] then
      pure ⟨true, some "memory is superseded (chain node)"⟩
    else
      -- an error counts as finding nobody who was superseded by it
      let items ←
        try Mem0.get_all [(SUPERSEDED_BY, .value memory_id)] 1
        catch _ => pure []
      if items.isEmpty then pure ⟨false, none⟩
      else pure ⟨true, some "memory supersedes other entries"⟩

/-! ## The background stale check -/

def STALE_CHECK_TOP_K : ℕ := 10

/-- `str(...)[:n]`. -/
def prefix_of (s : String) (n : ℕ) : String := String.ofList (s.toList.take n)

/-- `_IMPORT_EXEMPT_VERDICTS`. -/
def import_exempt_verdicts : List String := ["TIMESTAMP_SUSPECT", "ATTRIBUTION_SUSPECT"]

/-- One self check: skipped when this text was judged for the kind, else judged
and recorded. Returns the verdict and whether it opened a suspicion. -/
def self_check (new_id : Id) (new_text kind : String) (judge_model session_id : Option String)
    (judged : Code Verdict) : Code (String × Option Bool) := do
  let cached ← pair_store.has_judgment new_id new_id new_text kind
  -- it has been judged for this very text
  if cached then pure ("cached", none)
  else do
    let v ← judged
    let model ← Prog.perform (I := Api) (.active_model judge_model)
    let (row, inserted) ← pair_store.record_judgment
      { kind, new_id, old_id := new_id, old_text := new_text, verdict := v.verdict
        confidence := v.confidence, reason := v.reason, judge_model := model
        new_session_id := session_id }
    pure (v.verdict, some (row.is_open && inserted))

structure SelfReport where
  necessity : String × Option Bool
  safety : String × Option Bool
  correctness : String × Option Bool

def judge_necessity (entry : JudgeEntry) : Code Verdict :=
  Prog.perform (I := Api) (.judge_self KIND_NECESSITY entry ∅)

def judge_safety (entry : JudgeEntry) : Code Verdict :=
  Prog.perform (I := Api) (.judge_self KIND_SAFETY entry ∅)

/-- The correctness judge, with the two date and actor verdicts downgraded for
imported history. -/
def judge_correctness (entry : JudgeEntry) (payload : Payload) : Code Verdict := do
  let created_at := payload.get "created_at"
  let context : Payload := .ofList
    [("ingested_at", .str ((payload.get "ingested_at").or_else created_at).text),
      ("created_at", .str created_at.text),
      ("writer", .str ((payload.get "source").or_else (payload.get "writer_agent_id")).text)]
  let v ← Prog.perform (I := Api) (.judge_self KIND_CORRECTNESS entry context)
  -- what was imported from a ledger is exempt from some verdicts
  if payload.get "origin" = .str "ledger_import" ∧ v.verdict ∈ import_exempt_verdicts then
    pure { v with
      verdict := "CONSISTENT"
      reason := some (prefix_of
        ("ledger_import exempt from " ++ v.verdict ++ ": " ++ v.reason.getD "None") 500) }
  else pure v

/-- `_run_self_checks`. -/
def run_self_checks (new_id : Id) (new_text : String) (payload : Payload)
    (judge_model session_id : Option String) : Code SelfReport := do
  let entry : JudgeEntry := ⟨new_id, new_text, prefix_of (payload.get "created_at").text 10⟩
  let necessity ←
    self_check new_id new_text KIND_NECESSITY judge_model session_id (judge_necessity entry)
  let safety ← self_check new_id new_text KIND_SAFETY judge_model session_id (judge_safety entry)
  let correctness ← self_check new_id new_text KIND_CORRECTNESS judge_model session_id
    (judge_correctness entry payload)
  pure { necessity, safety, correctness }

/-- What `is_displacement_protected` looks at. -/
def is_displacement_protected (payload : Payload) (now : String) : Bool :=
  let until_ := payload.get DISPLACEMENT_PROTECTED_UNTIL
  until_.truthy && decide (now < until_.toStr)

/-- `result_item_superseded`. -/
def result_item_superseded (item : Item) : List Id :=
  if superseded_ids item.metadata ≠ [] then superseded_ids item.metadata
  else superseded_ids item.top

/-- The neighbours worth judging: at most `top_k` of the hits that are active,
unprotected and not the entry itself. -/
def displacement_candidates (new_id : Id) (now : String) (top_k : ℕ) :
    List Item → List JudgeEntry → List JudgeEntry
  | [], candidates => candidates
  | item :: items, candidates =>
    -- superseded and protected memories are left out; whether one has expired is not looked
    -- at
    if item.id = "" ∨ item.id = new_id ∨ result_item_superseded item ≠ [] ∨
        is_displacement_protected item.metadata now ∨ is_displacement_protected item.top now then
      displacement_candidates new_id now top_k items candidates
    else
      let candidates := candidates ++ [⟨item.id, (item.top.get "memory").text,
        prefix_of (item.top.get "created_at").text 10⟩]
      if top_k ≤ candidates.length then candidates
      else displacement_candidates new_id now top_k items candidates

structure StaleReport where
  new_id : Id
  skipped : Option String := none
  judged : ℕ := 0
  opened : ℕ := 0
  cached : ℕ := 0
  self_report : Option SelfReport := none

/-- Record one displacement verdict; counts the suspicions opened. -/
def record_displacement (new_id : Id) (candidates : List JudgeEntry)
    (judge_model session_id : Option String) (opened : ℕ) (v : Id × Verdict) : Code ℕ := do
  let model ← Prog.perform (I := Api) (.active_model judge_model)
  let old_text := ((candidates.find? fun c => c.id = v.1).map JudgeEntry.text).getD ""
  let (row, inserted) ← pair_store.record_judgment
    { new_id, old_id := v.1, old_text, verdict := v.2.verdict, confidence := v.2.confidence
      reason := v.2.reason, judge_model := model, new_session_id := session_id }
  pure (if row.is_open && inserted then opened + 1 else opened)

/-- Judge one entry: its own checks, then displacement against its neighbours.
Writes evidence rows only. -/
def run_stale_check (new_id : Id) (session_id judge_model : Option String)
    (top_k : ℕ := STALE_CHECK_TOP_K) (self_only : Bool := false) : Code StaleReport := do
  let found ← point_payload new_id
  match found with
  | none => pure { new_id, skipped := some "memory no longer exists" }
  | some payload =>
    if is_invalidated payload then
      pure { new_id, skipped := some "memory already invalidated" }
    else
      let new_text := payload_text payload
      if new_text = "" then pure { new_id, skipped := some "empty text" }
      else do
        let self_report ← run_self_checks new_id new_text payload judge_model session_id
        if self_only then pure { new_id, self_report := some self_report }
        else do
          let user_id := payload.get "user_id"
          let filters : Filters :=
            if user_id.truthy then [("user_id", .value user_id.toStr)] else []
          -- more than are judged, for those that are left out below
          let items ← Mem0.search new_text (max (top_k * 2) (top_k + 10)) filters
          let now ← now_iso
          let candidates := displacement_candidates new_id now top_k items []
          let already ← pair_store.judged_either new_id new_text
            (candidates.map fun c => (c.id, c.text))
          -- pairs judged before, in either direction, are not judged again
          let fresh := candidates.filter fun c => c.id ∉ already
          if fresh = [] then
            pure { new_id, cached := already.length, self_report := some self_report }
          else do
            let entry : JudgeEntry :=
              ⟨new_id, new_text, prefix_of (payload.get "created_at").text 10⟩
            let judgments ← Prog.perform (I := Api) (.judge entry fresh)
            let opened ← judgments.foldlM
              (record_displacement new_id fresh judge_model session_id) 0
            pure { new_id, judged := judgments.length, opened, cached := already.length
                   self_report := some self_report }

end Memline
