/-
The handoff review: whether a session may say that it is done.

The verdict is "pass" when nothing blocks it. What blocks is read off the queue (checks
of the session's writes that are pending, adds of its own that failed) and off the open
suspicions. The session of a queued event is read in its arguments, so this file also
has the command that queues an add, up to the row the daemon makes of it.

The report's previews of memories and its playbook texts are left out.
-/
import Memline.Cli
import Memline.Desk

set_option autoImplicit false

namespace Memline

open SqlTable History

variable {Val : Type}

/-! ## Queueing an add -/

namespace cli

/-- The options of `add`, its content read and its metadata parsed. -/
structure AddOptions where
  content : Arg
  user_id : String
  agent_id : Option String := none
  app_id : Option String := none
  run_id : Option String := none
  metadata : Payload := ∅
  timestamp : Option String := none
  ledger_timestamp : Option String := none

/-- One run of the command. -/
structure AddCommand where
  client : Client
  options : AddOptions
  ingested_at : String

/-- `if value: meta.setdefault(key, value)`. -/
def default_if (fields : Payload) (key : String) (value : Option String) : Payload :=
  match value with
  | some s => if s = "" then fields else fields.setdefault key (.str s)
  | none => fields

/-- Who writes, as metadata, agent and run. -/
def writer_metadata (client : Client) (options : AddOptions) : Payload × String × String :=
  let detected := default_if (default_if options.metadata "source" client.source)
    "session_id" client.session_id
  -- what the metadata says is kept, what it leaves out is detected or the default
  let sourced := detected.setdefault "source" (.str client.manual_source)
  let agent_id := options.agent_id.getD
    ((sourced.get "source").or_else (.str client.manual_source)).toStr
  let run_id := options.run_id.getD
    ((sourced.get "session_id").or_else (.str client.manual_session)).toStr
  let origin := if sourced.get "source" = .str "agent-memory-ledger" then "ledger_import"
    else "live_agent"
  let fields := (((sourced.setdefault "session_id" (.str run_id)).setdefault
    "writer_agent_id" (.str agent_id)).setdefault "origin" (.str origin)).setdefault
    "memory_schema_version" client.memory_schema_version
  (default_if fields "app_id" options.app_id, agent_id, run_id)

/-- The timestamps of a new memory. -/
def dated_metadata (normalize_timestamp : Option String → Except Exn (Option String))
    (options : AddOptions) (ingested_at : String) (fields : Payload) : Except Exn Payload := do
  let given ← normalize_timestamp options.timestamp
  -- the option, else the metadata, else the moment
  let created_at :=
    ((Value.ofOption given).or_else (fields.get "created_at")).or_else (.str ingested_at)
  let created ← normalize_timestamp (some created_at.toStr)
  let ledger ← normalize_timestamp options.ledger_timestamp
  let ledger_timestamp := ((Value.ofOption ledger).or_else (fields.get "ledger_timestamp")).or_else
    (.ofOption created)
  pure (((fields.set "created_at" (.ofOption created)).set "ledger_timestamp"
    ledger_timestamp).setdefault "ingested_at" (.str ingested_at))

/-- What an extraction add that does not wait sends to the daemon. -/
def AddCommand.request (normalize_timestamp : Option String → Except Exn (Option String))
    (command : AddCommand) : Except Exn Args := do
  let (fields, agent_id, run_id) := writer_metadata command.client command.options
  let dated ← dated_metadata normalize_timestamp command.options command.ingested_at fields
  pure (.ofList [
    ("content", command.options.content),
    ("user_id", .value (.str command.options.user_id)),
    ("agent_id", .value (.str agent_id)),
    ("run_id", .value (.str run_id)),
    ("metadata", if dated.truthy then .dict dated else .value .none),
    ("infer", .value (.atom (.other "True" true))),
    ("async", .value (.atom (.other "True" true)))])

end cli

/-- What the daemon enqueues for an add that is not to be waited for. -/
def daemon.add_payload (args : Args) : Args := args.without "async"

/-- No queued add says at its top which session it is of. -/
theorem cli.AddCommand.request_session_id
    {normalize_timestamp : Option String → Except Exn (Option String)} {command : cli.AddCommand}
    {args : Args} (h : command.request normalize_timestamp = .ok args) :
    (daemon.add_payload args).get "session_id" = .value .none := by
  obtain ⟨entries, rfl, hkeys⟩ : ∃ entries, args = .ofList entries ∧
      ∀ e ∈ entries, e.1 ≠ "session_id" := by
    rcases hdated : cli.dated_metadata normalize_timestamp command.options command.ingested_at
      (cli.writer_metadata command.client command.options).1 with e | dated
    · simp only [cli.AddCommand.request, hdated] at h
      cases h
    · simp only [cli.AddCommand.request, hdated] at h
      injection h with h
      refine ⟨_, h.symm, fun e he => ?_⟩
      simp only [List.mem_cons, List.not_mem_nil, or_false] at he
      rcases he with rfl | rfl | rfl | rfl | rfl | rfl | rfl <;> simp
  rw [daemon.add_payload, Args.get_without_ne _ (by decide)]
  exact Args.get_ofList_ne hkeys

/-! ## Open pairs -/

/-- Newest first; rows of one moment come in the reverse order of their insertion. -/
def PairStore.open_pairs (s : PairStore) (session_id kind : Option String) (limit : ℕ) :
    List PairRow :=
  let rows := s.rows.filter fun r => decide (r.disposition = "open" ∧
    (session_id.getD "" = "" ∨ r.new_session_id = session_id) ∧
    (kind.getD "" = "" ∨ some r.kind = kind))
  (rows.reverse.insertionSort fun a b => b.judged_at ≤ a.judged_at).take limit

namespace review

/-- The limit of every listing the review reads. -/
def LIMIT : ℕ := 500

/-- `pair.get("kind") or "displacement"`. -/
def kind_of (r : PairRow) : String := if r.kind = "" then KIND_DISPLACEMENT else r.kind

/-- `_SELF_FLAG_ORDER`. -/
def self_flag_order (kind : String) : ℕ :=
  if kind = KIND_SAFETY then 0
  else if kind = KIND_CORRECTNESS then 1
  else if kind = KIND_NECESSITY then 2
  else 9

/-! ## The two looks at the queue -/

/-- A staleness check that is still to come. -/
def awaited (r : EventRow Val) : Bool :=
  decide (r.op = "stale_check") &&
    (decide (r.status = .queued) || decide (r.status = .processing))

/-- A failed add that nobody has acknowledged. -/
def lost (r : EventRow Val) : Bool :=
  decide (r.op = "add") && decide (r.status = .failed) && !r.acked

def pending_stale_checks (order : EventQueue.NewestFirst Val) (session : String)
    (queue : EventQueue Val) : ℕ :=
  (queue.list order none LIMIT 0).countP fun row =>
    awaited row && ((queue.get_args row.id).getD ∅).holds "session_id" session

def failed_own_adds (order : EventQueue.NewestFirst Val) (session : String)
    (queue : EventQueue Val) : List Id :=
  ((queue.list order (some .failed) LIMIT 0).filter fun row =>
    lost row && ((queue.get_args row.id).getD ∅).holds "session_id" session).map fun row => row.id

/-- The content the last count of pending checks is of. `later` is what the queue holds
at the polls that `--wait` leaves time for; without it there are none. -/
def last_poll (order : EventQueue.NewestFirst Val) (session : String) :
    EventQueue Val → List (EventQueue Val) → EventQueue Val
  | queue, [] => queue
  | queue, next :: later =>
    if pending_stale_checks order session queue = 0 then queue
    else last_poll order session next later

/-! ## The verdict -/

/-- A named blocker, with the ids of what blocks under the name they are listed by. -/
structure Blocker where
  kind : String
  count : ℕ
  ids : Option (String × List Id)
  why : String
  how : String
  deriving DecidableEq

/-- What the queue and the store held when the review read them. -/
structure Desktop (Val : Type) where
  first : EventQueue Val
  later : List (EventQueue Val)
  settled : EventQueue Val
  pairs : PairStore

/-- The content that the pending checks are counted in. -/
def Desktop.polled (desk : Desktop Val) (order : EventQueue.NewestFirst Val) (session : String) :
    EventQueue Val :=
  last_poll order session desk.first desk.later

/-- The report. -/
structure Review where
  session : String
  verdict : String
  blocking : List Blocker
  pending_stale_checks : ℕ
  open_pairs : List PairRow
  self_flags : List PairRow
  ttl_expired : List PairRow

/-- A blocker that is there when something is listed under it. -/
def block_if (kind name why how : String) (ids : List Id) : List Blocker :=
  if ids = [] then [] else [⟨kind, ids.length, some (name, ids), why, how⟩]

def block_pending (pending : ℕ) : List Blocker :=
  if pending = 0 then []
  else [⟨"pending_stale_checks", pending, none,
    "this session's writes are still being judged; a verdict now would be premature",
    "memline review --wait"⟩]

def block_flags (self_flags : List PairRow) (flag_kind : String) : List Blocker :=
  block_if s!"self_flag:{flag_kind}" "memory_ids"
    s!"this session's own writes carry unresolved {flag_kind} flags" "see how_to_dispose"
    ((self_flags.filter fun f => decide (f.kind = flag_kind)).map fun f => f.old_id)

def block_displacement (displacement : List PairRow) : List Blocker :=
  block_if "displacement_raised_by_me" "pair_ids"
    "retirements that this session's writes raised are still undisposed"
    "stale confirm|dismiss|merge <pair_id>, or update <old_id>"
    (displacement.map fun p => p.pair_id)

def block_expired (ttl_expired : List PairRow) : List Blocker :=
  block_if "ttl_expired" "pair_ids"
    ("entries whose TTL fired are unreviewed; any session may dispose them, " ++
      "so this one is obliged to")
    "stale confirm <pair_id> (accept the expiry) | stale ttl <pair_id> --days N (renew)"
    (ttl_expired.map fun p => p.pair_id)

def block_failed (failed_adds : List Id) : List Blocker :=
  block_if "failed_adds" "event_ids" "this session queued writes that never landed in the store"
    "event retry <event_id> | event ack <event_id>" failed_adds

/-- The session's writes, the suspicions they raised, and the verdict. -/
def session_review (order : EventQueue.NewestFirst Val) (session : String) (desk : Desktop Val) :
    Review :=
  let pending := pending_stale_checks order session (desk.polled order session)
  let all_pairs := desk.pairs.open_pairs (some session) none LIMIT
  let displacement := all_pairs.filter fun p => decide (kind_of p = KIND_DISPLACEMENT)
  let self_flags := (all_pairs.filter fun p =>
    decide (kind_of p ≠ KIND_DISPLACEMENT ∧ kind_of p ≠ KIND_TTL_EXPIRY)).insertionSort
      fun f g => self_flag_order f.kind ≤ self_flag_order g.kind
  -- expiries are nobody's writes: those of all sessions are listed
  let ttl_expired := desk.pairs.open_pairs none (some KIND_TTL_EXPIRY) LIMIT
  let blocking := block_pending pending ++
    [KIND_SAFETY, KIND_CORRECTNESS, KIND_NECESSITY].flatMap (block_flags self_flags) ++
    block_displacement displacement ++ block_expired ttl_expired ++
    block_failed (failed_own_adds order session desk.settled)
  { session
    verdict := if blocking = [] then "pass" else "blocked"
    blocking
    pending_stale_checks := pending
    open_pairs := displacement
    self_flags
    ttl_expired }

/-! ## When the review passes -/

/-- The arguments of the event name the session. -/
def names (session : String) (r : EventRow Val) : Bool := r.args.holds "session_id" session

/-- The arguments of an event are those of its row. -/
theorem get_args_of_mem {q : EventQueue Val} {row : EventRow Val} (h : row ∈ q.rows) :
    q.get_args row.id = some row.args := by
  have hfind : q.find row.id = some row := q.id_unique.lookup_eq h
  rw [EventQueue.get_args, hfind]
  rfl

theorem mem_of_list {q : EventQueue Val} {order : EventQueue.NewestFirst Val}
    {status : Option EventStatus} {limit offset : ℕ} {row : EventRow Val}
    (h : row ∈ q.list order status limit offset) : row ∈ q.rows := by
  have hsorted := List.mem_of_mem_drop (List.mem_of_mem_take h)
  exact (List.mem_filter.mp ((order.perm _).subset hsorted)).1

/-- A row that `limit` rows are newer than is not listed. -/
theorem not_mem_list {q : EventQueue Val} {order : EventQueue.NewestFirst Val} {limit : ℕ}
    {row : EventRow Val}
    (h : limit ≤ q.rows.countP fun r => decide (row.created_at < r.created_at)) :
    row ∉ q.list order none limit 0 := by
  intro hmem
  have hrows : q.list order none limit 0 = (order.sort q.rows).take limit := by
    simp [EventQueue.list]
  rw [hrows] at hmem
  obtain ⟨before, after, hsplit⟩ := List.append_of_mem hmem
  -- what is newer than the row comes before it, and that is less than the limit
  have hsort : order.sort q.rows = before ++ row :: (after ++ (order.sort q.rows).drop limit) := by
    rw [← List.cons_append, ← List.append_assoc, ← hsplit, List.take_append_drop]
  have hsorted := order.sorted q.rows
  rw [hsort, List.pairwise_append, List.pairwise_cons] at hsorted
  have hafter : (after ++ (order.sort q.rows).drop limit).countP
      (fun r => decide (row.created_at < r.created_at)) = 0 :=
    List.countP_eq_zero.mpr fun r hr hnewer =>
      absurd (of_decide_eq_true hnewer) (not_lt.mpr (hsorted.2.1.1 r hr))
  have hcount := (order.perm q.rows).countP_eq fun r => decide (row.created_at < r.created_at)
  rw [hsort, List.countP_append, List.countP_cons, hafter] at hcount
  have hbefore := List.countP_le_length (p := fun r => decide (row.created_at < r.created_at))
    (l := before)
  have hlength := congrArg List.length hsplit
  rw [List.length_append, List.length_cons, List.length_take] at hlength
  simp only [lt_irrefl, decide_false, Bool.false_eq_true, if_false] at hcount
  omega

/-- Nothing is pending when no awaited check of the session is among the events that were listed. -/
theorem pending_eq_zero {order : EventQueue.NewestFirst Val} {session : String}
    {q : EventQueue Val} : pending_stale_checks order session q = 0 ↔
      ¬ ∃ row ∈ q.list order none LIMIT 0, awaited row = true ∧ names session row = true := by
  rw [pending_stale_checks, List.countP_eq_zero, not_exists]
  refine forall_congr' fun row => ?_
  rw [not_and]
  refine imp_congr_right fun hrow => ?_
  rw [get_args_of_mem (mem_of_list hrow), Option.getD_some, Bool.and_eq_true]
  rfl

/-- No add is lost when none of the session's is among the failed events that were listed. -/
theorem failed_own_adds_eq_nil {order : EventQueue.NewestFirst Val} {session : String}
    {q : EventQueue Val} : failed_own_adds order session q = [] ↔
      ¬ ∃ row ∈ q.list order (some .failed) LIMIT 0, lost row = true ∧
        names session row = true := by
  rw [failed_own_adds, List.map_eq_nil_iff, List.filter_eq_nil_iff, not_exists]
  refine forall_congr' fun row => ?_
  rw [not_and]
  refine imp_congr_right fun hrow => ?_
  rw [get_args_of_mem (mem_of_list hrow), Option.getD_some, Bool.and_eq_true]
  rfl

/-- Open suspicions that the session has to settle: those its writes raised, of the
kinds that block, and every expiry. -/
def Unsettled (pairs : PairStore) (session : String) : Prop :=
  (∃ p ∈ pairs.open_pairs (some session) none LIMIT,
      kind_of p ∈ [KIND_DISPLACEMENT, KIND_SAFETY, KIND_CORRECTNESS, KIND_NECESSITY]) ∨
    ∃ p ∈ pairs.rows, p.disposition = "open" ∧ p.kind = KIND_TTL_EXPIRY

/-- A blocker is named when there is something to name. -/
theorem block_if_eq_nil {kind name why how : String} {ids : List Id} :
    block_if kind name why how ids = [] ↔ ids = [] := by
  unfold block_if
  split <;> simp_all

theorem block_pending_eq_nil {pending : ℕ} : block_pending pending = [] ↔ pending = 0 := by
  unfold block_pending
  split <;> simp_all

theorem block_flags_eq_nil {self_flags : List PairRow} {flag_kind : String} :
    block_flags self_flags flag_kind = [] ↔ ∀ f ∈ self_flags, f.kind ≠ flag_kind := by
  rw [block_flags, block_if_eq_nil, List.map_eq_nil_iff, List.filter_eq_nil_iff]
  simp

/-- No flag of an expiry is open when no row is one. -/
theorem open_expired_eq_nil {pairs : PairStore} :
    pairs.open_pairs none (some KIND_TTL_EXPIRY) LIMIT = [] ↔
      ¬ ∃ p ∈ pairs.rows, p.disposition = "open" ∧ p.kind = KIND_TTL_EXPIRY := by
  have hlimit : LIMIT ≠ 0 := by decide
  rw [PairStore.open_pairs, List.take_eq_nil_iff, or_iff_right hlimit,
    ← List.length_eq_zero_iff, List.length_insertionSort, List.length_reverse,
    List.length_eq_zero_iff, List.filter_eq_nil_iff]
  have hkind : KIND_TTL_EXPIRY ≠ "" := by decide
  simp [hkind]

theorem kind_of_eq {p : PairRow} {kind : String} (hkind : kind ≠ KIND_DISPLACEMENT)
    (hempty : kind ≠ "") : kind_of p = kind ↔ p.kind = kind := by
  unfold kind_of
  split
  · rename_i hnone
    rw [hnone]
    exact iff_of_false hkind.symm hempty.symm
  · rfl

/-- No pair is listed as a retirement or under a kind of flag that blocks. -/
theorem own_pairs_eq_nil {all_pairs : List PairRow} :
    ((∀ kind ∈ [KIND_SAFETY, KIND_CORRECTNESS, KIND_NECESSITY],
        ∀ f ∈ (all_pairs.filter fun p =>
          decide (kind_of p ≠ KIND_DISPLACEMENT ∧ kind_of p ≠ KIND_TTL_EXPIRY)).insertionSort
            fun f g => self_flag_order f.kind ≤ self_flag_order g.kind, f.kind ≠ kind) ∧
        (all_pairs.filter fun p => decide (kind_of p = KIND_DISPLACEMENT)) = []) ↔
      ¬ ∃ p ∈ all_pairs,
        kind_of p ∈ [KIND_DISPLACEMENT, KIND_SAFETY, KIND_CORRECTNESS, KIND_NECESSITY] := by
  have hflag : ∀ kind ∈ [KIND_SAFETY, KIND_CORRECTNESS, KIND_NECESSITY],
      kind ≠ KIND_DISPLACEMENT ∧ kind ≠ KIND_TTL_EXPIRY ∧ kind ≠ "" := by decide
  rw [List.filter_eq_nil_iff]
  constructor
  · rintro ⟨hflags, hdisplacement⟩ ⟨p, hp, hkind⟩
    rcases List.mem_cons.mp hkind with hraised | hflagged
    · exact hdisplacement p hp (decide_eq_true hraised)
    · obtain ⟨hd, ht, hempty⟩ := hflag _ hflagged
      refine hflags _ hflagged p ?_ ((kind_of_eq hd hempty).mp rfl)
      exact (List.mem_insertionSort _).mpr (List.mem_filter.mpr ⟨hp, decide_eq_true ⟨hd, ht⟩⟩)
  · refine fun hnone => ⟨fun kind hkind f hf hfkind => hnone ?_, fun p hp hraised => hnone ?_⟩
    · obtain ⟨hd, -, hempty⟩ := hflag kind hkind
      have hmem := (List.mem_filter.mp ((List.mem_insertionSort _).mp hf)).1
      exact ⟨f, hmem, List.mem_cons_of_mem _ ((kind_of_eq hd hempty).mpr hfkind ▸ hkind)⟩
    · exact ⟨p, hp, List.mem_cons.mpr (.inl (of_decide_eq_true hraised))⟩

theorem verdict_eq_pass {order : EventQueue.NewestFirst Val} {session : String}
    {desk : Desktop Val} : (session_review order session desk).verdict = "pass" ↔
      (session_review order session desk).blocking = [] := by
  simp only [session_review]
  split <;> simp_all

/-- The review passes when there is nothing of what blocks it. -/
theorem passes_iff {order : EventQueue.NewestFirst Val} {session : String} {desk : Desktop Val} :
    (session_review order session desk).verdict = "pass" ↔
      (¬ ∃ row ∈ (desk.polled order session).list order none LIMIT 0,
        awaited row = true ∧ names session row = true) ∧
      ¬ Unsettled desk.pairs session ∧
      ¬ ∃ row ∈ desk.settled.list order (some .failed) LIMIT 0,
        lost row = true ∧ names session row = true := by
  rw [verdict_eq_pass, ← pending_eq_zero, ← failed_own_adds_eq_nil, Unsettled, not_or,
    ← open_expired_eq_nil, ← own_pairs_eq_nil]
  simp only [session_review, List.append_eq_nil_iff, block_pending_eq_nil, block_failed,
    block_displacement, block_expired, block_if_eq_nil, List.flatMap_eq_nil_iff,
    block_flags_eq_nil, List.map_eq_nil_iff, and_assoc]

/-! ## Checks that are still to come -/

/-- **The verdict waits for the session's checks** exactly when, should any be pending,
one is among the newest rows that are listed or something else blocks the verdict. A
check that as many newer rows stand before is overlooked. -/
theorem checks_awaited (order : EventQueue.NewestFirst Val) (session : String)
    (desk : Desktop Val) :
    ((session_review order session desk).verdict = "pass" →
        ∀ row ∈ (desk.polled order session).rows, awaited row = true →
          names session row = false) ↔
      ((∃ row ∈ (desk.polled order session).rows, awaited row = true ∧ names session row = true) →
        (∃ row ∈ (desk.polled order session).list order none LIMIT 0,
          awaited row = true ∧ names session row = true) ∨
        Unsettled desk.pairs session ∨
        ∃ row ∈ desk.settled.list order (some .failed) LIMIT 0,
          lost row = true ∧ names session row = true) := by
  rw [passes_iff]
  constructor
  · rintro hpass ⟨row, hrow, hawaited, hnames⟩
    -- with none of the three to hold it up, the review passes
    by_contra hnone
    rw [not_or, not_or] at hnone
    exact absurd hnames (Bool.not_eq_true _ ▸ hpass hnone row hrow hawaited)
  · rintro hblocks ⟨hquiet, hsettled, hlanded⟩ row hrow hawaited
    by_contra hnames
    rcases hblocks ⟨row, hrow, hawaited, Bool.not_eq_false _ ▸ hnames⟩ with h | h | h
    · exact hquiet h
    · exact hsettled h
    · exact hlanded h

/-- Newest first, and rows of one moment in the order of their insertion. -/
def insertion_order (Val : Type) : EventQueue.NewestFirst Val where
  sort := List.insertionSort fun a b => b.created_at ≤ a.created_at
  perm := List.perm_insertionSort _
  sorted := fun rows => by
    have : Std.Total fun a b : EventRow Val => b.created_at ≤ a.created_at :=
      ⟨fun a b => le_total b.created_at a.created_at⟩
    have : IsTrans (EventRow Val) fun a b => b.created_at ≤ a.created_at :=
      ⟨fun _ _ _ hab hbc => hbc.trans hab⟩
    exact List.pairwise_insertionSort _ rows

/-- The check of a session's write. -/
def first_check : EventRow Unit :=
  EventQueue.queued_row Unit "check" "stale_check"
    (.ofList [("new_id", .value (.str "m")), ("session_id", .value (.str "s"))]) "0"

/-- The check, and after it as many adds as a listing holds. -/
def crowd : List (EventRow Unit) :=
  first_check :: (List.range LIMIT).map fun n =>
    EventQueue.queued_row Unit ("add" ++ tally n) "add" ∅ "1"

theorem crowd_unique : Unique (fun r : EventRow Unit => r.id) crowd := by
  have hids : crowd.map (fun r => r.id) =
      "check" :: (List.range LIMIT).map fun n => "add" ++ tally n := by
    simp only [crowd, List.map_cons, List.map_map]
    rfl
  rw [SqlTable.Unique, hids, List.nodup_cons]
  refine ⟨fun hmem => ?_, List.nodup_range.map (tally_injective "add")⟩
  obtain ⟨n, -, heq⟩ := List.mem_map.mp hmem
  have hletters := congrArg (fun s => s.toList.head?) heq
  rw [String.toList_append] at hletters
  have hfirst : some 'a' = some 'c' := hletters
  exact absurd hfirst (by decide)

theorem crowd_newer :
    (crowd.countP fun r => decide (first_check.created_at < r.created_at)) = LIMIT := by
  have hadds : ((List.range LIMIT).map fun n =>
      EventQueue.queued_row Unit ("add" ++ tally n) "add" ∅ "1").countP
        (fun r => decide (first_check.created_at < r.created_at)) = LIMIT := by
    rw [List.countP_eq_length.mpr, List.length_map, List.length_range]
    intro r hr
    obtain ⟨n, -, rfl⟩ := List.mem_map.mp hr
    have hlater : ("0" : String) < "1" := by decide +kernel
    exact decide_eq_true hlater
  rw [crowd, List.countP_cons, hadds]
  exact congrArg (LIMIT + ·) (if_neg fun h => lt_irrefl _ (of_decide_eq_true h))

def crowded : EventQueue Unit := ⟨crowd, crowd_unique⟩

/-- The check is not among the events that the review lists. -/
theorem first_check_unlisted :
    first_check ∉ crowded.list (insertion_order Unit) none LIMIT 0 :=
  not_mem_list crowd_newer.ge

/-- Five hundred newer events hide a check from the review. -/
theorem check_overlooked :
    ¬ ∀ (order : EventQueue.NewestFirst Unit) (session : String) (desk : Desktop Unit),
      (session_review order session desk).verdict = "pass" →
        ∀ row ∈ (desk.polled order session).rows, awaited row = true →
          names session row = false := by
  intro h
  have hpass : (session_review (insertion_order Unit) "s" ⟨crowded, [], crowded, .empty⟩).verdict =
      "pass" := by
    refine passes_iff.mpr ⟨?_, ?_, ?_⟩
    · rintro ⟨row, hrow, hawaited, -⟩
      rcases List.mem_cons.mp (mem_of_list hrow) with rfl | hadd
      · exact first_check_unlisted hrow
      · obtain ⟨n, -, rfl⟩ := List.mem_map.mp hadd
        cases hawaited
    · rintro (⟨p, hp, -⟩ | ⟨p, hp, -⟩)
      · cases hp
      · cases hp
    · rintro ⟨row, hrow, hlost, -⟩
      rcases List.mem_cons.mp (mem_of_list hrow) with rfl | hadd
      · cases hlost
      · obtain ⟨n, -, rfl⟩ := List.mem_map.mp hadd
        cases hlost
  have hmissed : names "s" first_check = false :=
    h _ _ _ hpass first_check List.mem_cons_self rfl
  exact absurd hmissed (by decide)

/-! ## Adds that failed -/

/-- The events are those the commands queued, each under the id its command was told. -/
def QueuedBy (normalize_timestamp : Option String → Except Exn (Option String))
    (acts : List (Desk.Act Val)) (commands : List (Id × cli.AddCommand)) : Prop :=
  ∀ event_id op args now, .enqueue event_id op args now ∈ acts →
    ∀ command, (event_id, command) ∈ commands →
      op = "add" ∧ ∃ request, command.request normalize_timestamp = .ok request ∧
        args = daemon.add_payload request

/-- The arguments of a queued add do not name a session where the review looks. -/
theorem not_names_of_queued {normalize_timestamp : Option String → Except Exn (Option String)}
    {acts : List (Desk.Act Val)} {commands : List (Id × cli.AddCommand)} {d : Desk Val}
    (hrun : run Desk.step Desk.opened acts = some d)
    (hqueued : QueuedBy normalize_timestamp acts commands) {row : EventRow Val}
    (hrow : row ∈ d.queue.rows) (hown : row.id ∈ commands.map Prod.fst) (session : String) :
    names session row = false := by
  obtain ⟨⟨event_id, command⟩, hcommand, hid⟩ := List.mem_map.mp hown
  have henqueued := Desk.row_run hrun row hrow
  obtain ⟨-, request, hrequest, hargs⟩ := hqueued _ _ _ _ henqueued command (hid ▸ hcommand)
  have hsession := cli.AddCommand.request_session_id hrequest
  rw [names, Args.holds, hargs, hsession]
  rfl

/-- **The adds of a session are settled** when its review passes, exactly when none of
them has failed unseen, or something blocks the verdict that is not one of them. A queued
add says in its metadata which session it is of, and the review looks beside it: no add
that a command queued ever blocks. -/
theorem adds_settled (order : EventQueue.NewestFirst Val) (session : String)
    (normalize_timestamp : Option String → Except Exn (Option String))
    {acts : List (Desk.Act Val)} {commands : List (Id × cli.AddCommand)} {d : Desk Val}
    (hrun : run Desk.step Desk.opened acts = some d)
    (hqueued : QueuedBy normalize_timestamp acts commands) (first : EventQueue Val)
    (later : List (EventQueue Val)) (pairs : PairStore) :
    let desk : Desktop Val := ⟨first, later, d.queue, pairs⟩
    ((session_review order session desk).verdict = "pass" →
        ∀ row ∈ d.queue.rows, row.id ∈ commands.map Prod.fst → lost row = false) ↔
      ((∃ row ∈ d.queue.rows, row.id ∈ commands.map Prod.fst ∧ lost row = true) →
        (∃ row ∈ (desk.polled order session).list order none LIMIT 0,
          awaited row = true ∧ names session row = true) ∨
        Unsettled pairs session ∨
        ∃ row ∈ d.queue.list order (some .failed) LIMIT 0, row.id ∉ commands.map Prod.fst ∧
          lost row = true ∧ names session row = true) := by
  intro desk
  -- the rows of the queued commands name no session, so a failed row that names this one is not
  -- theirs
  have hforeign : (∃ row ∈ d.queue.list order (some .failed) LIMIT 0,
      lost row = true ∧ names session row = true) ↔
      ∃ row ∈ d.queue.list order (some .failed) LIMIT 0, row.id ∉ commands.map Prod.fst ∧
        lost row = true ∧ names session row = true := by
    refine exists_congr fun row => and_congr_right fun hrow => ?_
    refine ⟨fun h => ⟨fun hown => ?_, h⟩, fun h => h.2⟩
    have hunnamed := not_names_of_queued hrun hqueued (mem_of_list hrow) hown session
    exact absurd h.2 (Bool.not_eq_true _ ▸ hunnamed)
  rw [passes_iff, ← hforeign]
  constructor
  · rintro hpass ⟨row, hrow, hown, hlost⟩
    by_contra hnone
    rw [not_or, not_or] at hnone
    exact absurd hlost (Bool.not_eq_true _ ▸ hpass hnone row hrow hown)
  · rintro hblocks ⟨hquiet, hsettled, hlanded⟩ row hrow hown
    by_contra hlost
    rcases hblocks ⟨row, hrow, hown, Bool.not_eq_false _ ▸ hlost⟩ with h | h | h
    · exact hquiet h
    · exact hsettled h
    · exact hlanded h

/-- A session queues the extraction of a note, which fails three times. -/
def note : cli.AddCommand where
  client := .plain "s"
  options := { content := .value (.str "the build is green"), user_id := "u" }
  ingested_at := "1"

def note_request : Args := (note.request .ok).toOption.getD ∅

def note_fails : List (Desk.Act Unit) :=
  [.start "1", .enqueue "e" "add" (daemon.add_payload note_request) "1",
    .claim "e" "2", .fail "e" "no answer" "3", .claim "e" "4", .fail "e" "no answer" "5",
    .claim "e" "6", .fail "e" "no answer" "7"]

def note_lost : Desk Unit := (run Desk.step Desk.opened note_fails).getD Desk.opened

/-- The note is queued by the command, and fails. -/
theorem note_queued : QueuedBy .ok note_fails [("e", note)] := by
  intro event_id op args now henqueue command hcommand
  obtain ⟨rfl, rfl⟩ : event_id = "e" ∧ command = note := by simpa using hcommand
  obtain ⟨rfl, rfl, -⟩ : op = "add" ∧ args = daemon.add_payload note_request ∧ now = "1" := by
    simpa [note_fails] using henqueue
  exact ⟨rfl, note_request, rfl, rfl⟩

/-- The review of a session whose note has landed. -/
theorem adds_settled_note :
    let desk : Desktop Unit := ⟨.empty, [], note_lost.queue, .empty⟩
    ((session_review (insertion_order Unit) "s" desk).verdict = "pass" →
        ∀ row ∈ note_lost.queue.rows, row.id ∈ ["e"] → lost row = false) ↔
      ((∃ row ∈ note_lost.queue.rows, row.id ∈ ["e"] ∧ lost row = true) →
        (∃ row ∈ (desk.polled (insertion_order Unit) "s").list (insertion_order Unit) none LIMIT 0,
          awaited row = true ∧ names "s" row = true) ∨
        Unsettled .empty "s" ∨
        ∃ row ∈ note_lost.queue.list (insertion_order Unit) (some .failed) LIMIT 0,
          row.id ∉ ["e"] ∧ lost row = true ∧ names "s" row = true) :=
  adds_settled (insertion_order Unit) "s" .ok
    (show run Desk.step Desk.opened note_fails = some note_lost from rfl) note_queued
      .empty [] .empty

/-- The review passes over the note that never landed. -/
theorem failed_add_passed :
    ¬ ∀ (order : EventQueue.NewestFirst Unit) (session : String)
      (normalize_timestamp : Option String → Except Exn (Option String))
      (acts : List (Desk.Act Unit)) (commands : List (Id × cli.AddCommand)) (d : Desk Unit),
      run Desk.step Desk.opened acts = some d → QueuedBy normalize_timestamp acts commands →
      (∀ c ∈ commands, c.2.client.session_id = some session) → ∀ pairs : PairStore,
      (session_review order session ⟨d.queue, [], d.queue, pairs⟩).verdict = "pass" →
        ∀ row ∈ d.queue.rows, row.id ∈ commands.map Prod.fst → lost row = false := by
  intro h
  have hpass : (session_review (insertion_order Unit) "s"
      ⟨note_lost.queue, [], note_lost.queue, .empty⟩).verdict = "pass" := by decide +kernel
  have hall := h (insertion_order Unit) "s" .ok note_fails [("e", note)] note_lost rfl note_queued
    (by decide +kernel) .empty hpass
  exact absurd hall (by decide +kernel)

end review

end Memline
