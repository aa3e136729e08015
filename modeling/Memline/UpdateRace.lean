/-
One `update` command against one lifecycle operation on the same memory.

The command reads the memory in its own process, builds the metadata of the new
version from that snapshot and sends it along; mem0 lays it over the payload it
finds and writes the whole payload back. The lifecycle operation patches the same
payload in one write. What is left of that patch depends on where it falls among
the three lookups of the command and its write.
-/
import Memline.Cli
import Memline.Interleaving
import Memline.Runs

set_option autoImplicit false

namespace Memline

open Effect Effect.Prog

/-! ## The calls of the command -/

/-- An outcome that is ok is that of the program. -/
theorem outcome_ret {α : Type} {p : Code α} {es : List Ev} {a : α}
    (h : Trace (cli.outcome p) es (.ret (.ok a))) : Trace p es (.ret a) := by
  unfold cli.outcome at h
  rcases Trace.tryCatch_ret h with h | ⟨e, es₁, es₂, -, -, h⟩
  · obtain ⟨b, es₁, es₂, rfl, h₁, h₂⟩ := h.bind_ret
    obtain ⟨rfl, heq⟩ := h₂.ret_ret
    injection heq with heq
    rw [List.append_nil, heq]
    exact h₁
  · obtain ⟨-, heq⟩ := h.ret_ret
    cases heq

/-- An audited program that returned, and the manifest row after it. -/
theorem audited_ret {α : Type} {operation : String} {p : Code α} {es : List Ev} {a : α}
    (h : Trace (cli.audited operation p) es (.ret a)) :
    ∃ es', es = es' ++ [⟨.audit operation, .ok ()⟩] ∧ Trace p es' (.ret a) := by
  unfold cli.audited at h
  obtain ⟨result, es₁, es₂, rfl, h₁, h₂⟩ := h.bind_ret
  cases result with
  | error e =>
    obtain ⟨_, _, _, -, -, h₃⟩ := h₂.bind_ret
    exact (Trace.raise_ret h₃).elim
  | ok b =>
    obtain ⟨⟨⟩, es₃, es₄, rfl, h₃, h₄⟩ := h₂.bind_ret
    obtain ⟨rfl, rfl⟩ := h₄.ret_ret
    obtain rfl := Trace.perform_ret h₃
    exact ⟨es₁, by simp, outcome_ret h₁⟩

theorem now_iso_ret {es : List Ev} {t : String} (h : Trace now_iso es (.ret t)) :
    es = [⟨.now_iso, .ok t⟩] := Trace.perform_ret h

/-- The timestamp of a ledger is asked of the clock, if of anything. -/
theorem ledger_timestamp_ret {item : Item} {es : List Ev} {v : Value}
    (h : Trace (cli.ledger_timestamp item) es (.ret v)) : ∀ e ∈ es, e.1 = .now_iso := by
  unfold cli.ledger_timestamp at h
  simp only at h
  split at h
  · obtain ⟨rfl, -⟩ := h.ret_ret
    simp
  · obtain ⟨now, es₁, es₂, rfl, h₁, h₂⟩ := h.bind_ret
    obtain ⟨rfl, -⟩ := h₂.ret_ret
    obtain rfl := now_iso_ret h₁
    simp

/-- The fields that the command sets itself. -/
def command_fields : List String :=
  ["created_at", "ledger_timestamp", "memory_schema_version", "updated_by_cli_at",
    "last_updated_by_agent_id", "last_updated_session_id"]

/-- Any other field comes from the given metadata, else from the snapshot. -/
theorem updated_memory_metadata_ret {client : cli.Client} {item : Item} {extra metadata : Payload}
    {es : List Ev}
    (h : Trace (cli.updated_memory_metadata client item extra) es (.ret metadata)) :
    (∀ e ∈ es, e.1 = .now_iso) ∧ ∀ key ∉ command_fields,
      metadata.lookup key = (extra.lookup key).or (item.metadata.lookup key) := by
  unfold cli.updated_memory_metadata at h
  simp only at h
  obtain ⟨ledger, es₁, es₂, rfl, h₁, h₂⟩ := h.bind_ret
  obtain ⟨now, es₃, es₄, rfl, h₃, h₄⟩ := h₂.bind_ret
  obtain ⟨rfl, rfl⟩ := h₄.ret_ret
  obtain rfl := now_iso_ret h₃
  constructor
  · intro e he
    rcases List.mem_append.mp he with he | he
    · exact ledger_timestamp_ret h₁ e he
    · rw [List.append_nil] at he
      rw [List.mem_singleton.mp he]
  · intro key hkey
    simp only [command_fields, List.mem_cons, List.not_mem_nil, or_false, not_or] at hkey
    obtain ⟨h₁, h₂, h₃, h₄, h₅, h₆⟩ := hkey
    rw [Payload.lookup_set_ne _ _ h₆, Payload.lookup_set_ne _ _ h₅, Payload.lookup_set_ne _ _ h₄,
      Payload.lookup_setdefault_ne _ _ h₃, Payload.lookup_setdefault_ne _ _ h₂]
    split
    · rw [Payload.lookup_set_ne _ _ h₁, Payload.lookup_merge]
    · rw [Payload.lookup_merge]

theorem lifecycle_not_command : ∀ f ∈ lifecycle_fields, f ∉ command_fields := by decide

theorem lifecycle_not_core : ∀ f ∈ lifecycle_fields, f ∉ Mem0.core_and_promoted_keys := by decide

/-- Getting a memory is one call, which has found it. -/
theorem cli_get_ret {memory_id : Id} {es : List Ev} {item : Item}
    (h : Trace (cli.get memory_id) es (.ret item)) :
    ∃ p, es = [⟨.vs_get memory_id, .ok (some p)⟩] ∧ item = Mem0.item_of memory_id p := by
  unfold cli.get Mem0.get at h
  obtain ⟨found, es₁, es₂, rfl, h₁, h₂⟩ := h.bind_ret
  obtain ⟨rfl, rfl⟩ := expect_ret h₂
  obtain ⟨p, es₃, es₄, rfl, h₃, h₄⟩ := h₁.bind_ret
  obtain ⟨rfl, heq⟩ := h₄.ret_ret
  obtain rfl := Trace.perform_ret h₃
  obtain ⟨q, hq, hitem⟩ := Option.map_eq_some_iff.mp heq.symm
  subst hq
  exact ⟨q, by simp, hitem.symm⟩

/-- **`update`, the command.** It looks the memory up three times, for its snapshot,
in the handler and in mem0, writes it once, and then only tidies up. -/
theorem cli_update_ret {host : Host} {client : cli.Client} {memory_id : Id} {text : String}
    {extra : Payload} {es : List Ev} {b : Option Bool}
    (h : Trace (cli.update host client memory_id text extra) es (.ret b)) :
    ∃ (p p' metadata : Payload) (clocks tail : List Ev) (r : Except Exn (Option Payload))
      (r' : Except Exn Unit) (now : String),
      es = (⟨.vs_get memory_id, .ok (some p)⟩ :: clocks ++ [⟨.vs_get memory_id, r⟩]) ++
        ⟨.vs_get memory_id, .ok (some p')⟩ :: ⟨.now_iso, .ok now⟩ ::
        ⟨.vs_upsert memory_id (Mem0.updated_payload host p' text metadata now), r'⟩ :: tail ∧
      (∀ e ∈ clocks, e.1 = .now_iso) ∧ (∀ e ∈ tail, tidies memory_id e.1) ∧
      ∀ f ∈ lifecycle_fields, metadata.lookup f = (extra.lookup f).or (p.lookup f) := by
  unfold cli.update at h
  obtain ⟨item, _, es, rfl, h₁, k₁⟩ := h.bind_ret
  obtain ⟨p, rfl, rfl⟩ := cli_get_ret h₁
  obtain ⟨_, _, es, rfl, h₂, k₂⟩ := k₁.bind_ret
  obtain ⟨rfl, -⟩ := refuse_if_ret h₂
  obtain ⟨metadata, clocks, es, rfl, h₃, k₃⟩ := k₂.bind_ret
  obtain ⟨hclocks, hcarries⟩ := updated_memory_metadata_ret h₃
  obtain ⟨es, rfl, h₄⟩ := audited_ret k₃
  obtain ⟨r, es', rfl, p', now, r', tail, rfl, htail⟩ :=
    (update_trace h₄).resolve_left fun h => h.2 trivial
  refine ⟨p, p', metadata, clocks, tail ++ [⟨.audit "update", .ok ()⟩], r, r', now, by simp,
    hclocks, fun e he => ?_, fun f hf => ?_⟩
  · rcases List.mem_append.mp he with he | he
    · exact htail e he
    · rw [List.mem_singleton.mp he]
      exact .inl rfl
  · rw [hcarries f (lifecycle_not_command f hf), Mem0.get_item_metadata (lifecycle_not_core f hf)]

/-! ## The calls of the lifecycle operation -/

/-- A request that rewrites the lifecycle fields of one memory. -/
inductive LifecycleOp where
  | invalidate (by_ids : List Id) (reason actor_id session_id : Option String)
  | revive (actor_id session_id : Option String)
  | set_ttl (mode : TtlMode) (actor_id : Option String)

def LifecycleOp.request (memory_id : Id) : LifecycleOp → ops.Request
  | .invalidate by_ids reason actor_id session_id =>
    .invalidate memory_id by_ids reason actor_id session_id
  | .revive actor_id session_id => .revive memory_id actor_id session_id
  | .set_ttl mode actor_id => .set_ttl memory_id mode actor_id

/-- Quiet calls, one payload write that succeeded, quiet calls. -/
def OneGoodWrite (memory_id : Id) (es : List Ev) : Prop :=
  ∃ es₁ patch es₂, es = es₁ ++ ⟨.vs_set_payload memory_id patch, .ok ()⟩ :: es₂ ∧
    Quiet es₁ ∧ Quiet es₂

theorem OneWrite.good {α : Type} {id : Id} {ok : List Ev → Payload → Prop} {es : List Ev}
    {a : α} (h : OneWrite id ok es (.ret a)) : OneGoodWrite id es := by
  rcases h with ⟨-, hret⟩ | ⟨es₁, patch, r, es₂, rfl, h₁, h₂, -, hr⟩
  · exact absurd trivial hret
  · rw [hr trivial]
    exact ⟨es₁, patch, es₂, rfl, h₁, h₂⟩

/-- A request that returned has patched the memory once. -/
theorem lifecycle_ret {host : Host} {memory_id : Id} {op : LifecycleOp} {es : List Ev}
    {a : ops.Response} (h : Trace (ops.dispatch host (op.request memory_id)) es (.ret a)) :
    OneGoodWrite memory_id es := by
  cases op with
  | invalidate by_ids reason actor_id session_id =>
    obtain ⟨_, es₁, es₂, rfl, h₁, h₂⟩ := Trace.bind_ret h
    obtain ⟨rfl, -⟩ := h₂.ret_ret
    rw [List.append_nil]
    exact (invalidate_trace h₁).good
  | revive actor_id session_id =>
    obtain ⟨_, es₁, es₂, rfl, h₁, h₂⟩ := Trace.bind_ret h
    obtain ⟨rfl, -⟩ := h₂.ret_ret
    rw [List.append_nil]
    exact (revive_trace h₁).good
  | set_ttl mode actor_id =>
    obtain ⟨_, es₁, es₂, rfl, h₁, h₂⟩ := Trace.bind_ret h
    obtain ⟨rfl, -⟩ := h₂.ret_ret
    rw [List.append_nil]
    exact (set_ttl_trace h₁).good

/-! ## Both on one store -/

/-- Run for the effect. -/
def discard {α : Type} (p : Code α) : Code Unit := do
  let _ ← p
  pure ()

/-- A result that does not matter is one all the same. -/
theorem discard_ret {α : Type} {p : Code α} {es : List Ev} {u : Unit}
    (h : Trace (discard p) es (.ret u)) : ∃ a, Trace p es (.ret a) := by
  obtain ⟨a, es₁, es₂, rfl, h₁, h₂⟩ := Trace.bind_ret h
  obtain ⟨rfl, -⟩ := h₂.ret_ret
  rw [List.append_nil]
  exact ⟨a, h₁⟩

/-- The arguments of one `update` command. -/
structure UpdateCommand where
  client : cli.Client
  text : String
  extra : Payload

/-- The command (`true`) and the request (`false`) under a schedule. -/
def update_race (host : Host) (w : World) (memory_id : Id) (u : UpdateCommand) (op : LifecycleOp)
    (sched : List Bool) : Conf Api Bool Unit World :=
  let programs : Bool → Code Unit
    | true => discard (cli.update host u.client memory_id u.text u.extra)
    | false => discard (ops.dispatch host (op.request memory_id))
  Conf.exec host.answer (Conf.start programs w) sched

/-- The lifecycle patch of a memory survives the command, which has made the calls
`before` ahead of it: its write is among them, or it writes back what the patch
left. For each field the patch turned `p` into `q` at, either the metadata given to
the command has the new value, or it has none and the snapshot was taken after the
patch, or the field did not change, or the snapshot did not have it and mem0 looked
the memory up after the patch. -/
def Survives (memory_id : Id) (extra p q : Payload) (before : List Ev) : Prop :=
  (∃ payload r, ⟨.vs_upsert memory_id payload, r⟩ ∈ before) ∨
    ∀ f ∈ lifecycle_fields, (∀ v, extra.lookup f = some v → v = q.get f) ∧
      (f ∉ extra → before = [] ∨ p.get f = q.get f ∨ (looked_up before).length < 3 ∧ f ∉ p)

/-- Tidying up leaves the lifecycle fields alone. -/
theorem lifecycle_kept {host : Host} {w w' : World} {memory_id : Id} {es : List Ev} {p : Payload}
    (h : Answered host.answer w es w') (hes : ∀ e ∈ es, tidies memory_id e.1)
    (hp : w.payload memory_id = some p) :
    ∃ p', w'.payload memory_id = some p' ∧ ∀ f ∈ lifecycle_fields, p'.get f = p.get f := by
  have hkeeps : ∀ f ∈ lifecycle_fields, f ∉ cleared_protection := by
    intro f hf
    rw [← AList.lookup_eq_none]
    have hne : ∀ f ∈ lifecycle_fields, ∀ g ∈ protection_fields, g ≠ f := by decide
    refine Payload.lookup_ofList_ne fun e he => ?_
    obtain ⟨g, hg, rfl⟩ := List.mem_map.mp he
    exact hne f hf g hg
  refine h.induction (P := fun t => ∃ p', t.payload memory_id = some p' ∧
    ∀ f ∈ lifecycle_fields, p'.get f = p.get f) ⟨p, hp, fun _ _ => rfl⟩ ?_
  rintro e he t ⟨p', hp', hsame⟩
  rcases hes e he with hq | hclear
  · exact ⟨p', (payload_congr (host.answer_points hq t) _).trans hp', hsame⟩
  · refine ⟨p'.merge cleared_protection, ?_, fun f hf => ?_⟩
    · rw [hclear]
      simp only [Host.answer, hp']
      exact World.payload_put_self _ _ _
    · rw [Payload.get_merge_of_notMem (hkeeps f hf), hsame f hf]

/-- A patch that was written, and what it was laid over. -/
theorem patched {host : Host} {w : World} {id : Id} {patch : Payload}
    (h : (.ok () : Except Exn Unit) = (host.answer (.vs_set_payload id patch) w).1) :
    ∃ p, w.payload id = some p ∧
      (host.answer (.vs_set_payload id patch) w).2 = w.put id (p.merge patch) := by
  cases hp : w.payload id with
  | none => simp [Host.answer, hp] at h
  | some p => exact ⟨p, rfl, by simp [Host.answer, hp]⟩

/-- Where the lookups of the command fall, when the lifecycle patch comes after its
calls `before` and before its calls `after`. -/
theorem command_position {memory_id : Id} {g₁ g₂ g₃ : Except Exn (Option Payload)}
    {clocks before after : List Ev} {now : String} (hclocks : ∀ e ∈ clocks, e.1 = .now_iso)
    (h : (⟨.vs_get memory_id, g₁⟩ :: clocks ++ [⟨.vs_get memory_id, g₂⟩]) ++
      [⟨.vs_get memory_id, g₃⟩, ⟨.now_iso, .ok now⟩] = before ++ after) :
    (before = [] ∧ ⟨.vs_get memory_id, g₁⟩ ∈ after ∨ before ≠ [] ∧
      ⟨.vs_get memory_id, g₁⟩ ∈ before) ∧
      ((looked_up before).length < 3 ∧ ⟨.vs_get memory_id, g₃⟩ ∈ after ∨
        ¬ (looked_up before).length < 3 ∧ ⟨.vs_get memory_id, g₃⟩ ∈ before) := by
  have hnone : looked_up clocks = [] := by
    refine List.filterMap_eq_nil_iff.mpr fun e he => ?_
    rw [hclocks e he]
  have hfirst : looked_up (⟨.vs_get memory_id, g₁⟩ :: clocks) = memory_id :: looked_up clocks := rfl
  -- up to the guard the command has looked the memory up twice; the third lookup is the
  -- last before the write
  have htwo : looked_up (⟨.vs_get memory_id, g₁⟩ :: clocks ++ [⟨.vs_get memory_id, g₂⟩]) =
      [memory_id, memory_id] := by
    rw [looked_up_append, hfirst, hnone]
    rfl
  constructor
  · cases before with
    | nil =>
      rw [List.nil_append] at h
      exact .inl ⟨rfl, h ▸ List.mem_cons_self⟩
    | cons e before =>
      have he : ⟨.vs_get memory_id, g₁⟩ = e := (List.cons.inj h).1
      exact .inr ⟨List.cons_ne_nil _ _, he ▸ List.mem_cons_self⟩
  · rcases List.append_eq_append_iff.mp h with ⟨as, rfl, has⟩ | ⟨cs, hcs, rfl⟩
    · cases as with
      | nil =>
        rw [List.nil_append] at has
        refine .inl ⟨?_, has ▸ List.mem_cons_self⟩
        rw [List.append_nil, htwo]
        exact Nat.lt_succ_self 2
      | cons e as =>
        have he : ⟨.vs_get memory_id, g₃⟩ = e := (List.cons.inj has).1
        subst he
        refine .inr ⟨?_, List.mem_append_right _ List.mem_cons_self⟩
        have hthird : looked_up (⟨.vs_get memory_id, g₃⟩ :: as) = memory_id :: looked_up as := rfl
        rw [looked_up_append, htwo, hthird]
        simp
    · refine .inl ⟨?_, List.mem_append_right _ List.mem_cons_self⟩
      have hlen := congrArg List.length htwo
      rw [hcs, looked_up_append, List.length_append] at hlen
      have htotal : [memory_id, memory_id].length = 2 := rfl
      omega

/-- Whether one field came through: `given` is in the command's metadata, `p` in its
snapshot, `p'` in what mem0 found. -/
theorem field_survives_iff {given p p' q : Option Value} :
    ((given.or p).or p').getD .none = q.getD .none ↔
      (∀ v, given = some v → v = q.getD .none) ∧
        (given = none → (p.or p').getD .none = q.getD .none) := by
  cases given with
  | none => simp
  | some v => simp

/-- The command has written before the patch: it only tidies up after it. -/
theorem survives_of_late {host : Host} {w₁ w' : World} {memory_id : Id} {extra p q : Payload}
    {before after : List Ev} (hlate : ∃ payload r, ⟨.vs_upsert memory_id payload, r⟩ ∈ before)
    (h : Answered host.answer w₁ after w') (hes : ∀ e ∈ after, tidies memory_id e.1)
    (hq : w₁.payload memory_id = some q) :
    ∃ p', w'.payload memory_id = some p' ∧
      ((∀ f ∈ lifecycle_fields, p'.get f = q.get f) ↔ Survives memory_id extra p q before) := by
  obtain ⟨p', hp', hsame⟩ := lifecycle_kept h hes hq
  exact ⟨p', hp', iff_of_true hsame (.inl hlate)⟩

/-- Whether each field of the lifecycle is as its patch has put it, by the three reads of the
update. -/
theorem survives_iff {memory_id : Id} {extra p q p₁ p₂ p' : Payload} {before : List Ev}
    (hquiet : Quiet before)
    (hfields : ∀ f ∈ lifecycle_fields,
      p'.get f = (((extra.lookup f).or (p₁.lookup f)).or (p₂.lookup f)).getD .none)
    (hfirst : before = [] ∧ p₁ = q ∨ before ≠ [] ∧ p₁ = p)
    (hthird : (looked_up before).length < 3 ∧ p₂ = q ∨
      ¬ (looked_up before).length < 3 ∧ p₂ = p) :
    (∀ f ∈ lifecycle_fields, p'.get f = q.get f) ↔ Survives memory_id extra p q before := by
  have hlate : ¬ ∃ payload r, ⟨.vs_upsert memory_id payload, r⟩ ∈ before := by
    rintro ⟨payload, r, hmem⟩
    have hwrites := hquiet _ hmem
    simp [quiet, Call.writes] at hwrites
  unfold Survives
  rw [or_iff_right hlate]
  refine forall_congr' fun f => imp_congr_right fun hf => ?_
  rw [hfields f hf, Payload.get, field_survives_iff]
  refine and_congr_right fun _ => ?_
  rw [AList.lookup_eq_none]
  refine imp_congr_right fun _ => ?_
  rcases hfirst with ⟨hb, rfl⟩ | ⟨hb, rfl⟩
  · -- the snapshot was taken after the patch, and so was what mem0 found
    have hshort : (looked_up before).length < 3 := by
      rw [hb]
      exact Nat.zero_lt_succ 2
    obtain ⟨-, rfl⟩ := hthird.resolve_right fun h => h.1 hshort
    simp [hb]
  · rw [or_iff_right hb]
    rcases hthird with ⟨hlt, rfl⟩ | ⟨hlt, rfl⟩
    · cases hp : p₁.lookup f with
      | none =>
        have hnot : f ∉ p₁ := AList.lookup_eq_none.mp hp
        simp [hlt, hnot]
      | some v =>
        have hin : f ∈ p₁ := AList.lookup_isSome.mp (by rw [hp]; rfl)
        simp [hin, Payload.get, hp]
    · simp [hlt, Payload.get]

/-- The write of the command comes after the patch. -/
theorem survives_of_early {host : Host} {w t w' : World} {memory_id : Id} {text now : String}
    {extra p₁ p₂ metadata patch q : Payload} {clocks as tail : List Ev}
    {g : Except Exn (Option Payload)} {r : Except Exn Unit} {l₁ l₂ : List (Bool × Ev)}
    (hbefore : Answered host.answer w (l₁.map Prod.snd) t) (hq : t.payload memory_id = some q)
    (hafter : Answered host.answer (t.put memory_id (q.merge patch)) (l₂.map Prod.snd) w')
    (hfalse₁ : Quiet (Conf.own false l₁)) (hfalse₂ : Quiet (Conf.own false l₂))
    (hpre : (⟨.vs_get memory_id, .ok (some p₁)⟩ :: clocks ++ [⟨.vs_get memory_id, g⟩]) ++
      [⟨.vs_get memory_id, .ok (some p₂)⟩, ⟨.now_iso, .ok now⟩] = Conf.own true l₁ ++ as)
    (hown : Conf.own true l₂ = as ++
      ⟨.vs_upsert memory_id (Mem0.updated_payload host p₂ text metadata now), r⟩ :: tail)
    (hclocks : ∀ e ∈ clocks, e.1 = .now_iso) (htail : ∀ e ∈ tail, tidies memory_id e.1)
    (hcarries : ∀ f ∈ lifecycle_fields, metadata.lookup f = (extra.lookup f).or (p₁.lookup f)) :
    ∃ p', w'.payload memory_id = some p' ∧
      ((∀ f ∈ lifecycle_fields, p'.get f = (q.merge patch).get f) ↔
        Survives memory_id extra ((w.payload memory_id).getD ∅) (q.merge patch)
          (Conf.own true l₁)) := by
  obtain ⟨la, lb, rfl, hla, hlb⟩ := Conf.own_split hown
  have hquiet : Quiet (Conf.own true l₁ ++ as) := by
    rw [← hpre]
    refine Quiet.append (Quiet.append (fun e he => ?_) ?_) ?_
    · rcases List.mem_cons.mp he with rfl | he
      · rfl
      · rw [hclocks e he]
        rfl
    · simp [Quiet, quiet, Call.writes]
    · simp [Quiet, quiet, Call.writes]
  have hq₁ : Quiet (Conf.own true l₁) := fun e he => hquiet e (List.mem_append_left _ he)
  have hqa : Quiet (Conf.own true la) := fun e he =>
    hquiet e (List.mem_append_right _ (hla ▸ he))
  rw [Conf.own_append, Conf.own_cons_ne (by decide)] at hfalse₂
  have hfalse_a : Quiet (Conf.own false la) := fun e he => hfalse₂ e (List.mem_append_left _ he)
  have hl₁ : Quiet (l₁.map Prod.snd) := log_forall hq₁ hfalse₁
  have hl_a : Quiet (la.map Prod.snd) := log_forall hqa hfalse_a
  rw [List.map_append, List.map_cons] at hafter
  obtain ⟨u, hmid, hlast⟩ := hafter.split
  -- what the command has seen before the patch and after it
  have hold : AsIn host w (Conf.own true l₁) := asIn_of_quiet hbefore hl₁ true
  have hnew : AsIn host (t.put memory_id (q.merge patch)) as := by
    rw [← hla]
    exact asIn_of_quiet hmid hl_a true
  have hw : w.payload memory_id = some q := by
    rw [← hq, payload_of_quiet (served_healthy hbefore) hl₁]
  have hfound₁ : ∀ {p : Payload}, ⟨.vs_get memory_id, .ok (some p)⟩ ∈ Conf.own true l₁ → p = q := by
    intro p hmem
    have hp := hold.found hmem
    rw [hw] at hp
    exact Option.some.inj hp
  have hfound₂ : ∀ {p : Payload}, ⟨.vs_get memory_id, .ok (some p)⟩ ∈ as → p = q.merge patch := by
    intro p hmem
    have hp := hnew.found hmem
    rw [World.payload_put_self] at hp
    exact Option.some.inj hp
  obtain ⟨hfirst, hthird⟩ := command_position hclocks hpre
  have hput : (host.answer (.vs_upsert memory_id
      (Mem0.updated_payload host p₂ text metadata now)) u).2.payload memory_id =
        some (Mem0.updated_payload host p₂ text metadata now) := World.payload_put_self _ _ _
  have htidy : ∀ e ∈ lb.map Prod.snd, tidies memory_id e.1 := by
    refine log_forall (i := true) (fun e he => htail e (hlb ▸ he)) fun e he => .inl ?_
    exact hfalse₂ e (List.mem_append_right _ he)
  obtain ⟨p', hp', hsame⟩ := lifecycle_kept hlast.of_cons.2 htidy hput
  have hfields : ∀ f ∈ lifecycle_fields, p'.get f =
      (((extra.lookup f).or (p₁.lookup f)).or (p₂.lookup f)).getD .none := by
    intro f hf
    have hkey : ∀ f ∈ lifecycle_fields,
        f ∉ ["data", "hash", "text_lemmatized", "created_at", "updated_at", "actor_id"] := by
      decide
    rw [hsame f hf, Payload.get, Mem0.lookup_updated_payload (hkey f hf), hcarries f hf]
  refine ⟨p', hp', survives_iff hq₁ hfields ?_ ?_⟩
  · rw [hw]
    exact hfirst.imp (fun h => ⟨h.1, hfound₂ h.2⟩) fun h => ⟨h.1, hfound₁ h.2⟩
  · rw [hw]
    exact hthird.imp (fun h => ⟨h.1, hfound₂ h.2⟩) fun h => ⟨h.1, hfound₁ h.2⟩

/-- **The lifecycle patch under an update.** When both have completed, the request
has patched the memory once; the lifecycle fields at the end are those of that
patch exactly when the patch survives the command. -/
theorem lifecycle_survives (host : Host) (w : World) (memory_id : Id) (u : UpdateCommand)
    (op : LifecycleOp) (sched : List Bool)
    (hfin : ∀ i, ((update_race host w memory_id u op sched).prog i).Returned) :
    ∃ l₁ patch l₂ w₁ q p',
      (update_race host w memory_id u op sched).log =
        l₁ ++ (false, ⟨.vs_set_payload memory_id patch, .ok ()⟩) :: l₂ ∧
      Answered host.answer w (l₁.map Prod.snd ++ [⟨.vs_set_payload memory_id patch, .ok ()⟩]) w₁ ∧
      w₁.payload memory_id = some q ∧
      (update_race host w memory_id u op sched).state.payload memory_id = some p' ∧
      ((∀ f ∈ lifecycle_fields, p'.get f = q.get f) ↔
        Survives memory_id u.extra ((w.payload memory_id).getD ∅) q (Conf.own true l₁)) := by
  obtain ⟨l, hlog, htrace, hans⟩ := Conf.exec_trace host.answer (Conf.start _ w) sched
  change (update_race host w memory_id u op sched).log = _ at hlog
  change Answered host.answer w _ (update_race host w memory_id u op sched).state at hans
  change ∀ i, Trace _ _ ((update_race host w memory_id u op sched).prog i) at htrace
  have hret : ∀ i, (update_race host w memory_id u op sched).prog i = .ret () :=
    fun i => (hfin i).eq_ret
  have htrue := htrace true
  have hfalse := htrace false
  rw [hret] at htrue hfalse
  obtain ⟨b, hupdate⟩ := discard_ret htrue
  obtain ⟨b', hop⟩ := discard_ret hfalse
  -- what the update did, call by call, and where the other command wrote its patch
  obtain ⟨p₁, p₂, metadata, clocks, tail, g, r, now, hown, hclocks, htail, hcarries⟩ :=
    cli_update_ret hupdate
  obtain ⟨es₁, patch, es₂, hwrite, hq₁, hq₂⟩ := lifecycle_ret hop
  -- the run is cut at the patch
  obtain ⟨l₁, l₂, rfl, hl₁, hl₂⟩ := Conf.own_split hwrite
  rw [List.map_append, List.map_cons] at hans
  obtain ⟨t, hbefore, hrest⟩ := hans.split
  obtain ⟨hok, hafter⟩ := hrest.of_cons
  obtain ⟨q, hq, hput⟩ := patched hok
  rw [hput] at hafter
  have hquiet₁ : Quiet (Conf.own false l₁) := hl₁ ▸ hq₁
  have hquiet₂ : Quiet (Conf.own false l₂) := hl₂ ▸ hq₂
  have hown' : Conf.own true l₁ ++ Conf.own true l₂ =
      ((⟨.vs_get memory_id, .ok (some p₁)⟩ :: clocks ++ [⟨.vs_get memory_id, g⟩]) ++
        [⟨.vs_get memory_id, .ok (some p₂)⟩, ⟨.now_iso, .ok now⟩]) ++
      ⟨.vs_upsert memory_id (Mem0.updated_payload host p₂ u.text metadata now), r⟩ :: tail := by
    rw [Conf.own_append, Conf.own_cons_ne (by decide)] at hown
    rw [hown]
    simp
  -- the upsert comes after the patch or before it
  have hresult : ∃ p', (update_race host w memory_id u op sched).state.payload memory_id = some p' ∧
      ((∀ f ∈ lifecycle_fields, p'.get f = (q.merge patch).get f) ↔
        Survives memory_id u.extra ((w.payload memory_id).getD ∅) (q.merge patch)
          (Conf.own true l₁)) := by
    rcases List.append_eq_append_iff.mp hown' with ⟨as, hpre, has⟩ | ⟨cs, hcs, hrest'⟩
    · exact survives_of_early hbefore hq hafter hquiet₁ hquiet₂ hpre has hclocks htail hcarries
    cases cs with
    | nil =>
      rw [List.nil_append] at hrest'
      rw [List.append_nil] at hcs
      exact survives_of_early hbefore hq hafter hquiet₁ hquiet₂
        (hcs.symm.trans (List.append_nil _).symm) hrest'.symm hclocks htail hcarries
    | cons e cs =>
      obtain ⟨rfl, hrest''⟩ := List.cons.inj hrest'
      have hmem : ⟨.vs_upsert memory_id (Mem0.updated_payload host p₂ u.text metadata now), r⟩ ∈
          Conf.own true l₁ := by
        rw [hcs]
        exact List.mem_append_right _ List.mem_cons_self
      -- once the update has written, it does no more than tidy up
      have htidy : ∀ e ∈ l₂.map Prod.snd, tidies memory_id e.1 := by
        refine log_forall (i := true) (fun e he => htail e ?_) fun e he => .inl (hquiet₂ e he)
        rw [hrest'']
        exact List.mem_append_right _ he
      exact survives_of_late ⟨_, r, hmem⟩ hafter htidy (World.payload_put_self _ _ _)
  obtain ⟨p', hp', hiff⟩ := hresult
  refine ⟨l₁, patch, l₂, t.put memory_id (q.merge patch), q.merge patch, p',
    hlog.trans (List.nil_append _), ?_,
    World.payload_put_self _ _ _, hp', hiff⟩
  refine hbefore.append ?_
  have hlast : Answered host.answer (host.answer (.vs_set_payload memory_id patch) t).2 []
      (t.put memory_id (q.merge patch)) := hput ▸ .nil _
  have hevent := Answered.cons hlast
  rwa [← hok] at hevent

/-- An update of the superseded memory of `superseding`, by a client of its own. -/
def rewording : UpdateCommand := ⟨.plain "s", "A, reworded", ∅⟩

/-- The snapshot of the command, the whole `revive`, and the rest of the command. -/
def snapshot_first : List Bool :=
  List.replicate 1 true ++ List.replicate 4 false ++ List.replicate 20 true

theorem rewording_returned (i : Bool) :
    ((update_race .plain (Step.runs .plain superseding) "m1" rewording (.revive none none)
      snapshot_first).prog i).Returned := by
  cases i with
  | true => trivial
  | false => trivial

/-- The command's write comes before the patch of the revival, which survives. -/
theorem lifecycle_survives_rewording :
    ∃ l₁ patch l₂ w₁ q p',
      (update_race .plain (Step.runs .plain superseding) "m1" rewording (.revive none none)
        snapshot_first).log = l₁ ++ (false, ⟨.vs_set_payload "m1" patch, .ok ()⟩) :: l₂ ∧
      Answered (Host.answer .plain) (Step.runs .plain superseding)
        (l₁.map Prod.snd ++ [⟨.vs_set_payload "m1" patch, .ok ()⟩]) w₁ ∧
      w₁.payload "m1" = some q ∧
      (update_race .plain (Step.runs .plain superseding) "m1" rewording (.revive none none)
        snapshot_first).state.payload "m1" = some p' ∧
      ((∀ f ∈ lifecycle_fields, p'.get f = q.get f) ↔
        Survives "m1" rewording.extra
          (((Step.runs .plain superseding).payload "m1").getD ∅) q (Conf.own true l₁)) :=
  lifecycle_survives .plain _ "m1" rewording (.revive none none) snapshot_first rewording_returned

/-- The revived memory is superseded again: the command sent back the successors of
its snapshot. -/
theorem revival_lost :
    let revived := update_race .plain (Step.runs .plain superseding) "m1" rewording
      (.revive none none) (snapshot_first.take 5)
    let ended := update_race .plain (Step.runs .plain superseding) "m1" rewording
      (.revive none none) snapshot_first
    ((revived.prog false).Returned ∧ successors revived.state "m1" = []) ∧
      (∀ i, (ended.prog i).Returned) ∧ successors ended.state "m1" = ["m11"] := by
  refine ⟨⟨trivial, by decide⟩, rewording_returned, by decide⟩

end Memline
