/-
Who may settle a pair.

A non-interactive session disposes of the pairs its own writes raised and of expiry
flags. `confirm`, `dismiss` and `merge` ask before their first effect: when the
answer is no, the command has loaded the pair and done nothing else. `ttl` does not
ask, and checks the kind of the pair only.
-/
import Memline.Commands

set_option autoImplicit false

namespace Memline

open Effect Effect.Prog

namespace cli

/-- The command names `--force`. -/
def Stale.force : Stale → Bool
  | .confirm force | .dismiss force | .merge _ force => force
  | .ttl _ => false

/-- The kind of the pair, or the session that raised it, lets the client settle it. -/
def MaySettle (client : Client) (pair : PairRow) : Prop :=
  kind_of pair = KIND_TTL_EXPIRY ∨ owns client pair

/-- The disposition of the pair or some memory is not what it was. -/
def Changed (pair_id : Id) (w w' : World) : Prop :=
  (w'.pairs.get pair_id).map (·.disposition) ≠ (w.pairs.get pair_id).map (·.disposition) ∨
    ∃ id, w'.payload id ≠ w.payload id

theorem not_changed_self (pair_id : Id) (w : World) : ¬ Changed pair_id w w := by
  rintro (h | ⟨id, h⟩)
  · exact h rfl
  · exact h rfl

variable {host : Host} {fault : Call → World → Option Exn} {client : Client} {pair_id : Id}
  {pair : PairRow} {w : World}

/-! ## Commands that ask -/

/-- Loading an open pair finds it. -/
theorem load_open_pair_ok (hpair : w.pairs.get pair_id = some pair)
    (hopen : pair.disposition = "open")
    (hcall : host.failing fault (.pairs (.get pair_id)) w = host.answer (.pairs (.get pair_id)) w) :
    (load_open_pair pair_id).run (host.failing fault) w = (.ok pair, w) := by
  have hfound : (pair_store.get pair_id).run (host.failing fault) w = (.ok (some pair), w) := by
    refine ((run_perform _ _ _).trans hcall).trans ?_
    rw [← hpair]
    rfl
  refine (run_bind_ok hfound).trans ?_
  simp [expect, refuse_if, hopen]

/-- What comes after the pair was loaded raises at once: nothing has changed, whether
the pair could be loaded or not. -/
theorem run_of_raises {α : Type} {f : PairRow → Code α} (hpair : w.pairs.get pair_id = some pair)
    (hopen : pair.disposition = "open") (hf : ∃ e, f pair = raise e) :
    ((load_open_pair pair_id >>= f).run (host.failing fault) w).2 = w := by
  obtain ⟨e, hraise⟩ := hf
  rcases host.failing_cases fault (.pairs (.get pair_id)) w with ⟨e', he'⟩ | hcall
  · have herror : (load_open_pair pair_id).run (host.failing fault) w = (.error e', w) :=
      run_bind_error ((run_perform _ _ _).trans he')
    rw [run_bind_error herror]
  · rw [run_bind_ok (load_open_pair_ok hpair hopen hcall), hraise]
    rfl

/-- Without authority, and with nobody to ask, the check raises. -/
theorem require_disposition_authority_denies (htty : client.interactive_tty = false)
    (hmay : ¬ MaySettle client pair) (action : String) :
    ∃ e, require_disposition_authority client pair false action = raise e := by
  unfold MaySettle at hmay
  rw [not_or] at hmay
  unfold require_disposition_authority
  rw [if_neg (by decide), if_neg hmay.1, if_neg hmay.2, if_neg (by simp [htty])]
  exact ⟨_, rfl⟩

/-- A refusal that is due raises, and nothing follows. -/
theorem refuse_if_refuses {α : Type} {c : Prop} [Decidable c] (h : c) (e : Exn)
    (f : Unit → Code α) : (refuse_if c e >>= f) = raise e := by
  rw [refuse_if, if_pos h]
  rfl

theorem refuse_if_raises {α : Type} {c : Prop} [Decidable c] {e : Exn} {p : Code α}
    (h : ∃ e, p = raise e) : ∃ e', (refuse_if c e >>= fun _ => p) = raise e' := by
  obtain ⟨e', rfl⟩ := h
  unfold refuse_if
  split
  · exact ⟨e, rfl⟩
  · exact ⟨e', rfl⟩

/-- A command that asks and is denied leaves the world alone. -/
theorem denied_run (htty : client.interactive_tty = false)
    (hpair : w.pairs.get pair_id = some pair) (hopen : pair.disposition = "open")
    (hmay : ¬ MaySettle client pair) {cmd : Stale} (hforce : cmd.force = false)
    (hasks : ∀ days, cmd ≠ .ttl days) :
    ((cmd.run host client pair_id).run (host.failing fault) w).2 = w := by
  cases cmd with
  | ttl days => exact absurd rfl (hasks days)
  | confirm force =>
    obtain rfl : force = false := hforce
    obtain ⟨e, he⟩ := require_disposition_authority_denies htty hmay "confirm"
    refine run_of_raises hpair hopen (refuse_if_raises ⟨e, ?_⟩)
    rw [he]
    rfl
  | dismiss force =>
    obtain rfl : force = false := hforce
    obtain ⟨e, he⟩ := require_disposition_authority_denies htty hmay "dismiss"
    refine run_of_raises hpair hopen ⟨e, ?_⟩
    rw [he]
    rfl
  | merge merged_text force =>
    obtain rfl : force = false := hforce
    obtain ⟨e, he⟩ := require_disposition_authority_denies htty hmay "merge"
    refine run_of_raises hpair hopen (refuse_if_raises ⟨e, ?_⟩)
    rw [he]
    rfl

/-! ## The command that does not ask -/

/-- The pair is there and not open. -/
def Closed (pair_id : Id) (w : World) : Prop :=
  ∃ row, w.pairs.get pair_id = some row ∧ row.disposition ≠ "open"

/-- A fault that strikes every rollback. -/
def reopen_fails : Call → World → Option Exn
  | .pairs (.reopen _), _ => some (.other "database is locked")
  | _, _ => none

/-- Once disposed of, a pair stays so when no rollback succeeds. -/
theorem closed_run {α : Type} {p : Code α}
    (hp : p.Uses fun c : Call => apart c ∨ c = .pairs (.reopen pair_id)) (hw : Closed pair_id w) :
    Closed pair_id (p.run (host.failing reopen_fails) w).2 := by
  refine hp.run (fun c s hc hs => ?_) hw
  obtain ⟨row, hrow, hclosed⟩ := hs
  rcases hc with hc | rfl
  · refine ⟨row, host.get_keeps_closed reopen_fails (fun id hid => ?_) hrow hclosed, hclosed⟩
    rw [hid] at hc
    exact hc
  · exact ⟨row, hrow, hclosed⟩

/-- A settlement whose mutation goes through leaves the pair closed. -/
theorem dispose_with_rollback_closed {α : Type} {mutate : Code α} {d actor : String}
    (hd : d ∈ DISPOSITIONS) (hm : mutate.Uses apart) (hpair : w.pairs.get pair_id = some pair)
    (hopen : pair.disposition = "open") :
    Closed pair_id
      ((dispose_with_rollback pair_id d actor mutate).run (host.failing reopen_fails) w).2 := by
  have hans : (w.pairs.dispose pair_id d (some actor) (host.now_iso w.ticks)).1 = .ok true :=
    PairStore.dispose_open hd hpair hopen
  have hrun : (pair_store.dispose pair_id d (some actor)).run (host.failing reopen_fails) w =
      (.ok true, { w.tick with
        pairs := (w.pairs.dispose pair_id d (some actor) (host.now_iso w.ticks)).2 }) := by
    have hnow : now_iso.run (host.failing reopen_fails) w = (.ok (host.now_iso w.ticks), w.tick) :=
      rfl
    refine (run_bind_ok hnow).trans ((run_perform _ _ _).trans ?_)
    rw [← hans]
    rfl
  unfold dispose_with_rollback
  rw [run_bind_ok hrun]
  refine closed_run (uses_tryCatch (hm.mono fun _ => .inl) fun e => ?_)
    (PairStore.dispose_closes hans)
  exact uses_bind (uses_perform (.inr rfl)) fun _ => uses_throw (I := Api) e

/-- A necessity pair is settled by `ttl`, whoever runs it. -/
theorem ttl_changes (hpair : w.pairs.get pair_id = some pair) (hopen : pair.disposition = "open")
    (hkind : kind_of pair = KIND_NECESSITY) (days : Option ℚ) :
    Changed pair_id w
      (((Stale.ttl days).run host client pair_id).run (host.failing reopen_fails) w).2 := by
  have hload : (load_open_pair pair_id).run (host.failing reopen_fails) w = (.ok pair, w) :=
    load_open_pair_ok hpair hopen rfl
  have hrefuse : ¬ kind_of pair ∉ [KIND_NECESSITY, KIND_TTL_EXPIRY] := by simp [hkind]
  have hclosed : Closed pair_id
      (((Stale.ttl days).run host client pair_id).run (host.failing reopen_fails) w).2 := by
    unfold Stale.run stale_ttl
    simp only
    rw [run_bind_ok hload, refuse_if, if_neg hrefuse]
    exact dispose_with_rollback_closed (by decide)
      (uses_bind ttl_apart fun _ => uses_pure _) hpair hopen
  obtain ⟨row, hrow, hne⟩ := hclosed
  refine .inl ?_
  rw [hrow, hpair, Option.map_some, Option.map_some, hopen]
  exact fun h => hne (Option.some.inj h)

/-- **Disposition authority.** What a non-interactive command without `--force` changes
it may change, in every run and whatever fails in it, unless it is a `ttl` on a
necessity pair of another session. -/
theorem disposition_authority (host : Host) (client : Client)
    (htty : client.interactive_tty = false) (pair_id : Id) (pair : PairRow) (w : World)
    (hpair : w.pairs.get pair_id = some pair) (hopen : pair.disposition = "open") (cmd : Stale)
    (hforce : cmd.force = false) :
    (∀ fault, Changed pair_id w ((cmd.run host client pair_id).run (host.failing fault) w).2 →
        MaySettle client pair) ↔
      ¬ ((∃ days, cmd = .ttl days) ∧ kind_of pair = KIND_NECESSITY ∧ ¬ owns client pair) := by
  constructor
  -- `ttl` is carried out on a pair of necessity for a client that does not own it
  · rintro hall ⟨⟨days, rfl⟩, hkind, howns⟩
    rcases hall reopen_fails (ttl_changes hpair hopen hkind days) with hexpiry | hown
    · rw [hkind] at hexpiry
      exact absurd hexpiry (by decide)
    · exact howns hown
  · intro hcond fault hchanged
    by_contra hmay
    refine not_changed_self pair_id w ?_
    by_cases httl : ∃ days, cmd = .ttl days
    · obtain ⟨days, rfl⟩ := httl
      -- the kind is neither necessity nor expiry, so the command is refused
      have hnot : kind_of pair ∉ [KIND_NECESSITY, KIND_TTL_EXPIRY] := by
        intro hmem
        rcases List.mem_pair.mp hmem with hkind | hkind
        · exact hcond ⟨⟨days, rfl⟩, hkind, fun hown => hmay (.inr hown)⟩
        · exact hmay (.inl hkind)
      have hsame : (((Stale.ttl days).run host client pair_id).run (host.failing fault) w).2 = w :=
        run_of_raises hpair hopen ⟨_, refuse_if_refuses hnot _ _⟩
      rwa [hsame] at hchanged
    -- every other command is refused to a client that may not settle the pair
    · have hsame : ((cmd.run host client pair_id).run (host.failing fault) w).2 = w :=
        denied_run htty hpair hopen hmay hforce fun days hdays => httl ⟨days, hdays⟩
      rwa [hsame] at hchanged

/-! ### A memory of one session, renewed by another -/

/-- A suspicion raised by the writes of session `s1` that a memory is not needed. -/
def doubt : PairRow where
  pair_id := "p"
  kind := KIND_NECESSITY
  new_id := "o"
  old_id := "o"
  old_text_hash := "old"
  verdict := "EXPIRING"
  confidence := some 1
  reason := none
  judged_at := "t"
  judge_model := none
  new_session_id := some "s1"
  disposition := "open"
  disposed_by := none
  disposed_at := none

def doubted : World :=
  { World.empty.put "o" (.ofList [("data", .str "old")]) with
    pairs := PairStore.empty.insert doubt }

/-- Session `s2` renews the memory and settles the pair. -/
theorem renewed_by_another :
    let renewed :=
      (((Stale.ttl none).run .plain (.plain "s2") "p").run (Host.answer .plain) doubted).2
    doubted.pairs.get "p" = some doubt ∧ doubt.disposition = "open" ∧
      ¬ MaySettle (.plain "s2") doubt ∧ (Client.plain "s2").interactive_tty = false ∧
      (renewed.pairs.get "p").map (·.disposition) = some "ttl" ∧
      (renewed.payload "o").map (·.get TTL_EXPIRES_AT) ≠
        (doubted.payload "o").map (·.get TTL_EXPIRES_AT) := by
  refine ⟨rfl, rfl, ?_, rfl, by decide, by decide⟩
  unfold MaySettle
  decide

/-- Dismissing it changes nothing: the session would have to be allowed to. -/
theorem disposition_authority_dismissal :
    ¬ MaySettle (.plain "s2") doubt ∧ ∀ fault, Changed "p" doubted
      (((Stale.dismiss false).run .plain (.plain "s2") "p").run
        (Host.plain.failing fault) doubted).2 →
      MaySettle (.plain "s2") doubt := by
  have hcond : ¬ ((∃ days, Stale.dismiss false = .ttl days) ∧
      kind_of doubt = KIND_NECESSITY ∧ ¬ owns (.plain "s2") doubt) := by
    rintro ⟨⟨days, hdays⟩, -⟩
    cases hdays
  refine ⟨by unfold MaySettle; decide, ?_⟩
  exact (disposition_authority .plain (.plain "s2") rfl "p" doubt doubted rfl rfl (.dismiss false)
    rfl).mpr hcond

end cli

end Memline
