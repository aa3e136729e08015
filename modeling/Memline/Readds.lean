/-
A text added again.

A raw add looks its text up by hash among the memories of the user and hands out the
first one it finds; otherwise it stores a new one. Every run keeps the text of a memory
and the hash of it together, so what is handed out holds the text. The lookup does not
read the lifecycle keys: whether what is handed out is active was decided by whatever
became of that memory before.
-/
import Memline.Lib.Check
import Memline.Reversal
import Memline.Runs

set_option autoImplicit false

namespace Memline

open Effect Effect.Prog

variable {host : Host} {fault : Call → World → Option Exn} {w : World}

/-! ## Text and hash -/

/-- Every stored memory holds the text its hash is of. -/
def Truthful (host : Host) (w : World) : Prop := ∀ id p, w.payload id = some p → Hashed host p

/-- A call that writes text and hash together, or neither. -/
def hashes (host : Host) : Call → Prop
  | .vs_set_payload _ patch => "data" ∉ patch ∧ "hash" ∉ patch
  | .vs_upsert _ p => Hashed host p
  | .vs_insert points => ∀ p ∈ points, Hashed host p.2
  | _ => True

/-- What touches only owned fields leaves texts and hashes. -/
theorem hashes_of_owned (c : Call) (h : owned c) : hashes host c := by
  cases c with
  | vs_set_payload id patch => exact ⟨h "data" (by decide), h "hash" (by decide)⟩
  | vs_upsert _ _ | vs_insert _ | vs_delete _ => exact h.elim
  | _ => trivial

theorem hashes_of_inert (c : Call) (h : inert c) : hashes host c :=
  hashes_of_owned c (owned_of_inert c h)

/-- A hashed payload is put into a truthful store. -/
theorem Truthful.put (hw : Truthful host w) {id : Id} {p : Payload} (hp : Hashed host p) :
    Truthful host (w.put id p) := by
  intro x q hq
  by_cases hx : x = id
  · rw [hx, World.payload_put_self] at hq
    exact Option.some.inj hq ▸ hp
  · rw [World.payload_put_ne _ _ hx] at hq
    exact hw x q hq

/-- Hashed payloads are inserted into a truthful store. -/
theorem Truthful.insert {points : List (Id × Payload)} (h : ∀ p ∈ points, Hashed host p.2)
    (hw : Truthful host w) : Truthful host (points.foldl (fun w p => w.put p.1 p.2) w) := by
  induction points generalizing w with
  | nil => exact hw
  | cons p points ih =>
    refine ih (fun q hq => h q (List.mem_cons_of_mem _ hq)) ?_
    exact hw.put (h p List.mem_cons_self)

/-- One call, failing or not. -/
theorem truthful_failing {c : Call} (hc : hashes host c) (hw : Truthful host w) :
    Truthful host (host.failing fault c w).2 := by
  by_cases hwrites : c.writes = false
  · intro id p hp
    rw [World.payload, host.failing_points hwrites] at hp
    exact hw id p hp
  rcases host.failing_cases fault c w with ⟨e, hfail⟩ | hok
  · rw [hfail]
    exact hw
  rw [hok]
  cases c with
  | vs_set_payload id patch =>
    simp only [Host.answer]
    split
    · rename_i p hp
      exact hw.put ((hw id p hp).merge hc.1 hc.2)
    · exact hw
  | vs_upsert id p => exact hw.put hc
  | vs_insert points => exact hw.insert hc
  | vs_delete id =>
    intro x p hp
    by_cases hx : x = id
    · rw [hx] at hp
      exact absurd ((World.payload_remove_self w id).symm.trans hp) (by simp)
    · exact hw x p ((World.payload_remove_ne w hx).symm.trans hp)
  | _ => exact absurd rfl hwrites

/-- Calls that leave texts and hashes in step leave the store truthful. -/
theorem truthful_run {α : Type} {p : Code α} (hp : p.Uses (hashes host)) (faults : Faults)
    (hw : Truthful host w) : Truthful host (p.run (host.beset faults) (w, 0)).2.1 :=
  hp.keeps (h := host.beset faults) (P := fun s => Truthful host s.1)
    (fun _ _ hc ht => truthful_failing hc ht) (w, 0) hw

/-- What a request writes. -/
theorem dispatch_hashes (r : ops.Request) : (ops.dispatch host r).Uses (hashes host) := by
  cases r with
  | get id => exact uses_bind ((mem0_get_inert id).mono hashes_of_inert) fun _ => uses_pure _
  | add content user_id agent_id run_id metadata infer =>
    refine uses_bind (add_uses hashes_of_inert (fun points hpoints p hp => ?_) content user_id
      agent_id run_id infer) fun _ => uses_pure _
    exact (hpoints p hp).2
  | update id text metadata =>
    refine uses_bind (update_uses hashes_of_inert (fun p now => ?_) ?_ fun _ => trivial)
      fun _ => uses_pure _
    · exact Hashed.updated_payload p text metadata now
    · exact ⟨by decide, by decide⟩
  | delete id actor_id =>
    refine uses_bind ((delete_guard_inert id).mono hashes_of_inert) fun guard => ?_
    split
    · exact uses_bind ((set_ttl_owned _ _ _).mono hashes_of_owned) fun _ => uses_pure _
    · exact uses_bind (mem0_delete_uses hashes_of_inert trivial) fun _ => uses_pure _
  | invalidate id by_ids reason actor_id session_id =>
    exact uses_bind ((invalidate_owned _ _ _ _ _).mono hashes_of_owned) fun _ => uses_pure _
  | revive id actor_id session_id =>
    exact uses_bind ((revive_owned _ _ _).mono hashes_of_owned) fun _ => uses_pure _
  | set_ttl id mode actor_id =>
    exact uses_bind ((set_ttl_owned _ _ _).mono hashes_of_owned) fun _ => uses_pure _
  | resolve_head id =>
    exact uses_bind ((resolve_head_inert id).mono hashes_of_inert) fun _ => uses_pure _

/-- The step lemma. -/
theorem Truthful.step (s : Step) (faults : Faults) (hw : Truthful host w) :
    Truthful host (s.run host faults w) := by
  cases s with
  | request r => exact truthful_run (dispatch_hashes r) faults hw
  | harvest now limit =>
    exact truthful_run ((harvest_expired_owned _ _ _).mono hashes_of_owned) faults hw

/-- The run lemma: any steps, any calls of them failing. -/
theorem Reachable.truthful {allow : World → Faults → Step → Prop}
    (hw : Reachable host allow w) : Truthful host w := by
  induction hw with
  | start => exact fun id p hp => by simp [World.payload, World.empty] at hp
  | step _ s faults _ ih => exact ih.step s faults

/-! ## The lookup -/

/-- The request of a raw add of one text. -/
def raw_add (text : String) (user_id agent_id run_id : Option String) (metadata : Payload) :
    ops.Request :=
  .add [{ role := some "user", content := some text }] user_id agent_id run_id metadata false

/-- The filters of the lookup. -/
def dedup_filters (host : Host) (user_id : Option String) (text : String) : Filters :=
  (user_id.toList.map fun u => ("user_id", .value (Mem0.strip u))) ++
    [("hash", .value (host.md5 text))]

/-- The memory the lookup finds: the first in the order of the store, unless the lookup
fails. -/
def first_copy (host : Host) (fault : Call → World → Option Exn) (w : World)
    (user_id : Option String) (text : String) : Option (Id × Payload) :=
  let filters := dedup_filters host user_id text
  if (fault (.vs_list filters 1) w).isSome then none
  else (host.scrolled w).find? fun p => host.matches_filters filters p.2

/-- The copy that the lookup finds is stored, with the hash of the text. -/
theorem first_copy_stored {user_id : Option String} {text : String} {id : Id} {p : Payload}
    (h : first_copy host fault w user_id text = some (id, p)) :
    w.payload id = some p ∧ host.matches_value (.value (host.md5 text)) (p.get "hash") = true := by
  unfold first_copy at h
  simp only at h
  split at h
  · cases h
  constructor
  · exact (scrolled_rows host w).2 (id, p) (List.mem_of_find?_eq_some h)
  · have hmatches := List.find?_some h
    rw [Host.matches_filters, List.all_eq_true] at hmatches
    exact hmatches ("hash", .value (host.md5 text)) (List.mem_append_right _ List.mem_cons_self)

/-- What the code around the lookup makes of it. -/
theorem lookup_run (user_id : Option String) (text : String) :
    (@MonadExcept.tryCatch Exn (Prog Api) _ _
      (perform (I := Api) (.vs_list (dedup_filters host user_id text) 1)) fun _ => pure []).run
        (host.failing fault) w = (.ok (first_copy host fault w user_id text).toList, w) := by
  have hvalid : host.valid_filters (dedup_filters host user_id text) = true := by
    simp [dedup_filters, Host.valid_filters]
  rw [run_tryCatch, run_perform, Host.failing, Handler.failing, first_copy]
  simp only [Call.fallible, if_true]
  cases hfault : fault (.vs_list (dedup_filters host user_id text) 1) w with
  | some e => rfl
  | none =>
    simp only [Host.answer, hvalid, if_true, Option.isSome_none]
    rw [← List.head?_filter, List.take_one]
    rfl

/-- An id that was accepted is the one given, stripped. -/
theorem validate_optional_id_ok {value trimmed : Option String} {name : String}
    (h : Mem0.validate_optional_id value name = .ok trimmed) : trimmed = value.map Mem0.strip := by
  unfold Mem0.validate_optional_id at h
  cases value with
  | none =>
    cases h
    rfl
  | some v =>
    simp only [Mem0.validate_and_trim_entity_id] at h
    split at h
    · cases h
    split at h
    · cases h
    · cases h
      rfl

/-- The scope of the lookup is the user's. -/
theorem dedup_scope_of_built {user_id agent_id run_id : Option String}
    {metadata processed : Payload} {filters : Filters}
    (h : Mem0.build_filters_and_metadata user_id agent_id run_id metadata =
      .ok (processed, filters)) :
    (filters.filter fun f => decide (f.1 = "user_id")) =
      user_id.toList.map fun u => ("user_id", .value (Mem0.strip u)) := by
  obtain ⟨provided, hprovided, h⟩ := Except.bind_ok.mp h
  obtain ⟨user, huser, hprovided⟩ := Except.bind_ok.mp hprovided
  obtain ⟨agent, -, hprovided⟩ := Except.bind_ok.mp hprovided
  obtain ⟨run, -, hprovided⟩ := Except.bind_ok.mp hprovided
  split at h
  · cases h
  cases hprovided
  cases h
  rw [validate_optional_id_ok huser]
  cases user_id <;> cases agent <;> cases run <;> rfl

/-! ## What a raw add hands out -/

/-- A payload that holds the text, with the other fields of the metadata. -/
def TextOf (text : String) (metadata p : Payload) : Prop :=
  p.get "data" = .str text ∧ Agrees metadata p

/-- In two cases: the memory found, with nothing changed, or a new one. -/
inductive HandsOut (host : Host) (fault : Call → World → Option Exn) (w : World) (text : String)
    (user_id : Option String) (metadata : Payload) (id : Id) (w' : World) : Prop where
  | found (p : Payload) (hfirst : first_copy host fault w user_id text = some (id, p)) (hw : w' = w)
  | stored (hfirst : first_copy host fault w user_id text = none)
      (hp : StoredAs id (TextOf text metadata) w')

theorem stamp_created_get {p p' : Payload} {es : List (Effect.Event Api)}
    (h : Trace (Mem0.stamp_created p) es (.ret p')) : p'.get "data" = p.get "data" := by
  obtain ⟨created_at, es₁, es₂, -, -, h₂⟩ := Trace.bind_ret h
  obtain ⟨-, rfl⟩ := Trace.ret_ret h₂
  rw [Payload.get_set_ne _ _ (by decide), Payload.get_set_ne _ _ (by decide)]

theorem insert_triple {P : World → Prop} {id : Id} {q : Payload} {φ : Payload → Prop} (hq : φ q) :
    Triple (host.failing fault) P (perform (I := Api) (.vs_insert [(id, q)]))
      (fun _ => StoredAs id φ) (fun _ => True) := by
  refine triple_perform (fun w a w' _ heq => ?_) fun _ _ _ _ _ => trivial
  rcases host.failing_cases fault (.vs_insert [(id, q)]) w with ⟨e, hfail⟩ | hok
  · rw [hfail] at heq
    cases heq
  · rw [hok] at heq
    cases heq
    exact ⟨q, World.payload_put_self _ _ _, hq⟩

/-- A memory that was created is stored with its text. -/
theorem create_memory_triple {P : World → Prop} {metadata p : Payload} {data : String}
    (hp : Agrees metadata p) :
    Triple (host.failing fault) P (Mem0.create_memory host data p)
      (fun id => StoredAs id (TextOf data metadata)) (fun _ => True) := by
  have hany : ∀ {α : Type} (c : Code α) (P : World → Prop),
      Triple (host.failing fault) P c (fun _ _ => True) (fun _ => True) :=
    fun _ _ _ _ => ⟨fun _ _ _ => trivial, fun _ _ _ => trivial⟩
  let ret (stamped : Payload) : Prop :=
    ∃ es, Trace (Mem0.stamp_created (Mem0.new_payload host data p)) es (.ret stamped)
  refine triple_bind (hany _ P) fun id => ?_
  refine triple_bind (triple_of_ret (φ := ret) (hany _ _) fun es _ hret => ⟨es, hret⟩)
    fun stamped => ?_
  refine Triple.of_fact (fun _ h => h.2) fun ⟨es, hret⟩ => ?_
  have htext :
      TextOf data metadata (stamped.set "text_lemmatized" (.str (host.lemmatize data))) := by
    refine ⟨?_, (NewMemory.stamped_ret hret hp).1.1⟩
    rw [Payload.get_set_ne _ _ (by decide), stamp_created_get hret, Mem0.new_payload,
      Payload.get_set_ne _ _ (by decide), Payload.get_set_self]
  refine triple_bind (insert_triple htext) fun _ => ?_
  refine triple_bind (R := fun id => StoredAs id (TextOf data metadata)) ?_ fun _ =>
    triple_pure id fun _ h => h
  have hquiet : ∀ e : HistoryEvent, Uses quiet (perform (I := Api) (.add_history e)) :=
    fun _ => uses_perform rfl
  exact (triple_of_keeps ((hquiet _).keeps fun _ w hc hw => stored_of_quiet hc w hw)).mono
    (fun _ h => h) (fun _ _ h => h) fun _ _ => trivial

/-- One message of a raw add. -/
theorem add_message_triple {metadata processed : Payload} {filters : Filters} {text : String}
    {user_id : Option String} (hagrees : Agrees metadata processed)
    (hscope : (filters.filter fun f => decide (f.1 = "user_id")) =
      user_id.toList.map fun u => ("user_id", .value (Mem0.strip u))) :
    Triple (host.failing fault) (fun s => s = w)
      (Mem0.add_message host processed filters { role := some "user", content := some text })
      (fun r w' => ∃ result, r = some result ∧
        HandsOut host fault w text user_id metadata result.id w') (fun _ => True) := by
  unfold Mem0.add_message
  simp only
  rw [if_neg (by decide), hscope]
  -- a lookup that fails finds nothing, and the text is stored once more
  have hlookup : Triple (host.failing fault) (fun s => s = w)
      (@MonadExcept.tryCatch Exn (Prog Api) _ _
        (perform (I := Api) (.vs_list (dedup_filters host user_id text) 1)) fun _ => pure [])
      (fun rows s => s = w ∧ rows = (first_copy host fault w user_id text).toList)
      (fun _ => True) := by
    rintro s rfl
    rw [lookup_run]
    refine ⟨fun rows s' heq => ?_, fun _ _ _ => trivial⟩
    cases heq
    exact ⟨rfl, rfl⟩
  refine triple_bind hlookup fun rows => ?_
  refine Triple.of_fact (fun _ h => h.2) fun hrows => ?_
  cases hfirst : first_copy host fault w user_id text with
  | some found =>
    rw [hrows, hfirst]
    refine triple_pure _ fun s hs => ⟨_, rfl, ?_⟩
    exact .found found.2 hfirst hs.1
  | none =>
    rw [hrows, hfirst]
    refine triple_bind (S := fun _ _ => True) ?_ fun similar => ?_
    · exact fun _ _ => ⟨fun _ _ _ => trivial, fun _ _ _ => trivial⟩
    have hrole := (FromMetadata.set hagrees (.str "user") (by decide : "role" ∈ added_fields)).1
    exact triple_bind (create_memory_triple hrole) fun id =>
      triple_pure _ fun s hs => ⟨_, rfl, .stored hfirst hs⟩

/-- A raw add hands out the first copy of its text, or a new memory. -/
theorem add_triple {text : String} {user_id agent_id run_id : Option String} {metadata : Payload} :
    Triple (host.failing fault) (fun s => s = w)
      (Mem0.add host [{ role := some "user", content := some text }] user_id agent_id
        run_id metadata
        false)
      (fun results w' => ∃ r, results = [r] ∧ HandsOut host fault w text user_id metadata r.id w')
      (fun _ => True) := by
  unfold Mem0.add
  cases hbuild : Mem0.build_filters_and_metadata user_id agent_id run_id metadata with
  | error e => exact triple_throw (I := Api) e fun _ _ => trivial
  | ok built =>
    obtain ⟨processed, filters⟩ := built
    have hmessage := @add_message_triple host fault w metadata processed filters text user_id
      (build_filters_and_metadata_agrees hbuild) (dedup_scope_of_built hbuild)
    simp only [lift_except, pure_eq, ret_bind, Bool.false_eq_true, if_false, List.foldlM_cons]
    refine triple_bind (triple_bind hmessage fun r => ?_) fun results =>
      triple_pure results fun _ h => h
    refine triple_pure _ fun s hs => ?_
    obtain ⟨result, rfl, hhands⟩ := hs
    exact ⟨result, rfl, hhands⟩

/-- What a raw add answers: one result, which hands out a memory. -/
theorem raw_add_hands_out {text : String} {user_id agent_id run_id : Option String}
    {metadata : Payload} {results : List Mem0.AddResult} {w' : World}
    (hrun : (ops.dispatch host (raw_add text user_id agent_id run_id metadata)).run
      (host.failing fault) w = (.ok (.added results), w')) :
    ∃ r, results = [r] ∧ HandsOut host fault w text user_id metadata r.id w' := by
  change (Mem0.add host [{ role := some "user", content := some text }] user_id agent_id run_id
    metadata false >>= fun results => pure (ops.Response.added results)).run _ w = _ at hrun
  rw [run_bind] at hrun
  rcases hadd :
    (Mem0.add host [{ role := some "user", content := some text }] user_id agent_id run_id
    metadata false).run (host.failing fault) w with ⟨e | added, s⟩
  · rw [hadd] at hrun
    cases hrun
  · rw [hadd] at hrun
    cases hrun
    exact (add_triple w rfl).1 _ _ hadd

/-! ## Whether it is active -/

/-- Superseded, or its time is up. -/
def retired (now : String) (p : Payload) : Bool := is_invalidated p || is_ttl_expired p now

/-- The memory holds the text and the default search keeps it. -/
def HoldsActive (w : World) (id : Id) (text now : String) : Prop :=
  StoredAs id (fun p => p.get "data" = .str text ∧ kept now (Mem0.item_of id p) = true) w

/-- The payload that decides: of the copy the lookup finds, else what the new memory is
stored with. -/
def deciding (host : Host) (fault : Call → World → Option Exn) (w : World)
    (user_id : Option String) (text : String) (metadata : Payload) : Payload :=
  (first_copy host fault w user_id text).elim metadata Prod.snd

/-- An item is in the pool unless its memory is retired. -/
theorem kept_iff_not_retired {id : Id} {p : Payload} {now : String} :
    kept now (Mem0.item_of id p) = true ↔ retired now p = false := by
  rw [kept_item_of_eq, retired, ← Bool.not_or, Bool.not_eq_true']

/-- A new memory is retired when its metadata say so. -/
theorem retired_of_agrees {metadata p : Payload} (h : Agrees metadata p) (now : String) :
    retired now p = retired now metadata := by
  have hget : ∀ key ∉ added_fields, p.get key = metadata.get key := by
    intro key hkey
    rw [Payload.get, h key hkey, Payload.get]
  unfold retired is_invalidated is_ttl_expired
  rw [superseded_ids_congr (hget SUPERSEDED_BY (by decide)), hget TTL_EXPIRES_AT (by decide)]

/-- The copy found holds the text, when no other stored text has its MD5. -/
theorem first_copy_text {user_id : Option String} {text : String} {id : Id} {p : Payload}
    (hw : Truthful host w) (hfirst : first_copy host fault w user_id text = some (id, p))
    (hhex : host.md5 text ≠ "*")
    (hmd5 : ∀ id p other, w.payload id = some p → p.get "data" = .str other →
      host.md5 other = host.md5 text → other = text) :
    w.payload id = some p ∧ p.get "data" = .str text := by
  obtain ⟨hp, hmatches⟩ := first_copy_stored hfirst
  obtain ⟨other, hdata, hhash⟩ := hw id p hp
  rw [hhash] at hmatches
  have hsame : host.md5 other = host.md5 text := by
    simpa [Host.matches_value, hhex] using hmatches
  rw [hmd5 id p other hp hdata hsame] at hdata
  exact ⟨hp, hdata⟩

/-- **A raw add hands out an active memory exactly when its lookup does not find a retired
one.** In every state of every run, whatever calls fail. -/
theorem raw_add_active_iff {allow : World → Faults → Step → Prop} (hw : Reachable host allow w)
    {text now : String} {user_id agent_id run_id : Option String} {metadata : Payload}
    {results : List Mem0.AddResult} {w' : World}
    (hrun : (ops.dispatch host (raw_add text user_id agent_id run_id metadata)).run
      (host.failing fault) w = (.ok (.added results), w'))
    (hhex : host.md5 text ≠ "*")
    (hmd5 : ∀ id p other, w.payload id = some p → p.get "data" = .str other →
      host.md5 other = host.md5 text → other = text) :
    ∃ r, results = [r] ∧ (HoldsActive w' r.id text now ↔
      retired now (deciding host fault w user_id text metadata) = false) := by
  obtain ⟨r, rfl, hhands⟩ := raw_add_hands_out hrun
  refine ⟨r, rfl, ?_⟩
  cases hhands with
  -- a copy was there: it is handed out as it is
  | found p hfirst hsame =>
    obtain ⟨hp, hdata⟩ := first_copy_text hw.truthful hfirst hhex hmd5
    rw [deciding, hfirst, hsame]
    constructor
    · rintro ⟨q, hq, -, hkept⟩
      rw [hp] at hq
      cases hq
      exact kept_iff_not_retired.mp hkept
    · exact fun hactive => ⟨p, hp, hdata, kept_iff_not_retired.mpr hactive⟩
  -- none was there: the new memory has the metadata that was given
  | stored hfirst hstored =>
    obtain ⟨p, hp, hdata, hagrees⟩ := hstored
    rw [deciding, hfirst]
    change _ ↔ retired now metadata = false
    rw [← retired_of_agrees hagrees]
    constructor
    · rintro ⟨q, hq, -, hkept⟩
      rw [hp] at hq
      cases hq
      exact kept_iff_not_retired.mp hkept
    · exact fun hactive => ⟨p, hp, hdata, kept_iff_not_retired.mpr hactive⟩

/-- A text added again while its memory is active. -/
theorem readd_active : ∃ r, (∃ w', (ops.dispatch .plain (raw_add "A" (some "u") none none ∅)).run
      (Host.plain.failing fun _ _ => none) (Step.runs .plain [.note "A", .note "B"]) =
        (.ok (.added [r]), w') ∧ HoldsActive w' r.id "A" "1") ∧ r.id = "m1" := by
  have hreach : Reachable .plain (fun _ _ _ => True) (Step.runs .plain [.note "A", .note "B"]) :=
    .runs fun _ _ _ => trivial
  obtain ⟨r, hr, hiff⟩ := @raw_add_active_iff .plain (fun _ _ => none) _ _ hreach "A" "1" (some "u")
    none none ∅ _ _ rfl (by decide) fun _ _ _ _ _ h => h
  cases hr
  exact ⟨_, ⟨_, rfl, hiff.mpr (by decide)⟩, rfl⟩

/-- The same text once its memory is superseded: the hidden memory is handed out. -/
theorem readd_superseded : ∃ r w', ((ops.dispatch .plain (raw_add "A" (some "u") none none ∅)).run
      (Host.plain.failing fun _ _ => none) (Step.runs .plain superseding)) =
        (.ok (.added [r]), w') ∧ r.id = "m1" ∧ ¬ HoldsActive w' r.id "A" "1" := by
  refine ⟨_, _, rfl, rfl, ?_⟩
  rintro ⟨p, hp, -, hkept⟩
  rw [kept_item_of_eq] at hkept
  cases hp
  revert hkept
  decide

end Memline
