/-
Displacement protections over runs of the store.

A protection hides a memory from displacement judging for a while. It is granted when
the latest suspicions against the text of the memory were all dismissed, and it ends
with the text, with the stay in the pool or when somebody clears it.

The protection is a field of the payload and its evidence is rows of the pair store, so
the law joins the two: a protected memory is not superseded, and has its evidence.
Rows that are dismissed stay as they are, which leaves the payload writes to look at.
Only `update` may reword a protected memory, in one write, and clears it in another.
-/
import Memline.ExpiryFlags
import Memline.Triples

set_option autoImplicit false

namespace Memline

open Effect Effect.Prog SqlTable

/-! ## The law -/

/-- As many dismissed displacement suspicions about this text as a protection needs,
each raised by an entry of its own. -/
def Evidenced (host : Host) (s : PairStore) (x : Id) (text : String) : Prop :=
  ∃ rows : List PairRow, REQUIRED_CONSECUTIVE_DISPLACEMENT_FALSE_POSITIVES ≤ rows.length ∧
    (rows.map fun r => r.new_id).Nodup ∧
    ∀ r ∈ rows, r ∈ s.rows ∧ r.suspects_displacement x (host.text_hash text) = true ∧
      r.disposition = "dismissed"

/-- A protected memory is in use, and has its evidence. -/
def SoundAt (host : Host) (s : PairStore) (x : Id) (p : Payload) : Prop :=
  p.get DISPLACEMENT_PROTECTED_UNTIL ≠ .none →
    superseded_ids p = [] ∧ Evidenced host s x (payload_text p)

def Sound (host : Host) (w : World) : Prop :=
  ∀ x p, w.payload x = some p → SoundAt host w.pairs x p

/-- What is not protected is sound. -/
theorem soundAt_of_none {host : Host} {s : PairStore} {x : Id} {p : Payload}
    (h : p.get DISPLACEMENT_PROTECTED_UNTIL = .none) : SoundAt host s x p :=
  fun hne => absurd h hne

/-! ## The evidence -/

/-- The ids that are counted belong to the first rows: dismissed ones, with new sides
that were not seen before. -/
theorem dismissed_run_leads (rows : List PairRow) (pair_ids new_ids : List Id) :
    ∃ first, first <+: rows ∧
      PairStore.dismissed_run rows pair_ids new_ids = pair_ids ++ first.map (fun r => r.pair_id) ∧
      (∀ r ∈ first, r.disposition = "dismissed" ∧ r.new_id ∉ new_ids) ∧
      (first.map fun r => r.new_id).Nodup := by
  induction rows generalizing pair_ids new_ids with
  | nil => exact ⟨[], List.prefix_rfl, by simp [PairStore.dismissed_run], by simp, List.nodup_nil⟩
  | cons row rows ih =>
    unfold PairStore.dismissed_run
    split
    · exact ⟨[], List.nil_prefix, by simp, by simp, List.nodup_nil⟩
    · rename_i hrow
      rw [not_or, not_not] at hrow
      obtain ⟨first, hleads, hrun, hfirst, hnodup⟩ :=
        ih (pair_ids ++ [row.pair_id]) (row.new_id :: new_ids)
      refine ⟨row :: first, (List.prefix_cons_inj row).mpr hleads, ?_, ?_, ?_⟩
      · rw [hrun]
        simp
      · intro r hr
        rcases List.mem_cons.mp hr with rfl | hr
        · exact hrow
        · exact ⟨(hfirst r hr).1, fun hmem => (hfirst r hr).2 (List.mem_cons_of_mem _ hmem)⟩
      · rw [List.map_cons, List.nodup_cons]
        refine ⟨fun hmem => ?_, hnodup⟩
        obtain ⟨r, hr, hsame⟩ := List.mem_map.mp hmem
        exact (hfirst r hr).2 (hsame ▸ List.mem_cons_self)

/-- The rows of a displacement are rows that suspect it. -/
theorem mem_displacement_rows {s : PairStore} {x : Id} {hash : String} {limit : ℕ} {r : PairRow}
    (h : r ∈ s.displacement_rows x hash limit) :
    r ∈ s.rows ∧ r.suspects_displacement x hash = true := by
  have hsorted := List.mem_of_mem_take h
  rw [List.mem_insertionSort, List.mem_reverse] at hsorted
  exact List.mem_filter.mp hsorted

/-- **The check.** Where the store finds a memory eligible, the evidence is there. -/
theorem evidenced_of_eligible {host : Host} {s : PairStore} {x : Id} {text : String}
    {r : EvidenceResult}
    (h : s.consecutive_dismissed_displacement_evidence host.text_hash x text
      REQUIRED_CONSECUTIVE_DISPLACEMENT_FALSE_POSITIVES = .ok r) (heligible : r.eligible = true) :
    Evidenced host s x text := by
  rw [PairStore.consecutive_dismissed_displacement_evidence, if_neg (by decide)] at h
  injection h with h
  subst h
  have hlength := of_decide_eq_true heligible
  obtain ⟨first, hleads, hrun, hfirst, hnodup⟩ := dismissed_run_leads
    (s.displacement_rows x (host.text_hash text) REQUIRED_CONSECUTIVE_DISPLACEMENT_FALSE_POSITIVES)
    [] []
  rw [hrun, List.nil_append, List.length_map] at hlength
  refine ⟨first, hlength, hnodup, fun r hr => ?_⟩
  obtain ⟨hrow, hsuspects⟩ := mem_displacement_rows (hleads.subset hr)
  exact ⟨hrow, hsuspects, (hfirst r hr).1⟩

/-- A dismissed row stays as it is. -/
theorem dismissed_stays (text_hash : String → String) (op : PairOp) {s : PairStore} {r : PairRow}
    (hr : r ∈ s.rows) (hdismissed : r.disposition = "dismissed") :
    r ∈ (op.apply text_hash s).2.rows := by
  by_cases hop : ∃ pair_id, op = .reopen pair_id
  · obtain ⟨pair_id, rfl⟩ := hop
    refine PairStore.mem_settle_of_mem hr ?_
    rw [hdismissed, Bool.and_eq_false_iff]
    exact .inr (by decide)
  · have hnot : ∀ id, op ≠ .reopen id := fun id heq => hop ⟨id, heq⟩
    obtain ⟨r', hr', hsame⟩ := (op.apply_keeps_closed text_hash s hnot).mem hr
    have hclosed : r.disposition ≠ "open" := by
      rw [hdismissed]
      decide
    rwa [hsame hclosed] at hr'

section calls

variable {host : Host} {fault : Call → World → Option Exn} {w : World}

/-- Evidence outlasts every call. -/
theorem Evidenced.stays {x : Id} {text : String} (h : Evidenced host w.pairs x text)
    (fault : Call → World → Option Exn) (c : Call) :
    Evidenced host (host.failing fault c w).2.pairs x text := by
  rcases host.failing_pairs fault c w with hsame | ⟨op, rfl, -, hop⟩
  · rwa [hsame]
  · obtain ⟨rows, hlength, hnodup, hrows⟩ := h
    refine ⟨rows, hlength, hnodup, fun r hr => ?_⟩
    obtain ⟨hmem, hsuspects, hdismissed⟩ := hrows r hr
    rw [hop]
    exact ⟨dismissed_stays host.text_hash op hmem hdismissed, hsuspects, hdismissed⟩

/-- A memory that a call leaves as it was stays sound. -/
theorem SoundAt.stays {x : Id} {p : Payload} (h : SoundAt host w.pairs x p)
    (fault : Call → World → Option Exn) (c : Call) :
    SoundAt host (host.failing fault c w).2.pairs x p :=
  fun hne => ⟨(h hne).1, (h hne).2.stays fault c⟩

/-- A point that is sound is put into a sound store. -/
theorem Sound.put {x : Id} {p : Payload} (h : Sound host w) (hp : SoundAt host w.pairs x p) :
    Sound host (w.put x p) := by
  intro y q hq
  by_cases hy : y = x
  · subst hy
    rw [w.payload_put_self] at hq
    injection hq with hq
    exact hq ▸ hp
  · rw [w.payload_put_ne p hy] at hq
    exact h y q hq

/-- A patch that leaves the text alone, and grants no protection to what it supersedes. -/
def Harmless (patch : Payload) : Prop :=
  "data" ∉ patch ∧ (patch.lookup DISPLACEMENT_PROTECTED_UNTIL = some .none ∨
    DISPLACEMENT_PROTECTED_UNTIL ∉ patch ∧ superseded_ids patch = [])

theorem Harmless.merge {patch p : Payload} {x : Id} (hpatch : Harmless patch)
    (h : SoundAt host w.pairs x p) : SoundAt host w.pairs x (p.merge patch) := by
  obtain ⟨hdata, huntil | ⟨huntil, hids⟩⟩ := hpatch
  · exact soundAt_of_none (Payload.get_merge_of_lookup huntil)
  · intro hne
    rw [Payload.get_merge_of_notMem huntil] at hne
    obtain ⟨hactive, hevidence⟩ := h hne
    refine ⟨?_, ?_⟩
    · rcases superseded_ids_merge (p := p) hids with hsame | hnone
      · rw [hsame, hactive]
      · exact hnone
    · rwa [payload_text, Payload.get_merge_of_notMem hdata]

/-- A call that takes no evidence from a protection. -/
def harmless : Call → Prop
  | .vs_set_payload _ patch => Harmless patch
  | .vs_insert points => ∀ point ∈ points, point.2.get DISPLACEMENT_PROTECTED_UNTIL = .none
  | .vs_upsert .. => False
  | _ => True

/-- Points without a protection are inserted into a sound store. -/
theorem sound_insert {points : List (Id × Payload)}
    (hpoints : ∀ point ∈ points, point.2.get DISPLACEMENT_PROTECTED_UNTIL = .none)
    (h : Sound host w) : Sound host (points.foldl (fun w p => w.put p.1 p.2) w) := by
  induction points generalizing w with
  | nil => exact h
  | cons point points ih =>
    refine ih (fun q hq => hpoints q (List.mem_cons_of_mem _ hq)) (h.put ?_)
    exact soundAt_of_none (hpoints point List.mem_cons_self)

/-- **One call.** -/
theorem harmless_sound {c : Call} (hc : harmless c) (h : Sound host w) :
    Sound host (host.failing fault c w).2 := by
  have hpairs : ∀ w' : World, w'.points = w.points →
      w'.pairs = (host.failing fault c w).2.pairs → Sound host w' := by
    intro w' hpoints hsame x p hp
    rw [hsame]
    exact (h x p ((payload_congr hpoints x).symm.trans hp)).stays fault c
  by_cases hwrites : c.writes = true
  · rcases host.failing_cases fault c w with ⟨e, hfail⟩ | hok
    · rw [hfail]
      exact h
    rw [hok]
    cases c with
    | vs_set_payload id patch =>
      simp only [Host.answer]
      cases hp : w.payload id with
      | none => exact h
      | some p => exact h.put (Harmless.merge hc (h id p hp))
    | vs_insert points => exact sound_insert hc h
    | vs_upsert id p => exact hc.elim
    | vs_delete id =>
      intro x p hp
      by_cases hx : x = id
      · subst hx
        rw [Host.answer, w.payload_remove_self] at hp
        cases hp
      · rw [Host.answer, w.payload_remove_ne hx] at hp
        exact h x p hp
    | _ => simp [Call.writes] at hwrites
  · exact hpairs _ (host.failing_points (by simpa using hwrites) fault w) rfl

theorem keeps_sound {α : Type} {p : Code α} (hp : p.Uses harmless) :
    p.Keeps (host.failing fault) (Sound host) :=
  hp.keeps fun _ _ hc hw => harmless_sound hc hw

theorem harmless_of_inert (c : Call) (h : inert c) : harmless c := by
  cases c with
  | vs_set_payload _ _ | vs_upsert _ _ | vs_insert _ => exact h.elim
  | _ => trivial

end calls

/-! ## Operations -/

/-- A patch that names none of these fields leaves a protection as it is. -/
theorem harmless_ofList {entries : List (String × Value)} (hdata : ∀ e ∈ entries, e.1 ≠ "data")
    (huntil : ∀ e ∈ entries, e.1 ≠ DISPLACEMENT_PROTECTED_UNTIL)
    (hids : ∀ e ∈ entries, e.1 = SUPERSEDED_BY → e.2 = .none) : Harmless (.ofList entries) := by
  refine ⟨?_, .inr ⟨?_, superseded_ids_ofList hids⟩⟩
  · exact AList.lookup_eq_none.mp (Payload.lookup_ofList_ne hdata)
  · exact AList.lookup_eq_none.mp (Payload.lookup_ofList_ne huntil)

theorem revive_harmless (id : Id) (actor_id session_id : Option String) :
    (revive id actor_id session_id).Uses harmless := by
  refine revive_uses harmless_of_inert fun now => harmless_ofList ?_ ?_ ?_
  · simp [SUPERSEDED_BY, SUPERSEDED_AT, SUPERSEDED_REASON]
  · simp [SUPERSEDED_BY, SUPERSEDED_AT, SUPERSEDED_REASON, DISPLACEMENT_PROTECTED_UNTIL]
  · simp [SUPERSEDED_BY, SUPERSEDED_AT, SUPERSEDED_REASON]

theorem set_ttl_harmless (id : Id) (mode : TtlMode) (actor_id : Option String) :
    (set_ttl id mode actor_id).Uses harmless := by
  refine set_ttl_uses harmless_of_inert (fun now expires_at => ?_) fun _ => trivial
  have hfields : ∀ entries : List (String × Value), (∀ e ∈ entries,
      e.1 ∈ [TTL_EXPIRES_AT, TTL_EXPIRED_AT, "ttl_set_at", "ttl_set_by"]) →
      Harmless (.ofList entries) := by
    intro entries hentries
    have hother : ∀ key ∈ [TTL_EXPIRES_AT, TTL_EXPIRED_AT, "ttl_set_at", "ttl_set_by"],
        key ≠ "data" ∧ key ≠ DISPLACEMENT_PROTECTED_UNTIL ∧ key ≠ SUPERSEDED_BY := by decide
    refine harmless_ofList (fun e he => ?_) (fun e he => ?_) fun e he hkey => ?_
    · exact (hother e.1 (hentries e he)).1
    · exact (hother e.1 (hentries e he)).2.1
    · exact absurd hkey (hother e.1 (hentries e he)).2.2
  cases mode with
  | clear => exact hfields _ (by simp)
  | expire_now => exact hfields _ (by simp)
  | deadline _ _ => exact hfields _ (by simp)

/-- Whatever else a patch writes, it may end with the fields of a protection as null. -/
theorem lookup_cleared (entries : List (String × Value)) :
    (Payload.ofList (entries ++ protection_fields.map fun f => (f, .none))).lookup
      DISPLACEMENT_PROTECTED_UNTIL = some .none := by
  rw [Payload.ofList, List.foldl_append, protection_fields, List.map_cons, List.foldl_cons,
    Payload.lookup_foldl_set_ne _ (by decide)]
  exact Payload.lookup_set_self _ _ _

theorem cleared_protection_harmless : Harmless cleared_protection :=
  ⟨by decide, .inl (lookup_cleared [])⟩

theorem invalidate_harmless (id : Id) (by_ids : List Id)
    (reason actor_id session_id : Option String) :
    (invalidate id by_ids reason actor_id session_id).Uses harmless := by
  refine invalidate_uses harmless_of_inert (fun now => ⟨?_, .inl (lookup_cleared _)⟩) fun _ =>
    trivial
  refine AList.lookup_eq_none.mp (Payload.lookup_ofList_ne fun e he => ?_)
  have hkey : e.1 ∈ [SUPERSEDED_BY, SUPERSEDED_AT, SUPERSEDED_REASON, "invalidated_by_agent_id",
      "invalidated_session_id"] ++ protection_fields := by
    rcases List.mem_append.mp he with he | he
    · refine List.mem_append_left _ ?_
      simp only [List.mem_cons, List.not_mem_nil, or_false] at he
      rcases he with rfl | rfl | rfl | rfl | rfl <;> simp
    · obtain ⟨f, hf, rfl⟩ := List.mem_map.mp he
      exact List.mem_append_right _ hf
  have hother : ∀ key ∈ [SUPERSEDED_BY, SUPERSEDED_AT, SUPERSEDED_REASON, "invalidated_by_agent_id",
      "invalidated_session_id"] ++ protection_fields, key ≠ "data" := by decide
  exact hother e.1 hkey

theorem clear_harmless (id : Id) (actor_id : Option String) (cause : String) :
    (clear_displacement_protection id actor_id cause).Uses harmless :=
  clear_displacement_protection_uses harmless_of_inert cleared_protection_harmless

/-- Adding is harmless when the metadata grants no protection. -/
theorem add_harmless (host : Host) (content : List Message)
    (user_id agent_id run_id : Option String) {metadata : Payload} (infer : Bool)
    (h : metadata.get DISPLACEMENT_PROTECTED_UNTIL = .none) :
    (Mem0.add host content user_id agent_id run_id metadata infer).Uses harmless := by
  refine add_uses harmless_of_inert (fun points hpoints point hpoint => ?_) content user_id
    agent_id run_id infer
  rw [FromMetadata.get (hpoints point hpoint).1 (by decide), h]

section operations

variable {host : Host} {fault : Call → World → Option Exn}

/-- What reads keeps the law, and what is stored under an id. -/
theorem inert_sound {α : Type} {id : Id} {p : Payload} {q : Code α} (hq : q.Uses inert) :
    Triple (host.failing fault) (fun w => Sound host w ∧ w.payload id = some p) q
      (fun _ w => Sound host w ∧ w.payload id = some p) (Sound host) := by
  have hkeeps : q.Keeps (host.failing fault) fun w => Sound host w ∧ w.payload id = some p := by
    refine hq.keeps fun c w hc hw => ⟨harmless_sound (harmless_of_inert c hc) hw.1, ?_⟩
    rw [payload_congr (inert_same hc).1]
    exact hw.2
  exact (triple_of_keeps hkeeps).mono (fun _ h => h) (fun _ _ h => h) fun _ h => h.1

/-- A harmless program keeps the store sound, whether it raises or not. -/
theorem harmless_triple {α : Type} {p : Code α} (hp : p.Uses harmless) :
    Triple (host.failing fault) (Sound host) p (fun _ => Sound host) (Sound host) :=
  triple_of_keeps (keeps_sound hp)

/-- What passes the checks of a protection is stored, and not superseded. -/
theorem check_protection_triple (memory_id : Id) (days : ℚ) (reason : String)
    (actor_id session_id : Option String) :
    Triple (host.failing fault) (Sound host)
      (check_protection memory_id days reason actor_id session_id)
      (fun checked w => (Sound host w ∧ w.payload memory_id = some checked.1) ∧
        superseded_ids checked.1 = []) (Sound host) := by
  refine triple_bind (point_payload_triple _ memory_id) fun found => ?_
  refine triple_bind ((expect_triple _ found _).mono (fun _ h => h)
    (fun payload w hw => (⟨hw.1.1, stored_of_point_payload hw.1.2 hw.2⟩ : Sound host w ∧
      w.payload memory_id = some payload)) fun w hw => hw.1) fun payload => ?_
  refine triple_bind (S := fun _ w => (Sound host w ∧ w.payload memory_id = some payload) ∧
    superseded_ids payload = []) ?_ fun _ => ?_
  · unfold refuse_if
    split
    · exact triple_throw (I := Api) _ fun w hw => hw.1
    · rename_i hactive
      exact triple_pure _ fun w hw => ⟨hw, by simpa [is_invalidated] using hactive⟩
  refine Triple.of_fact (fun w hw => hw.2) fun hids => Triple.of_pre ?_ fun w hw => hw.1
  refine triple_bind (inert_sound ?_) fun expired => ?_
  · unfold ttl_expired_now
    split
    · exact uses_bind now_iso_inert fun _ => uses_pure _
    · exact uses_pure _
  refine triple_bind (inert_sound (refuse_if_uses _ _)) fun _ => ?_
  refine triple_bind (inert_sound (refuse_if_uses _ _)) fun _ => ?_
  refine triple_bind (inert_sound (refuse_if_uses _ _)) fun _ => ?_
  refine triple_bind (inert_sound (refuse_if_uses _ _)) fun _ => ?_
  refine triple_bind (inert_sound (refuse_if_uses _ _)) fun _ => ?_
  exact triple_pure _ fun w hw => ⟨hw, hids⟩

/-- What the store says about the evidence of a memory. -/
theorem evidence_triple (memory_id : Id) (payload : Payload) :
    Triple (host.failing fault) (fun w => Sound host w ∧ w.payload memory_id = some payload)
      (pair_store.consecutive_dismissed_displacement_evidence memory_id (payload_text payload)
        REQUIRED_CONSECUTIVE_DISPLACEMENT_FALSE_POSITIVES)
      (fun evidence w => (Sound host w ∧ w.payload memory_id = some payload) ∧
        (evidence.eligible = true → Evidenced host w.pairs memory_id (payload_text payload)))
      (Sound host) := by
  let op : PairOp := .consecutive_dismissed_displacement_evidence memory_id (payload_text payload)
    REQUIRED_CONSECUTIVE_DISPLACEMENT_FALSE_POSITIVES
  refine triple_perform (fun w evidence w' hw heq => ?_) fun w e w' hw heq => ?_
  · rcases host.failing_cases fault (.pairs op) w with ⟨e, hfail⟩ | hok
    · rw [hfail] at heq
      cases heq
    · rw [hok] at heq
      obtain ⟨hanswer, rfl⟩ := Prod.mk.inj heq
      exact ⟨hw, evidenced_of_eligible hanswer⟩
  · have hend : Sound host (host.failing fault (.pairs op) w).2 := harmless_sound trivial hw.1
    rwa [heq] at hend

/-- A protection says nothing about the text, or about successors. -/
theorem protected_sound {s : PairStore} {x : Id} {p : Payload}
    {until_ reason now actor_id session_id : String} (hids : superseded_ids p = [])
    (hevidence : Evidenced host s x (payload_text p)) :
    SoundAt host s x (p.merge (protection_patch until_ reason now actor_id session_id)) := by
  have hkeys : ∀ key, key ∉ protection_fields →
      (p.merge (protection_patch until_ reason now actor_id session_id)).get key = p.get key := by
    intro key hkey
    refine Payload.get_merge_of_notMem (AList.lookup_eq_none.mp (Payload.lookup_ofList_ne ?_))
    intro e he heq
    refine hkey (heq ▸ ?_)
    simp only [List.mem_cons, List.not_mem_nil, or_false] at he
    rcases he with rfl | rfl | rfl | rfl | rfl <;> simp [protection_fields]
  intro _
  refine ⟨(superseded_ids_congr (hkeys _ (by decide))).trans hids, ?_⟩
  rwa [payload_text, hkeys "data" (by decide)]

/-- **Granting a protection.** -/
theorem set_displacement_protection_sound (memory_id : Id) (days : ℚ) (reason : String)
    (actor_id session_id : Option String) :
    (set_displacement_protection memory_id days reason actor_id session_id).Keeps
      (host.failing fault) (Sound host) := by
  refine Triple.keeps (triple_bind
    (check_protection_triple memory_id days reason actor_id session_id)
    fun checked => ?_)
  obtain ⟨payload, reason, actor_id, session_id⟩ := checked
  refine Triple.of_fact (fun w hw => hw.2) fun hids => Triple.of_pre ?_ fun w hw => hw.1
  -- the evidence is read while the text and the pairs stay as they are, up to the write
  refine triple_bind (evidence_triple memory_id payload) fun evidence => ?_
  let granted (w : World) : Prop := (Sound host w ∧ w.payload memory_id = some payload) ∧
    Evidenced host w.pairs memory_id (payload_text payload)
  refine triple_bind (S := fun _ => granted) ?_ fun _ => ?_
  · unfold refuse_if
    split
    · exact triple_throw (I := Api) _ fun w hw => hw.1.1
    · rename_i heligible
      exact triple_pure _ fun w hw => ⟨hw.1, hw.2 (by simpa using heligible)⟩
  refine triple_bind (now_iso_total granted fun w hw => hw) fun now => ?_
  refine triple_bind (S := fun _ => granted) (triple_perform (fun w a w' hw heq => ?_)
    fun w e w' hw heq => ?_) fun until_ => ?_
  · cases heq
    exact hw
  · cases heq
  refine triple_bind (S := fun _ => Sound host) (triple_perform (fun w a w' hw heq => ?_)
    fun w e w' hw heq => ?_) fun _ => ?_
  · obtain ⟨⟨hsound, hp⟩, hevidence⟩ := hw
    have hwritten : Sound host (host.failing fault (.vs_set_payload memory_id
        (protection_patch until_ reason now actor_id session_id)) w).2 := by
      rcases host.failing_cases fault (.vs_set_payload memory_id
        (protection_patch until_ reason now actor_id session_id)) w with ⟨e, hfail⟩ | hok
      · rw [hfail]
        exact hsound
      · rw [hok]
        simp only [Host.answer, hp]
        exact hsound.put (protected_sound hids hevidence)
    rwa [heq] at hwritten
  · rw [set_payload_error heq]
    exact hw.1.1
  refine triple_bind (harmless_triple ((note_history_inert _ _ _ _ _).mono harmless_of_inert))
    fun _ => triple_pure _ fun _ hw => hw

/-! ### Updating -/

/-- The metadata of an update leaves a protection as it is. -/
def Current (p metadata : Payload) : Prop :=
  ∀ f ∈ protection_fields, f ∈ metadata → metadata.get f = p.get f

/-- An update with current metadata leaves the protection as it is. -/
theorem updated_protection {p metadata : Payload} {text now : String} (h : Current p metadata) :
    (Mem0.updated_payload host p text metadata now).get DISPLACEMENT_PROTECTED_UNTIL =
      p.get DISPLACEMENT_PROTECTED_UNTIL := by
  rw [Payload.get, Mem0.lookup_updated_payload (by decide)]
  cases hv : metadata.lookup DISPLACEMENT_PROTECTED_UNTIL with
  | none => rfl
  | some v =>
    have hmem : DISPLACEMENT_PROTECTED_UNTIL ∈ metadata := AList.lookup_isSome.mp (by rw [hv]; rfl)
    rw [← h _ (by decide) hmem, Payload.get, hv]
    rfl

/-- An update that does not reword a protected memory, and does not supersede it. -/
def Spares (p : Payload) (text : String) (metadata : Payload) : Prop :=
  p.get DISPLACEMENT_PROTECTED_UNTIL ≠ .none → payload_text p = text ∧ superseded_ids metadata = []

/-- An update that spares the protection leaves it sound. -/
theorem updated_sound {s : PairStore} {x : Id} {p metadata : Payload} {text now : String}
    (hcurrent : Current p metadata) (hspares : Spares p text metadata) (h : SoundAt host s x p) :
    SoundAt host s x (Mem0.updated_payload host p text metadata now) := by
  intro hne
  rw [updated_protection hcurrent] at hne
  obtain ⟨htext, hids⟩ := hspares hne
  obtain ⟨hactive, hevidence⟩ := h hne
  refine ⟨?_, ?_⟩
  · have hget : (Mem0.updated_payload host p text metadata now).get SUPERSEDED_BY =
        p.get SUPERSEDED_BY ∨
        (Mem0.updated_payload host p text metadata now).get SUPERSEDED_BY =
          metadata.get SUPERSEDED_BY := Mem0.get_updated_payload (by decide)
    rcases hget with hsame | hgiven
    · rw [superseded_ids_congr hsame, hactive]
    · rw [superseded_ids_congr hgiven, hids]
  · rw [updated_payload_text, ← htext]
    exact hevidence

/-- An update that leaves a protection and what it rests on. -/
theorem mem0_update_spares (memory_id : Id) (text : String) {p metadata : Payload}
    (hcurrent : Current p metadata) (hspares : Spares p text metadata) :
    Triple (host.failing fault) (fun w => Sound host w ∧ w.payload memory_id = some p)
      (Mem0.update host memory_id text metadata) (fun _ => Sound host) (Sound host) := by
  refine triple_bind ((vs_get_triple _ memory_id).mono (fun _ h => h) (fun _ _ h => h)
    fun w hw => hw.1.1) fun found => ?_
  refine Triple.of_fact (φ := found = some p) (fun w hw => hw.2.trans hw.1.2) ?_
  rintro rfl
  refine Triple.of_pre ?_ fun w hw => hw.1
  simp only [expect, pure_eq, ret_bind]
  refine triple_bind (inert_sound now_iso_inert) fun now => ?_
  refine triple_bind (S := fun _ => Sound host) (triple_perform (fun w a w' hw heq => ?_)
    fun w e w' hw heq => ?_) fun _ => harmless_triple (uses_perform trivial)
  · rcases host.failing_cases fault (.vs_upsert memory_id
      (Mem0.updated_payload host p text metadata now)) w with ⟨e, hfail⟩ | hok
    · rw [hfail] at heq
      cases heq
    · rw [hok] at heq
      cases heq
      exact hw.1.put (updated_sound hcurrent hspares (hw.1 memory_id p hw.2))
  · rcases host.failing_cases fault (.vs_upsert memory_id
      (Mem0.updated_payload host p text metadata now)) w with ⟨e', hfail⟩ | hok
    · rw [hfail] at heq
      cases heq
      exact hw.1
    · rw [hok] at heq
      cases heq

/-- Everything but this memory is sound, which is stored. -/
def SoundBut (host : Host) (x : Id) (w : World) : Prop :=
  (∀ y p, y ≠ x → w.payload y = some p → SoundAt host w.pairs y p) ∧ ∃ p, w.payload x = some p

/-- An update that rewords a memory, where the writes succeed. -/
theorem mem0_update_rewords (hfault : WritesSucceed fault) (memory_id : Id) (text : String)
    (p metadata : Payload) :
    Triple (host.failing fault) (fun w => Sound host w ∧ w.payload memory_id = some p)
      (Mem0.update host memory_id text metadata) (fun _ => SoundBut host memory_id)
      (Sound host) := by
  refine triple_bind ((vs_get_triple _ memory_id).mono (fun _ h => h) (fun _ _ h => h)
    fun w hw => hw.1.1) fun found => ?_
  refine Triple.of_fact (φ := found = some p) (fun w hw => hw.2.trans hw.1.2) ?_
  rintro rfl
  refine Triple.of_pre ?_ fun w hw => hw.1
  simp only [expect, pure_eq, ret_bind]
  refine triple_bind (inert_sound now_iso_inert) fun now => ?_
  refine triple_bind (S := fun _ => SoundBut host memory_id) (write_triple hfault _ (by trivial)
    fun w hw => ⟨⟨(), rfl⟩, fun y q hy hq => ?_, _, w.payload_put_self memory_id _⟩) fun _ => ?_
  · rw [Host.answer, w.payload_put_ne _ hy] at hq
    exact hw.1 y q hq
  · exact write_triple hfault _ (by trivial) fun w hw => ⟨⟨(), rfl⟩, hw⟩

/-- Clearing the protection of the memory that was reworded. -/
theorem clear_reworded (hfault : WritesSucceed fault) {memory_id : Id}
    (hread : ∀ w, fault (.vs_get memory_id) w = none) (actor_id : Option String) (cause : String) :
    Triple (host.failing fault) (SoundBut host memory_id)
      (clear_displacement_protection memory_id actor_id cause) (fun _ => Sound host)
      (Sound host) := by
  have hlook : Triple (host.failing fault) (SoundBut host memory_id) (point_payload memory_id)
      (fun found w => SoundBut host memory_id w ∧ found = w.payload memory_id) (Sound host) := by
    refine (point_payload_triple (E := Sound host) _ memory_id).mono (fun _ h => h)
      (fun found w hw => ⟨hw.1, hw.2.resolve_right ?_⟩) fun _ h => h
    rintro ⟨-, hstruck⟩
    exact hstruck (hread w)
  refine triple_bind hlook fun found => ?_
  refine Triple.of_fact (φ := ∃ p, found = some p) (fun w hw => ?_) ?_
  · obtain ⟨⟨-, p, hp⟩, rfl⟩ := hw
    exact ⟨p, hp⟩
  rintro ⟨p, rfl⟩
  simp only [expect, pure_eq, ret_bind]
  split
  · refine triple_bind (S := fun _ => Sound host) (write_triple hfault _ (by trivial)
      fun w hw => ?_) fun _ => ?_
    · obtain ⟨⟨hother, -⟩, hp⟩ := hw
      have hanswer : host.answer (.vs_set_payload memory_id cleared_protection) w =
          (.ok (), w.put memory_id (p.merge cleared_protection)) := by
        simp only [Host.answer, ← hp]
      rw [hanswer]
      refine ⟨⟨(), rfl⟩, fun y q hq => ?_⟩
      by_cases hy : y = memory_id
      · subst hy
        rw [w.payload_put_self] at hq
        injection hq with hq
        subst hq
        exact soundAt_of_none (Payload.get_merge_of_lookup (lookup_cleared []))
      · rw [w.payload_put_ne _ hy] at hq
        exact hother y q hy hq
    · refine triple_bind (harmless_triple (now_iso_inert.mono harmless_of_inert)) fun now => ?_
      exact triple_bind (harmless_triple ((note_history_inert _ _ _ _ _).mono harmless_of_inert))
        fun _ => triple_pure _ fun _ hw => hw
  · rename_i hunchanged
    -- none of the fields was set
    have huntil : p.get DISPLACEMENT_PROTECTED_UNTIL = .none := by
      by_contra hne
      refine hunchanged (List.any_eq_true.mpr ⟨DISPLACEMENT_PROTECTED_UNTIL, by decide, ?_⟩)
      exact decide_eq_true hne
    refine triple_pure _ fun w hw y q hq => ?_
    by_cases hy : y = memory_id
    · subst hy
      rw [← hw.2] at hq
      injection hq with hq
      subst hq
      exact soundAt_of_none huntil
    · exact hw.1.1 y q hy hq

/-- What `update` may start from. -/
def UpdateSound (fault : Call → World → Option Exn) (memory_id : Id) (text : String)
    (metadata : Payload) (w : World) : Prop :=
  ∀ p, w.payload memory_id = some p → Current p metadata ∧
    (p.get DISPLACEMENT_PROTECTED_UNTIL ≠ .none →
      (payload_text p = text → superseded_ids metadata = []) ∧
      (payload_text p ≠ text → WritesSucceed fault ∧ ∀ w, fault (.vs_get memory_id) w = none))

/-- **Updating.** -/
theorem ops_update_sound {w : World} (memory_id : Id) (text : String) (metadata : Payload)
    (h : UpdateSound fault memory_id text metadata w) (hw : Sound host w) :
    Sound host ((ops.update host memory_id text metadata).run (host.failing fault) w).2 := by
  have hlast : ∀ cleared : Option Bool, Triple (host.failing fault) (Sound host) (do
      attempt (do
        let _ ← pair_store.close_for_updated_text memory_id text)
      pure cleared) (fun _ => Sound host) (Sound host) := fun cleared =>
    harmless_triple (uses_bind (attempt_uses (uses_bind (close_for_updated_text_uses
      harmless_of_inert fun _ => trivial) fun _ => uses_pure ())) fun _ => uses_pure cleared)
  -- an unknown memory is not updated at all
  cases hp : w.payload memory_id with
  | none =>
    have hnothing : Triple (host.failing fault) (fun w => Sound host w ∧ w.payload memory_id = none)
        (ops.update host memory_id text metadata) (fun _ => Sound host) (Sound host) := by
      refine triple_bind ((vs_get_triple _ memory_id).mono (fun _ h => h) (fun _ _ h => h.1)
        fun w hw => hw.1.1) fun point => ?_
      refine triple_bind (S := fun _ => Sound host) (triple_bind ((vs_get_triple _ memory_id).mono
        (fun _ h => h) (fun _ _ h => h) fun w hw => hw.1.1) fun found => ?_) fun _ => ?_
      · refine Triple.of_fact (φ := found = none) (fun w hw => hw.2.trans hw.1.2) ?_
        rintro rfl
        exact triple_throw (I := Api) _ fun w hw => hw.1.1
      · exact triple_bind (harmless_triple (clear_if_changed_uses harmless_of_inert
          cleared_protection_harmless)) hlast
    exact hnothing.run ⟨hw, hp⟩
  | some p =>
    obtain ⟨hcurrent, hprotected⟩ := h p hp
    -- the evidence of a protected memory is about its text: it goes on counting while that
    -- stays
    by_cases hspares : Spares p text metadata
    · have hspared : Triple (host.failing fault)
          (fun w => Sound host w ∧ w.payload memory_id = some p)
          (ops.update host memory_id text metadata) (fun _ => Sound host) (Sound host) := by
        refine triple_bind (inert_sound (vs_get_inert memory_id)) fun point => ?_
        refine triple_bind (mem0_update_spares memory_id text hcurrent hspares) fun _ => ?_
        exact triple_bind (harmless_triple (clear_if_changed_uses harmless_of_inert
          cleared_protection_harmless)) hlast
      exact hspared.run ⟨hw, hp⟩
    · -- the memory is protected, and gets another text
      obtain ⟨hne, hrest⟩ := Classical.not_imp.mp hspares
      obtain ⟨hsame, hreworded⟩ := hprotected hne
      have htext : payload_text p ≠ text := fun heq => hrest ⟨heq, hsame heq⟩
      obtain ⟨hfault, hread⟩ := hreworded htext
      have hcleared : Triple (host.failing fault)
          (fun w => Sound host w ∧ w.payload memory_id = some p)
          (ops.update host memory_id text metadata) (fun _ => Sound host) (Sound host) := by
        refine triple_bind ((vs_get_triple _ memory_id).mono (fun _ h => h) (fun _ _ h => h)
          fun w hw => hw.1.1) fun point => ?_
        refine Triple.of_fact (φ := point = some p) (fun w hw => hw.2.trans hw.1.2) ?_
        rintro rfl
        refine Triple.of_pre ?_ fun w hw => hw.1
        refine triple_bind (mem0_update_rewords hfault memory_id text p metadata) fun _ => ?_
        refine triple_bind (S := fun _ => Sound host) ?_ hlast
        rw [ops.clear_if_changed, if_pos (by simpa using htext)]
        exact triple_bind (clear_reworded hfault hread _ _) fun _ => triple_pure _ fun _ hw => hw
      exact hcleared.run ⟨hw, hp⟩

end operations

/-! ## Runs -/

inductive ProtectStep where
  | add (content : List Message) (user_id agent_id run_id : Option String) (metadata : Payload)
      (infer : Bool)
  | update (memory_id : Id) (text : String) (metadata : Payload)
  | invalidate (memory_id : Id) (by_ids : List Id) (reason actor_id session_id : Option String)
  | revive (memory_id : Id) (actor_id session_id : Option String)
  | set_ttl (memory_id : Id) (mode : TtlMode) (actor_id : Option String)
  | set_displacement_protection (memory_id : Id) (days : ℚ) (reason : String)
      (actor_id session_id : Option String)
  | clear_displacement_protection (memory_id : Id) (actor_id : Option String) (cause : String)
  | record_judgment (j : Judgment)
  | dispose (pair_id : Id) (disposition : String) (disposed_by : Option String)
  | reopen (pair_id : Id)

namespace ProtectStep

def code (host : Host) : ProtectStep → Code Unit
  | add content user_id agent_id run_id metadata infer =>
    ReviewStep.discard (Mem0.add host content user_id agent_id run_id metadata infer)
  | update memory_id text metadata => ReviewStep.discard (ops.update host memory_id text metadata)
  | invalidate memory_id by_ids reason actor_id session_id =>
    ReviewStep.discard (Memline.invalidate memory_id by_ids reason actor_id session_id)
  | revive memory_id actor_id session_id =>
    ReviewStep.discard (Memline.revive memory_id actor_id session_id)
  | set_ttl memory_id mode actor_id => ReviewStep.discard (Memline.set_ttl memory_id mode actor_id)
  | set_displacement_protection memory_id days reason actor_id session_id =>
    ReviewStep.discard (Memline.set_displacement_protection memory_id days reason
      actor_id session_id)
  | clear_displacement_protection memory_id actor_id cause =>
    ReviewStep.discard (Memline.clear_displacement_protection memory_id actor_id cause)
  | record_judgment j => ReviewStep.discard (pair_store.record_judgment j)
  | dispose pair_id disposition disposed_by =>
    ReviewStep.discard (pair_store.dispose pair_id disposition disposed_by)
  | reopen pair_id => ReviewStep.discard (pair_store.reopen pair_id)

/-- The world after a step, given which calls fail in it. -/
def run (host : Host) (fault : Call → World → Option Exn) (w : World) (s : ProtectStep) : World :=
  ((s.code host).run (host.failing fault) w).2

/-- An update carries the values a protection has. -/
def CarriesCurrent (_ : Call → World → Option Exn) (w : World) : ProtectStep → Prop
  | update memory_id _ metadata => ∀ p, w.payload memory_id = some p → Current p metadata
  | _ => True

/-- Beyond that, metadata grants no protection to a new memory and supersedes none that
is protected, and in an update that rewords a protected memory no write and no read of it
fails. -/
def KeepsSound (fault : Call → World → Option Exn) (w : World) : ProtectStep → Prop
  | add _ _ _ _ metadata _ => metadata.get DISPLACEMENT_PROTECTED_UNTIL = .none
  | update memory_id text metadata => UpdateSound fault memory_id text metadata w
  | _ => True

end ProtectStep

/-- A run of steps on one store, one after the other. Calls may fail in any of them. -/
inductive ProtectRun (host : Host)
    (allow : (Call → World → Option Exn) → World → ProtectStep → Prop) : World → Prop
  | start : ProtectRun host allow .empty
  | step {w : World} (h : ProtectRun host allow w) (s : ProtectStep)
      (fault : Call → World → Option Exn) (ha : allow fault w s) :
      ProtectRun host allow (s.run host fault w)

/-- One step. -/
theorem protect_step {host : Host} {fault : Call → World → Option Exn} {w : World} (s : ProtectStep)
    (hs : s.KeepsSound fault w) (hw : Sound host w) : Sound host (s.run host fault w) := by
  have hharmless : ∀ {α : Type} {p : Code α}, p.Uses harmless →
      Sound host ((ReviewStep.discard p).run (host.failing fault) w).2 :=
    fun hp => keeps_discard (keeps_sound hp) w hw
  cases s with
  | add content user_id agent_id run_id metadata infer =>
    exact hharmless (add_harmless host content user_id agent_id run_id infer hs)
  | update memory_id text metadata =>
    refine (congrArg (Sound host) ?_).mpr (ops_update_sound memory_id text metadata hs hw)
    exact run_map _ _ _ _
  | invalidate memory_id by_ids reason actor_id session_id =>
    exact hharmless (invalidate_harmless memory_id by_ids reason actor_id session_id)
  | revive memory_id actor_id session_id =>
    exact hharmless (revive_harmless memory_id actor_id session_id)
  | set_ttl memory_id mode actor_id => exact hharmless (set_ttl_harmless memory_id mode actor_id)
  | set_displacement_protection memory_id days reason actor_id session_id =>
    exact keeps_discard (set_displacement_protection_sound memory_id days reason actor_id
      session_id) w hw
  | clear_displacement_protection memory_id actor_id cause =>
    exact hharmless (clear_harmless memory_id actor_id cause)
  | record_judgment j =>
    exact hharmless (record_judgment_uses harmless_of_inert fun _ _ => trivial)
  | dispose pair_id disposition disposed_by =>
    exact hharmless (dispose_uses harmless_of_inert fun _ => trivial)
  | reopen pair_id => exact hharmless (uses_perform trivial)

/-- **Protections are sound.** In every run in which metadata grants no protection to a new
memory and supersedes none that is protected, and no write or read of the memory fails in an
update that rewords a protected one, a protected memory is not superseded, and its text has
its evidence. -/
theorem protections_sound (host : Host) {w : World}
    (h : ProtectRun host (fun fault w s => s.KeepsSound fault w) w) : Sound host w := by
  induction h with
  | start => exact fun x p hp => by cases hp
  | step _ s fault hs ih => exact protect_step s hs ih

/-! ## Fixed runs -/

/-- Several steps in which nothing fails. -/
def ProtectStep.runs (host : Host) (w : World) (steps : List ProtectStep) : World :=
  steps.foldl (fun w s => s.run host (fun _ _ => none) w) w

def raised (new_id : Id) : ProtectStep :=
  .record_judgment { new_id, old_id := "m1", old_text := "A", verdict := "SUPERSEDED"
                     confidence := some 1, reason := none }

/-- Three suspicions about a memory are dismissed, and it gets its protection. -/
def granting : List ProtectStep :=
  [.add [{ role := some "user", content := some "A" }] (some "workspace") none none ∅ false,
    raised "m2", raised "m3", raised "m4", .dispose "m11" "dismissed" none,
    .dispose "m111" "dismissed" none, .dispose "m1111" "dismissed" none,
    .set_displacement_protection "m1" 30 "held on purpose" (some "agent") (some "session")]

/-- Steps that are allowed whatever the store looks like. -/
theorem ProtectRun.runs {host : Host}
    {allow : (Call → World → Option Exn) → World → ProtectStep → Prop} {w : World}
    (h : ProtectRun host allow w) {steps : List ProtectStep}
    (hallow : ∀ s ∈ steps, ∀ w, allow (fun _ _ => none) w s) :
    ProtectRun host allow (ProtectStep.runs host w steps) := by
  induction steps generalizing w with
  | nil => exact h
  | cons s steps ih =>
    refine ih (h.step s (fun _ _ => none) (hallow s List.mem_cons_self w)) ?_
    exact fun s hs => hallow s (List.mem_cons_of_mem _ hs)

/-- The memory with its protection. -/
def granted : World := ProtectStep.runs .plain .empty granting

/-- An update that rewords the memory. -/
def retelling : ProtectStep := .update "m1" "B" ∅

/-- The memory is protected, on good grounds, until it is reworded. -/
theorem protections_sound_granted :
    (granted.payload "m1").any (fun p => decide (p.get DISPLACEMENT_PROTECTED_UNTIL ≠ .none)) =
      true ∧
      Sound .plain granted ∧ Sound .plain (retelling.run .plain (fun _ _ => none) granted) := by
  have hgranted : ProtectRun .plain (fun fault w s => s.KeepsSound fault w) granted := by
    refine ProtectRun.start.runs fun s hs w => ?_
    simp only [granting, raised, List.mem_cons, List.not_mem_nil, or_false] at hs
    rcases hs with rfl | rfl | rfl | rfl | rfl | rfl | rfl | rfl
    · rfl
    all_goals trivial
  refine ⟨by decide +kernel, protections_sound .plain hgranted,
    protections_sound .plain (hgranted.step retelling (fun _ _ => none) fun p _ => ?_)⟩
  refine ⟨fun f _ hmem => absurd hmem (by simp), fun _ => ⟨fun _ => rfl, fun _ => ?_⟩⟩
  exact ⟨fun _ _ _ => rfl, fun _ => rfl⟩

/-- Without any suspicion about its text a protected memory is not sound. -/
theorem not_sound {host : Host} {w : World} (x : Id)
    (h : (w.payload x).any (fun p => decide (p.get DISPLACEMENT_PROTECTED_UNTIL ≠ .none) &&
      (!(superseded_ids p).isEmpty || w.pairs.rows.all fun r =>
        !r.suspects_displacement x (host.text_hash (payload_text p)))) = true) :
    ¬ Sound host w := by
  intro hsound
  cases hp : w.payload x with
  | none =>
    rw [hp] at h
    cases h
  | some p =>
    rw [hp, Option.any_some, Bool.and_eq_true, Bool.or_eq_true, List.all_eq_true] at h
    obtain ⟨hne, hwrong⟩ := h
    obtain ⟨hids, rows, hlength, -, hrows⟩ := hsound x p hp (of_decide_eq_true hne)
    rcases hwrong with hsuperseded | hnone
    · rw [hids] at hsuperseded
      cases hsuperseded
    · obtain ⟨r, hr⟩ : ∃ r, r ∈ rows :=
        List.exists_mem_of_length_pos (lt_of_lt_of_le (by decide) hlength)
      obtain ⟨hmem, hsuspects, -⟩ := hrows r hr
      have hnot := hnone r hmem
      rw [hsuspects] at hnot
      cases hnot

/-- An addition that brings its protection along. -/
def protecting : ProtectStep :=
  .add [{ role := some "user", content := some "A" }] (some "workspace") none none
    (.ofList [(DISPLACEMENT_PROTECTED_UNTIL, .str "9")]) false

/-- An update that supersedes the memory. -/
def replacing : ProtectStep := .update "m1" "A" (.ofList [(SUPERSEDED_BY, .str "m2")])

/-- The history cannot be written. -/
def no_history : Call → World → Option Exn
  | .add_history _, _ => some (.other "disk full")
  | _, _ => none

/-- The memory cannot be read any more once it has its new text. -/
def unread_anew : Call → World → Option Exn
  | .vs_get id, w =>
    if (w.payload id).any (payload_text · ≠ "A") then some (.other "timed out") else none
  | _, _ => none

/-- A run within the rules, but for one step, that ends with an unsound protection. -/
def Unsound (w : World) : Prop := ProtectRun .plain ProtectStep.CarriesCurrent w ∧ ¬ Sound .plain w

/-- Each of the four takes a step that the condition on runs excludes. -/
theorem protections_unsound :
    Unsound (protecting.run .plain (fun _ _ => none) .empty) ∧
      Unsound (replacing.run .plain (fun _ _ => none) granted) ∧
      Unsound (retelling.run .plain no_history granted) ∧
      Unsound (retelling.run .plain unread_anew granted) := by
  have hgranted : ProtectRun .plain ProtectStep.CarriesCurrent granted := by
    refine ProtectRun.start.runs fun s hs w => ?_
    simp only [granting, raised, List.mem_cons, List.not_mem_nil, or_false] at hs
    rcases hs with rfl | rfl | rfl | rfl | rfl | rfl | rfl | rfl
    all_goals trivial
  have hnone : ∀ f ∈ protection_fields, f ∉ Payload.ofList [(SUPERSEDED_BY, .str "m2")] := by decide
  have hkept : ∀ p : Payload, Current p ∅ := fun p f _ hmem => absurd hmem (by simp)
  refine ⟨?_, ?_, ?_, ?_⟩
  · refine ⟨ProtectRun.start.step protecting (fun _ _ => none) trivial, not_sound "m1" ?_⟩
    decide +kernel
  · refine ⟨hgranted.step replacing (fun _ _ => none) fun p _ f hf hmem => ?_, not_sound "m1" ?_⟩
    · exact absurd hmem (hnone f hf)
    · decide +kernel
  · refine ⟨hgranted.step retelling no_history fun p _ => hkept p, not_sound "m1" ?_⟩
    decide +kernel
  · refine ⟨hgranted.step retelling unread_anew fun p _ => hkept p, not_sound "m1" ?_⟩
    decide +kernel

end Memline
