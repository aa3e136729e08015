/-
The default search, and what harvesting shows in it.

The search asks the backend for more than it hands out and drops what is superseded or
expired. It is exact as long as what it drops ahead of the last item it wants fits the
margin. What harvesting writes is about memories that are expired already, so the search
drops them with or without the writes.
-/
import Memline.Lib.Datetime
import Memline.Lib.Lists
import Memline.Reversal

set_option autoImplicit false

namespace Memline

open Effect Effect.Prog SqlTable
open Py (Datetime)

variable {host : Host}

/-! ## Honesty -/

/-- How far the search looks for `top_k` active items. -/
def fetch_k (top_k : ℕ) : ℕ := max (top_k * 2) (top_k + 10)

/-- The last of the items wanted, and what is dropped ahead of it, fit the margin. -/
def InMargin (now : String) (top_k : ℕ) (ranking : List Item) : Prop :=
  let wanted := min top_k (ranking.countP (kept now))
  Lists.ahead (kept now) wanted ranking + wanted ≤ fetch_k top_k

/-- **Default search.** Over a backend that hands out the first items of one ranking, the search
hands out the first active items of it exactly when they are in the margin. -/
theorem default_search_honest {query : String} {filters : Filters} {w : World} {ranking : List Item}
    (hbackend : ∀ n, (Mem0.search query n filters).run host.answer w = (.ok (ranking.take n), w))
    (top_k : ℕ) :
    ∃ items, (search_with_staleness query top_k filters false).run host.answer w
        = (.ok items, w.tick) ∧
      (items = (ranking.filter (kept (host.now_iso w.ticks))).take top_k ↔
        InMargin (host.now_iso w.ticks) top_k ranking) := by
  refine ⟨((ranking.take (fetch_k top_k)).filter (kept (host.now_iso w.ticks))).take top_k, ?_, ?_⟩
  · change ((Mem0.search query (fetch_k top_k) filters) >>= fun items => now_iso >>= fun now =>
      pure ((items.filter (kept now)).take top_k)).run host.answer w = _
    rw [run_bind_ok (hbackend (fetch_k top_k))]
    rfl
  · exact Lists.take_filter_take_iff top_k (fetch_k top_k) ranking

/-- A backend with one ranking for every query. -/
def Host.ranked (ranking : List Item) : Host :=
  { Host.plain with search := fun _ _ n _ => ranking.take n }

/-- A memory that another one has replaced, as a search hands it out. -/
def replaced : Item := Mem0.item_of "old" (.ofList [(SUPERSEDED_BY, .ofIds ["new"])])

/-- The memory that has replaced it. -/
def replacement : Item := Mem0.item_of "new" (.ofList [("data", .str "text")])

/-- One replaced memory ahead is in the margin. -/
theorem one_replaced_ahead : ∃ items,
    (search_with_staleness "q" 1 [("user_id", .value "u")] false).run
      (Host.ranked [replaced, replacement]).answer World.empty = (.ok items, World.empty.tick) ∧
    (items = ([replaced, replacement].filter (kept "1")).take 1 ↔
      InMargin "1" 1 [replaced, replacement]) :=
  @default_search_honest (Host.ranked [replaced, replacement]) "q" [("user_id", .value "u")]
    World.empty [replaced, replacement] (fun _ => rfl) 1

/-- Eleven of them are not: the search finds nothing. -/
theorem eleven_replaced_ahead :
    (search_with_staleness "q" 1 [("user_id", .value "u")] false).run
      (Host.ranked (List.replicate 11 replaced ++ [replacement])).answer World.empty
        = (.ok [], World.empty.tick) ∧
    ((List.replicate 11 replaced ++ [replacement]).filter (kept "1")).take 1 = [replacement] :=
  ⟨rfl, rfl⟩

/-! ## Suspicions -/

/-- `SELECT … WHERE disposition='open' AND old_id IN (…)`. -/
def PairStore.open_for_old_ids (s : PairStore) (old_ids : List Id) : List PairRow :=
  s.rows.filter fun r => r.is_open && decide (r.old_id ∈ old_ids)

structure Suspicion where
  kind : String
  suspected_by : Id
  verdict : String
  confidence : Option ℚ
  reason : Option String

/-- A hit of the search; it is suspected to be stale when it has suspicions. -/
structure Hit where
  item : Item
  suspicions : List Suspicion

def suspicion_of (r : PairRow) : Suspicion where
  kind := if r.kind = "" then KIND_DISPLACEMENT else r.kind
  suspected_by := r.new_id
  verdict := r.verdict
  confidence := r.confidence
  reason := r.reason

/-- Attach open-suspicion info to result items; a pair store that cannot be read attaches
nothing. -/
def annotate_suspected (pairs : Option PairStore) (items : List Item) : List Hit :=
  let ids := (items.map Item.id).filter fun id => decide (id ≠ "")
  let open_by_old := (pairs.map fun s => s.open_for_old_ids ids).getD []
  items.map fun item =>
    ⟨item, (open_by_old.filter fun r => decide (r.old_id = item.id)).map suspicion_of⟩

/-- The default search and its annotations. -/
def default_search (h : Handler Api World) (readable : Bool) (query : String) (top_k : ℕ)
    (filters : Filters) (w : World) : Except Exn (List Hit) :=
  let r := (search_with_staleness query top_k filters false).run h w
  r.1.map (annotate_suspected (if readable then some r.2.pairs else none))

/-! ## Harvesting is not observed -/

/-- The same surroundings at a fixed time. -/
def Host.at (host : Host) (t : Datetime) : Host := { host with now_iso := fun _ => t.isoformat }

/-- The same memories with the same payloads, but for the lifecycle fields. -/
def SameContent (w w' : World) : Prop :=
  ∀ id key, key ∉ lifecycle_fields →
    (w'.payload id).map (fun p => p.lookup key) = (w.payload id).map fun p => p.lookup key

/-- A backend that ranks ids without looking at lifecycle fields, and hands out what is
stored under them. -/
structure Ranking (host : Host) where
  rank : World → String → ℕ → Filters → List Id
  items : ∀ w query n filters, host.search w query n filters =
    (rank w query n filters).filterMap fun id => (w.payload id).map (Mem0.item_of id)
  blind : ∀ w w', SameContent w w' → rank w' = rank w

/-- The payload of an expired memory, before and after some writes about it. -/
structure Restamped (now : String) (p p' : Payload) : Prop where
  before : is_ttl_expired p now = true
  after : is_ttl_expired p' now = true
  content : ∀ key ∉ lifecycle_fields, p'.lookup key = p.lookup key

/-- The open rows about a memory. -/
def PairStore.open_about (s : PairStore) (id : Id) : List PairRow :=
  s.rows.filter fun r => r.is_open && decide (r.old_id = id)

/-- What may have happened since `w`: writes about memories that had expired by `now`. -/
structure Unnoticed (now : String) (w w' : World) : Prop where
  points : ∀ id, w'.payload id = w.payload id ∨
    ∃ p p', w.payload id = some p ∧ w'.payload id = some p' ∧ Restamped now p p'
  pairs : ∀ id, (∀ p, w.payload id = some p → is_ttl_expired p now = false) →
    w'.pairs.open_about id = w.pairs.open_about id

/-- The calls about memories that had expired by `now`. -/
def AboutExpired (now : String) (w : World) : Call → Prop
  | .vs_set_payload id patch => patch = stamp now ∧ ∃ p, w.payload id = some p ∧
      is_ttl_expired p now = true
  | .pairs (.close_for_old id _ _ _ _) => ∃ p, w.payload id = some p ∧ is_ttl_expired p now = true
  | .pairs (.record_judgment j _ _) => ∃ p, w.payload j.old_id = some p ∧
      is_ttl_expired p now = true
  | c => inert c

theorem Unnoticed.refl (now : String) (w : World) : Unnoticed now w w :=
  ⟨fun _ => .inl rfl, fun _ _ => rfl⟩

/-- A lapsed payload that is stamped looks lapsed all the same. -/
theorem restamped_merge {now : String} {p : Payload} (h : is_ttl_expired p now = true) :
    Restamped now p (p.merge (stamp now)) := by
  have hother : ∀ key, key ≠ TTL_EXPIRED_AT → (p.merge (stamp now)).lookup key = p.lookup key := by
    intro key hkey
    have hnot : (stamp now).lookup key = none := Payload.lookup_ofList_ne (by simpa using hkey.symm)
    rw [Payload.lookup_merge, hnot, Option.none_or]
  refine ⟨h, ?_, fun key hkey => hother key ?_⟩
  · unfold is_ttl_expired at h ⊢
    rwa [Payload.get, hother TTL_EXPIRES_AT (by decide), ← Payload.get]
  · rintro rfl
    exact hkey (by simp [lifecycle_fields])

theorem Restamped.trans {now : String} {p q r : Payload} (h : Restamped now p q)
    (h' : Restamped now q r) : Restamped now p r :=
  ⟨h.before, h'.after, fun key hkey => (h'.content key hkey).trans (h.content key hkey)⟩

/-- Closing rows about another memory. -/
theorem open_about_settle (s : PairStore) {p : PairRow → Bool} {d : Disposal → Disposal} {id : Id}
    (hp : ∀ r, p r = true → r.old_id ≠ id) : (s.settle p d).open_about id = s.open_about id := by
  unfold PairStore.open_about PairStore.settle SqlTable.update
  simp only
  induction s.rows with
  | nil => rfl
  | cons r rows ih =>
    rw [List.map_cons]
    by_cases hr : p r = true
    · have hne : decide (r.old_id = id) = false := decide_eq_false (hp r hr)
      have hne' : decide ((r.settle d).old_id = id) = false := hne
      rw [if_pos hr, List.filter_cons_of_neg (by rw [hne', Bool.and_false]; simp),
        List.filter_cons_of_neg (by rw [hne, Bool.and_false]; simp), ih]
    · rw [if_neg hr, List.filter_cons, List.filter_cons, ih]

/-- A row about another memory. -/
theorem open_about_insert (s : PairStore) {r : PairRow} {id : Id} (h : r.old_id ≠ id) :
    (s.insert r).open_about id = s.open_about id := by
  unfold PairStore.open_about PairStore.insert
  simp only
  rcases insertOrIgnore_cases PairRow.conflicts r s.rows with ⟨-, heq⟩ | ⟨-, heq⟩
  · rw [heq]
  · rw [heq, List.filter_append, List.filter_cons_of_neg (by simp [h]), List.filter_nil,
      List.append_nil]

/-- The step lemma: a call about an expired memory. -/
theorem Unnoticed.call {now : String} {w w' : World} (fault : Call → World → Option Exn)
    (h : Unnoticed now w w') {c : Call} (hc : AboutExpired now w c) :
    Unnoticed now w (host.failing fault c w').2 := by
  have hsame : inert c → Unnoticed now w (host.failing fault c w').2 := by
    intro hinert
    obtain ⟨hpoints, hpairs⟩ := @inert_same host fault w' c hinert
    refine ⟨fun id => ?_, fun id hid => ?_⟩
    · rw [payload_congr hpoints id]
      exact h.points id
    · rw [hpairs]
      exact h.pairs id hid
  rcases host.failing_cases fault c w' with ⟨e, heq⟩ | heq
  · rw [heq]
    exact h
  -- an open row about an expired memory is about no other one
  have hne : ∀ {id id' : Id}, (∃ p, w.payload id = some p ∧ is_ttl_expired p now = true) →
      (∀ p, w.payload id' = some p → is_ttl_expired p now = false) → id ≠ id' := by
    rintro id id' ⟨p, hp, hexpired⟩ hid rfl
    rw [hid p hp] at hexpired
    cases hexpired
  cases c with
  | vs_set_payload id patch =>
    obtain ⟨rfl, p, hp, hexpired⟩ := hc
    have hcurrent : ∃ q, w'.payload id = some q ∧ Restamped now p (q.merge (stamp now)) := by
      rcases h.points id with hkept | ⟨p', q, hp', hq, hstamped⟩
      · exact ⟨p, hkept.trans hp, restamped_merge hexpired⟩
      · rw [hp] at hp'
        cases hp'
        exact ⟨q, hq, hstamped.trans (restamped_merge hstamped.after)⟩
    obtain ⟨q, hq, hstamped⟩ := hcurrent
    rw [heq]
    simp only [Host.answer, hq]
    refine ⟨fun x => ?_, fun x hx => h.pairs x hx⟩
    by_cases hx : x = id
    · subst hx
      exact .inr ⟨p, _, hp, World.payload_put_self _ _ _, hstamped⟩
    · rw [World.payload_put_ne _ _ hx]
      exact h.points x
  | pairs op =>
    rw [heq]
    cases op with
    | close_for_old id d by_ kind t =>
      refine ⟨h.points, fun x hx => ?_⟩
      refine Eq.trans (open_about_settle w'.pairs fun r hr => ?_) (h.pairs x hx)
      simp only [Bool.and_eq_true, decide_eq_true_eq] at hr
      rw [hr.1.1]
      exact hne hc hx
    | record_judgment j pair_id t =>
      refine ⟨h.points, fun x hx => ?_⟩
      exact Eq.trans (open_about_insert w'.pairs (hne hc hx)) (h.pairs x hx)
    | _ =>
      rw [← heq]
      exact hsame hc
  | _ => exact hsame hc

/-! ### One harvest -/

/-- What is read of an item is what is stored. -/
theorem get_item_lifecycle (id : Id) (p : Payload) {key : String} (h : key ∈ lifecycle_fields) :
    (Mem0.item_of id p).metadata.get key = p.get key ∧ (Mem0.item_of id p).top.get key = .none := by
  have hcore : ∀ key ∈ lifecycle_fields, key ∉ Mem0.core_and_promoted_keys ∧
      key ∉ "id" :: "memory" :: "hash" :: "created_at" :: "updated_at" ::
        Mem0.promoted_payload_keys := by decide
  obtain ⟨hmeta, htop⟩ := hcore key h
  exact ⟨by rw [Payload.get, Mem0.get_item_metadata hmeta, Payload.get], get_item_top htop⟩

/-- An item is expired when the stored memory is. -/
theorem result_item_expired_item_of (id : Id) (p : Payload) (now : String) :
    result_item_expired (Mem0.item_of id p) now = is_ttl_expired p now := by
  obtain ⟨hmeta, htop⟩ := @get_item_lifecycle id p TTL_EXPIRES_AT (by decide)
  unfold result_item_expired is_ttl_expired
  rw [hmeta, htop]
  simp [Value.truthy, Atom.truthy]

/-- A harvest writes about expired memories only. -/
theorem harvest_unnoticed (t : Datetime) {now : Option String}
    (hnow : now = none ∨ now = some t.isoformat) (limit : ℕ) (fault : Call → World → Option Exn)
    (w : World) :
    Unnoticed t.isoformat w ((harvest_expired (host.at t) now limit).run
      ((host.at t).failing fault) w).2 := by
  obtain ⟨w₁, hw₁, hgiven⟩ : ∃ w₁, (w₁ = w ∨ w₁ = w.tick) ∧
      (given_now now).run ((host.at t).failing fault) w = (.ok t.isoformat, w₁) := by
    unfold given_now
    rcases hnow with rfl | rfl
    · exact ⟨w.tick, .inr rfl, rfl⟩
    · simp only
      split
      · exact ⟨w.tick, .inr rfl, rfl⟩
      · exact ⟨w, .inl rfl, rfl⟩
  -- taking the time moves the clock and touches no memory
  have hstart : Unnoticed t.isoformat w w₁ := by
    rcases hw₁ with rfl | rfl
    · exact .refl _ _
    · exact ⟨fun _ => .inl rfl, fun _ _ => rfl⟩
  have hpayload : ∀ id, w₁.payload id = w.payload id := by
    rcases hw₁ with rfl | rfl
    · exact fun _ => rfl
    · exact fun _ => rfl
  unfold harvest_expired
  rw [run_bind_ok hgiven]
  rcases scan_expired_run (host.at t) fault w₁ t.isoformat limit with ⟨e, he⟩ |
    ⟨items, hitems, hlisted⟩
  · rw [run_bind_ok he]
    exact hstart
  · rw [run_bind_ok hitems]
    refine @Uses.run _ _ _ _ (AboutExpired t.isoformat w) _ _
      (uses_bind (uses_foldlM (fun n item hitem => ?_) 0) fun _ => uses_pure _)
      (fun c s hc hs => hs.call fault hc) _ hstart
    -- only what is stored and expired is harvested, and of that a search says nothing
    -- before or after
    by_cases htaken : Taken t.isoformat item
    · obtain ⟨p, hp, hitem_of⟩ := hlisted.2 item hitem
      have hexpired : is_ttl_expired p t.isoformat = true := by
        rw [← result_item_expired_item_of item.id p, ← hitem_of, result_item_expired]
        by_contra hnot
        refine htaken.2 ?_
        simpa using hnot
      have hstored : ∃ p, w.payload item.id = some p ∧ is_ttl_expired p t.isoformat = true :=
        ⟨p, (hpayload item.id) ▸ hp, hexpired⟩
      refine harvest_item_uses (fun c hc => ?_) ⟨rfl, hstored⟩ (fun _ => hstored)
        (fun _ _ _ => hstored) n
      unfold AboutExpired
      split
      · exact hc.elim
      · exact hc.elim
      · exact hc.elim
      · exact hc
    · unfold Taken at htaken
      unfold harvest_item
      simp only
      split
      · exact uses_pure n
      · split
        · exact uses_pure n
        · rename_i hid hdue
          exact absurd ⟨hid, hdue⟩ htaken

/-! ### The search after it -/

/-- The open rows about a hit. -/
theorem open_for_old_ids_about (s : PairStore) (ids : List Id) (id : Id) :
    (s.open_for_old_ids ids).filter (fun r => decide (r.old_id = id)) =
      if id ∈ ids then s.open_about id else [] := by
  unfold PairStore.open_for_old_ids PairStore.open_about
  rw [List.filter_filter]
  by_cases hid : id ∈ ids
  · rw [if_pos hid]
    refine List.filter_congr fun r _ => ?_
    by_cases hr : r.old_id = id
    · simp [hr, hid]
    · simp [hr]
  · rw [if_neg hid]
    refine List.filter_eq_nil_iff.mpr fun r _ hr => ?_
    simp only [Bool.and_eq_true, decide_eq_true_eq] at hr
    exact hid (hr.1 ▸ hr.2.2)

/-- Annotations are about the hits. -/
theorem annotate_congr {s s' : PairStore} (readable : Bool) {items : List Item}
    (h : ∀ item ∈ items, s'.open_about item.id = s.open_about item.id) :
    annotate_suspected (if readable then some s' else none) items =
      annotate_suspected (if readable then some s else none) items := by
  cases readable with
  | false => rfl
  | true =>
    refine List.map_congr_left fun item hitem => ?_
    simp only [if_true, Option.map_some, Option.getD_some, open_for_old_ids_about, h item hitem]

/-- A search refuses its arguments, or hands out what the backend ranks. -/
theorem search_run (host : Host) (query : String) (n : ℕ) (filters : Filters) :
    (∃ e, ∀ w, (Mem0.search query n filters).run host.answer w = (.error e, w)) ∨
      ∃ q f, ∀ w, (Mem0.search query n filters).run host.answer w =
        (.ok (host.search w q n f), w) := by
  unfold Mem0.search
  by_cases hquery : Mem0.strip query = ""
  · refine .inl ⟨.value_error "Invalid query: cannot be empty or whitespace-only.", fun w => ?_⟩
    simp only [refuse_if, if_pos hquery]
    rfl
  cases hfilters : Mem0.validate_filters filters with
  | error e =>
    refine .inl ⟨e, fun w => ?_⟩
    simp only [refuse_if, if_neg hquery]
    rfl
  | ok effective =>
    have hcode : ∀ w, (refuse_if (Mem0.strip query = "")
        (.value_error "Invalid query: cannot be empty or whitespace-only.") >>= fun _ =>
          lift_except (.ok effective) >>= fun filters =>
            refuse_if (∀ f ∈ filters, f.1 ∉ Mem0.ENTITY_PARAMS) Mem0.missing_scope >>= fun _ =>
              perform (I := Api) (.search (Mem0.strip query) n filters)).run host.answer w =
        (refuse_if (∀ f ∈ effective, f.1 ∉ Mem0.ENTITY_PARAMS) Mem0.missing_scope >>= fun _ =>
          perform (I := Api) (.search (Mem0.strip query) n effective)).run host.answer w := by
      intro w
      rw [refuse_if, if_neg hquery]
      rfl
    by_cases hscope : ∀ f ∈ effective, f.1 ∉ Mem0.ENTITY_PARAMS
    · refine .inl ⟨Mem0.missing_scope, fun w => (hcode w).trans ?_⟩
      rw [refuse_if, if_pos hscope]
      rfl
    · refine .inr ⟨Mem0.strip query, effective, fun w => (hcode w).trans ?_⟩
      rw [refuse_if, if_neg hscope]
      rfl

/-- What the filter of the search sees is the same after writes about expired memories. -/
theorem Unnoticed.kept {t₁ t₂ : String} {w w' : World} (h : Unnoticed t₁ w w') (ht : t₁ ≤ t₂)
    (id : Id) :
    ((w'.payload id).map (Mem0.item_of id)).filter (Memline.kept t₂) =
      ((w.payload id).map (Mem0.item_of id)).filter (Memline.kept t₂) := by
  rcases h.points id with heq | ⟨p, p', hp, hp', hstamped⟩
  · rw [heq]
  · -- expired before, and so dropped in both
    have hdropped : ∀ q, is_ttl_expired q t₁ = true →
        Memline.kept t₂ (Mem0.item_of id q) = false := by
      intro q hq
      have hlater : is_ttl_expired q t₂ = true := by
        unfold is_ttl_expired at hq ⊢
        simp only [Bool.and_eq_true, decide_eq_true_eq] at hq ⊢
        exact ⟨hq.1, hq.2.trans ht⟩
      rw [Memline.kept, result_item_expired_item_of, hlater, Bool.not_true, Bool.and_false]
    rw [hp, hp', Option.map_some, Option.map_some,
      Option.filter_some_neg (by simp [hdropped p' hstamped.after]),
      Option.filter_some_neg (by simp [hdropped p hstamped.before])]

theorem Unnoticed.content {now : String} {w w' : World} (h : Unnoticed now w w') :
    SameContent w w' := by
  intro id key hkey
  rcases h.points id with heq | ⟨p, p', hp, hp', hstamped⟩
  · rw [heq]
  · rw [hp, hp', Option.map_some, Option.map_some, hstamped.content key hkey]

/-- A backend that ranks ids by a list of them. -/
def Host.listing (ids : List Id) : Host :=
  { Host.plain with
    search := fun w _ n _ => (ids.take n).filterMap fun id => (w.payload id).map (Mem0.item_of id) }

def Ranking.listing (ids : List Id) : Ranking (Host.listing ids) where
  rank := fun _ _ n _ => ids.take n
  items := fun _ _ _ _ => rfl
  blind := fun _ _ _ => rfl

/-- Noon of one day. -/
def noon : Datetime :=
  ⟨2026, 1, 1, 12, 0, 0, 0, Datetime.year_2026_pos, Datetime.year_2026_lt, Datetime.first_pos,
    Datetime.january_le, Datetime.first_pos, Datetime.first_of_january_le, by
    decide, Datetime.no_minute, Datetime.no_minute,
    Datetime.no_microsecond⟩

/-- A memory whose deadline has passed, and one without a deadline. -/
def lapsed_and_live : World :=
  (World.empty.put "a" (.ofList [("user_id", .str "workspace"),
    (TTL_EXPIRES_AT, .str "2026-01-01T11:00:00+00:00")])).put "b" (.ofList [("data", .str "live")])

/-- **Harvesting is not observed.** Whether or not a harvest has run at one time, the default
search finds the same hits with the same suspicions at any later time. -/
theorem harvest_unobservable {t₁ t₂ : Datetime} (ht : t₁.le t₂) (ranking : Ranking host)
    {now : Option String} (hnow : now = none ∨ now = some t₁.isoformat) (limit : ℕ)
    (fault : Call → World → Option Exn) (w : World) (readable : Bool) (query : String) (top_k : ℕ)
    (filters : Filters) :
    default_search (host.at t₂).answer readable query top_k filters
        ((harvest_expired (host.at t₁) now limit).run ((host.at t₁).failing fault) w).2 =
      default_search (host.at t₂).answer readable query top_k filters w := by
  have hunnoticed := @harvest_unnoticed host t₁ now hnow limit fault w
  generalize ((harvest_expired (host.at t₁) now limit).run ((host.at t₁).failing fault) w).2 = w'
    at hunnoticed
  -- what is fetched is filtered by the clock and cut to size
  have hrun : ∀ v, (search_with_staleness query top_k filters false).run (host.at t₂).answer v =
      ((Mem0.search query (fetch_k top_k) filters) >>= fun items => now_iso >>= fun now =>
        pure ((items.filter (kept now)).take top_k)).run (host.at t₂).answer v := fun v => rfl
  rcases search_run (host.at t₂) query (fetch_k top_k) filters with ⟨e, he⟩ | ⟨q, f, hok⟩
  · unfold default_search
    rw [hrun, hrun, run_bind_error (he w'), run_bind_error (he w)]
    rfl
  · -- the hits that are kept
    have hhits : ∀ v, (host.search v q (fetch_k top_k) f).filter (kept t₂.isoformat) =
        (ranking.rank v q (fetch_k top_k) f).filterMap fun id =>
          ((v.payload id).map (Mem0.item_of id)).filter (kept t₂.isoformat) := by
      intro v
      rw [ranking.items, List.filter_filterMap]
    have hsame : (host.search w' q (fetch_k top_k) f).filter (kept t₂.isoformat) =
        (host.search w q (fetch_k top_k) f).filter (kept t₂.isoformat) := by
      rw [hhits, hhits, ranking.blind w w' hunnoticed.content]
      exact congrArg (List.filterMap · _) (funext fun id =>
        hunnoticed.kept (Datetime.isoformat_le ht) id)
    unfold default_search
    rw [hrun, hrun, run_bind_ok (hok w'), run_bind_ok (hok w)]
    change Except.ok (annotate_suspected (if readable then some w'.pairs else none)
      (((host.search w' q (fetch_k top_k) f).filter (kept t₂.isoformat)).take top_k)) =
      Except.ok (annotate_suspected (if readable then some w.pairs else none)
      (((host.search w q (fetch_k top_k) f).filter (kept t₂.isoformat)).take top_k))
    rw [hsame]
    refine congrArg Except.ok (annotate_congr readable fun item hitem => ?_)
    -- a hit is a stored memory that has not expired
    rw [hhits] at hitem
    obtain ⟨id, -, hid⟩ := List.mem_filterMap.mp (List.mem_of_mem_take hitem)
    obtain ⟨hstored, hkept⟩ := Option.filter_eq_some_iff.mp hid
    obtain ⟨p, hp, rfl⟩ := Option.map_eq_some_iff.mp hstored
    refine hunnoticed.pairs id fun p' hp' => ?_
    rw [hp] at hp'
    cases hp'
    have hlater : is_ttl_expired p t₂.isoformat = false := by
      rw [← result_item_expired_item_of id p]
      simp only [kept, Bool.and_eq_true, Bool.not_eq_true'] at hkept
      exact hkept.2
    unfold is_ttl_expired at hlater ⊢
    simp only [Bool.and_eq_false_iff, decide_eq_false_iff_not, not_le] at hlater ⊢
    exact hlater.imp_right fun h => lt_of_le_of_lt (Datetime.isoformat_le ht) h

/-- One memory is harvested, the other one is found. -/
theorem lapsed_unobserved :
    default_search ((Host.listing ["a", "b"]).at noon).answer true "q" 5 [("user_id", .value "u")]
        ((harvest_expired ((Host.listing ["a", "b"]).at noon) none 10).run
          (((Host.listing ["a", "b"]).at noon).failing fun _ _ => none) lapsed_and_live).2 =
      default_search ((Host.listing ["a", "b"]).at noon).answer true "q" 5 [("user_id", .value "u")]
        lapsed_and_live :=
  harvest_unobservable (Datetime.le_refl noon) (Ranking.listing ["a", "b"]) (.inl rfl) 10
    (fun _ _ => none) lapsed_and_live true "q" 5 [("user_id", .value "u")]

end Memline
