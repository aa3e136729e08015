/-
What a harvest does to a store whose writes succeed.

The scan hands out stored memories, each once. An item is taken when it carries no
stamp and its deadline has passed; the memory is then stamped, its open suspicions
are closed and an expiry flag is offered to the pair store. The flag is there
afterwards unless the store already has a row for the same text and deadline: the
insertion is then ignored, whatever became of that row.
-/
import Memline.Calls
import Memline.Supersession

set_option autoImplicit false

namespace Memline

open Effect Effect.Prog SqlTable

variable {host : Host} {fault : Call → World → Option Exn} {w : World}

/-- Writes succeed; anything else may fail. -/
def WritesSucceed (fault : Call → World → Option Exn) : Prop :=
  ∀ c, mutates c → ∀ w, fault c w = none

/-- What a write does when writes succeed. -/
theorem WritesSucceed.answer (h : WritesSucceed fault) {c : Call} (hc : mutates c) (w : World) :
    host.failing fault c w = host.answer c w := by
  simp only [Host.failing, Handler.failing, h c hc w, ite_self]

/-! ## The scan -/

/-- The items are memories of the store as they are, each once. -/
def Listed (w : World) (items : List Item) : Prop :=
  (items.map Item.id).Nodup ∧
    ∀ item ∈ items, ∃ p, w.payload item.id = some p ∧ item = Mem0.item_of item.id p

/-- Rows of a scroll are stored points, each once. -/
theorem scrolled_rows (host : Host) (w : World) :
    ((host.scrolled w).map Prod.fst).Nodup ∧
      ∀ r ∈ host.scrolled w, w.payload r.1 = some r.2 := by
  have hperm := host.scroll_perm (w.points.entries.map fun e => (e.1, e.2))
  constructor
  · refine (hperm.map Prod.fst).nodup_iff.mpr ?_
    rw [List.map_map]
    exact w.points.nodupKeys
  · intro r hr
    obtain ⟨e, he, rfl⟩ := List.mem_map.mp (hperm.mem_iff.mp hr)
    exact List.mem_dlookup w.points.nodupKeys he

/-- Looking at an expiry never raises and changes nothing. -/
theorem payload_is_expired_run (host : Host) (fault : Call → World → Option Exn) (w : World)
    (show_expired : Bool) (p : Payload) :
    ∃ b, (Mem0.payload_is_expired show_expired p).run (host.failing fault) w = (.ok b, w) := by
  unfold Mem0.payload_is_expired
  split
  · exact ⟨false, rfl⟩
  · exact ⟨_, rfl⟩

/-- Formatting rows never raises: it drops some of them and keeps the others in their order. -/
theorem format_rows_run (host : Host) (fault : Call → World → Option Exn) (w : World)
    (show_expired : Bool) (limit : ℕ) (rows : List (Id × Payload)) (formatted : List Item) :
    ∃ rows' : List (Id × Payload), rows'.Sublist rows ∧
      (Mem0.format_rows show_expired limit rows formatted).run (host.failing fault) w =
        (.ok (formatted ++ rows'.map fun r => Mem0.item_of r.1 r.2), w) := by
  induction rows generalizing formatted with
  | nil => exact ⟨[], .slnil, by simp [Mem0.format_rows]⟩
  | cons row rows ih =>
    obtain ⟨id, p⟩ := row
    obtain ⟨expired, hexpired⟩ := payload_is_expired_run host fault w show_expired p
    unfold Mem0.format_rows
    rw [run_bind_ok hexpired]
    split
    · obtain ⟨rows', hsub, hrun⟩ := ih formatted
      exact ⟨rows', hsub.cons _, hrun⟩
    · simp only
      split
      · exact ⟨[(id, p)], (List.nil_sublist rows).cons_cons _, by simp⟩
      · obtain ⟨rows', hsub, hrun⟩ := ih (formatted ++ [Mem0.item_of id p])
        refine ⟨(id, p) :: rows', hsub.cons_cons _, ?_⟩
        rw [hrun]
        simp

/-- Rows of the scroll are listed as they are stored. -/
theorem listed_rows {rows : List (Id × Payload)} (h : rows.Sublist (host.scrolled w)) :
    Listed w (rows.map fun r => Mem0.item_of r.1 r.2) := by
  obtain ⟨hnodup, hstored⟩ := scrolled_rows host w
  constructor
  · rw [List.map_map]
    exact (h.map Prod.fst).nodup hnodup
  · intro item hitem
    obtain ⟨r, hr, rfl⟩ := List.mem_map.mp hitem
    exact ⟨r.2, hstored r (h.subset hr), rfl⟩

/-- `get_all` reads, and lists memories of the store. -/
theorem get_all_run (host : Host) (fault : Call → World → Option Exn) (w : World)
    (filters : Filters) (top_k : ℕ) (show_expired : Bool) :
    (∃ e, (Mem0.get_all filters top_k show_expired).run (host.failing fault) w = (.error e, w)) ∨
      ∃ items, (Mem0.get_all filters top_k show_expired).run (host.failing fault) w =
        (.ok items, w) ∧
        Listed w items := by
  unfold Mem0.get_all
  cases hfilters : Mem0.validate_filters filters with
  | error e => exact .inl ⟨e, rfl⟩
  | ok effective =>
    simp only [lift_except, pure_eq, ret_bind, refuse_if]
    split
    · exact .inl ⟨_, rfl⟩
    · simp only [ret_bind]
      let limit := if show_expired then top_k else max (top_k * 4) 60
      rcases host.failing_cases fault (.vs_list effective limit) w with ⟨e, hfault⟩ | hcall
      · exact .inl ⟨e, run_bind_error ((run_perform _ _ _).trans hfault)⟩
      by_cases hvalid : host.valid_filters effective = true
      · have hlist : host.answer (.vs_list effective limit) w = (.ok (((host.scrolled w).filter
            fun p => host.matches_filters effective p.2).take limit), w) := by
          simp only [Host.answer, if_pos hvalid]
        obtain ⟨rows, hsub, hrun⟩ := format_rows_run host fault w show_expired top_k
          (((host.scrolled w).filter fun p => host.matches_filters effective p.2).take limit) []
        refine .inr ⟨_, ((run_bind_ok ((run_perform _ _ _).trans (hcall.trans hlist))).trans hrun),
          ?_⟩
        exact listed_rows (hsub.trans ((List.take_sublist _ _).trans List.filter_sublist))
      · refine .inl ⟨.value_error "invalid range filter", run_bind_error ?_⟩
        refine (run_perform _ _ _).trans (hcall.trans ?_)
        simp only [Host.answer, if_neg hvalid]

/-- The scan of a harvest fails or lists stored memories, and changes nothing either way. -/
theorem scan_expired_run (host : Host) (fault : Call → World → Option Exn) (w : World)
    (now : String) (limit : ℕ) :
    (∃ e, (scan_expired host now limit).run (host.failing fault) w = (.ok (.error e), w)) ∨
      ∃ items, (scan_expired host now limit).run (host.failing fault) w = (.ok (.ok items), w) ∧
        Listed w items := by
  unfold scan_expired
  rcases get_all_run host fault w [("user_id", .value host.default_user_id),
      (TTL_EXPIRES_AT, .lte now)] limit false with ⟨e, he⟩ | ⟨items, hitems, hlisted⟩
  · refine .inl ⟨e, ?_⟩
    rw [run_tryCatch, run_bind_error he]
    rfl
  · exact .inr ⟨items, run_tryCatch_ok (run_bind_ok hitems), hlisted⟩

/-! ## One item -/

/-- The item is due: it has no stamp and its deadline has passed. -/
def Taken (now : String) (item : Item) : Prop :=
  ¬ (item.id = "" ∨ (item.metadata.get TTL_EXPIRED_AT).truthy = true) ∧
    ¬ (¬ is_ttl_expired item.metadata now ∧ ¬ is_ttl_expired item.top now)

/-- The deadline an item carries. -/
def expiry_deadline (item : Item) : String :=
  ((item.metadata.get TTL_EXPIRES_AT).or_else (item.top.get TTL_EXPIRES_AT)).text

/-- The stamp of a harvest. -/
def stamp (now : String) : Payload := .ofList [(TTL_EXPIRED_AT, .str now)]

/-- The row a harvest offers for an item. -/
def expiry_row (host : Host) (item : Item) (now pair_id judged_at : String) : PairRow :=
  (expiry_judgment item item.id (expiry_deadline item) now).row host.text_hash pair_id judged_at

/-- The store after an item was taken. -/
def harvested (host : Host) (now : String) (item : Item) (p : Payload) (w : World) : World where
  points := w.points.insert item.id (p.merge (stamp now))
  history := w.history ++ [{ memory_id := item.id
                             old_memory := .str (item.top.get "memory").text
                             new_memory := .str (item.top.get "memory").text
                             event := "TTL_EXPIRE", updated_at := .str now }]
  pairs := (w.pairs.close_for_old item.id "expired" none none (host.now_iso w.ticks)).2.insert
    (expiry_row host item now (host.uuid4 w.drawn) (host.now_iso (w.ticks + 1)))
  ticks := w.ticks + 2
  drawn := w.drawn + 1

theorem harvest_item_skips {now : String} {item : Item} (h : ¬ Taken now item) (n : ℕ) :
    (harvest_item now n item).run (host.failing fault) w = (.ok n, w) := by
  unfold Taken at h
  unfold harvest_item
  simp only
  split
  · rfl
  · rename_i hid
    split
    · rfl
    · rename_i hdue
      exact absurd ⟨hid, hdue⟩ h

/-- Taking an item reads the clock, draws an id and writes. -/
theorem harvest_item_writes (now : String) (n : ℕ) (item : Item) :
    (harvest_item now n item).Uses fun c : Call => mutates c ∨ c.fallible = false := by
  unfold harvest_item
  simp only
  split
  · exact uses_pure n
  split
  · exact uses_pure n
  refine uses_bind (uses_perform (.inl trivial)) fun _ => ?_
  refine uses_bind (attempt_uses (uses_perform (.inl trivial))) fun _ => ?_
  refine uses_bind (attempt_uses ?_) fun _ => uses_pure _
  refine uses_bind (uses_bind (uses_perform (.inr rfl)) fun _ => uses_perform (.inl id)) fun _ => ?_
  refine uses_bind ?_ fun _ => uses_pure _
  refine uses_bind (uses_perform (.inr rfl)) fun _ => ?_
  exact uses_bind (uses_perform (.inr rfl)) fun _ => uses_perform (.inl id)

/-- An item that is taken is stamped, its pairs are closed and its flag is recorded. -/
theorem harvest_item_takes (hfault : WritesSucceed fault) {now : String} {item : Item}
    (h : Taken now item) {p : Payload} (hp : w.payload item.id = some p) (n : ℕ) :
    (harvest_item now n item).run (host.failing fault) w =
      (.ok (n + 1), harvested host now item p w) := by
  have hcalls : ∀ c s, mutates c ∨ c.fallible = false →
      host.failing fault c s = host.answer c s := by
    rintro c s (hc | hc)
    · exact hfault.answer hc s
    · simp [Host.failing, Handler.failing, hc]
  refine ((harvest_item_writes now n item).run_congr hcalls w).trans ?_
  unfold harvest_item
  simp only
  rw [if_neg h.1, if_neg h.2]
  have hwrite : host.answer (.vs_set_payload item.id (stamp now)) w =
      (.ok (), w.put item.id (p.merge (stamp now))) := by
    simp only [Host.answer, hp]
  refine (run_bind_ok ((run_perform _ _ _).trans hwrite)).trans ?_
  rfl

/-! ## Expiry flags -/

/-- An open expiry pair of the memory. -/
def IsFlag (x : Id) (row : PairRow) : Prop :=
  row.kind = KIND_TTL_EXPIRY ∧ row.new_id = x ∧ row.old_id = x ∧ row.disposition = "open"

/-- An open expiry pair exists for the memory. -/
def Flagged (w : World) (x : Id) : Prop := ∃ row ∈ w.pairs.rows, IsFlag x row

/-- The key of the expiry pair for the text and the deadline of an item. -/
def expiry_version (host : Host) (item : Item) : String × Id × Id × String :=
  (KIND_TTL_EXPIRY, item.id, item.id, host.text_hash (salted_text item (expiry_deadline item)))

/-- No pair exists yet for the text and the deadline of the item. -/
def Unjudged (host : Host) (w : World) (item : Item) : Prop :=
  ∀ row ∈ w.pairs.rows, row.version ≠ expiry_version host item

/-- Every pair id was drawn. -/
def FreshIds (host : Host) (w : World) : Prop :=
  ∀ row ∈ w.pairs.rows, ∃ n < w.drawn, row.pair_id = host.uuid4 n

/-- The row of an expiry is a flag for its memory. -/
theorem expiry_row_flag (host : Host) (item : Item) (now pair_id judged_at : String) :
    IsFlag item.id (expiry_row host item now pair_id judged_at) := by
  refine ⟨rfl, rfl, rfl, ?_⟩
  have hopens : (expiry_judgment item item.id (expiry_deadline item) now).opens = true := by
    simp [Judgment.opens, expiry_judgment, opening_verdict, kind_floor, KIND_TTL_EXPIRY,
      KIND_DISPLACEMENT, KIND_NECESSITY, KIND_CORRECTNESS, KIND_SAFETY]
  simp [expiry_row, Judgment.row, hopens]

/-- A row of the store after an item was taken has the evidence of an earlier one, or
is the row offered. -/
theorem mem_harvested {now : String} {item : Item} {p : Payload} {row : PairRow}
    (h : row ∈ (harvested host now item p w).pairs.rows) :
    (∃ row₀ ∈ w.pairs.rows, row.toEvidence = row₀.toEvidence) ∨
      row = expiry_row host item now (host.uuid4 w.drawn) (host.now_iso (w.ticks + 1)) := by
  rcases PairStore.mem_of_mem_insert h with h | h
  · exact .inl (PairStore.evidence_of_mem_settle h)
  · exact .inr h

theorem harvested_fresh {now : String} {item : Item} {p : Payload} (h : FreshIds host w) :
    FreshIds host (harvested host now item p w) := by
  intro row hrow
  rcases mem_harvested hrow with ⟨row₀, hrow₀, hevidence⟩ | rfl
  · obtain ⟨n, hn, hid⟩ := h row₀ hrow₀
    exact ⟨n, Nat.lt_succ_of_lt hn, (congrArg Evidence.pair_id hevidence).trans hid⟩
  · exact ⟨w.drawn, Nat.lt_succ_self _, rfl⟩

/-- Taking one item leaves the flags of the other memories alone. -/
theorem harvested_keeps_flag {now : String} {item : Item} {p : Payload} {x : Id}
    (hx : x ≠ item.id) (h : Flagged w x) : Flagged (harvested host now item p w) x := by
  obtain ⟨row, hrow, hflag⟩ := h
  refine ⟨row, PairStore.mem_insert_of_mem (PairStore.mem_settle_of_mem hrow ?_), hflag⟩
  have hne : row.old_id ≠ item.id := fun h => hx (hflag.2.2.1.symm.trans h)
  simp [hne]

/-- A harvest of one memory leaves the other ones unjudged. -/
theorem harvested_keeps_unjudged {now : String} {item item' : Item} {p : Payload}
    (hx : item'.id ≠ item.id) (h : Unjudged host w item') :
    Unjudged host (harvested host now item p w) item' := by
  intro row hrow heq
  rcases mem_harvested hrow with ⟨row₀, hrow₀, hevidence⟩ | rfl
  · refine h row₀ hrow₀ ?_
    rw [← heq]
    unfold PairRow.version
    rw [hevidence]
  · exact hx (congrArg (fun v => v.2.1) heq).symm

/-- Taking an item flags its memory, unless that was done for this text and deadline. -/
theorem harvested_flags {now : String} {item : Item} {p : Payload}
    (huuid : Function.Injective host.uuid4) (hfresh : FreshIds host w)
    (h : Unjudged host w item) : Flagged (harvested host now item p w) item.id := by
  refine ⟨_, PairStore.mem_insert_self (fun row hrow hid => ?_) (fun row hrow hversion => ?_),
    expiry_row_flag host item now _ _⟩
  · obtain ⟨row₀, hrow₀, hevidence⟩ := PairStore.evidence_of_mem_settle hrow
    obtain ⟨n, hn, hid₀⟩ := hfresh row₀ hrow₀
    have hsame : host.uuid4 n = host.uuid4 w.drawn :=
      hid₀.symm.trans ((congrArg Evidence.pair_id hevidence).symm.trans hid)
    exact absurd (huuid hsame) (Nat.ne_of_lt hn)
  · obtain ⟨row₀, hrow₀, hevidence⟩ := PairStore.evidence_of_mem_settle hrow
    refine h row₀ hrow₀ ?_
    unfold PairRow.version at hversion ⊢
    rw [← hevidence]
    exact hversion

/-! ## All items -/

/-- What taking the due items of a list does. -/
structure Harvested (host : Host) (now : String) (items : List Item) (w w' : World) : Prop where
  fresh : FreshIds host w → FreshIds host w'
  untouched : ∀ x, (∀ item ∈ items, item.id = x → ¬ Taken now item) →
    w'.payload x = w.payload x ∧ (Flagged w x → Flagged w' x)
  stamped : ∀ item ∈ items, Taken now item →
    ∃ p, w.payload item.id = some p ∧ w'.payload item.id = some (p.merge (stamp now))
  flagged : FreshIds host w → ∀ item ∈ items, Taken now item → Unjudged host w item →
    Flagged w' item.id

theorem Harvested.refl (host : Host) (now : String) (w : World) : Harvested host now [] w w where
  fresh := id
  untouched := fun _ _ => ⟨rfl, id⟩
  stamped := fun _ h => by simp at h
  flagged := fun _ _ h => by simp at h

/-- A harvest goes through its items one by one, each of them once. -/
theorem harvest_items_run (hfault : WritesSucceed fault) {now : String}
    (huuid : Function.Injective host.uuid4) {items : List Item} (hnodup : (items.map Item.id).Nodup)
    (hstored : ∀ item ∈ items, ∃ p, w.payload item.id = some p) (n : ℕ) :
    ∃ n' w', (items.foldlM (harvest_item now) n).run (host.failing fault) w = (.ok n', w') ∧
      Harvested host now items w w' := by
  induction items generalizing w n with
  | nil => exact ⟨n, w, rfl, .refl host now w⟩
  | cons item items ih =>
    rw [List.foldlM_cons]
    rw [List.map_cons, List.nodup_cons] at hnodup
    obtain ⟨hnew, hrest⟩ := hnodup
    obtain ⟨p, hp⟩ := hstored item List.mem_cons_self
    have hne : ∀ item' ∈ items, item'.id ≠ item.id := by
      intro item' hitem' heq
      exact hnew (List.mem_map.mpr ⟨item', hitem', heq⟩)
    by_cases htaken : Taken now item
    · have hpayload : ∀ x, x ≠ item.id → (harvested host now item p w).payload x = w.payload x :=
        fun x hx => AList.lookup_insert_ne hx
      have hstored' : ∀ item' ∈ items,
          ∃ p', (harvested host now item p w).payload item'.id = some p' := by
        intro item' hitem'
        rw [hpayload _ (hne item' hitem')]
        exact hstored item' (List.mem_cons_of_mem _ hitem')
      obtain ⟨n', w', hrun, hih⟩ := ih hrest hstored' (n + 1)
      refine ⟨n', w', (run_bind_ok (harvest_item_takes hfault htaken hp n)).trans hrun, ?_⟩
      -- no later item is about this memory
      have hlast := hih.untouched item.id fun item' hitem' heq => absurd heq (hne item' hitem')
      refine ⟨fun hfresh => hih.fresh (harvested_fresh hfresh), fun x hx => ?_,
        fun item' hitem' ht => ?_, fun hfresh item' hitem' ht hun => ?_⟩
      · have hxne : x ≠ item.id := fun heq => hx item List.mem_cons_self heq.symm htaken
        obtain ⟨hsame, hkeep⟩ := hih.untouched x fun item' hitem' =>
          hx item' (List.mem_cons_of_mem _ hitem')
        exact ⟨hsame.trans (hpayload x hxne), fun hf => hkeep (harvested_keeps_flag hxne hf)⟩
      · rcases List.mem_cons.mp hitem' with rfl | hitem'
        · exact ⟨p, hp, hlast.1.trans (AList.lookup_insert _)⟩
        · obtain ⟨p', hp', hw'⟩ := hih.stamped item' hitem' ht
          rw [hpayload _ (hne item' hitem')] at hp'
          exact ⟨p', hp', hw'⟩
      · rcases List.mem_cons.mp hitem' with rfl | hitem'
        · exact hlast.2 (harvested_flags huuid hfresh hun)
        · exact hih.flagged (harvested_fresh hfresh) item' hitem' ht
            (harvested_keeps_unjudged (hne item' hitem') hun)
    · obtain ⟨n', w', hrun, hih⟩ := ih hrest
        (fun item' hitem' => hstored item' (List.mem_cons_of_mem _ hitem')) n
      refine ⟨n', w', (run_bind_ok (harvest_item_skips htaken n)).trans hrun, hih.fresh,
        fun x hx => hih.untouched x fun item' hitem' => hx item' (List.mem_cons_of_mem _ hitem'),
        fun item' hitem' ht => ?_, fun hfresh item' hitem' ht => ?_⟩
      · rcases List.mem_cons.mp hitem' with rfl | hitem'
        · exact absurd ht htaken
        · exact hih.stamped item' hitem' ht
      · rcases List.mem_cons.mp hitem' with rfl | hitem'
        · exact absurd ht htaken
        · exact hih.flagged hfresh item' hitem' ht

/-- What a harvest reads before its first write: the time and the items of its scan. -/
def scan (host : Host) (now : Option String) (limit : ℕ) :
    Code (String × Except Exn (List Item)) := do
  let now ← given_now now
  let scan ← scan_expired host now limit
  pure (now, scan)

instance (now : String) (item : Item) : Decidable (Taken now item) := by
  unfold Taken
  infer_instance

/-- The items that a harvest would take now. -/
def due (host : Host) (fault : Call → World → Option Exn) (now : Option String) (limit : ℕ)
    (w : World) : List Item :=
  match ((scan host now limit).run (host.failing fault) w).1 with
  | .ok (t, .ok items) => items.filter fun item => Taken t item
  | _ => []

/-- **One harvest** takes the due items of its scan, each once and all with the same
time, and flags those whose text and deadline have no pair yet. -/
theorem harvest_expired_run (hfault : WritesSucceed fault) (huuid : Function.Injective host.uuid4)
    (now : Option String) (limit : ℕ) (w : World) :
    ∃ t items, Listed w items ∧
      due host fault now limit w = items.filter (fun item => Taken t item) ∧
      Harvested host t items w ((harvest_expired host now limit).run (host.failing fault) w).2 := by
  obtain ⟨t, w₁, hw₁, hnow⟩ : ∃ t w₁, (w₁ = w ∨ w₁ = w.tick) ∧
      (given_now now).run (host.failing fault) w = (.ok t, w₁) := by
    unfold given_now
    cases now with
    | none => exact ⟨_, _, .inr rfl, rfl⟩
    | some t =>
      simp only
      split
      · exact ⟨_, _, .inr rfl, rfl⟩
      · exact ⟨t, w, .inl rfl, rfl⟩
  -- reading the clock changes nothing that a harvest is about
  suffices hrest : ∃ items, Listed w₁ items ∧
      due host fault now limit w = items.filter (fun item => Taken t item) ∧
      Harvested host t items w₁ ((harvest_expired host now limit).run (host.failing fault) w).2 by
    obtain ⟨items, hlisted, hdue, hharvested⟩ := hrest
    refine ⟨t, items, ?_⟩
    rcases hw₁ with rfl | rfl
    · exact ⟨hlisted, hdue, hharvested⟩
    · exact ⟨hlisted, hdue, hharvested.fresh, hharvested.untouched, hharvested.stamped,
        hharvested.flagged⟩
  unfold due scan harvest_expired
  rw [run_bind_ok hnow, run_bind_ok hnow]
  rcases scan_expired_run host fault w₁ t limit with ⟨e, he⟩ | ⟨items, hitems, hlisted⟩
  · refine ⟨[], ⟨List.nodup_nil, by simp⟩, ?_⟩
    rw [run_bind_ok he, run_bind_ok he]
    exact ⟨rfl, .refl host t w₁⟩
  · have hstored : ∀ item ∈ items, ∃ p, w₁.payload item.id = some p := by
      intro item hitem
      obtain ⟨p, hp, -⟩ := hlisted.2 item hitem
      exact ⟨p, hp⟩
    obtain ⟨n', w', hrun, hharvested⟩ := harvest_items_run hfault huuid hlisted.1 hstored 0
    refine ⟨items, hlisted, ?_⟩
    rw [run_bind_ok hitems, run_bind_ok hitems]
    simp only
    rw [run_bind_ok hrun]
    exact ⟨rfl, hharvested⟩

end Memline
