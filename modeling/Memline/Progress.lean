/-
Whether harvesting gets on.

A pass asks `get_all` for so many of the rows whose deadline has passed, and rows that it has
stamped before are among them for good. It gets on, whichever rows it is given, as long as
the rows that it will skip cannot fill what it is given.
-/
import Memline.Harvest
import Memline.Lib.Datetime
import Memline.Lib.Lists
import Mathlib.Data.Finset.Card

set_option autoImplicit false

namespace Memline

open Effect Effect.Prog
open Py (Datetime)

variable {host : Host}

/-! ## What a pass is given -/

/-- The rows of a scan: the user's, with a deadline that has passed. -/
def scan_filters (user now : String) : Filters :=
  [("user_id", .value user), (TTL_EXPIRES_AT, .lte now)]

/-- `get_all` hides a row whose expiration date has passed. -/
def visible (host : Host) (w : World) (row : Id × Payload) : Bool :=
  !((row.2.get "expiration_date").truthy &&
    host.date_past w.ticks (row.2.get "expiration_date").toStr)

/-- A pass will stamp the row when it is given it. -/
def stamps_row (now : String) (row : Id × Payload) : Bool :=
  decide (Taken now (Mem0.item_of row.1 row.2))

/-- The rows that match, in the order of a scroll. -/
def matching (host : Host) (user now : String) (w : World) : List (Id × Payload) :=
  (host.scrolled w).filter fun row => host.matches_filters (scan_filters user now) row.2

/-- The rows a pass is given: the first of those that are shown. -/
def given_rows (host : Host) (user now : String) (limit : ℕ) (w : World) : List (Id × Payload) :=
  (((matching host user now w).take (max (limit * 4) 60)).filter (visible host w)).take limit

theorem payload_is_expired_eq (host : Host) (w : World) (row : Id × Payload) :
    (Mem0.payload_is_expired false row.2).run host.answer w = (.ok (!visible host w row), w) := by
  unfold Mem0.payload_is_expired visible
  cases htruthy : (row.2.get "expiration_date").truthy with
  | false =>
    rw [if_pos (.inr rfl)]
    simp
  | true =>
    rw [if_neg (by simp)]
    simp only [Bool.true_and, Bool.not_not]
    rfl

/-- `get_all` formats rows until it has enough of them. -/
theorem format_rows_eq (host : Host) (w : World) {limit : ℕ} (rows : List (Id × Payload))
    {formatted : List Item} (h : formatted.length < limit) :
    (Mem0.format_rows false limit rows formatted).run host.answer w =
      (.ok (formatted ++ ((rows.filter (visible host w)).take (limit - formatted.length)).map
        fun row => Mem0.item_of row.1 row.2), w) := by
  induction rows generalizing formatted with
  | nil => simp [Mem0.format_rows]
  | cons row rows ih =>
    unfold Mem0.format_rows
    rw [run_bind_ok (payload_is_expired_eq host w row)]
    by_cases hvisible : visible host w row = true
    · rw [hvisible, List.filter_cons_of_pos hvisible]
      obtain ⟨k, hk⟩ : ∃ k, limit - formatted.length = k + 1 :=
        ⟨limit - formatted.length - 1, by omega⟩
      simp only [Bool.not_true, Bool.false_eq_true, if_false]
      rw [hk, List.take_succ_cons, List.map_cons]
      by_cases henough : limit ≤ (formatted ++ [Mem0.item_of row.1 row.2]).length
      · rw [if_pos henough]
        rw [List.length_append, List.length_singleton] at henough
        have hzero : k = 0 := by omega
        subst hzero
        rw [List.take_zero]
        rfl
      · rw [if_neg henough, ih (by omega)]
        rw [List.length_append, List.length_singleton] at henough ⊢
        have hrest : limit - (formatted.length + 1) = k := by omega
        rw [hrest, List.append_assoc, List.singleton_append]
    · rw [List.filter_cons_of_neg hvisible]
      simp only [Bool.not_eq_true] at hvisible
      rw [hvisible]
      simp only [Bool.not_false, if_true]
      exact ih h

/-- The scan of a pass. -/
theorem scan_expired_eq {user now : String} {limit : ℕ}
    (huser : Mem0.validate_and_trim_entity_id host.default_user_id "user_id" = .ok user)
    (hiso : host.is_iso_datetime now = true) (hlimit : 1 ≤ limit) (w : World) :
    (scan_expired host now limit).run host.answer w =
      (.ok (.ok ((given_rows host user now limit w).map fun row => Mem0.item_of row.1 row.2)),
        w) := by
  have hfilters : Mem0.validate_filters [("user_id", .value host.default_user_id),
      (TTL_EXPIRES_AT, .lte now)] = .ok (scan_filters user now) := by
    simp [Mem0.validate_filters, Mem0.ENTITY_PARAMS, huser, scan_filters, Except.map]
    rfl
  have hvalid : host.valid_filters (scan_filters user now) = true := by
    simp [Host.valid_filters, scan_filters, hiso]
  have hget : (Mem0.get_all [("user_id", .value host.default_user_id), (TTL_EXPIRES_AT, .lte now)]
      limit).run host.answer w =
        (.ok ((given_rows host user now limit w).map fun row => Mem0.item_of row.1 row.2), w) := by
    unfold Mem0.get_all
    rw [hfilters]
    change (refuse_if (∀ f ∈ scan_filters user now, f.1 ∉ Mem0.ENTITY_PARAMS) Mem0.missing_scope >>=
      fun _ => perform (I := Api) (.vs_list (scan_filters user now) (max (limit * 4) 60)) >>=
        fun rows => Mem0.format_rows false limit rows []).run host.answer w = _
    rw [refuse_if, if_neg (by simp [scan_filters, Mem0.ENTITY_PARAMS])]
    have hlist : host.answer (.vs_list (scan_filters user now) (max (limit * 4) 60)) w =
        (.ok ((matching host user now w).take (max (limit * 4) 60)), w) := by
      simp only [Host.answer, if_pos hvalid]
      rfl
    refine (run_bind_ok ((run_perform _ _ _).trans hlist)).trans ?_
    rw [format_rows_eq host w _ (by rw [List.length_nil]; omega)]
    rfl
  unfold scan_expired
  exact run_tryCatch_ok (run_bind_ok hget)

/-! ## What a pass does -/

/-- Some rows in a row, those due among them stamped. -/
theorem harvest_items_payload {now : String} {items : List Item}
    (hnodup : (items.map Item.id).Nodup) (w : World)
    (hstored : ∀ item ∈ items, ∃ p, w.payload item.id = some p) (n : ℕ) :
    ∃ n' w', (items.foldlM (harvest_item now) n).run host.answer w = (.ok n', w') ∧
      ∀ x, w'.payload x = if ∃ item ∈ items, item.id = x ∧ Taken now item
        then (w.payload x).map fun p => p.merge (stamp now) else w.payload x := by
  have hfault : WritesSucceed fun _ _ => none := fun _ _ _ => rfl
  -- the ids differ, so that a memory is stamped at most once
  induction items generalizing w n with
  | nil => exact ⟨n, w, rfl, fun x => by simp⟩
  | cons item items ih =>
    rw [List.foldlM_cons]
    rw [List.map_cons, List.nodup_cons] at hnodup
    obtain ⟨hnew, hrest⟩ := hnodup
    obtain ⟨p, hp⟩ := hstored item List.mem_cons_self
    have hne : ∀ item' ∈ items, item'.id ≠ item.id := by
      intro item' hitem' heq
      exact hnew (List.mem_map.mpr ⟨item', hitem', heq⟩)
    by_cases htaken : Taken now item
    · have htake := @harvest_item_takes host (fun _ _ => none) w hfault now item htaken p hp n
      rw [Host.failing_none] at htake
      have hpayload : ∀ x, x ≠ item.id → (harvested host now item p w).payload x = w.payload x :=
        fun x hx => AList.lookup_insert_ne hx
      obtain ⟨n', w', hrun, hw'⟩ := ih hrest (harvested host now item p w) (fun item' hitem' => by
        rw [hpayload _ (hne item' hitem')]
        exact hstored item' (List.mem_cons_of_mem _ hitem')) (n + 1)
      refine ⟨n', w', (run_bind_ok htake).trans hrun, fun x => ?_⟩
      rw [hw' x]
      by_cases hx : x = item.id
      · -- no later item is about this memory
        rw [if_neg, if_pos ⟨item, List.mem_cons_self, hx.symm, htaken⟩, hx, hp]
        · exact AList.lookup_insert _
        · rintro ⟨item', hitem', hid, -⟩
          exact hne item' hitem' (hid.trans hx)
      · rw [hpayload x hx]
        refine if_congr ?_ rfl rfl
        simp [Ne.symm hx]
    · have hskip := @harvest_item_skips host (fun _ _ => none) w now item htaken n
      rw [Host.failing_none] at hskip
      obtain ⟨n', w', hrun, hw'⟩ := ih hrest w
        (fun item' hitem' => hstored item' (List.mem_cons_of_mem _ hitem')) n
      refine ⟨n', w', (run_bind_ok hskip).trans hrun, fun x => ?_⟩
      rw [hw' x]
      refine if_congr ?_ rfl rfl
      simp [htaken]

/-- A pass over rows of which none is due changes nothing. -/
theorem harvest_items_idle {now : String} {items : List Item} (h : ∀ item ∈ items, ¬ Taken now item)
    (w : World) (n : ℕ) : (items.foldlM (harvest_item now) n).run host.answer w = (.ok n, w) := by
  induction items with
  | nil => rfl
  | cons item items ih =>
    have hskip :=
      @harvest_item_skips host (fun _ _ => none) w now item (h item List.mem_cons_self) n
    rw [Host.failing_none] at hskip
    rw [List.foldlM_cons, run_bind_ok hskip]
    exact ih fun item' hitem' => h item' (List.mem_cons_of_mem _ hitem')

/-- One pass. -/
def pass (host : Host) (t : Datetime) (limit : ℕ) (w : World) : World :=
  ((harvest_expired host (some t.isoformat) limit).run host.answer w).2

/-- A pass is the run over the rows it is given. -/
theorem pass_eq {user : String} {t : Datetime} {limit : ℕ}
    (huser : Mem0.validate_and_trim_entity_id host.default_user_id "user_id" = .ok user)
    (hiso : host.is_iso_datetime t.isoformat = true) (hlimit : 1 ≤ limit) (w : World) :
    pass host t limit w = ((((given_rows host user t.isoformat limit w).map fun row =>
      Mem0.item_of row.1 row.2).foldlM (harvest_item t.isoformat) 0).run host.answer w).2 := by
  have hgiven : (given_now (some t.isoformat)).run host.answer w = (.ok t.isoformat, w) := by
    simp only [given_now, if_neg t.isoformat_ne_empty]
    rfl
  unfold pass harvest_expired
  rw [run_bind_ok hgiven, run_bind_ok (scan_expired_eq huser hiso hlimit w)]
  simp only
  rw [run_bind]
  split
  · rename_i n w' hrun
    rw [hrun]
    rfl
  · rename_i e w' hrun
    rw [hrun]

/-- The rows a pass is given are stored, each once. -/
theorem given_rows_stored (host : Host) (user now : String) (limit : ℕ) (w : World) :
    ((given_rows host user now limit w).map Prod.fst).Nodup ∧
      ∀ row ∈ given_rows host user now limit w, w.payload row.1 = some row.2 := by
  have hsub : (given_rows host user now limit w).Sublist (host.scrolled w) :=
    (List.take_sublist _ _).trans (List.filter_sublist.trans
      ((List.take_sublist _ _).trans List.filter_sublist))
  obtain ⟨hnodup, hstored⟩ := scrolled_rows host w
  exact ⟨(hsub.map Prod.fst).nodup hnodup, fun row hrow => hstored row (hsub.subset hrow)⟩

/-- What a pass leaves of each memory. -/
theorem pass_payload {user : String} {t : Datetime} {limit : ℕ}
    (huser : Mem0.validate_and_trim_entity_id host.default_user_id "user_id" = .ok user)
    (hiso : host.is_iso_datetime t.isoformat = true) (hlimit : 1 ≤ limit) (w : World) (x : Id) :
    (pass host t limit w).payload x =
      if ∃ row ∈ given_rows host user t.isoformat limit w, row.1 = x ∧
        stamps_row t.isoformat row = true
      then (w.payload x).map fun p => p.merge (stamp t.isoformat) else w.payload x := by
  obtain ⟨hnodup, hstored⟩ := given_rows_stored host user t.isoformat limit w
  obtain ⟨n, w', hrun, hw'⟩ := @harvest_items_payload host t.isoformat
    ((given_rows host user t.isoformat limit w).map fun row => Mem0.item_of row.1 row.2)
    (by rw [List.map_map]; exact hnodup) w (by
      intro item hitem
      obtain ⟨row, hrow, rfl⟩ := List.mem_map.mp hitem
      exact ⟨row.2, hstored row hrow⟩) 0
  rw [pass_eq huser hiso hlimit, hrun, hw' x]
  refine if_congr ?_ rfl rfl
  simp only [List.mem_map, exists_exists_and_eq_and, stamps_row, decide_eq_true_eq]
  exact Iff.rfl

/-! ## Whether a pass gets on -/

/-- A memory of the user, past its deadline and not stamped. -/
def lapsed_row (host : Host) (user now : String) (row : Id × Payload) : Bool :=
  host.matches_value (.value user) (row.2.get "user_id") && stamps_row now row

/-- Such a memory is stored. -/
def Lapsed (host : Host) (user now : String) (w : World) (x : Id) : Prop :=
  ∃ p, w.payload x = some p ∧ lapsed_row host user now (x, p) = true

/-- The stored rows that the scan matches. -/
def matched (host : Host) (user now : String) (w : World) : List (Id × Payload) :=
  (w.points.entries.map fun e => (e.1, e.2)).filter fun row =>
    host.matches_filters (scan_filters user now) row.2

/-- The scan shows a lapsed memory, and the rows that are not stamped can neither fill what a
pass is given nor what it asks for. -/
structure Roomy (host : Host) (user now : String) (limit : ℕ) (w : World) : Prop where
  shown : ∃ row ∈ matched host user now w, visible host w row = true ∧ stamps_row now row = true
  window : (matched host user now w).countP
    (fun row => visible host w row && !stamps_row now row) < limit
  fetch : (matched host user now w).countP
    (fun row => !(visible host w row && stamps_row now row)) < max (limit * 4) 60

/-- The same surroundings with another order of the scroll. -/
def Host.scrolling (host : Host) (f : List (Id × Payload) → List (Id × Payload))
    (hf : ∀ l, (f l).Perm l) : Host :=
  { host with scroll := f, scroll_perm := hf }

/-- A pass stamps a memory that had lapsed. -/
def GetsOn (host : Host) (user : String) (t : Datetime) (limit : ℕ) (w : World) : Prop :=
  ∃ x, Lapsed host user t.isoformat w x ∧
    ∃ p, (pass host t limit w).payload x = some p ∧ (p.get TTL_EXPIRED_AT).truthy = true

/-- The rows that a harvest may be given are the matching ones, in some order. -/
theorem matching_perm (host : Host) (user now : String) (w : World) :
    (matching host user now w).Perm (matched host user now w) :=
  (host.scroll_perm _).filter _

/-- Where there is room, a pass is given a row to stamp. -/
theorem Roomy.given {user now : String} {limit : ℕ} {w : World} (h : Roomy host user now limit w) :
    ∃ row ∈ given_rows host user now limit w, stamps_row now row = true := by
  have hperm := matching_perm host user now w
  have hfetched : ∃ row ∈ (matching host user now w).take (max (limit * 4) 60),
      (visible host w row && stamps_row now row) = true := by
    refine Lists.exists_mem_take ?_ ?_
    · rw [hperm.countP_eq]
      exact h.fetch
    · obtain ⟨row, hrow, hvisible, hstamps⟩ := h.shown
      exact ⟨row, hperm.mem_iff.mpr hrow, by rw [hvisible, hstamps]; rfl⟩
  obtain ⟨row, hrow, htakes⟩ := hfetched
  rw [Bool.and_eq_true] at htakes
  refine Lists.exists_mem_take ?_ ⟨row, List.mem_filter.mpr ⟨hrow, htakes.1⟩, htakes.2⟩
  -- the rows that are shown and skipped are fewer than the limit
  refine lt_of_le_of_lt ?_ h.window
  rw [List.countP_filter, ← hperm.countP_eq]
  refine le_trans (List.Sublist.countP_le (List.take_sublist _ _)) (le_of_eq ?_)
  exact List.countP_congr fun row _ => by rw [Bool.and_comm]

/-- What a pass stamps had lapsed. -/
theorem lapsed_of_given {user now : String} {limit : ℕ} {w : World} {row : Id × Payload}
    (hrow : row ∈ given_rows host user now limit w) (hstamps : stamps_row now row = true) :
    Lapsed host user now w row.1 := by
  refine ⟨row.2, (given_rows_stored host user now limit w).2 row hrow, ?_⟩
  have hmatch : row ∈ matching host user now w :=
    List.mem_of_mem_take (List.mem_filter.mp (List.mem_of_mem_take hrow)).1
  have hfilters := (List.mem_filter.mp hmatch).2
  simp only [Host.matches_filters, scan_filters, List.all_cons, Bool.and_eq_true] at hfilters
  rw [lapsed_row, hfilters.1, hstamps]
  rfl

theorem truthy_merge_stamp (p : Payload) (t : Datetime) :
    ((p.merge (stamp t.isoformat)).get TTL_EXPIRED_AT).truthy = true := by
  have hlookup : (stamp t.isoformat).lookup TTL_EXPIRED_AT = some (.str t.isoformat) :=
    AList.lookup_insert _
  rw [Payload.get, Payload.lookup_merge, hlookup]
  simpa [Value.truthy, Atom.truthy] using t.isoformat_ne_empty

/-- A pass that is given a row to stamp gets on. -/
theorem gets_on_of_given {user : String} {t : Datetime} {limit : ℕ}
    (huser : Mem0.validate_and_trim_entity_id host.default_user_id "user_id" = .ok user)
    (hiso : host.is_iso_datetime t.isoformat = true) (hlimit : 1 ≤ limit) {w : World}
    (h : ∃ row ∈ given_rows host user t.isoformat limit w, stamps_row t.isoformat row = true) :
    GetsOn host user t limit w := by
  obtain ⟨row, hrow, hstamps⟩ := h
  have hstored := (given_rows_stored host user t.isoformat limit w).2 row hrow
  refine ⟨row.1, lapsed_of_given hrow hstamps, row.2.merge (stamp t.isoformat), ?_,
    truthy_merge_stamp row.2 t⟩
  rw [pass_payload huser hiso hlimit, if_pos ⟨row, hrow, rfl, hstamps⟩, hstored]
  rfl

/-- A pass that is given none leaves everything as it was. -/
theorem pass_idle {user : String} {t : Datetime} {limit : ℕ}
    (huser : Mem0.validate_and_trim_entity_id host.default_user_id "user_id" = .ok user)
    (hiso : host.is_iso_datetime t.isoformat = true) (hlimit : 1 ≤ limit) {w : World}
    (h : ∀ row ∈ given_rows host user t.isoformat limit w, stamps_row t.isoformat row = false) :
    pass host t limit w = w := by
  rw [pass_eq huser hiso hlimit]
  refine congrArg Prod.snd (harvest_items_idle (fun item hitem => ?_) w 0)
  obtain ⟨row, hrow, rfl⟩ := List.mem_map.mp hitem
  exact of_decide_eq_false (h row hrow)

/-- An order of the scroll that has what will be skipped first. -/
def starving (host : Host) (now : String) (w : World)
    (l : List (Id × Payload)) : List (Id × Payload) :=
  l.filter (fun row => visible host w row && !stamps_row now row) ++
    (l.filter (fun row => !visible host w row) ++
      l.filter fun row => visible host w row && stamps_row now row)

theorem starving_perm (host : Host) (now : String) (w : World) (l : List (Id × Payload)) :
    (starving host now w l).Perm l := by
  have hvisible := List.filter_append_perm (fun row => visible host w row) l
  have hskipped := List.filter_append_perm (fun row => !stamps_row now row)
    (l.filter fun row => visible host w row)
  rw [List.filter_filter, List.filter_filter] at hskipped
  refine List.Perm.trans ?_ hvisible
  refine List.Perm.trans ?_ (hskipped.append_right _)
  unfold starving
  rw [List.append_assoc]
  refine List.Perm.append ?_ ?_
  · exact List.Perm.of_eq (List.filter_congr fun row _ => Bool.and_comm _ _)
  · refine List.perm_append_comm.trans (List.Perm.append_right _ (List.Perm.of_eq ?_))
    exact List.filter_congr fun row _ => by rw [Bool.not_not, Bool.and_comm]

/-- Where there is no room, some order starves the pass. -/
theorem starved {user now : String} {limit : ℕ} {w : World} (h : ¬ Roomy host user now limit w) :
    ∀ row ∈ given_rows (host.scrolling (starving host now w) (starving_perm host now w)) user now
      limit w, stamps_row now row = false := by
  intro row hrow
  let M := matched host user now w
  let skipped := M.filter fun row => visible host w row && !stamps_row now row
  let hidden := M.filter fun row => !visible host w row
  let due := M.filter fun row => visible host w row && stamps_row now row
  have hcomm : ∀ p : Id × Payload →
      Bool, ((w.points.entries.map fun e => (e.1, e.2)).filter p).filter
      (fun row => host.matches_filters (scan_filters user now) row.2) = M.filter p := by
    intro p
    change _ = (matched host user now w).filter p
    rw [matched, List.filter_filter, List.filter_filter]
    exact List.filter_congr fun _ _ => Bool.and_comm _ _
  have horder :
      matching (host.scrolling (starving host now w) (starving_perm host now w)) user now w
      = skipped ++ (hidden ++ due) := by
    change (starving host now w (w.points.entries.map fun e => (e.1, e.2))).filter
      (fun row => host.matches_filters (scan_filters user now) row.2) = _
    rw [starving, List.filter_append, List.filter_append, hcomm, hcomm, hcomm]
  have hgiven : row ∈ (((skipped ++ (hidden ++ due)).take (max (limit * 4) 60)).filter
      (visible host w)).take limit := by
    rw [← horder]
    exact hrow
  rw [List.take_append, List.take_append, List.filter_append, List.filter_append] at hgiven
  by_contra hstamps
  rw [Bool.not_eq_false] at hstamps
  have hnot_skipped : row ∉ skipped := by
    intro hmem
    have hp := (List.mem_filter.mp hmem).2
    rw [hstamps, Bool.not_true, Bool.and_false] at hp
    cases hp
  -- a row that will be stamped comes from the last of the three
  have hlast : row ∈ due.take (max (limit * 4) 60 - skipped.length - hidden.length) := by
    rcases List.mem_append.mp (List.mem_of_mem_take hgiven) with hmem | hmem
    · exact absurd (List.mem_of_mem_take (List.mem_filter.mp hmem).1) hnot_skipped
    · rcases List.mem_append.mp hmem with hmem | hmem
      · obtain ⟨hmem, hvisible⟩ := List.mem_filter.mp hmem
        have hp := (List.mem_filter.mp (List.mem_of_mem_take hmem)).2
        rw [hvisible] at hp
        cases hp
      · exact (List.mem_filter.mp hmem).1
  refine h ⟨?_, ?_, ?_⟩
  · obtain ⟨hmem, hp⟩ := List.mem_filter.mp (List.mem_of_mem_take hlast)
    rw [Bool.and_eq_true] at hp
    exact ⟨row, hmem, hp⟩
  · by_contra hfull
    rw [not_lt, List.countP_eq_length_filter] at hfull
    have hshown : (skipped.take (max (limit * 4) 60)).filter (visible host w)
        = skipped.take (max (limit * 4) 60) := by
      rw [List.filter_eq_self]
      intro r hr
      have hp := (List.mem_filter.mp (List.mem_of_mem_take hr)).2
      rw [Bool.and_eq_true] at hp
      exact hp.1
    have hlong : limit ≤ (skipped.take (max (limit * 4) 60)).length := by
      rw [List.length_take]
      exact le_min (by omega) hfull
    rw [hshown, List.take_append_of_le_length hlong] at hgiven
    exact hnot_skipped (List.mem_of_mem_take (List.mem_of_mem_take hgiven))
  · by_contra hfull
    rw [not_lt] at hfull
    have hcount : M.countP (fun row => !(visible host w row && stamps_row now row)) =
        skipped.length + hidden.length := by
      rw [← List.countP_eq_length_filter, ← List.countP_eq_length_filter]
      exact Lists.countP_not_and _ _ M
    have hzero : max (limit * 4) 60 - skipped.length - hidden.length = 0 := by
      have := hcount ▸ hfull
      omega
    rw [hzero, List.take_zero] at hlast
    cases hlast

/-! ## Passes one after another -/

instance (host : Host) (user now : String) (w : World) : DecidablePred (Lapsed host user now w) :=
  fun x => match h : w.payload x with
    | some p => decidable_of_iff (lapsed_row host user now (x, p) = true) (by simp [Lapsed, h])
    | none => isFalse (by simp [Lapsed, h])

/-- The memories that have lapsed. -/
def lapsed_ids (host : Host) (user now : String) (w : World) : Finset Id :=
  w.points.keys.toFinset.filter (Lapsed host user now w)

theorem mem_lapsed_ids {user now : String} {w : World} {x : Id} :
    x ∈ lapsed_ids host user now w ↔ Lapsed host user now w x := by
  rw [lapsed_ids, Finset.mem_filter, List.mem_toFinset, and_iff_right_iff_imp]
  rintro ⟨p, hp, -⟩
  have hmem : x ∈ w.points := AList.lookup_isSome.mp (by
    change (w.payload x).isSome = true
    rw [hp]
    rfl)
  exact AList.mem_keys.mp hmem

/-- A stamped memory has not lapsed any more. -/
theorem lapsed_of_stamped {user now : String} {x : Id} {p : Payload}
    (h : (p.get TTL_EXPIRED_AT).truthy = true) : lapsed_row host user now (x, p) = false := by
  have hread : (Mem0.item_of x p).metadata.lookup TTL_EXPIRED_AT = p.lookup TTL_EXPIRED_AT :=
    Mem0.get_item_metadata (by decide)
  have hnot : ¬ Taken now (Mem0.item_of x p) := by
    intro htaken
    refine htaken.1 (.inr ?_)
    rwa [Payload.get, hread, ← Payload.get]
  rw [lapsed_row, stamps_row, decide_eq_false hnot, Bool.and_false]

/-- What a pass stamps has not lapsed any more, and nothing lapses through it. -/
theorem lapsed_pass {user : String} {t : Datetime} {limit : ℕ}
    (huser : Mem0.validate_and_trim_entity_id host.default_user_id "user_id" = .ok user)
    (hiso : host.is_iso_datetime t.isoformat = true) (hlimit : 1 ≤ limit) {w : World} {x : Id}
    (h : Lapsed host user t.isoformat (pass host t limit w) x) :
    Lapsed host user t.isoformat w x ∧ (pass host t limit w).payload x = w.payload x := by
  obtain ⟨p, hp, hlapsed⟩ := h
  have hpayload := pass_payload huser hiso hlimit w x
  split at hpayload
  · -- it would be stamped
    rename_i hgiven
    obtain ⟨row, hrow, rfl, -⟩ := hgiven
    have hstored := (given_rows_stored host user t.isoformat limit w).2 row hrow
    rw [hstored, Option.map_some, hp] at hpayload
    cases hpayload
    rw [lapsed_of_stamped (truthy_merge_stamp row.2 t)] at hlapsed
    cases hlapsed
  · exact ⟨⟨p, hpayload ▸ hp, hlapsed⟩, hpayload⟩

/-- A pass that gets on leaves fewer. -/
theorem card_lapsed_pass {user : String} {t : Datetime} {limit : ℕ}
    (huser : Mem0.validate_and_trim_entity_id host.default_user_id "user_id" = .ok user)
    (hiso : host.is_iso_datetime t.isoformat = true) (hlimit : 1 ≤ limit) {w : World}
    (h : GetsOn host user t limit w) :
    (lapsed_ids host user t.isoformat (pass host t limit w)).card <
      (lapsed_ids host user t.isoformat w).card := by
  obtain ⟨x, hx, p, hp, hstamped⟩ := h
  refine Finset.card_lt_card (Finset.ssubset_iff_of_subset (fun y hy => ?_) |>.mpr ⟨x, ?_,
    fun hin => ?_⟩)
  · exact mem_lapsed_ids.mpr (lapsed_pass huser hiso hlimit (mem_lapsed_ids.mp hy)).1
  · exact mem_lapsed_ids.mpr hx
  · obtain ⟨q, hq, hlapsed⟩ := mem_lapsed_ids.mp hin
    rw [hp] at hq
    cases hq
    rw [lapsed_of_stamped hstamped] at hlapsed
    cases hlapsed

/-- What has lapsed does not depend on the order of the scroll. -/
theorem lapsed_ids_scrolling {user now : String} (f : List (Id × Payload) → List (Id × Payload))
    (hf : ∀ l, (f l).Perm l) (w : World) :
    lapsed_ids (host.scrolling f hf) user now w = lapsed_ids host user now w := rfl

/-- A moment of one year. -/
def new_year : Datetime :=
  ⟨2026, 1, 1, 0, 0, 0, 0, Datetime.year_2026_pos, Datetime.year_2026_lt, Datetime.first_pos,
    Datetime.january_le, Datetime.first_pos, Datetime.first_of_january_le, Datetime.no_hour,
    Datetime.no_minute, Datetime.no_minute,
    Datetime.no_microsecond⟩

/-- A payload of the default user with a deadline that has passed. -/
def overdue : Payload :=
  .ofList [("user_id", .str "workspace"), (TTL_EXPIRES_AT, .str "2025-12-31T00:00:00+00:00")]

/-- One memory that has lapsed. -/
def one_lapsed : World := World.empty.put "a" overdue

/-- One memory that has lapsed, and one that an earlier pass has stamped. -/
def one_stamped : World := one_lapsed.put "b" (overdue.merge (stamp "2025-12-31T12:00:00+00:00"))

/-- **Progress of harvesting.** A pass stamps a lapsed memory, whichever of the matching rows it
is given, exactly when there is room; and passes that always find room stamp all of them. -/
theorem harvest_progress {user : String} {t : Datetime} {limit : ℕ}
    (huser : Mem0.validate_and_trim_entity_id host.default_user_id "user_id" = .ok user)
    (hiso : host.is_iso_datetime t.isoformat = true) (hlimit : 1 ≤ limit) :
    (∀ w, (∃ x, Lapsed host user t.isoformat w x) →
      ((∀ f hf, GetsOn (host.scrolling f hf) user t limit w) ↔
        Roomy host user t.isoformat limit w)) ∧
    ∀ (f : ℕ → List (Id × Payload) → List (Id × Payload)) (hf : ∀ i l, (f i l).Perm l)
    (w : ℕ → World),
      (∀ i, w (i + 1) = pass (host.scrolling (f i) (hf i)) t limit (w i)) →
      (∀ i, (∃ x, Lapsed host user t.isoformat (w i) x) → Roomy host user t.isoformat limit (w i)) →
        ∃ n, ∀ x, ¬ Lapsed host user t.isoformat (w n) x := by
  -- where there is room a pass gets on, in whatever order the scroll comes
  have hroomy : ∀ f hf w, Roomy host user t.isoformat limit w →
      GetsOn (host.scrolling f hf) user t limit w := by
    intro f hf w h
    have hthere : Roomy (host.scrolling f hf) user t.isoformat limit w :=
      ⟨h.shown, h.window, h.fetch⟩
    exact @gets_on_of_given (host.scrolling f hf) user t limit huser hiso hlimit w hthere.given
  refine ⟨fun w _ => ⟨fun h => ?_, fun h f hf => hroomy f hf w h⟩, fun f hf w hpass hroom => ?_⟩
  · by_contra hnot
    obtain ⟨x, ⟨p, hp, hlapsed⟩, q, hq, hstamped⟩ :=
      h (starving host t.isoformat w) (starving_perm host t.isoformat w)
    -- under the starving order the world stays as it was
    have hidle := @pass_idle (host.scrolling (starving host t.isoformat w)
      (starving_perm host t.isoformat w)) user t limit huser hiso hlimit w (starved hnot)
    rw [hidle, hp] at hq
    cases hq
    rw [lapsed_of_stamped hstamped] at hlapsed
    cases hlapsed
  · -- the number of lapsed memories decreases
    have hmain : ∀ k i, (lapsed_ids host user t.isoformat (w i)).card ≤ k →
        ∃ n, ∀ x, ¬ Lapsed host user t.isoformat (w n) x := by
      intro k
      -- on a bound for the number of those that are left
      induction k with
      | zero =>
        intro i hcard
        have hnone := Finset.card_eq_zero.mp (Nat.le_zero.mp hcard)
        refine ⟨i, fun x hx => ?_⟩
        have hmem := mem_lapsed_ids.mpr hx
        rw [hnone] at hmem
        cases hmem
      | succ k ih =>
        intro i hcard
        by_cases hlapsed : ∃ x, Lapsed host user t.isoformat (w i) x
        · refine ih (i + 1) ?_
          have hless :=
            @card_lapsed_pass (host.scrolling (f i) (hf i)) user t limit huser hiso hlimit
            (w i) (hroomy (f i) (hf i) (w i) (hroom i hlapsed))
          rw [lapsed_ids_scrolling, lapsed_ids_scrolling, ← hpass i] at hless
          omega
        · exact ⟨i, fun x hx => hlapsed ⟨x, hx⟩⟩
    exact hmain _ 0 le_rfl

/-- With one lapsed memory there is room for a pass over one row. -/
theorem one_lapsed_stamped :
    GetsOn (Host.plain.scrolling id fun _ => .rfl) "workspace" new_year 1 one_lapsed := by
  have hlaw := (@harvest_progress Host.plain "workspace" new_year 1 (by decide +kernel) rfl
    (by decide)).1 one_lapsed ⟨"a", overdue, rfl, by decide +kernel⟩
  have hmem : ("a", overdue) ∈ [("a", overdue)] := List.mem_singleton_self _
  refine hlaw.mpr ⟨⟨("a", overdue), List.mem_filter.mpr ⟨hmem, ?_⟩, ?_⟩, ?_, ?_⟩ id fun _ => .rfl
  · decide +kernel
  · decide +kernel
  · decide +kernel
  · decide +kernel

/-- With one stamped memory beside it there is none: the pass is given that one, and the store
stays as it is for any number of passes. -/
theorem one_stamped_starves :
    (∃ x, Lapsed Host.plain "workspace" new_year.isoformat one_stamped x) ∧
      ¬ GetsOn Host.plain "workspace" new_year 1 one_stamped ∧
      pass Host.plain new_year 1 one_stamped = one_stamped := by
  have hidle : pass Host.plain new_year 1 one_stamped = one_stamped :=
    @pass_idle Host.plain "workspace" new_year 1 (by decide +kernel) rfl (by decide) one_stamped
      (by decide +kernel)
  refine ⟨⟨"a", overdue, rfl, by decide +kernel⟩, ?_, hidle⟩
  rintro ⟨x, ⟨p, hp, hlapsed⟩, q, hq, hstamped⟩
  rw [hidle, hp] at hq
  cases hq
  rw [lapsed_of_stamped hstamped] at hlapsed
  cases hlapsed

end Memline
