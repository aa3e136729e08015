/-
The checks of two memories, run by two event workers at once.

A check reads the cache before it asks its judge and records what the judge said. Each
may judge the other memory, and the cache is asked in both directions so that the pair is
judged once. It is, unless each check has read the cache before the other has recorded
the pair: what is recorded in one direction does not conflict with what is recorded in
the other.

`Notes` is what a check knows when it records (the id it has drawn, what the cache left
to judge); from it, every judgment on record comes after a look at the cache that did not
find the pair. The rest is about the order of these calls in the log of both.
-/
import Memline.Checks
import Memline.Interleaving
import Memline.Triples
import Mathlib.Data.List.Induction

set_option autoImplicit false

namespace Memline

open Effect Effect.Logic SqlTable

/-! ## What a check knows when it records -/

/-- The id drawn for the next row, what the cache left to judge, and whether every row
so far was drawn and judged so. -/
structure Notes where
  drawn : Option Id
  missed : List (Id × String)
  sound : Prop

/-- A judgment by the check of `m`: about itself, or about what the cache did not have. -/
def Backed (m : Id) (text : Id → String) (missed : List (Id × String)) (j : Judgment) : Prop :=
  j.new_id = m ∧ (j.old_id ≠ m →
    j.kind = KIND_DISPLACEMENT ∧ (j.old_id, j.old_text) ∈ missed ∧ j.old_text = text j.old_id)

def ShowsText (text : Id → String) (item : Item) : Prop :=
  (item.top.get "memory").text = text item.id

def AllShowText (text : Id → String) (items : List Item) : Prop :=
  ∀ item ∈ items, ShowsText text item

def AboutCandidates (candidates : List JudgeEntry) (judgments : List (Id × Verdict)) : Prop :=
  ∀ v ∈ judgments, v.1 ∈ candidates.map JudgeEntry.id

/-- What the cache did not have. -/
def left_over (candidates : List (Id × String)) (already : List Id) : List (Id × String) :=
  candidates.filter fun c => c.1 ∉ already

/-- The call was answered as it is while every memory keeps its text. -/
def Steady (m : Id) (text : Id → String) : Ev → Prop
  | ⟨.vs_get id, .ok (some payload)⟩ => id = m → payload_text payload = text m
  | ⟨.search .., .ok items⟩ => AllShowText text items
  | ⟨.judge _ candidates, .ok judgments⟩ => AboutCandidates candidates judgments
  | _ => True

def Notes.next (m : Id) (text : Id → String) (t : Notes) : Ev → Notes
  | ⟨.uuid4, .ok pair_id⟩ => { t with drawn := some pair_id }
  | ⟨.pairs (.judged_either probe_id probe_text candidates), .ok already⟩ =>
    { t with
      missed := left_over candidates already
      sound := t.sound ∧ probe_id = m ∧ probe_text = text m }
  | ⟨.pairs (.record_judgment j pair_id _), _⟩ =>
    { t with drawn := none, sound := t.sound ∧ t.drawn = some pair_id ∧ Backed m text t.missed j }
  | _ => t

def notes (m : Id) (text : Id → String) : Tally Api Notes where
  next := Notes.next m text
  expects _ e := Steady m text e
  holds t := t.sound

/-- Before the first call. -/
def Notes.blank : Notes := ⟨none, [], True⟩

section stages

variable {m : Id} {text : Id → String}

/-- A call that leaves the notes alone. -/
theorem notes_spec {c : Call} {P : Notes → Prop} {R : c.Answer → Prop}
    (hnext : ∀ t r, Notes.next m text t ⟨c, r⟩ = t)
    (hR : ∀ a : c.Answer, Steady m text ⟨c, .ok a⟩ → R a) :
    (notes m text).logic.Spec P (Prog.perform (I := Api) c) (fun a t => P t ∧
      R a) (fun _ => True) := by
  refine Tally.spec_perform (fun t a hP ht ha => ?_) fun t e hP ht he => ?_
  · change (Notes.next m text t ⟨c, .ok a⟩).sound ∧ P (Notes.next m text t ⟨c, .ok a⟩) ∧ R a
    rw [hnext]
    exact ⟨ht, hP, hR a ha⟩
  · change (Notes.next m text t ⟨c, .error e⟩).sound ∧ True
    rw [hnext]
    exact ⟨ht, trivial⟩

/-- A row is recorded under the id drawn for it. -/
theorem record_judgment_notes {P : List (Id × String) → Prop} {j : Judgment}
    (hj : ∀ missed, P missed → Backed m text missed j) :
    (notes m text).logic.Spec (fun t => P t.missed) (pair_store.record_judgment j)
      (fun _ t => P t.missed) (fun _ => True) := by
  refine spec_bind (S := fun pair_id t => P t.missed ∧ t.drawn = some pair_id) ?_ fun pair_id => ?_
  · exact Tally.spec_perform (fun t a hP ht _ => ⟨ht, hP, rfl⟩) fun t e _ ht _ => ⟨ht, trivial⟩
  refine spec_bind (S := fun _ t => P t.missed ∧ t.drawn = some pair_id) ?_ fun judged_at => ?_
  · exact (notes_spec (R := fun _ => True) (fun _ _ => rfl) fun _ _ => trivial).mono
      (fun _ h => h) (fun _ _ h => h.1) fun _ h => h
  · refine Tally.spec_perform (fun t a hP ht _ => ?_) fun t e hP ht _ => ?_
    · exact ⟨⟨ht, hP.2, hj _ hP.1⟩, hP.1⟩
    · exact ⟨⟨ht, hP.2, hj _ hP.1⟩, trivial⟩

/-- The candidates are what the cache left, with the texts they have. -/
def Fresh (text : Id → String) (candidates : List JudgeEntry)
    (missed : List (Id × String)) : Prop :=
  ∀ c ∈ candidates, (c.id, c.text) ∈ missed ∧ c.text = text c.id

/-- The judgment of a displacement is backed by what its check has looked up. -/
theorem displacement_judgment_backed {candidates : List JudgeEntry} {missed : List (Id × String)}
    {session_id : Option String} {v : Id × Verdict} (model : Option String)
    (hfresh : Fresh text candidates missed) (hv : v.1 ∈ candidates.map JudgeEntry.id) :
    Backed m text missed (displacement_judgment m candidates session_id v model) := by
  refine ⟨rfl, fun _ => ⟨rfl, ?_⟩⟩
  obtain ⟨c, hc, hid⟩ := List.mem_map.mp hv
  obtain ⟨found, hfind⟩ : ∃ found, candidates.find? (fun c => c.id = v.1) = some found :=
    Option.isSome_iff_exists.mp (List.find?_isSome.mpr ⟨c, hc, decide_eq_true hid⟩)
  have hfound : found.id = v.1 := by simpa using List.find?_some hfind
  obtain ⟨hmissed, htext⟩ := hfresh found (List.mem_of_find?_eq_some hfind)
  simp only [displacement_judgment, hfind, Option.map_some, Option.getD_some]
  rw [← hfound]
  exact ⟨hmissed, htext⟩

/-- A call that tells the check nothing. -/
theorem plain_spec {c : Call} (hnext : ∀ t r, Notes.next m text t ⟨c, r⟩ = t)
    {P : Notes → Prop} : (notes m text).logic.Spec P (Prog.perform (I := Api) c) (fun _ => P)
      (fun _ => True) :=
  (notes_spec (R := fun _ => True) hnext fun _ _ => trivial).mono (fun _ h => h) (fun _ _ h => h.1)
    fun _ h => h

/-- The notes of a check, stage by stage. -/
def check_stages (m : Id) (text : Id → String) (judge_model session_id : Option String) :
    Stages (notes m text).logic m judge_model session_id where
  rest _ := True
  found payload := payload_text payload = text m
  hit := ShowsText text
  fresh candidates t := Fresh text candidates t.missed
  judged candidates judgments t := Fresh text candidates t.missed ∧
    AboutCandidates candidates judgments
  noted _ _ _ := True
  fresh_rest _ _ _ := trivial
  judged_rest _ _ _ _ := trivial
  look := notes_spec (fun _ _ => rfl) fun p hp payload hpayload => by
    obtain rfl : p = some payload := hpayload
    exact hp rfl
  recorded _ _ := plain_spec fun _ _ => rfl
  search _ _ _ := notes_spec (fun _ _ => rfl) fun items hitems => hitems
  clock := plain_spec fun _ _ => rfl
  cache payload candidates hfound hcandidates := by
    refine Tally.spec_perform (fun t already _ ht _ => ⟨⟨ht, rfl, hfound⟩, fun c hc => ?_⟩)
      fun t e _ ht _ => ⟨ht, trivial⟩
    obtain ⟨hmem, hnew⟩ := List.mem_filter.mp hc
    obtain ⟨item, hshown, hid, htext, -⟩ := hcandidates c hmem
    refine ⟨List.mem_filter.mpr ⟨List.mem_map.mpr ⟨c, hmem, rfl⟩, hnew⟩, ?_⟩
    rw [htext, hid]
    exact hshown
  judge payload date candidates _ _ := notes_spec (fun _ _ => rfl) fun judgments hjudged => hjudged
  judge_self _ _ _ := plain_spec fun _ _ => rfl
  exempt _ _ _ _ _ := trivial
  stamp candidates judgments v hv := by
    refine spec_bind (plain_spec fun _ _ => rfl) fun model => ?_
    refine (record_judgment_notes
      (P := fun missed => Fresh text candidates missed ∧ AboutCandidates candidates judgments)
      fun missed hP => ?_)
    exact displacement_judgment_backed model hP.1 (hP.2 v hv)
  stamp_self payload kind v _ := by
    refine spec_bind (plain_spec fun _ _ => rfl) fun model => ?_
    exact record_judgment_notes (P := fun _ => True) fun missed _ => ⟨rfl, fun h => absurd rfl h⟩

end stages

/-- What a check has noted stays right with the next event. -/
theorem Notes.next_sound {m : Id} {text : Id → String} {t : Notes} {e : Ev}
    (h : (Notes.next m text t e).sound) : t.sound := by
  unfold Notes.next at h
  split at h
  · exact h
  · exact h.1
  · exact h.1
  · exact h

/-- The look at the cache that left the pair to judge. -/
def Missed (m : Id) (text : Id → String) (x : Id × String) (e : Ev) : Prop :=
  ∃ (candidates : List (Id × String)) (already : List Id),
    e = ⟨.pairs (.judged_either m (text m) candidates), .ok already⟩ ∧
      x ∈ left_over candidates already

/-- What is left to judge, the last look at the cache left. -/
theorem Notes.missed_of_mem {m : Id} {text : Id → String} {es : List Ev} {x : Id × String}
    (hsound : (es.foldl (Notes.next m text) blank).sound)
    (hx : x ∈ (es.foldl (Notes.next m text) blank).missed) : ∃ e ∈ es, Missed m text x e := by
  induction es using List.reverseRecOn with
  | nil => cases hx
  | append_singleton es e ih =>
    rw [List.foldl_append, List.foldl_cons, List.foldl_nil] at hsound hx
    have hearlier := ih (next_sound hsound)
    unfold Notes.next at hsound hx
    split at hx
    · obtain ⟨e', he', hmissed⟩ := hearlier hx
      exact ⟨e', List.mem_append_left _ he', hmissed⟩
    · rename_i probe_id probe_text candidates already
      obtain ⟨-, rfl, rfl⟩ := hsound
      exact ⟨_, List.mem_append_right _ List.mem_cons_self, candidates, already, rfl, hx⟩
    · obtain ⟨e', he', hmissed⟩ := hearlier hx
      exact ⟨e', List.mem_append_left _ he', hmissed⟩
    · obtain ⟨e', he', hmissed⟩ := hearlier hx
      exact ⟨e', List.mem_append_left _ he', hmissed⟩

/-! ## Two checks -/

/-- A check, as a queued event asks for it. -/
structure StaleCheck where
  new_id : Id
  session_id : Option String := none
  judge_model : Option String := none
  top_k : ℕ := STALE_CHECK_TOP_K
  self_only : Bool := false

def StaleCheck.code (c : StaleCheck) : Code StaleReport :=
  run_stale_check c.new_id c.session_id c.judge_model c.top_k c.self_only

/-- Two event workers with a check each, on one store. -/
def cross_check (host : Host) (fault : Call → World → Option Exn) (w : World)
    (check : Bool → StaleCheck) (sched : List Bool) : Conf Api Bool StaleReport World :=
  Conf.exec (host.failing fault) (Conf.start (fun i => (check i).code) w) sched

def World.text (w : World) (id : Id) : String := ((w.payload id).map payload_text).getD ""

/-- The key of the judgment that `new_id` displaces `old_id`, as that reads in `w`. -/
def displacement_key (host : Host) (w : World) (new_id old_id : Id) : String × Id × Id × String :=
  (KIND_DISPLACEMENT, new_id, old_id, host.text_hash (w.text old_id))

/-- The displacement rows between two memories, in both directions. -/
def between (host : Host) (w : World) (a b : Id) (s : PairStore) : List PairRow :=
  s.rows.filter fun r =>
    decide (r.version = displacement_key host w a b ∨ r.version = displacement_key host w b a)

/-- The search hands out memories with the text they have. -/
def ShowsStored (host : Host) : Prop :=
  ∀ w query top_k filters, ∀ item ∈ host.search w query top_k filters,
    (item.top.get "memory").text = w.text item.id

/-- The check of `m` looks at the cache. -/
def Reads (m : Id) (e : Ev) : Prop :=
  ∃ probe_text candidates r, e = ⟨.pairs (.judged_either m probe_text candidates), r⟩

/-- A judgment that `new_id` displaces `old_id` goes on record. -/
def Records (new_id old_id : Id) (e : Ev) : Prop :=
  ∃ j pair_id judged_at r, e = ⟨.pairs (.record_judgment j pair_id judged_at), .ok r⟩ ∧
    j.kind = KIND_DISPLACEMENT ∧ j.new_id = new_id ∧ j.old_id = old_id

/-- Each check looks at the cache before the other records its judgment of the pair. -/
def Crossed (m : Bool → Id) (log : List (Bool × Ev)) : Prop :=
  ∀ i, ∃ l₁ l₂ l₃ e f, log = l₁ ++ (i, e) :: (l₂ ++ (!i, f) :: l₃) ∧
    Reads (m i) e ∧ Records (m !i) (m i) f

/-! ### The rows -/

/-- The key is on record. -/
def Has (s : PairStore) (key : String × Id × Id × String) : Prop := ∃ r ∈ s.rows, r.version = key

/-- Two memories have one judgment between them at most when they are not judged both ways. -/
theorem between_length_le_one {host : Host} {w : World} {a b : Id} (hab : a ≠ b) (s : PairStore) :
    (between host w a b s).length ≤ 1 ↔
      ¬ (Has s (displacement_key host w a b) ∧ Has s (displacement_key host w b a)) := by
  have hmem : ∀ r, r ∈ between host w a b s ↔ r ∈ s.rows ∧
      (r.version = displacement_key host w a b ∨ r.version = displacement_key host w b a) := by
    intro r
    rw [between, List.mem_filter, decide_eq_true_eq]
  constructor
  · rintro hle ⟨⟨r, hr, hkey⟩, r', hr', hkey'⟩
    have heq : r = r' := by
      have hin := (hmem r).mpr ⟨hr, .inl hkey⟩
      have hin' := (hmem r').mpr ⟨hr', .inr hkey'⟩
      rcases hlist : between host w a b s with _ | ⟨x, _ | ⟨y, rows⟩⟩
      · rw [hlist] at hin
        cases hin
      · rw [hlist] at hin hin'
        rw [List.mem_singleton.mp hin, List.mem_singleton.mp hin']
      · rw [hlist] at hle
        simp at hle
    rw [heq] at hkey
    have hids : a = b := congrArg (fun key => key.2.1) (hkey.symm.trans hkey')
    exact hab hids
  · intro hnot
    by_contra hmany
    rcases hlist : between host w a b s with _ | ⟨x, _ | ⟨y, rows⟩⟩
    · rw [hlist] at hmany
      exact hmany (Nat.zero_le 1)
    · rw [hlist] at hmany
      exact hmany le_rfl
    have hx := (hmem x).mp (by rw [hlist]; exact List.mem_cons_self)
    have hy := (hmem y).mp (by rw [hlist]; exact List.mem_cons_of_mem _ List.mem_cons_self)
    have hne : x.version ≠ y.version := by
      -- the store holds a version once, so that two rows are one of each direction
      have hnodup : ((between host w a b s).map PairRow.version).Nodup :=
        (List.filter_sublist.map _).nodup s.version_unique
      rw [hlist, List.map_cons, List.map_cons, List.nodup_cons] at hnodup
      exact fun heq => hnodup.1 (heq ▸ List.mem_cons_self)
    refine hnot ?_
    rcases hx.2 with hx₂ | hx₂
    · rcases hy.2 with hy₂ | hy₂
      · exact absurd (hx₂.trans hy₂.symm) hne
      · exact ⟨⟨x, hx.1, hx₂⟩, y, hy.1, hy₂⟩
    · rcases hy.2 with hy₂ | hy₂
      · exact ⟨⟨y, hy.1, hy₂⟩, x, hx.1, hx₂⟩
      · exact absurd (hx₂.trans hy₂.symm) hne

/-- The call puts the key on record, as far as it is not there. -/
def Enters (host : Host) (key : String × Id × Id × String) (e : Ev) : Prop :=
  ∃ j pair_id judged_at r, e = ⟨.pairs (.record_judgment j pair_id judged_at), .ok r⟩ ∧
    key = (j.kind, j.new_id, j.old_id, host.text_hash j.old_text)

/-- What a check may call: it reads, or records a judgment. -/
def checks (c : Call) : Prop :=
  inert c ∨ ∃ j pair_id judged_at, c = .pairs (.record_judgment j pair_id judged_at)

theorem StaleCheck.code_checks (c : StaleCheck) : c.code.Uses checks :=
  run_stale_check_uses (fun _ => .inl) (fun j pair_id judged_at =>
    .inr ⟨j, pair_id, judged_at, rfl⟩)
    _ _ _ _ _

section rows

variable {host : Host} {fault : Call → World → Option Exn} {w w' : World}

theorem checks_points {c : Call} (hc : checks c) :
    (host.failing fault c w).2.points = w.points := by
  rcases hc with hc | ⟨j, pair_id, judged_at, rfl⟩
  · exact (inert_same hc).1
  · exact host.failing_points rfl fault w

/-- Nothing on record is lost. -/
theorem has_kept (c : Call) {key : String × Id × Id × String} (h : Has w.pairs key) :
    Has (host.failing fault c w).2.pairs key := by
  obtain ⟨r, hr, hkey⟩ := h
  rcases host.failing_pairs fault c w with hsame | ⟨op, -, -, hop⟩
  · exact ⟨r, by rwa [hsame], hkey⟩
  · obtain ⟨r', hr', hevidence⟩ := (op.apply_keeps_evidence host.text_hash w.pairs).mem hr
    refine ⟨r', by rwa [hop], ?_⟩
    rw [← hkey, PairRow.version, PairRow.version, hevidence]

theorem has_kept_answered {es : List Ev} (hans : Answered (host.failing fault) w es w')
    {key : String × Id × Id × String} (h : Has w.pairs key) : Has w'.pairs key :=
  hans.induction (P := fun t => Has t.pairs key) h fun e _ _ ht => has_kept e.1 ht

/-- What recording does to the rows: nothing, or one more. -/
theorem record_rows (host : Host) (fault : Call → World → Option Exn) (w : World) (j : Judgment)
    (pair_id : Id) (judged_at : String) :
    let c : Call := .pairs (.record_judgment j pair_id judged_at)
    (host.failing fault c w).2.pairs.rows = w.pairs.rows ∨
      (host.failing fault c w).2.pairs.rows =
        w.pairs.rows ++ [j.row host.text_hash pair_id judged_at] := by
  intro c
  rcases host.failing_cases fault c w with ⟨e, h⟩ | h
  · rw [h]
    exact .inl rfl
  · rw [h]
    exact (insertOrIgnore_cases PairRow.conflicts (j.row host.text_hash pair_id judged_at)
      w.pairs.rows).imp And.right And.right

/-- What is new on record, this call has entered. -/
theorem enters_of_new {c : Call} (hc : checks c) {key : String × Id × Id × String}
    (hnot : ¬ Has w.pairs key) (h : Has (host.failing fault c w).2.pairs key) :
    Enters host key ⟨c, (host.failing fault c w).1⟩ := by
  rcases hc with hc | ⟨j, pair_id, judged_at, rfl⟩
  · rw [(inert_same hc).2] at h
    exact absurd h hnot
  · rcases host.failing_cases fault (.pairs (.record_judgment j pair_id judged_at)) w with
      ⟨e, herror⟩ | hok
    · rw [herror] at h
      exact absurd h hnot
    · obtain ⟨r, hr, hkey⟩ := h
      have hrows := record_rows host fault w j pair_id judged_at
      refine ⟨j, pair_id, judged_at, _, by rw [hok]; rfl, ?_⟩
      rcases hrows with hsame | happend
      · rw [hsame] at hr
        exact absurd ⟨r, hr, hkey⟩ hnot
      · rw [happend] at hr
        rcases List.mem_append.mp hr with hr | hr
        · exact absurd ⟨r, hr, hkey⟩ hnot
        · rw [← hkey, List.mem_singleton.mp hr]
          rfl

/-- A judgment that is there in the end, and was not before, was entered by one of the calls. -/
theorem enters_of_answered {es : List Ev} (hans : Answered (host.failing fault) w es w')
    (hes : ∀ e ∈ es, checks e.1) {key : String × Id × Id × String} (hnot : ¬ Has w.pairs key)
    (h : Has w'.pairs key) : ∃ e ∈ es, Enters host key e := by
  induction hans with
  | nil _ => exact absurd h hnot
  | @cons c t t' es hrest ih =>
    by_cases hnow : Has (host.failing fault c t).2.pairs key
    · exact ⟨_, List.mem_cons_self, enters_of_new (hes _ List.mem_cons_self) hnot hnow⟩
    · obtain ⟨e, he, henters⟩ := ih (fun e he => hes e (List.mem_cons_of_mem _ he)) hnow h
      exact ⟨e, List.mem_cons_of_mem _ he, henters⟩

/-- A look at the cache that left the pair found it in neither direction. -/
theorem not_has_of_missed {m x : Id}
    {e : Ev} (hmissed : Missed m w.text (x, w.text x) e)
    {t : World} (ht : e.2 = (host.failing fault e.1 t).1) :
    ¬ Has t.pairs (displacement_key host w x m) := by
  obtain ⟨candidates, already, rfl, hx⟩ := hmissed
  obtain ⟨hcandidate, hnew⟩ := List.mem_filter.mp hx
  rintro ⟨r, hr, hkey⟩
  rcases host.failing_cases fault (.pairs (.judged_either m (w.text m) candidates)) t with
    ⟨exc, herror⟩ | hok
  · rw [herror] at ht
    cases ht
  · rw [hok] at ht
    have halready : already = t.pairs.judged_either host.text_hash m (w.text m) candidates := by
      cases ht
      rfl
    refine absurd ?_ (of_decide_eq_true hnew)
    rw [halready]
    refine List.mem_map.mpr ⟨(x, w.text x), List.mem_filter.mpr ⟨hcandidate, ?_⟩, rfl⟩
    refine List.any_eq_true.mpr ⟨r, hr, ?_⟩
    rw [hkey]
    exact Bool.or_eq_true_iff.mpr (.inr (decide_eq_true rfl))

end rows

/-! ### The log -/

theorem text_congr {w w' : World} (h : w'.points = w.points) (id : Id) :
    w'.text id = w.text id := by
  rw [World.text, World.text, payload_congr h]

/-- While the points are as in `w`, calls are answered so. -/
theorem steady_of_points {host : Host} (hshown : ShowsStored host)
    {fault : Call → World → Option Exn} {w t : World} (hpoints : t.points = w.points) {e : Ev}
    (he : e.2 = (host.failing fault e.1 t).1) (m : Id) : Steady m w.text e := by
  -- what was answered without an error is what the store had to say
  have hanswered : ∀ (c : Call) (a : c.Answer), e = ⟨c, .ok a⟩ → (host.answer c t).1 = .ok a := by
    rintro c a rfl
    have he : (.ok a : Except Exn c.Answer) = (host.failing fault c t).1 := he
    rcases host.failing_cases fault c t with ⟨exc, herror⟩ | hok
    · rw [herror] at he
      cases he
    · rw [hok] at he
      exact he.symm
  unfold Steady
  split
  · rename_i id payload
    rintro rfl
    have hget := hanswered (.vs_get id) (some payload) rfl
    simp only [Host.answer] at hget
    split at hget
    · cases hget
    · injection hget with hget
      rw [World.text, ← payload_congr hpoints, hget]
      rfl
  · rename_i query top_k filters items
    have hsearch := hanswered (.search query top_k filters) items rfl
    injection hsearch with hsearch
    intro item hitem
    rw [← hsearch] at hitem
    rw [ShowsText, ← text_congr hpoints]
    exact hshown t query top_k filters item hitem
  · rename_i entry candidates judgments
    have hjudge := hanswered (.judge entry candidates) judgments rfl
    injection hjudge with hjudge
    intro v hv
    rw [← hjudge] at hv
    exact of_decide_eq_true (List.mem_filter.mp hv).2
  · trivial

section log

variable {host : Host} {fault : Call → World → Option Exn} {w w' : World}
  {check : Bool → StaleCheck} {log : List (Bool × Ev)}

/-- The log of two checks, and where it leads. -/
structure Logged (host : Host) (fault : Call → World → Option Exn) (w w' : World)
    (check : Bool → StaleCheck) (log : List (Bool × Ev)) : Prop where
  traces : ∀ i, ∃ q, Trace (check i).code (Conf.own i log) q
  answered : Answered (host.failing fault) w (log.map Prod.snd) w'

/-- The log of both checks holds what each of them has called. -/
theorem cross_check_logged (sched : List Bool) :
    Logged host fault w (cross_check host fault w check sched).state check
      (cross_check host fault w check sched).log := by
  obtain ⟨l, hlog, htraces, hans⟩ :=
    Conf.exec_trace (host.failing fault) (Conf.start (fun i => (check i).code) w) sched
  have hl : (cross_check host fault w check sched).log = l := by
    rw [cross_check, hlog]
    rfl
  rw [hl]
  exact ⟨fun i => ⟨_, htraces i⟩, hans⟩

theorem Logged.calls (h : Logged host fault w w' check log) :
    ∀ e ∈ log.map Prod.snd, checks e.1 := by
  intro e he
  obtain ⟨⟨i, e⟩, hmem, rfl⟩ := List.mem_map.mp he
  obtain ⟨q, htrace⟩ := h.traces i
  exact (htrace.uses (check i).code_checks).1 e (Conf.mem_own.mpr hmem)

/-- The log up to one of its moments. -/
theorem Logged.upto (h : Logged host fault w w' check log) {l₁ l₂ : List (Bool × Ev)}
    (hlog : log = l₁ ++ l₂) : ∃ t, Logged host fault w t check l₁ ∧
      Answered (host.failing fault) t (l₂.map Prod.snd) w' := by
  have hans := h.answered
  rw [hlog, List.map_append] at hans
  obtain ⟨t, h₁, h₂⟩ := hans.split
  refine ⟨t, ⟨fun i => ?_, h₁⟩, h₂⟩
  obtain ⟨q, htrace⟩ := h.traces i
  rw [hlog, Conf.own_append] at htrace
  obtain ⟨p, hp, -⟩ := htrace.split
  exact ⟨p, hp⟩

/-- Every memory is as it was. -/
theorem Logged.points (h : Logged host fault w w' check log) : w'.points = w.points :=
  h.answered.induction (P := fun t => t.points = w.points) rfl fun e he _ ht =>
    (checks_points (h.calls e he)).trans ht

/-- All that a check was told of its own memory stays true. -/
theorem Logged.steady (h : Logged host fault w w' check log) (hshown : ShowsStored host) (m : Id) :
    ∀ e ∈ log.map Prod.snd, Steady m w.text e := by
  intro e he
  obtain ⟨⟨i, e⟩, hmem, rfl⟩ := List.mem_map.mp he
  obtain ⟨l₁, l₂, rfl⟩ := List.append_of_mem hmem
  obtain ⟨t, hupto, hrest⟩ := h.upto rfl
  exact steady_of_points hshown hupto.points (Answered.of_cons hrest).1 m

/-- What a check has noted at the end of a log. -/
def notes_of (w : World) (check : Bool → StaleCheck) (log : List (Bool × Ev)) (i : Bool) : Notes :=
  (Conf.own i log).foldl (Notes.next (check i).new_id w.text) .blank

theorem Logged.sound (h : Logged host fault w w' check log) (hshown : ShowsStored host) (i : Bool) :
    (notes_of w check log i).sound := by
  obtain ⟨q, htrace⟩ := h.traces i
  have hstart := (check_stages (check i).new_id w.text (check i).judge_model (check i).session_id
    ).run_stale_check_spec (check i).top_k (check i).self_only .blank trivial trivial
  have hexpected : (notes (check i).new_id w.text).Expected .blank (Conf.own i log) := by
    refine Tally.expected_of_split fun es₁ e es₂ hes => ?_
    have hmem : e ∈ Conf.own i log := by
      rw [hes]
      exact List.mem_append_right _ List.mem_cons_self
    exact h.steady hshown _ e (List.mem_map.mpr ⟨_, Conf.mem_own.mp hmem, rfl⟩)
  exact Tally.wp_holds (Tally.wp_trace htrace hstart hexpected)

/-- What a check knew when it recorded. -/
theorem Logged.backed (h : Logged host fault w w' check log) (hshown : ShowsStored host)
    {l₁ l₂ : List (Bool × Ev)} {i : Bool} {j : Judgment} {pair_id : Id} {judged_at : String}
    {r : Except Exn (PairRow × Bool)}
    (hlog : log = l₁ ++ (i, ⟨.pairs (.record_judgment j pair_id judged_at), r⟩) :: l₂) :
    (notes_of w check l₁ i).drawn = some pair_id ∧
      Backed (check i).new_id w.text (notes_of w check l₁ i).missed j := by
  rw [List.append_cons] at hlog
  obtain ⟨t, hupto, -⟩ := h.upto hlog
  have hsound := hupto.sound hshown i
  rw [notes_of, Conf.own_concat_self, List.foldl_append, List.foldl_cons, List.foldl_nil] at hsound
  exact hsound.2

/-- A judgment on record about the other memory: it was missing from the cache before. -/
theorem Logged.missed (h : Logged host fault w w' check log) (hshown : ShowsStored host)
    {l₁ l₂ : List (Bool × Ev)} {i : Bool} {j : Judgment} {pair_id : Id} {judged_at : String}
    {r : Except Exn (PairRow × Bool)}
    (hlog : log = l₁ ++ (i, ⟨.pairs (.record_judgment j pair_id judged_at), r⟩) :: l₂)
    (hother : j.old_id ≠ (check i).new_id) :
    ∃ a e b, l₁ = a ++ (i, e) :: b ∧
      Missed (check i).new_id w.text (j.old_id, w.text j.old_id) e := by
  obtain ⟨-, -, hbacked⟩ := h.backed hshown hlog
  obtain ⟨-, hmem, htext⟩ := hbacked hother
  rw [htext] at hmem
  obtain ⟨t, hupto, -⟩ := h.upto hlog
  obtain ⟨e, he, hmissed⟩ := Notes.missed_of_mem (hupto.sound hshown i) hmem
  obtain ⟨a, b, rfl⟩ := List.append_of_mem (Conf.mem_own.mp he)
  exact ⟨a, e, b, rfl, hmissed⟩

/-! ### Ids -/

/-- The rows and the ids in hand have ids that will not be drawn again. -/
structure Undrawn (host : Host) (w : World) (drawn : Bool → Option Id) : Prop where
  rows : ∀ r ∈ w.pairs.rows, ∀ n, w.drawn ≤ n → r.pair_id ≠ host.uuid4 n
  unused : ∀ i id, drawn i = some id → ∀ r ∈ w.pairs.rows, r.pair_id ≠ id
  past : ∀ i id, drawn i = some id → ∃ n < w.drawn, id = host.uuid4 n
  apart : ∀ i id, drawn i = some id → drawn (!i) ≠ some id

/-- Ids that nobody has drawn stay undrawn when nothing is recorded. -/
theorem Undrawn.keep {w w' : World} {drawn : Bool → Option Id} (h : Undrawn host w drawn)
    (hpairs : w'.pairs = w.pairs) (hdrawn : w.drawn ≤ w'.drawn) : Undrawn host w' drawn where
  rows r hr n hn := h.rows r (hpairs ▸ hr) n (hdrawn.trans hn)
  unused i id hid r hr := h.unused i id hid r (hpairs ▸ hr)
  past i id hid := by
    obtain ⟨n, hn, heq⟩ := h.past i id hid
    exact ⟨n, by omega, heq⟩
  apart := h.apart

/-- An id is drawn: no row has it, and nobody else holds it. -/
theorem Undrawn.draw {w : World} {drawn drawn' : Bool → Option Id} (h : Undrawn host w drawn)
    (huuid : Function.Injective host.uuid4) {k : Bool} (hk : drawn' k = some (host.uuid4 w.drawn))
    (hother : ∀ i, i ≠ k → drawn' i = drawn i) :
    Undrawn host { w with drawn := w.drawn + 1 } drawn' := by
  -- ids are drawn one after the other and never twice
  have hfresh : ∀ i id, drawn i = some id → id ≠ host.uuid4 w.drawn := by
    rintro i id hid heq
    obtain ⟨n, hn, hpast⟩ := h.past i id hid
    have hsame := huuid (hpast.symm.trans heq)
    omega
  refine ⟨fun r hr n hn => h.rows r hr n (Nat.le_of_succ_le hn), fun i id hid r hr => ?_,
    fun i id hid => ?_, fun i id hid hid' => ?_⟩
  · by_cases hi : i = k
    · rw [hi, hk] at hid
      injection hid with hid
      rw [← hid]
      exact h.rows r hr _ le_rfl
    · exact h.unused i id (hother i hi ▸ hid) r hr
  · by_cases hi : i = k
    · rw [hi, hk] at hid
      injection hid with hid
      exact ⟨w.drawn, Nat.lt_succ_self _, hid.symm⟩
    · obtain ⟨n, hn, heq⟩ := h.past i id (hother i hi ▸ hid)
      exact ⟨n, Nat.lt_succ_of_lt hn, heq⟩
  · by_cases hi : i = k
    · rw [hi, hk] at hid
      rw [hother (!i) (by rw [hi]; exact Bool.not_ne_self k)] at hid'
      injection hid with hid
      exact hfresh _ _ hid' hid.symm
    · rw [hother i hi] at hid
      by_cases hi' : (!i) = k
      · rw [hi', hk] at hid'
        injection hid' with hid'
        exact hfresh _ _ hid hid'.symm
      · exact hi' (Bool.eq_not.mpr hi ▸ Bool.not_not k)

/-- A row takes the id in hand. -/
theorem Undrawn.spend {w w' : World} {drawn drawn' : Bool → Option Id} (h : Undrawn host w drawn)
    (huuid : Function.Injective host.uuid4) {k : Bool} {pair_id : Id}
    (hk : drawn k = some pair_id) (hk' : drawn' k = none)
    (hother : ∀ i, i ≠ k → drawn' i = drawn i)
    (hrows : ∀ r ∈ w'.pairs.rows, r ∈ w.pairs.rows ∨ r.pair_id = pair_id)
    (hdrawn : w.drawn ≤ w'.drawn) : Undrawn host w' drawn' := by
  have hheld : ∀ i id, drawn' i = some id → i ≠ k ∧ drawn i = some id := by
    intro i id hid
    have hi : i ≠ k := fun hi => by rw [hi, hk'] at hid; cases hid
    exact ⟨hi, hother i hi ▸ hid⟩
  refine ⟨fun r hr n hn => ?_, fun i id hid r hr => ?_, fun i id hid => ?_, fun i id hid hid' => ?_⟩
  · rcases hrows r hr with hr | hr
    · exact h.rows r hr n (hdrawn.trans hn)
    · obtain ⟨n', hn', heq⟩ := h.past k pair_id hk
      rw [hr, heq]
      intro hsame
      have hn'' := huuid hsame
      omega
  · obtain ⟨hi, hid⟩ := hheld i id hid
    rcases hrows r hr with hr | hr
    · exact h.unused i id hid r hr
    · rw [hr]
      rintro rfl
      refine h.apart i pair_id hid ?_
      rwa [Bool.eq_not.mpr hi, Bool.not_not]
  · obtain ⟨n, hn, heq⟩ := h.past i id (hheld i id hid).2
    exact ⟨n, hn.trans_le hdrawn, heq⟩
  · exact h.apart i id (hheld i id hid).2 (hheld (!i) id hid').2

/-- Which id a check has drawn: none by an inert call, a new one by `uuid4`, and none once it has
recorded. -/
theorem Notes.next_drawn {m : Id} {text : Id → String} (t : Notes) {e : Ev} (he : checks e.1) :
    (inert e.1 ∧ (Notes.next m text t e).drawn = t.drawn) ∨
      (∃ id, e = ⟨.uuid4, .ok id⟩ ∧ (Notes.next m text t e).drawn = some id) ∨
      ∃ j pair_id judged_at r, e = ⟨.pairs (.record_judgment j pair_id judged_at), r⟩ ∧
        (Notes.next m text t e).drawn = none := by
  rcases he with hinert | ⟨j, pair_id, judged_at, hc⟩
  · unfold Notes.next
    split
    · exact .inr (.inl ⟨_, rfl, rfl⟩)
    · exact .inl ⟨hinert, rfl⟩
    · exact hinert.elim
    · exact .inl ⟨hinert, rfl⟩
  · obtain ⟨c, r⟩ := e
    obtain rfl : c = .pairs (.record_judgment j pair_id judged_at) := hc
    exact .inr (.inr ⟨j, pair_id, judged_at, r, rfl, rfl⟩)

/-- Ids that the checks have drawn are on no row before they are recorded. -/
theorem Logged.undrawn (h : Logged host fault w w' check log) (hshown : ShowsStored host)
    (huuid : Function.Injective host.uuid4)
    (hids : ∀ r ∈ w.pairs.rows, ∀ n, w.drawn ≤ n → r.pair_id ≠ host.uuid4 n) :
    Undrawn host w' fun i => (notes_of w check log i).drawn := by
  -- over the log from its start, with what each check has drawn so far
  induction log using List.reverseRecOn generalizing w' with
  | nil =>
    obtain rfl : w' = w := by
      cases h.answered
      rfl
    have hnone : ∀ i id, (notes_of w' check [] i).drawn ≠ some id := fun i id hid => by cases hid
    exact ⟨hids, fun i id hid => absurd hid (hnone i id), fun i id hid => absurd hid (hnone i id),
      fun i id hid => absurd hid (hnone i id)⟩
  | append_singleton log ke ih =>
    obtain ⟨k, e⟩ := ke
    obtain ⟨t, hupto, hlast⟩ := h.upto rfl
    have ht := ih hupto
    obtain ⟨he, hend⟩ := Answered.of_cons hlast
    obtain rfl : w' = (host.failing fault e.1 t).2 := by
      cases hend
      rfl
    have hother : ∀ i, i ≠ k →
        notes_of w check (log ++ [(k, e)]) i = notes_of w check log i := fun i hi => by
      rw [notes_of, Conf.own_concat_ne hi.symm, notes_of]
    have hself : notes_of w check (log ++ [(k, e)]) k =
        Notes.next (check k).new_id w.text (notes_of w check log k) e := by
      rw [notes_of, Conf.own_concat_self, List.foldl_append, List.foldl_cons,
        List.foldl_nil, notes_of]
    have hchecks : checks e.1 := h.calls e (by simp)
    have hdrawn := host.failing_drawn fault e.1 t
    -- a call draws an id, spends the one that was drawn, or leaves both alone
    rcases Notes.next_drawn (notes_of w check log k) hchecks with
      ⟨hinert, hsame⟩ | ⟨id, rfl, hdrew⟩ | ⟨j, pair_id, judged_at, r, rfl, hspent⟩
    · have hnotes : (fun i => (notes_of w check (log ++ [(k, e)]) i).drawn) =
          fun i => (notes_of w check log i).drawn := by
        funext i
        by_cases hi : i = k
        · rw [hi, hself, hsame]
        · rw [hother i hi]
      rw [hnotes]
      exact ht.keep (inert_same hinert).2 hdrawn
    · have hid : (.ok id : Except Exn Id) = .ok (host.uuid4 t.drawn) := he
      refine ht.draw huuid (k := k) ?_ fun i hi => by rw [hother i hi]
      injection hid with hid
      rw [hself, hdrew, hid]
      rfl
    · refine ht.spend huuid (h.backed hshown rfl).1 ?_ (fun i hi =>
        by rw [hother i hi]) (fun r hr => ?_)
        hdrawn
      · rw [hself, hspent]
      · rcases record_rows host fault t j pair_id judged_at with hrows | hrows
        · rw [hrows] at hr
          exact .inl hr
        · rw [hrows] at hr
          refine (List.mem_append.mp hr).imp_right fun hr => ?_
          rw [List.mem_singleton.mp hr]
          rfl

/-! ## Judged once -/

/-- The key under which check `i` records its judgment of the pair. -/
def pair_key (host : Host) (w : World) (check : Bool → StaleCheck) (i : Bool) :
    String × Id × Id × String :=
  displacement_key host w (check i).new_id (check !i).new_id

/-- What goes on record is on record at the end. -/
theorem Logged.has_of_records (h : Logged host fault w w' check log) (hshown : ShowsStored host)
    (huuid : Function.Injective host.uuid4)
    (hids : ∀ r ∈ w.pairs.rows, ∀ n, w.drawn ≤ n → r.pair_id ≠ host.uuid4 n)
    (hne : ∀ i, (check i).new_id ≠ (check !i).new_id) {l₁ l₂ : List (Bool × Ev)} {k : Bool} {f : Ev}
    (hlog : log = l₁ ++ (k, f) :: l₂) (hf : Records (check k).new_id (check !k).new_id f) :
    Has w'.pairs (pair_key host w check k) := by
  obtain ⟨j, pair_id, judged_at, r, rfl, hkind, hnew, hold⟩ := hf
  obtain ⟨hdrawn, -, hbacked⟩ := h.backed hshown hlog
  obtain ⟨-, -, htext⟩ := hbacked (hold ▸ (hne k).symm)
  obtain ⟨t, hupto, hrest⟩ := h.upto hlog
  obtain ⟨hf, hend⟩ := Answered.of_cons hrest
  have hunused := (hupto.undrawn hshown huuid hids).unused k pair_id hdrawn
  have hversion : (j.row host.text_hash pair_id judged_at).version = pair_key host w check k := by
    simp only [PairRow.version, Judgment.row, pair_key, displacement_key, hkind, hnew, htext, hold]
  refine has_kept_answered hend ?_
  rcases host.failing_cases fault (.pairs (.record_judgment j pair_id judged_at)) t with
    ⟨exc, herror⟩ | hok
  · rw [herror] at hf
    cases hf
  · simp only [hok]
    rcases insertOrIgnore_cases PairRow.conflicts (j.row host.text_hash pair_id judged_at)
      t.pairs.rows with ⟨⟨r', hr', hconflict⟩, hsame⟩ | ⟨-, happend⟩
    · have hrows : (host.answer (.pairs (.record_judgment j pair_id judged_at)) t).2.pairs.rows =
          t.pairs.rows := hsame
      rcases of_decide_eq_true hconflict with hid | hkey
      · exact absurd hid.symm (hunused r' hr')
      · exact ⟨r', by rw [hrows]; exact hr', hkey.symm.trans hversion⟩
    · have hrows : (host.answer (.pairs (.record_judgment j pair_id judged_at)) t).2.pairs.rows =
          t.pairs.rows ++ [j.row host.text_hash pair_id judged_at] := happend
      exact ⟨_, by rw [hrows]; exact List.mem_append_right _ List.mem_cons_self, hversion⟩

/-- What was entered under the key of check `i`, that check has recorded. -/
theorem Logged.records_of_enters (h : Logged host fault w w' check log) (hshown : ShowsStored host)
    (hne : ∀ i, (check i).new_id ≠ (check !i).new_id) {l₁ l₂ : List (Bool × Ev)} {k i : Bool}
    {f : Ev} (hlog : log = l₁ ++ (k, f) :: l₂) (hf : Enters host (pair_key host w check i) f) :
    k = i ∧ Records (check i).new_id (check !i).new_id f := by
  obtain ⟨j, pair_id, judged_at, r, rfl, hkey⟩ := hf
  obtain ⟨-, hnew, -⟩ := h.backed hshown hlog
  injection hkey with hkind hkey
  injection hkey with hid hkey
  injection hkey with hold _
  refine ⟨?_, j, pair_id, judged_at, r, rfl, hkind.symm, hid.symm, hold.symm⟩
  by_contra hk
  have hother := hne i
  rw [hid, hnew, Bool.eq_not.mpr (Ne.symm hk), Bool.not_not] at hother
  exact hother rfl

/-- A key that gets on record: its check has looked at the cache before, when neither key
was there. -/
theorem Logged.looked (h : Logged host fault w w' check log) (hshown : ShowsStored host)
    (hne : ∀ i, (check i).new_id ≠ (check !i).new_id) {i : Bool}
    (hnot : ¬ Has w.pairs (pair_key host w check i))
    (hhas : Has w'.pairs (pair_key host w check i)) :
    ∃ a e b t, log = a ++ (i, e) :: b ∧ Missed (check i).new_id w.text
      ((check !i).new_id, w.text (check !i).new_id) e ∧ Logged host fault w t check a ∧
      Answered (host.failing fault) t (e :: b.map Prod.snd) w' ∧
      ¬ Has t.pairs (pair_key host w check !i) := by
  obtain ⟨f, hf, henters⟩ := enters_of_answered h.answered h.calls hnot hhas
  obtain ⟨⟨k, f⟩, hmem, rfl⟩ := List.mem_map.mp hf
  obtain ⟨l₁, l₂, hlog⟩ := List.append_of_mem hmem
  obtain ⟨rfl, hrecords⟩ := h.records_of_enters hshown hne hlog henters
  obtain ⟨j, pair_id, judged_at, r, hcall, -, -, hold⟩ := hrecords
  obtain rfl : f = ⟨.pairs (.record_judgment j pair_id judged_at), .ok r⟩ := hcall
  obtain ⟨a, e, b, rfl, hmissed⟩ := h.missed hshown hlog (hold ▸ (hne k).symm)
  rw [hold] at hmissed
  rw [List.append_assoc, List.cons_append] at hlog
  obtain ⟨t, hupto, hrest⟩ := h.upto hlog
  refine ⟨a, e, _, t, hlog, hmissed, hupto, hrest, ?_⟩
  rw [pair_key, Bool.not_not]
  exact not_has_of_missed hmissed (Answered.of_cons hrest).1

/-- Each check looked before the other recorded, when both directions are on record. -/
theorem Logged.crossed (h : Logged host fault w w' check log) (hshown : ShowsStored host)
    (hne : ∀ i, (check i).new_id ≠ (check !i).new_id)
    (hnot : ∀ i, ¬ Has w.pairs (pair_key host w check i))
    (hhas : ∀ i, Has w'.pairs (pair_key host w check i)) :
    Crossed (fun i => (check i).new_id) log := by
  intro i
  obtain ⟨a, e, b, t, rfl, hmissed, hupto, hrest, hnone⟩ := h.looked hshown hne (hnot i) (hhas i)
  obtain ⟨candidates, already, he, -⟩ := hmissed
  have hcalls : ∀ e' ∈ e :: b.map Prod.snd, checks e'.1 := fun e' he' =>
    h.calls e' (by rw [List.map_append]; exact List.mem_append_right _ he')
  obtain ⟨f, hf, henters⟩ := enters_of_answered hrest hcalls hnone (hhas !i)
  rcases List.mem_cons.mp hf with rfl | hf
  · -- the look itself records nothing
    obtain ⟨j, pair_id, judged_at, r, hcall, -⟩ := henters
    rw [he] at hcall
    cases hcall
  · obtain ⟨⟨k, f⟩, hmem, rfl⟩ := List.mem_map.mp hf
    obtain ⟨l₂, l₃, rfl⟩ := List.append_of_mem hmem
    have hlog : a ++ (i, e) :: (l₂ ++ (k, f) :: l₃) = (a ++ (i, e) :: l₂) ++ (k, f) :: l₃ := by
      rw [List.append_assoc, List.cons_append]
    obtain ⟨rfl, hrecords⟩ := h.records_of_enters hshown hne hlog henters
    rw [Bool.not_not] at hrecords
    exact ⟨a, l₂, l₃, e, f, rfl, ⟨_, _, _, he⟩, hrecords⟩

end log

/-- **A pair is judged once** by the checks of its two memories, in whichever order the
calls of the two checks are made and whatever fails: there is at most one row between them
exactly when it is not so that each check has looked at the cache before the other has
recorded the pair. -/
theorem judged_once (host : Host) (hshown : ShowsStored host)
    (huuid : Function.Injective host.uuid4) (fault : Call → World → Option Exn) (w : World)
    (hids : ∀ r ∈ w.pairs.rows, ∀ n, w.drawn ≤ n → r.pair_id ≠ host.uuid4 n)
    (check : Bool → StaleCheck) (hne : (check true).new_id ≠ (check false).new_id)
    (hstart : (between host w (check true).new_id (check false).new_id w.pairs).length ≤ 1)
    (sched : List Bool) :
    (between host w (check true).new_id (check false).new_id
        (cross_check host fault w check sched).state.pairs).length ≤ 1 ↔
      ¬ Crossed (fun i => (check i).new_id) (cross_check host fault w check sched).log := by
  have hlogged : Logged host fault w (cross_check host fault w check sched).state check
      (cross_check host fault w check sched).log := cross_check_logged sched
  have hpair : ∀ i, (check i).new_id ≠ (check !i).new_id :=
    forall_bool_of (i := true) hne hne.symm
  -- more than one row between the two is one row each way
  have hboth : ∀ s : PairStore,
      (between host w (check true).new_id (check false).new_id s).length ≤ 1 ↔
      ¬ ∀ i, Has s (pair_key host w check i) := by
    intro s
    rw [between_length_le_one hne, Bool.forall_bool]
    exact not_congr and_comm
  rw [hboth]
  rw [hboth] at hstart
  refine not_congr ⟨fun hhas => ?_, fun hcrossed i => ?_⟩
  · refine hlogged.crossed hshown hpair (fun i hi => ?_) hhas
    -- a key that is there at the beginning keeps the other one off
    refine hstart (forall_bool_of hi ?_)
    by_contra hnot
    obtain ⟨a, e, b, t, -, -, hupto, -, hnone⟩ := hlogged.looked hshown hpair hnot (hhas !i)
    rw [Bool.not_not] at hnone
    exact hnone (has_kept_answered hupto.answered hi)
  -- what one check recorded after the other had looked is there in the end
  · obtain ⟨l₁, l₂, l₃, e, f, hlog, -, hf⟩ := hcrossed !i
    rw [Bool.not_not] at hlog hf
    have hsplit : (cross_check host fault w check sched).log =
        (l₁ ++ (!i, e) :: l₂) ++ (i, f) :: l₃ := by
      rw [hlog, List.append_assoc, List.cons_append]
    exact hlogged.has_of_records hshown huuid hids hpair hsplit hf

/-! ### Two neighbours -/

/-- A host whose search finds everything and whose judge finds everything superseded. -/
def neighbourly : Host := { Host.plain with
  search := fun w _ _ _ => w.points.entries.map fun e =>
    ⟨e.1, .ofList [("memory", .str (payload_text e.2))], ∅⟩
  judge := fun _ _ candidates => candidates.map fun c => (c.id, ⟨"SUPERSEDED", some 1, none⟩) }

theorem neighbourly_shows : ShowsStored neighbourly := by
  intro w query top_k filters item hitem
  obtain ⟨e, he, rfl⟩ := List.mem_map.mp hitem
  have hstored : w.payload e.1 = some e.2 := AList.mem_lookup_iff.mpr he
  rw [World.text, hstored]
  exact text_of_str _

def note_of (text : String) : Payload := .ofList [("data", .str text), ("user_id", .str "u")]

def two_notes : World := (World.empty.put "a" (note_of "A")).put "b" (note_of "B")

def their_checks : Bool → StaleCheck
  | true => { new_id := "a" }
  | false => { new_id := "b" }

/-- One check after the other. -/
def in_turn : List Bool := List.replicate 30 true ++ List.replicate 30 false

/-- One check is held up after its look at the cache. -/
def held_up : List Bool :=
  List.replicate 22 true ++ List.replicate 27 false ++ List.replicate 5 true

/-- The checks of the two notes, one after the other, judge them once. -/
theorem judged_once_in_turn :
    (between neighbourly two_notes "a" "b"
        (cross_check neighbourly (fun _ _ =>
          none) two_notes their_checks in_turn).state.pairs).length ≤ 1 ↔
      ¬ Crossed (fun i => (their_checks i).new_id)
        (cross_check neighbourly (fun _ _ => none) two_notes their_checks in_turn).log :=
  judged_once neighbourly neighbourly_shows (tally_injective "m") (fun _ _ => none) two_notes
    (fun _ hr => by cases hr) their_checks (by decide) (Nat.zero_le 1) in_turn

/-- Each memory ends up suspected of being displaced by the other. -/
theorem judged_twice :
    ¬ ∀ host : Host, ShowsStored host → Function.Injective host.uuid4 → ∀ (w : World),
      (∀ r ∈ w.pairs.rows, ∀ n, w.drawn ≤ n → r.pair_id ≠ host.uuid4 n) →
        ∀ check : Bool → StaleCheck,
      (check true).new_id ≠ (check false).new_id →
      (between host w (check true).new_id (check false).new_id w.pairs).length ≤ 1 →
      ∀ sched, (between host w (check true).new_id (check false).new_id
        (cross_check host (fun _ _ => none) w check sched).state.pairs).length ≤ 1 := by
  intro h
  have honce := h neighbourly neighbourly_shows (tally_injective "m") two_notes
    (fun _ hr => by cases hr) their_checks (by decide) (Nat.zero_le 1) held_up
  exact absurd honce (by decide +kernel)

end Memline
