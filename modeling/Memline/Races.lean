/-
Two `invalidate` requests at once.

The daemon admits both on the shared side of its gate, so the calls of the two
interleave freely. Each is guarded by its own cycle check, but a check that has
looked a memory up is not repeated when another request writes that memory. Two
requests whose superseders reach each other's target therefore close a cycle
exactly when neither looks the other's target up after the other's write.
-/
import Memline.Interleaving
import Memline.Runs

set_option autoImplicit false

namespace Memline

open Effect Effect.Prog Relation Reachability

/-! ## One request -/

/-- The arguments of one `invalidate`. -/
structure Invalidation where
  memory_id : Id
  by_ids : List Id
  reason : Option String
  actor_id : Option String
  session_id : Option String

namespace Invalidation

def code (a : Invalidation) : Code InvalidateResult :=
  invalidate a.memory_id a.by_ids a.reason a.actor_id a.session_id

def superseders (a : Invalidation) : List Id := distinct_ids a.by_ids

/-- The checks of the request pass in a world that nobody else changes. -/
def Passes (host : Host) (w : World) (a : Invalidation) : Prop :=
  ∃ p, ((check_invalidate a.memory_id a.superseders).run host.answer w).1 = .ok p

end Invalidation

variable {host : Host} {w : World} {a : Invalidation}

/-- What the checks establish about the graph they read. -/
theorem Invalidation.Passes.graph (h : a.Passes host w) :
    Stored w a.memory_id ∧ (∀ y, ¬ SupersededBy w a.memory_id y) ∧
      ∀ b ∈ a.superseders, ¬ ReflTransGen (SupersededBy w) b a.memory_id := by
  obtain ⟨p, hp⟩ := h
  obtain ⟨es, q, htrace, hans, hok, -⟩ :=
    Prog.run_trace host.answer (check_invalidate a.memory_id a.superseders) w
  rw [hok p hp] at htrace
  have hq : Quiet es := fun e he => quiet_of_looks_up
    ((htrace.uses (check_invalidate_looks_up _ _)).1 e he)
  obtain ⟨r, reads, walked, rfl, hchecked⟩ := check_invalidate_ret htrace
  have hserved := served_healthy hans
  obtain ⟨p', hfound, hactive⟩ := hchecked.active
  have hpayload : w.payload a.memory_id = some p' := stored_of_found hserved hq (by simp) hfound
  refine ⟨?_, ?_, ?_⟩
  · rw [Stored, hpayload]
    rfl
  · intro y hy
    rw [SupersededBy, successors_of_payload hpayload, hactive] at hy
    simp at hy
  · intro b hb hreach
    refine not_reach_of_checked hserved (htrace.uses (check_invalidate_looks_up _ _)).1
      (fun e he => by simp [he]) hchecked.no_cycle b hb ?_
    exact ReflTransGen.mono (fun x y hxy => ⟨hxy, fun _ => rfl⟩) _ _ hreach

/-- The write of an accepted request redirects its target. -/
theorem supersededBy_written {t : World} {now : String} (ht : Stored t a.memory_id) :
    SupersededBy (host.answer (.vs_set_payload a.memory_id
        (invalidate_patch a.superseders now a.reason a.actor_id a.session_id)) t).2
      = redirect (SupersededBy t) a.memory_id {y | y ∈ a.superseders} := by
  obtain ⟨p, hp⟩ := Option.isSome_iff_exists.mp ht
  simp only [Host.answer, hp]
  rw [supersededBy_put, Invalidation.superseders,
    superseded_ids_invalidate_patch distinct_ids_ne]

/-- The write of a request leaves the other points alone. -/
theorem payload_written {t : World} {patch : Payload} {id x : Id} (hx : x ≠ id) :
    (host.answer (.vs_set_payload id patch) t).2.payload x = t.payload x := by
  simp only [Host.answer]
  split
  · exact World.payload_put_ne _ _ hx
  · rfl

theorem stored_written {t : World} {patch : Payload} {id x : Id} (hx : Stored t x) :
    Stored (host.answer (.vs_set_payload id patch) t).2 x := by
  simp only [Host.answer]
  split
  · unfold Stored at *
    by_cases hid : x = id
    · rw [hid, World.payload_put_self]
      rfl
    · rwa [World.payload_put_ne _ _ hid]
  · exact hx

/-! ## What a finished request has done -/

/-- The call neither looks a point up nor writes one. -/
def Bookkeeping (c : Call) : Prop := quiet c ∧ ¬ looks_up c

/-- The calls of a request whose checks passed: the checks, the clock, the write,
and bookkeeping. -/
structure Wrote (a : Invalidation) (pre : List Ev) (write : Ev) (post : List Ev) : Prop where
  before : ∃ checks p now r, pre = checks ++ [⟨.now_iso, .ok now⟩] ∧
    Trace (check_invalidate a.memory_id a.superseders) checks (.ret p) ∧
    write = ⟨.vs_set_payload a.memory_id
      (invalidate_patch a.superseders now a.reason a.actor_id a.session_id), r⟩
  after : ∀ e ∈ post, Bookkeeping e.1

/-- A request of which the checks refused. -/
def Refused (a : Invalidation) (es : List Ev) : Prop :=
  ∃ e, Trace (check_invalidate a.memory_id a.superseders) es (.raise e)

/-- An invalidation that has ended was refused, or has written once. -/
theorem invalidate_finished {es : List Ev} {q : Code InvalidateResult}
    (h : Trace a.code es q) (hq : q.Done) (hnow : ∀ r, ⟨.now_iso, r⟩ ∈ es → ∃ t, r = .ok t) :
    Refused a es ∨ ∃ pre write post, es = pre ++ write :: post ∧ Wrote a pre write post := by
  unfold Invalidation.code invalidate at h
  rcases h.bind_inv with ⟨p', hp', rfl, -⟩ | ⟨p, checks, es, rfl, hchecks, h⟩
  · cases p' with
    | ret p => exact hq.elim
    | raise e => exact .inl ⟨e, hp'⟩
    | call c k => exact hq.elim
  rcases h.perform_bind with ⟨-, hnot⟩ | ⟨e, rfl, -⟩ | ⟨now, es, rfl, h'⟩
  · exact (hnot hq).elim
  · obtain ⟨t, ht⟩ := hnow (.error e) (by simp)
    cases ht
  rcases h'.perform_bind with ⟨-, hnot⟩ | ⟨e, rfl, -⟩ | ⟨⟨⟩, es, rfl, h''⟩
  · exact (hnot hq).elim
  · refine .inr ⟨checks ++ [⟨.now_iso, .ok now⟩], _, [], ?_,
      ⟨checks, p, now, .error e, rfl, hchecks, rfl⟩, by simp⟩
    rw [List.append_assoc]
    rfl
  · refine .inr ⟨checks ++ [⟨.now_iso, .ok now⟩], _, es, ?_,
      ⟨checks, p, now, .ok (), rfl, hchecks, rfl⟩, (h''.uses ?_).1⟩
    · rw [List.append_assoc]
      rfl
    refine uses_bind (attempt_uses (uses_perform ?_)) fun _ => ?_
    · simp [Bookkeeping, quiet, Call.writes, looks_up]
    refine uses_bind (uses_bind (uses_perform ?_) fun _ => uses_perform ?_) fun _ => uses_pure _
    · simp [Bookkeeping, quiet, Call.writes, looks_up]
    · simp [Bookkeeping, quiet, Call.writes, looks_up]

/-! ## What a request has seen -/

/-- A request whose check passes in the world that it sees is not refused. -/
theorem AsIn.not_refused {es : List Ev} (h : AsIn host w es) (hpass : a.Passes host w) :
    ¬ Refused a es := by
  rintro ⟨e, ht⟩
  obtain ⟨p, hp⟩ := hpass
  rw [h.run ht (check_invalidate_looks_up _ _)] at hp
  cases hp

/-- A request that has written has passed its check. -/
theorem AsIn.passes {pre post : List Ev} {write : Ev} (h : AsIn host w pre)
    (hw : Wrote a pre write post) : a.Passes host w := by
  obtain ⟨checks, p, now, r, rfl, ht, -⟩ := hw.before
  have hchecks : AsIn host w checks := fun id r hr => h id r (List.mem_append_left _ hr)
  refine ⟨p, ?_⟩
  rw [hchecks.run ht (check_invalidate_looks_up _ _)]
  rfl

theorem Wrote.quiet_pre {pre post : List Ev} {write : Ev} (h : Wrote a pre write post) :
    Quiet pre := by
  obtain ⟨checks, p, now, r, rfl, ht, -⟩ := h.before
  refine Quiet.append (fun e he => ?_) (by simp [Quiet, quiet, Call.writes])
  exact quiet_of_looks_up ((ht.uses (check_invalidate_looks_up _ _)).1 e he)

/-- A request that wrote has found its target. -/
theorem Wrote.found {pre post : List Ev} {write : Ev} (h : Wrote a pre write post) :
    ∃ r, ⟨.vs_get a.memory_id, r⟩ ∈ pre ∧ (found r).isSome = true := by
  obtain ⟨checks, p, now, r, rfl, ht, -⟩ := h.before
  obtain ⟨r₀, reads, walked, rfl, hchecked⟩ := check_invalidate_ret ht
  obtain ⟨p₀, hp₀, -⟩ := hchecked.active
  refine ⟨r₀, by simp, ?_⟩
  rw [hp₀]
  rfl

theorem Refused.quiet {es : List Ev} (h : Refused a es) : Quiet es := by
  obtain ⟨e, ht⟩ := h
  intro e' he'
  exact quiet_of_looks_up ((ht.uses (check_invalidate_looks_up _ _)).1 e' he')

/-! ## The effect of one write -/

/-- From `w` to `w'` nothing happened but the write of `a`. -/
structure WrittenBy (a : Invalidation) (w w' : World) : Prop where
  edges : SupersededBy w' = redirect (SupersededBy w) a.memory_id {y | y ∈ a.superseders}
  others : ∀ x, x ≠ a.memory_id → w'.payload x = w.payload x
  stored : ∀ x, Stored w x → Stored w' x

/-- With only quiet calls of either side about it, the write is seen in the world at the end. -/
theorem Wrote.writtenBy {pre post es₁ es₂ : List Ev} {write : Ev} {w' : World}
    (h : Wrote a pre write post) (hans : Answered host.answer w (es₁ ++ write :: es₂) w')
    (h₁ : Quiet es₁) (h₂ : Quiet es₂) (hw : Stored w a.memory_id) : WrittenBy a w w' := by
  obtain ⟨checks, p, now, r, -, -, rfl⟩ := h.before
  obtain ⟨t, hbefore, hwrite⟩ := hans.split
  have hafter := hwrite.of_cons.2
  have hsame : ∀ x, t.payload x = w.payload x := payload_of_quiet (served_healthy hbefore) h₁
  have hlast := payload_of_quiet (served_healthy hafter) h₂
  have ht : Stored t a.memory_id := (stored_congr (hsame _)).mpr hw
  refine ⟨?_, fun x hx => ?_, fun x hx => ?_⟩
  · rw [supersededBy_congr hlast, supersededBy_written ht, supersededBy_congr hsame]
  · rw [hlast x, payload_written hx, hsame x]
  · rw [stored_congr (hlast x)]
    exact stored_written ((stored_congr (hsame x)).mpr hx)

/-! ## Two requests -/

/-- Two requests under a schedule. -/
def race (host : Host) (w : World) (a : Bool → Invalidation) (sched : List Bool) :
    Conf Api Bool InvalidateResult World :=
  Conf.exec host.answer (Conf.start (fun i => (a i).code) w) sched

/-- Each target can be reached from the superseders of the other request. -/
def Crossing (w : World) (a : Bool → Invalidation) : Prop :=
  ∀ i, ∃ b ∈ (a i).superseders, ReflTransGen (SupersededBy w) b (a !i).memory_id

/-- Neither request looks the other's target up after the other's write. -/
def Unseen (a : Bool → Invalidation) (log : List (Bool × Ev)) : Prop :=
  ∀ i l₁ patch r l₂, log = l₁ ++ (i, ⟨.vs_set_payload (a i).memory_id patch, r⟩) :: l₂ →
    ∀ r', (!i, ⟨.vs_get (a i).memory_id, r'⟩) ∉ l₂

/-- A request that does not look the other's target up after the other's write has
seen what was there at the beginning. -/
theorem asIn_of_unseen {l₁ l₂ : List (Bool × Ev)} {j : Bool} {write : Ev} {id : Id}
    {patch : Payload} {r : Except Exn Unit} {w' : World}
    (h : Answered host.answer w (l₁.map Prod.snd ++ write :: l₂.map Prod.snd) w')
    (hwrite : write = ⟨.vs_set_payload id patch, r⟩) (h₁ : Quiet (l₁.map Prod.snd))
    (h₂ : Quiet (l₂.map Prod.snd)) (hno : ∀ r', (j, ⟨.vs_get id, r'⟩) ∉ l₂) :
    AsIn host w (Conf.own j l₁ ++ Conf.own j l₂) := by
  subst hwrite
  obtain ⟨t, hbefore, hafter⟩ := h.split
  have hrest := hafter.of_cons.2
  refine (asIn_of_quiet hbefore h₁ j).append fun x rx hx => ?_
  have hne : x ≠ id := by
    rintro rfl
    exact hno rx (Conf.mem_own.mp hx)
  rw [asIn_of_quiet hrest h₂ j x rx hx]
  exact answer_vs_get_congr
    ((payload_written hne).trans (payload_of_quiet (served_healthy hbefore) h₁ x))

/-- The position of an element that occurs nowhere else is determined. -/
theorem split_unique {α : Type} {x y : α} {l₁ l₂ m₁ m₂ : List α}
    (h : l₁ ++ y :: l₂ = m₁ ++ x :: m₂) (h₁ : x ∉ l₁) (h₂ : x ∉ l₂) : m₁ = l₁ ∧ m₂ = l₂ := by
  rcases List.append_eq_append_iff.mp h with ⟨as, rfl, has⟩ | ⟨cs, rfl, hcs⟩
  · cases as with
    | nil => exact ⟨List.append_nil _, (List.cons.inj has).2.symm⟩
    | cons y' as =>
      have hx : x ∈ l₂ := by
        rw [(List.cons.inj has).2]
        simp
      exact absurd hx h₂
  · cases cs with
    | nil => exact ⟨(List.append_nil _).symm, (List.cons.inj hcs).2⟩
    | cons x' cs =>
      obtain rfl := (List.cons.inj hcs).1
      exact absurd (by simp) h₁

/-- A write that comes after quiet calls only, and before bookkeeping only, is the
one write of its program. -/
theorem Wrote.at_write {i : Bool} {l₁ l₂ m₁ m₂ : List (Bool × Ev)} {pre post : List Ev}
    {write : Ev} {id : Id} {patch : Payload} {r : Except Exn Unit} (hw : Wrote a pre write post)
    (h₁ : Conf.own i l₁ = pre) (h₂ : Conf.own i l₂ = post)
    (h : l₁ ++ (i, write) :: l₂ = m₁ ++ (i, ⟨.vs_set_payload id patch, r⟩) :: m₂) : m₂ = l₂ := by
  refine (split_unique h (fun hmem => ?_) (fun hmem => ?_)).2
  · have hq := hw.quiet_pre _ (h₁ ▸ Conf.mem_own.mpr hmem)
    simp [quiet, Call.writes] at hq
  · have hq := (hw.after _ (h₂ ▸ Conf.mem_own.mpr hmem)).1
    simp [quiet, Call.writes] at hq

/-- The second request has looked the first one's target up after the first one's
write. Then its cycle check walked through that target as it is now, and what the
check visited is closed under the edges there are now. -/
theorem not_reach_of_seen {l₁ l₂ : List (Bool × Ev)} {j : Bool} {b : Invalidation} {w₁ : World}
    {pre post : List Ev} {write : Ev} {r' : Except Exn (Option Payload)}
    (hpre : Conf.own j l₁ ++ Conf.own j l₂ = pre) (hb : Wrote b pre write post)
    (hold : AsIn host w (Conf.own j l₁)) (hnew : AsIn host w₁ (Conf.own j l₂))
    (hothers : ∀ x, x ≠ a.memory_id → w₁.payload x = w.payload x)
    (hseen : (j, ⟨.vs_get a.memory_id, r'⟩) ∈ l₂) :
    ∀ x ∈ b.superseders, ¬ ReflTransGen (SupersededBy w₁) x b.memory_id := by
  obtain ⟨checks, p, now, r, rfl, ht, -⟩ := hb.before
  obtain ⟨r₀, reads, walked, rfl, hchecked⟩ := check_invalidate_ret ht
  obtain ⟨visited, hwalked, hmiss, hby⟩ := assert_no_cycle_ret hchecked.no_cycle
  -- the clock is read behind the walk and looks nothing up
  have hlook : looked_up (walked ++ [⟨.now_iso, .ok now⟩]) = looked_up walked := by
    rw [looked_up_append]
    exact List.append_nil _
  -- the walk shows what was stored after the write: the memory it changed is looked up
  -- later, the others are as before
  have hshown : ∀ n rn, ⟨.vs_get n, rn⟩ ∈ walked → rn = (host.answer (.vs_get n) w₁).1 := by
    intro n rn hn
    have hnow : ⟨.vs_get n, rn⟩ ∈ walked ++ [⟨.now_iso, .ok now⟩] := List.mem_append_left _ hn
    by_cases hna : n = a.memory_id
    · -- the walk looks it up once, and that lookup was not before the write
      refine hnew n rn ?_
      subst hna
      rw [List.append_assoc] at hpre
      rcases List.append_eq_append_iff.mp hpre with ⟨as, -, has⟩ | ⟨cs, -, hcs⟩
      · rw [has]
        exact List.mem_append_right _ hnow
      · rw [hcs] at hnow hlook
        rcases List.mem_append.mp hnow with hmem | hmem
        · have honce := hwalked.once
          rw [← hlook, looked_up_append] at honce
          have hin : ∀ {es : List Ev} {re}, ⟨.vs_get a.memory_id, re⟩ ∈ es →
              a.memory_id ∈ looked_up es :=
            fun h => List.mem_filterMap.mpr ⟨_, h, rfl⟩
          exact absurd (hin (Conf.mem_own.mpr hseen))
            (List.disjoint_of_nodup_append honce (hin hmem))
        · exact hmem
    · have hmem : ⟨.vs_get n, rn⟩ ∈ Conf.own j l₁ ++ Conf.own j l₂ := by
        rw [hpre]
        simp [hn]
      rcases List.mem_append.mp hmem with h | h
      · rw [hold n rn h, answer_vs_get_congr (hothers n hna)]
      · exact hnew n rn h
  intro x hx
  refine not_reach_of_closed (X := {n | n ∈ visited}) (hby x hx) ?_ hmiss
  intro n hn y hny
  rcases hwalked.shows n hn with hn | ⟨rn, hrn, hy⟩
  · simp at hn
  · have hfound : found rn = w₁.payload n := by
      rw [hshown n rn hrn]
      exact found_answer host n w₁
    refine hy y ?_
    rwa [shown, hfound]

/-- When the first request's write is not seen before the second one's, no write is
seen by the other request. -/
theorem unseen_of_two_writes {a : Bool → Invalidation} {i : Bool} {l₁ l₂ l₃ : List (Bool × Ev)}
    {pre post : Bool → List Ev} {write : Bool → Ev}
    (hw : ∀ k, Wrote (a k) (pre k) (write k) (post k))
    (hpre : Conf.own i l₁ = pre i) (hpost : Conf.own i l₂ ++ Conf.own i l₃ = post i)
    (hpre' : Conf.own (!i) l₁ ++ Conf.own (!i) l₂ = pre (!i))
    (hpost' : Conf.own (!i) l₃ = post (!i))
    (hseen : ∀ r', (!i, ⟨.vs_get (a i).memory_id, r'⟩) ∉ l₂) :
    Unseen a (l₁ ++ (i, write i) :: (l₂ ++ (!i, write !i) :: l₃)) := by
  -- behind its own write a request looks nothing up any more
  have hlate : ∀ {k : Bool} {es : List Ev} {id : Id} {r : Except Exn (Option Payload)},
      (∀ e ∈ es, e ∈ post k) → ⟨.vs_get id, r⟩ ∉ es := by
    intro k es id r hes hmem
    exact ((hw k).after _ (hes _ hmem)).2 ⟨id, rfl⟩
  refine forall_bool_of (i := i) ?_ ?_
  · intro m₁ patch r m₂ heq r' hmem
    have hm₂ := (hw i).at_write hpre (by simp [Conf.own_append, hpost]) heq
    rw [hm₂] at hmem
    rcases List.mem_append.mp hmem with hmem | hmem
    · exact hseen r' hmem
    · rcases List.mem_cons.mp hmem with hmem | hmem
      · obtain ⟨_, _, now, r, -, -, hwrite⟩ := (hw !i).before
        rw [hwrite] at hmem
        cases (Prod.mk.inj hmem).2
      · refine hlate (k := !i) (fun e he => ?_) (Conf.mem_own.mpr hmem)
        rwa [← hpost']
  · intro m₁ patch r m₂ heq r' hmem
    rw [Bool.not_not] at hmem
    have hreads : Conf.own (!i) (l₁ ++ (i, write i) :: l₂) = pre !i := by
      rw [Conf.own_append, Conf.own_cons_ne (by cases i <;> decide), hpre']
    have hm₂ := (hw !i).at_write hreads hpost' (by simpa using heq)
    rw [hm₂] at hmem
    refine hlate (k := i) (fun e he => ?_) (Conf.mem_own.mpr hmem)
    rw [← hpost]
    exact List.mem_append_right _ he

/-- Both requests wrote, `i` first. -/
theorem acyclic_of_two_writes {a : Bool → Invalidation} {i : Bool} {l₁ l₂ l₃ : List (Bool × Ev)}
    {pre post : Bool → List Ev} {write : Bool → Ev} {w' : World} (hE : Acyclic (SupersededBy w))
    (hw : ∀ k, Wrote (a k) (pre k) (write k) (post k))
    (hans : Answered host.answer w
      ((l₁ ++ (i, write i) :: (l₂ ++ (!i, write !i) :: l₃)).map Prod.snd) w')
    (hpre : Conf.own i l₁ = pre i) (hpost : Conf.own i l₂ ++ Conf.own i l₃ = post i)
    (hpre' : Conf.own (!i) l₁ ++ Conf.own (!i) l₂ = pre (!i))
    (hpost' : Conf.own (!i) l₃ = post (!i)) :
    Acyclic (SupersededBy w') ↔ ¬ ((∀ k, (a k).Passes host w) ∧ Crossing w a ∧
      Unseen a (l₁ ++ (i, write i) :: (l₂ ++ (!i, write !i) :: l₃))) := by
  have hbook : ∀ k, Quiet (post k) := fun k e he => ((hw k).after e he).1
  have hq₁ : Quiet (l₁.map Prod.snd) := by
    refine log_forall (i := i) (hpre ▸ (hw i).quiet_pre) fun e he => ?_
    exact (hw !i).quiet_pre e (hpre' ▸ List.mem_append_left _ he)
  have hq₂ : Quiet (l₂.map Prod.snd) := by
    refine log_forall (i := i) (fun e he => ?_) fun e he => ?_
    · exact hbook i e (hpost ▸ List.mem_append_left _ he)
    · exact (hw !i).quiet_pre e (hpre' ▸ List.mem_append_right _ he)
  have hq₃ : Quiet (l₃.map Prod.snd) := by
    refine log_forall (i := i) (fun e he => ?_) (hpost' ▸ hbook !i)
    exact hbook i e (hpost ▸ List.mem_append_right _ he)
  -- the world between the two writes
  have hsplit : (l₁ ++ (i, write i) :: (l₂ ++ (!i, write !i) :: l₃)).map Prod.snd =
      (l₁.map Prod.snd ++ write i :: l₂.map Prod.snd) ++ (write !i) :: l₃.map Prod.snd := by
    simp
  rw [hsplit] at hans
  obtain ⟨w₁, hfirst, hsecond⟩ := hans.split
  obtain ⟨t, hbefore, hafter⟩ := hfirst.split
  have hbetween := hafter.of_cons.2
  have hold : AsIn host w (Conf.own (!i) l₁) := asIn_of_quiet hbefore hq₁ _
  have hnew : AsIn host w₁ (Conf.own (!i) l₂) := asIn_end hbetween hq₂ _
  have hpass : (a i).Passes host w := by
    have hfst : AsIn host w (Conf.own i l₁) := asIn_of_quiet hbefore hq₁ i
    rw [hpre] at hfst
    exact hfst.passes (hw i)
  obtain ⟨hstored, hnone, hmiss⟩ := hpass.graph
  have hone : WrittenBy (a i) w w₁ := (hw i).writtenBy hfirst hq₁ hq₂ hstored
  have hstored' : Stored w₁ (a !i).memory_id := by
    obtain ⟨r, hr, hsome⟩ := (hw !i).found
    rw [← hpre'] at hr
    rcases List.mem_append.mp hr with hr | hr
    · exact hone.stored _ (hold.stored hr hsome)
    · exact hnew.stored hr hsome
  have htwo : WrittenBy (a !i) w₁ w' :=
    (hw !i).writtenBy (show Answered _ w₁ ([] ++ _ :: _) w' from hsecond) .nil hq₃ hstored'
  by_cases hseen : ∃ r', (!i, ⟨.vs_get (a i).memory_id, r'⟩) ∈ l₂
  · obtain ⟨r', hseen⟩ := hseen
    refine iff_of_true ?_ fun ⟨_, _, hun⟩ => ?_
    · rw [htwo.edges]
      refine Acyclic.redirect ?_ (not_reach_of_seen hpre' (hw !i) hold hnew hone.others hseen)
      rw [hone.edges]
      exact hE.redirect hmiss
    · obtain ⟨_, _, now, r, -, -, hwrite⟩ := (hw i).before
      exact hun i l₁ _ r _ (by rw [hwrite]) r' (List.mem_append_left _ hseen)
  · rw [not_exists] at hseen
    obtain ⟨_, _, now, r, -, -, hwrite⟩ := (hw i).before
    have hpass' : (a !i).Passes host w := by
      have hsnd : AsIn host w (Conf.own (!i) l₁ ++ Conf.own (!i) l₂) :=
        asIn_of_unseen hfirst hwrite hq₁ hq₂ hseen
      rw [hpre'] at hsnd
      exact hsnd.passes (hw !i)
    have hiff := acyclic_redirect_redirect_iff (B := {y | y ∈ (a i).superseders})
      (C := {y | y ∈ (a !i).superseders}) hE hnone hmiss hpass'.graph.2.2
    rw [htwo.edges, hone.edges, hiff, not_iff_not]
    constructor
    · rintro ⟨hcross', hcross⟩
      refine ⟨forall_bool_of hpass hpass', forall_bool_of hcross ?_, ?_⟩
      · rwa [Bool.not_not]
      · exact unseen_of_two_writes hw hpre hpost hpre' hpost' hseen
    · rintro ⟨-, hcross, -⟩
      have hcross' := hcross !i
      rw [Bool.not_not] at hcross'
      exact ⟨hcross', hcross i⟩

/-- One request wrote, the other one was refused. -/
theorem acyclic_of_one_write {a : Bool → Invalidation} {i : Bool} {l₁ l₂ : List (Bool × Ev)}
    {pre post : List Ev} {write : Ev} {w' : World} (hE : Acyclic (SupersededBy w))
    (hw : Wrote (a i) pre write post)
    (hans : Answered host.answer w ((l₁ ++ (i, write) :: l₂).map Prod.snd) w')
    (hpre : Conf.own i l₁ = pre) (hpost : Conf.own i l₂ = post)
    (hno : Refused (a !i) (Conf.own (!i) l₁ ++ Conf.own (!i) l₂)) :
    Acyclic (SupersededBy w') ↔ ¬ ((∀ k, (a k).Passes host w) ∧ Crossing w a ∧
      Unseen a (l₁ ++ (i, write) :: l₂)) := by
  have hq₁ : Quiet (l₁.map Prod.snd) := by
    refine log_forall (i := i) (hpre ▸ hw.quiet_pre) fun e he => ?_
    exact hno.quiet e (List.mem_append_left _ he)
  have hq₂ : Quiet (l₂.map Prod.snd) := by
    refine log_forall (i := i) (hpost ▸ fun e he => (hw.after e he).1) fun e he => ?_
    exact hno.quiet e (List.mem_append_right _ he)
  rw [List.map_append, List.map_cons] at hans
  obtain ⟨t, hbefore, -⟩ := hans.split
  have hpass : (a i).Passes host w := by
    have hfst : AsIn host w (Conf.own i l₁) := asIn_of_quiet hbefore hq₁ i
    rw [hpre] at hfst
    exact hfst.passes hw
  obtain ⟨hstored, -, hmiss⟩ := hpass.graph
  refine iff_of_true ?_ fun ⟨hall, _, hun⟩ => ?_
  · rw [(hw.writtenBy hans hq₁ hq₂ hstored).edges]
    exact hE.redirect hmiss
  · obtain ⟨_, _, now, r, -, -, hwrite⟩ := hw.before
    have hunseen := hun i l₁ _ r l₂ (by rw [hwrite])
    exact (asIn_of_unseen hans hwrite hq₁ hq₂ hunseen).not_refused (hall !i) hno

/-- **Two requests at once.** From an acyclic graph, under every schedule, the
graph after both have finished is acyclic unless both requests pass their checks
on the graph there was, the superseders of each reach the target of the other,
and neither looks the other's target up after the other's write. -/
theorem acyclic_race (a : Bool → Invalidation) (sched : List Bool) (hE : Acyclic (SupersededBy w))
    (hfin : (race host w a sched).Finished) :
    Acyclic (SupersededBy (race host w a sched).state) ↔
      ¬ ((∀ i, (a i).Passes host w) ∧ Crossing w a ∧ Unseen a (race host w a sched).log) := by
  obtain ⟨l, hlog, htrace, hans⟩ :=
    Conf.exec_trace host.answer (Conf.start (fun i => (a i).code) w) sched
  change Answered host.answer w (l.map Prod.snd) (race host w a sched).state at hans
  have hl : (race host w a sched).log = l := hlog.trans (List.nil_append l)
  rw [hl]
  have hnow : ∀ r, ⟨.now_iso, r⟩ ∈ l.map Prod.snd → ∃ t, r = .ok t := by
    intro r hr
    obtain ⟨_, _, t, -, -, ht, -⟩ := hans.mem hr
    exact ⟨_, ht⟩
  -- each of the two is refused, or writes once
  have hends : ∀ i, Refused (a i) (Conf.own i l) ∨
      ∃ pre write post, Conf.own i l = pre ++ write :: post ∧ Wrote (a i) pre write post := by
    refine fun i => invalidate_finished (htrace i) (hfin i) fun r hr => hnow r ?_
    exact List.mem_map.mpr ⟨_, Conf.mem_own.mp hr, rfl⟩
  -- both write, one does, or none
  by_cases hall : ∀ i, ∃ pre write post,
      Conf.own i l = pre ++ write :: post ∧ Wrote (a i) pre write post
  · choose pre write post hown hwrote using hall
    obtain ⟨i, l₁, l₂, l₃, rfl, hpre, hpost, hpre', hpost'⟩ := Conf.own_order hown
    exact acyclic_of_two_writes hE hwrote hans hpre hpost hpre' hpost'
  · rw [not_forall] at hall
    obtain ⟨i, hi⟩ := hall
    have hno : Refused (a i) (Conf.own i l) := (hends i).resolve_right hi
    rcases hends !i with hno' | ⟨pre, write, post, hown, hwrote⟩
    -- none has written: the world is as it was, and whoever would have passed was not refused
    · have hq : Quiet (l.map Prod.snd) := log_forall hno.quiet hno'.quiet
      refine iff_of_true ?_ fun ⟨hpass, _⟩ => ?_
      · rwa [supersededBy_congr (payload_of_quiet (served_healthy hans) hq)]
      · exact (asIn_of_quiet hans hq i).not_refused (hpass i) hno
    · obtain ⟨l₁, l₂, rfl, hpre, hpost⟩ := Conf.own_split hown
      have hne : (!i) ≠ i := by cases i <;> decide
      rw [Conf.own_append, Conf.own_cons_ne hne] at hno
      refine acyclic_of_one_write hE hwrote hans hpre hpost ?_
      rwa [Bool.not_not]

/-! ## The two-cycle -/

/-- Two memories that supersede nothing. -/
def pair_of_notes : World :=
  (World.empty.put "a" (.ofList [("data", .str "A")])).put "b" (.ofList [("data", .str "B")])

/-- Each of the two memories to be superseded by the other. -/
def crossing_requests : Bool → Invalidation
  | true => ⟨"a", ["b"], none, none, none⟩
  | false => ⟨"b", ["a"], none, none, none⟩

/-- The checks of both requests, then the rest of each. -/
def checks_first : List Bool :=
  List.replicate 4 true ++ List.replicate 4 false ++ List.replicate 8 true ++ List.replicate 8 false

theorem acyclic_pair_of_notes : Acyclic (SupersededBy pair_of_notes) := by
  refine acyclic_of_no_edges fun x y hxy => ?_
  unfold pair_of_notes at hxy
  rw [supersededBy_put, supersededBy_put] at hxy
  rcases hxy with ⟨-, hy⟩ | ⟨-, ⟨-, hy⟩ | ⟨-, hxy⟩⟩
  · exact absurd hy (List.not_mem_nil (a := y))
  · exact absurd hy (List.not_mem_nil (a := y))
  · exact not_supersededBy_empty x y hxy

theorem crossing_finished : (race .plain pair_of_notes crossing_requests checks_first).Finished :=
  forall_bool_of (i := true) trivial trivial

/-- Checked before either has written, each memory ends up superseded by the other. -/
theorem crossing_race :
    Acyclic (SupersededBy pair_of_notes) ∧
      (race .plain pair_of_notes crossing_requests checks_first).Finished ∧
      ¬ Acyclic
        (SupersededBy (race .plain pair_of_notes crossing_requests checks_first).state) := by
  refine ⟨acyclic_pair_of_notes, crossing_finished, fun hacyclic => ?_⟩
  let w := (race .plain pair_of_notes crossing_requests checks_first).state
  have hab : SupersededBy w "a" "b" := by
    unfold SupersededBy
    decide
  have hba : SupersededBy w "b" "a" := by
    unfold SupersededBy
    decide
  exact hacyclic "a" (.head hab (.single hba))

/-- The condition decides the crossing race: both checks pass, the requests cross, and neither write
is seen. -/
theorem acyclic_race_crossing :
    Acyclic (SupersededBy (race .plain pair_of_notes crossing_requests checks_first).state) ↔
      ¬ ((∀ i, (crossing_requests i).Passes .plain pair_of_notes) ∧
        Crossing pair_of_notes crossing_requests ∧
        Unseen crossing_requests (race .plain pair_of_notes crossing_requests checks_first).log) :=
  acyclic_race crossing_requests checks_first acyclic_pair_of_notes crossing_finished

end Memline
