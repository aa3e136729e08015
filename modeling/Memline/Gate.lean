/-
The gate of the store, and the slots for model calls.

Every operation of the daemon takes the shared side of the gate, only a deletion of everything
takes the exclusive one, and what talks to a model takes a slot while it is inside. The gate is a
monitor: its counters change only under the lock of its condition, a thread that has to wait
leaves the lock and parks, and whoever lets the last obstacle go wakes all who parked.

The threads are any number, and each goes its own way through the two methods of a side. A step is
one thread's, and nothing is said about whose comes next. What has to be seen is that nobody stays
parked behind a gate that would let it in, since nobody would wake it again.
-/
import Memline.Lib.Census
import Memline.Lib.History

set_option autoImplicit false

namespace Memline.RWGate

open Census History

/-! ## The code -/

inductive Side where
  | shared
  | exclusive
  deriving DecidableEq

/-- Where a thread is. -/
inductive Phase where
  | idle
  /-- Called `acquire`, has not got the lock yet. -/
  | entering (side : Side)
  /-- Has the lock, and is to look at the counters. -/
  | testing (side : Side)
  /-- In `wait`. -/
  | parked (side : Side)
  /-- Notified, has not got the lock back yet. -/
  | woken (side : Side)
  /-- Inside the gate. -/
  | working (side : Side)
  /-- Inside the gate, and waits for a slot. -/
  | asking (side : Side)
  /-- Inside the gate, with a slot. -/
  | slotted (side : Side)
  /-- Called `release`, has not got the lock yet. -/
  | leaving (side : Side)
  /-- Has the lock, and is to change the counters. -/
  | releasing (side : Side)
  deriving DecidableEq

namespace Phase

def wake : Phase → Phase
  | parked side => woken side
  | phase => phase

/-- Has the lock of the condition. -/
def locked : Phase → Bool
  | testing _ | releasing _ => true
  | _ => false

/-- Is inside the gate, on this side. -/
def holds (side : Side) : Phase → Bool
  | working s | asking s | slotted s | leaving s | releasing s => decide (s = side)
  | _ => false

/-- Has a slot. -/
def has_slot : Phase → Bool
  | slotted _ => true
  | _ => false

/-- Waits for the gate, or for a slot. -/
def waits : Phase → Bool
  | parked _ | woken _ | asking _ => true
  | _ => false

/-- Waking a thread gives it no lock: it has to take it again. -/
@[simp] theorem wake_locked (b : Phase) : b.wake.locked = b.locked := by cases b <;> rfl

@[simp] theorem wake_holds (side : Side) (b : Phase) : b.wake.holds side = b.holds side := by
  cases b <;> rfl

@[simp] theorem wake_has_slot (b : Phase) : b.wake.has_slot = b.has_slot := by cases b <;> rfl

theorem wake_ne_parked (b : Phase) (side : Side) :
    b.wake ≠ parked side := by cases b <;> exact nofun

end Phase

/-- The two counters of the gate, the lock over them, the slots that are free, and the threads. -/
structure State (ι : Type) where
  shared : ℤ
  exclusive : Bool
  owner : Option ι
  free : ℕ
  phase : ι → Phase

/-- What a thread does next. -/
inductive Act where
  | acquire (side : Side)
  | lock
  | test
  | ask
  | take
  | finish
  | release
  deriving DecidableEq

section

variable {ι : Type} [DecidableEq ι]

/-- The condition of the loop in `acquire_shared` and `acquire_exclusive`. -/
def State.blocked (s : State ι) : Side → Bool
  | .shared => s.exclusive
  | .exclusive => s.exclusive || decide (s.shared ≠ 0)

def State.move (s : State ι) (t : ι) (phase : Phase) : State ι :=
  { s with phase := Function.update s.phase t phase }

def State.notify_all (s : State ι) : State ι := { s with phase := fun u => (s.phase u).wake }

/-- `self._shared += 1`, or `self._exclusive = True`. -/
def State.take_side (s : State ι) : Side → State ι
  | .shared => { s with shared := s.shared + 1 }
  | .exclusive => { s with exclusive := true }

/-- The body of `release_shared`, and of `release_exclusive`. -/
def State.give_side (s : State ι) : Side → State ι
  | .shared =>
    let s := { s with shared := s.shared - 1 }
    if s.shared = 0 then s.notify_all else s
  | .exclusive => { s with exclusive := false }.notify_all

/-- What the next step of a thread makes of the state, if it can be taken: the lock has to be free
for one that wants it, and a slot for one that asks. An operation ends by returning or by raising;
either way the slot goes first and the gate after it. -/
def step (slots : ℕ) (s : State ι) (e : ι × Act) : Option (State ι) :=
  let t := e.1
  match e.2, s.phase t with
  | .acquire side, .idle => some (s.move t (.entering side))
  | .lock, .entering side | .lock, .woken side =>
    if s.owner = none then some ({ s with owner := some t }.move t (.testing side)) else none
  | .test, .testing side =>
    if s.blocked side then some ({ s with owner := none }.move t (.parked side))
    else some (({ s with owner := none }.take_side side).move t (.working side))
  | .ask, .working side => some (s.move t (.asking side))
  | .take, .asking side => if 0 < s.free then
      some ({ s with free := s.free - 1 }.move t (.slotted side)) else none
  | .finish, .working side => some (s.move t (.leaving side))
  -- a bounded semaphore refuses to be released once too often
  | .finish, .slotted side =>
    some ({ s with free := min (s.free + 1) slots }.move t (.leaving side))
  | .lock, .leaving side =>
    if s.owner = none then some ({ s with owner := some t }.move t (.releasing side)) else none
  | .release, .releasing side => some (({ s with owner := none }.move t .idle).give_side side)
  | _, _ => none

/-- Nobody is there yet. -/
def start (slots : ℕ) : State ι :=
  { shared := 0, exclusive := false, owner := none, free := slots, phase := fun _ => .idle }

/-! ## What a step can do -/

/-- The steps of one thread, one case for each. -/
inductive Step (slots : ℕ) (s : State ι) (t : ι) : State ι → Prop where
  | enter (side : Side) (h : s.phase t = .idle) : Step slots s t (s.move t (.entering side))
  | lock (side : Side) (h : s.phase t = .entering side ∨ s.phase t = .woken side)
      (hfree : s.owner = none) :
    Step slots s t ({ s with owner := some t }.move t (.testing side))
  | park (side : Side) (h : s.phase t = .testing side) (hblocked : s.blocked side = true) :
    Step slots s t ({ s with owner := none }.move t (.parked side))
  | pass (side : Side) (h : s.phase t = .testing side) (hblocked : s.blocked side = false) :
    Step slots s t (({ s with owner := none }.take_side side).move t (.working side))
  | ask (side : Side) (h : s.phase t = .working side) : Step slots s t (s.move t (.asking side))
  | take (side : Side) (h : s.phase t = .asking side) (hfree : 0 < s.free) :
    Step slots s t ({ s with free := s.free - 1 }.move t (.slotted side))
  | finish (side : Side) (h : s.phase t = .working side) : Step slots s t (s.move t (.leaving side))
  | give_slot (side : Side) (h : s.phase t = .slotted side) :
    Step slots s t ({ s with free := min (s.free + 1) slots }.move t (.leaving side))
  | relock (side : Side) (h : s.phase t = .leaving side) (hfree : s.owner = none) :
    Step slots s t ({ s with owner := some t }.move t (.releasing side))
  | release (side : Side) (h : s.phase t = .releasing side) :
    Step slots s t (({ s with owner := none }.move t .idle).give_side side)

/-- What one step of a thread can do: every transition of the gate, with its guard. -/
theorem step_cases {slots : ℕ} {s s' : State ι} {t : ι} {act : Act}
    (h : step slots s (t, act) = some s') : Step slots s t s' := by
  -- where a phase does not take the action, there is no step
  cases hphase : s.phase t <;> cases act <;> simp only [step, hphase, reduceCtorEq] at h
  case idle.acquire side =>
    obtain rfl := Option.some.inj h
    exact .enter side hphase
  case entering.lock side =>
    obtain ⟨hfree, h⟩ := Option.ite_none_right_eq_some.mp h
    obtain rfl := Option.some.inj h
    exact .lock side (.inl hphase) hfree
  case woken.lock side =>
    obtain ⟨hfree, h⟩ := Option.ite_none_right_eq_some.mp h
    obtain rfl := Option.some.inj h
    exact .lock side (.inr hphase) hfree
  case testing.test side =>
    cases hblocked : s.blocked side with
    | true =>
      simp only [hblocked, if_true, Option.some.injEq] at h
      exact h ▸ .park side hphase hblocked
    | false =>
      simp only [hblocked, Bool.false_eq_true, if_false, Option.some.injEq] at h
      exact h ▸ .pass side hphase hblocked
  case working.ask side =>
    obtain rfl := Option.some.inj h
    exact .ask side hphase
  case asking.take side =>
    obtain ⟨hfree, h⟩ := Option.ite_none_right_eq_some.mp h
    obtain rfl := Option.some.inj h
    exact .take side hphase hfree
  case working.finish side =>
    obtain rfl := Option.some.inj h
    exact .finish side hphase
  case slotted.finish side =>
    obtain rfl := Option.some.inj h
    exact .give_slot side hphase
  case leaving.lock side =>
    obtain ⟨hfree, h⟩ := Option.ite_none_right_eq_some.mp h
    obtain rfl := Option.some.inj h
    exact .relock side hphase hfree
  case releasing.release side =>
    obtain rfl := Option.some.inj h
    exact .release side hphase

/-! ## The lock -/

/-- The lock is with the one thread that is between taking it and leaving it. -/
def Owned (owner : Option ι) (phase : ι → Phase) : Prop := ∀ u, (phase u).locked = true ↔
    owner = some u

section

variable {owner : Option ι} {phase : ι → Phase} {t : ι} {b : Phase}

/-- The lock stays with its owner as long as no thread takes or leaves it. -/
theorem Owned.keep (h : Owned owner phase) (hb : b.locked = (phase t).locked) :
    Owned owner (Function.update phase t b) := by
  intro u
  by_cases hu : u = t
  · subst hu
    rw [Function.update_self, hb]
    exact h u
  · rw [Function.update_of_ne hu]
    exact h u

/-- A free lock goes to the thread that takes it. -/
theorem Owned.take (h : Owned none phase) (hb : b.locked = true) :
    Owned (some t) (Function.update phase t b) := by
  intro u
  by_cases hu : u = t
  · subst hu
    simp [hb]
  · rw [Function.update_of_ne hu, h u]
    simp [Ne.symm hu]

theorem Owned.give (h : Owned owner phase) (ht : (phase t).locked = true) (hb : b.locked = false) :
    Owned none (Function.update phase t b) := by
  have howner : owner = some t := (h t).mp ht
  intro u
  by_cases hu : u = t
  · subst hu
    simp [hb]
  · rw [Function.update_of_ne hu, h u, howner]
    simp [Ne.symm hu]

omit [DecidableEq ι] in
theorem Owned.wake (h : Owned owner phase) : Owned owner fun u => (phase u).wake := by
  intro u
  rw [← h u, Phase.wake_locked]

end

/-! ## The invariant -/

/-- The counters say who is inside, and whoever is parked has a reason to be. -/
structure Inv (slots : ℕ) (s : State ι) : Prop where
  shared : ∃ n : ℕ, s.shared = n ∧ Counted s.phase (Phase.holds .shared) n
  exclusive : Counted s.phase (Phase.holds .exclusive) s.exclusive.toNat
  apart : s.exclusive = true → s.shared = 0
  slots : ∃ n, s.free + n = slots ∧ Counted s.phase Phase.has_slot n
  owner : Owned s.owner s.phase
  parked : ∀ t side, s.phase t = .parked side → s.blocked side = true

omit [DecidableEq ι] in
theorem inv_start (slots : ℕ) : Inv slots (start slots : State ι) where
  shared := ⟨0, rfl, .zero fun _ => rfl⟩
  exclusive := .zero fun _ => rfl
  apart := fun h => by cases h
  slots := ⟨0, rfl, .zero fun _ => rfl⟩
  owner := fun t => ⟨nofun, nofun⟩
  parked := fun t side h => by cases h

/-- A move that changes nothing but who has the lock. -/
theorem Inv.move {slots : ℕ} {s : State ι} (h : Inv slots s) {t : ι} {b : Phase} {owner : Option ι}
    (hholds : ∀ side, b.holds side = (s.phase t).holds side)
    (hslot : b.has_slot = (s.phase t).has_slot) (howner : Owned owner (Function.update s.phase t b))
    (hparked : ∀ side, b = .parked side → s.blocked side = true) :
    Inv slots ({ s with owner := owner }.move t b) where
  shared := h.shared.imp fun _ hn => ⟨hn.1, hn.2.stay (hholds .shared)⟩
  exclusive := h.exclusive.stay (hholds .exclusive)
  apart := h.apart
  slots := h.slots.imp fun _ hn => ⟨hn.1, hn.2.stay hslot⟩
  owner := howner
  parked := by
    intro u side hu
    by_cases hut : u = t
    · subst hut
      exact hparked side (by simpa [State.move] using hu)
    · exact h.parked u side (by simpa [State.move, hut] using hu)

omit [DecidableEq ι] in
/-- Whoever wakes everybody leaves nobody parked. -/
theorem Inv.notify_all {slots : ℕ} {s : State ι}
    (hshared : ∃ n : ℕ, s.shared = n ∧ Counted s.phase (Phase.holds .shared) n)
    (hexclusive : Counted s.phase (Phase.holds .exclusive) s.exclusive.toNat)
    (hapart : s.exclusive = true → s.shared = 0)
    (hslots : ∃ n, s.free + n = slots ∧ Counted s.phase Phase.has_slot n)
    (howner : Owned s.owner s.phase) :
    Inv slots s.notify_all where
  shared := hshared.imp fun _ hn => ⟨hn.1, hn.2.map (Phase.wake_holds .shared)⟩
  exclusive := hexclusive.map (Phase.wake_holds .exclusive)
  apart := hapart
  slots := hslots.imp fun _ hn => ⟨hn.1, hn.2.map Phase.wake_has_slot⟩
  owner := howner.wake
  parked := fun _ side h => absurd h (Phase.wake_ne_parked _ side)

section

variable {slots : ℕ} {s : State ι} {t : ι} {side : Side}

/-- A thread parks: the condition it has just looked at cannot have changed. -/
theorem Inv.park (h : Inv slots s) (ht : s.phase t = .testing side)
    (hblocked : s.blocked side = true) :
    Inv slots ({ s with owner := none }.move t (.parked side)) := by
  refine h.move (fun side' => by rw [ht]; rfl) (by rw [ht]; rfl)
    (h.owner.give (by rw [ht]; rfl) rfl) ?_
  intro side' hside
  cases hside
  exact hblocked

/-- Other threads stay as parked as they were when a thread goes to a place that is not `wait`. -/
theorem parked_move {s s' : State ι} {b : Phase}
    (hparked : ∀ t side, s.phase t = .parked side → s'.blocked side = true)
    (hb : ∀ side, b ≠ .parked side) {u : ι} {side : Side}
    (hu : Function.update s.phase t b u = .parked side) : s'.blocked side = true := by
  by_cases hut : u = t
  · subst hut
    rw [Function.update_self] at hu
    exact absurd hu (hb side)
  · rw [Function.update_of_ne hut] at hu
    exact hparked u side hu

/-- A thread passes to the shared side when nobody is on the exclusive one. -/
theorem Inv.pass_shared (h : Inv slots s) (ht : s.phase t = .testing .shared)
    (hopen : s.blocked .shared = false) :
    Inv slots (({ s with owner := none }.take_side .shared).move t (.working .shared)) := by
  have hexclusive : s.exclusive = false := hopen
  obtain ⟨n, hn, hcount⟩ := h.shared
  refine ⟨⟨n + 1, ?_, hcount.enter (by rw [ht]; rfl) rfl⟩, h.exclusive.stay (by rw [ht]; rfl), ?_,
    h.slots.imp fun _ hk => ⟨hk.1, hk.2.stay (by rw [ht]; rfl)⟩,
    h.owner.give (by rw [ht]; rfl) rfl, ?_⟩
  · show s.shared + 1 = ((n + 1 : ℕ) : ℤ)
    omega
  · intro htrue
    rw [show s.exclusive = true from htrue] at hexclusive
    cases hexclusive
  · intro u side hu
    refine parked_move (b := .working .shared) (fun v side hv => ?_) (fun _ => nofun) hu
    cases side with
    | shared => exact h.parked v .shared hv
    | exclusive =>
      have hne : s.shared + 1 ≠ 0 := by omega
      show (s.exclusive || decide (s.shared + 1 ≠ 0)) = true
      simp [hne]

/-- A thread passes to the exclusive side when nobody is on either. -/
theorem Inv.pass_exclusive (h : Inv slots s) (ht : s.phase t = .testing .exclusive)
    (hopen : s.blocked .exclusive = false) :
    Inv slots (({ s with owner := none }.take_side .exclusive).move t (.working .exclusive)) := by
  have hboth : s.exclusive = false ∧ s.shared = 0 := by simpa [State.blocked] using hopen
  have hnone : Counted s.phase (Phase.holds .exclusive) 0 := by simpa [hboth.1] using h.exclusive
  refine ⟨h.shared.imp fun _ hn => ⟨hn.1, hn.2.stay (by rw [ht]; rfl)⟩,
    hnone.enter (by rw [ht]; rfl) rfl, fun _ => hboth.2,
    h.slots.imp fun _ hk => ⟨hk.1, hk.2.stay (by rw [ht]; rfl)⟩,
    h.owner.give (by rw [ht]; rfl) rfl, ?_⟩
  intro u side hu
  refine parked_move (b := .working .exclusive) (fun v side hv => ?_) (fun _ => nofun) hu
  cases side <;> rfl

theorem Inv.take (h : Inv slots s) (ht : s.phase t = .asking side) (hfree : 0 < s.free) :
    Inv slots ({ s with free := s.free - 1 }.move t (.slotted side)) := by
  obtain ⟨k, hk, hcount⟩ := h.slots
  refine ⟨h.shared.imp fun _ hn => ⟨hn.1, hn.2.stay (by rw [ht]; rfl)⟩,
    h.exclusive.stay (by rw [ht]; rfl), h.apart, ⟨k + 1, ?_, hcount.enter (by rw [ht]; rfl) rfl⟩,
    h.owner.keep (by rw [ht]; rfl), fun u side' hu => ?_⟩
  · show s.free - 1 + (k + 1) = slots
    omega
  · exact parked_move (b := .slotted side) (fun v side' hv =>
      h.parked v side' hv) (fun _ => nofun) hu

/-- A slot comes back: there is room for it. -/
theorem Inv.give_slot (h : Inv slots s) (ht : s.phase t = .slotted side) :
    Inv slots ({ s with free := min (s.free + 1) slots }.move t (.leaving side)) := by
  obtain ⟨k, hk, hcount⟩ := h.slots
  obtain ⟨k, rfl⟩ := Nat.exists_eq_succ_of_ne_zero (hcount.ne_zero (i := t) (by rw [ht]; rfl))
  refine ⟨h.shared.imp fun _ hn => ⟨hn.1, hn.2.stay (by rw [ht]; rfl)⟩,
    h.exclusive.stay (by rw [ht]; rfl), h.apart, ⟨k, ?_, hcount.leave (by rw [ht]; rfl) rfl⟩,
    h.owner.keep (by rw [ht]; rfl), fun u side' hu => ?_⟩
  · show min (s.free + 1) slots + k = slots
    omega
  · exact parked_move (b := .leaving side) (fun v side' hv =>
      h.parked v side' hv) (fun _ => nofun) hu

/-- A thread leaves the shared side; the last one wakes all that are parked. -/
theorem Inv.release_shared (h : Inv slots s) (ht : s.phase t = .releasing .shared) :
    Inv slots (({ s with owner := none }.move t .idle).give_side .shared) := by
  obtain ⟨n, hn, hcount⟩ := h.shared
  obtain ⟨n, rfl⟩ := Nat.exists_eq_succ_of_ne_zero (hcount.ne_zero (i := t) (by rw [ht]; rfl))
  -- someone shared the gate, so nobody had it alone
  have hopen : s.exclusive = false := by
    by_contra hexclusive
    have hzero := h.apart (by simpa using hexclusive)
    omega
  have hshared : ∃ m : ℕ, s.shared - 1 = m ∧
      Counted (Function.update s.phase t .idle) (Phase.holds .shared) m :=
    ⟨n, by push_cast at hn; omega, hcount.leave (by rw [ht]; rfl) rfl⟩
  have hexclusive := h.exclusive.stay (a := .idle) (i := t) (by rw [ht]; rfl)
  have hslots := h.slots.imp fun _ hk =>
    And.intro hk.1 (hk.2.stay (a := .idle) (i := t) (by rw [ht]; rfl))
  have howner := h.owner.give (t := t) (b := .idle) (by rw [ht]; rfl) rfl
  have hapart : s.exclusive = true → s.shared - 1 = 0 := by
    rw [hopen]
    exact nofun
  -- the last of the sharers wakes those who wait; the others leave them parked
  by_cases hlast : s.shared - 1 = 0
  · have hgive : ({ s with owner := none }.move t .idle).give_side .shared
        = State.notify_all
          { ({ s with owner := none }.move t .idle) with shared := s.shared - 1 } :=
      if_pos hlast
    rw [hgive]
    exact Inv.notify_all hshared hexclusive hapart hslots howner
  · have hgive : ({ s with owner := none }.move t .idle).give_side .shared
        = { ({ s with owner := none }.move t .idle) with shared := s.shared - 1 } := if_neg hlast
    rw [hgive]
    refine ⟨hshared, hexclusive, hapart, hslots, howner, fun u side hu => ?_⟩
    refine parked_move (b := .idle) (fun v side hv => ?_) (fun _ => nofun) hu
    cases side with
    | shared => exact h.parked v .shared hv
    | exclusive =>
      show (s.exclusive || decide (s.shared - 1 ≠ 0)) = true
      simp [hlast]

/-- A thread leaves the exclusive side, and all that are parked are woken. -/
theorem Inv.release_exclusive (h : Inv slots s) (ht : s.phase t = .releasing .exclusive) :
    Inv slots (({ s with owner := none }.move t .idle).give_side .exclusive) := by
  have hone : s.exclusive = true := by
    have hne := h.exclusive.ne_zero (i := t) (by rw [ht]; rfl)
    simpa using hne
  have hcount : Counted s.phase (Phase.holds .exclusive) 1 := by simpa [hone] using h.exclusive
  exact Inv.notify_all (h.shared.imp fun _ hn => ⟨hn.1, hn.2.stay (by rw [ht]; rfl)⟩)
    (hcount.leave (by rw [ht]; rfl) rfl) nofun
    (h.slots.imp fun _ hk => ⟨hk.1, hk.2.stay (by rw [ht]; rfl)⟩)
      (h.owner.give (by rw [ht]; rfl) rfl)

end

/-- **The step lemma**: whatever a thread does next, the invariant stays. -/
theorem inv_step {slots : ℕ} {s s' : State ι} {e : ι × Act} (h : Inv slots s)
    (hstep : step slots s e = some s') : Inv slots s' := by
  obtain ⟨t, act⟩ := e
  cases step_cases hstep with
  | enter side ht =>
    exact h.move (fun _ => by rw [ht]; rfl) (by rw [ht]; rfl) (h.owner.keep (by rw [ht]; rfl))
      fun _ => nofun
  | lock side ht hfree =>
    have howner : Owned none s.phase := hfree ▸ h.owner
    rcases ht with ht | ht <;>
      exact h.move (fun _ => by rw [ht]; rfl) (by rw [ht]; rfl) (howner.take rfl) fun _ => nofun
  | park side ht hblocked => exact h.park ht hblocked
  | pass side ht hopen =>
    cases side with
    | shared => exact h.pass_shared ht hopen
    | exclusive => exact h.pass_exclusive ht hopen
  | ask side ht =>
    exact h.move (fun _ => by rw [ht]; rfl) (by rw [ht]; rfl) (h.owner.keep (by rw [ht]; rfl))
      fun _ => nofun
  | take side ht hfree => exact h.take ht hfree
  | finish side ht =>
    exact h.move (fun _ => by rw [ht]; rfl) (by rw [ht]; rfl) (h.owner.keep (by rw [ht]; rfl))
      fun _ => nofun
  | give_slot side ht => exact h.give_slot ht
  | relock side ht hfree =>
    have howner : Owned none s.phase := hfree ▸ h.owner
    exact h.move (fun _ => by rw [ht]; rfl) (by rw [ht]; rfl) (howner.take rfl) fun _ => nofun
  | release side ht =>
    cases side with
    | shared => exact h.release_shared ht
    | exclusive => exact h.release_exclusive ht

/-- **The run lemma**: the invariant holds in every state that the threads reach. -/
theorem inv_run {slots : ℕ} {s : State ι} {acts : List (ι × Act)}
    (h : run (step slots) (start slots) acts = some s) : Inv slots s :=
  run_keeps (fun _ _ _ hinv hstep => inv_step hinv hstep) (inv_start slots) h

/-! ## Nobody is stuck -/

section

variable {slots : ℕ} {s : State ι}

/-- A thread that is through with a step of its own, not one that starts anew. -/
def Proceeds (slots : ℕ) (s : State ι) (t : ι) : Prop :=
  ∃ act, (∀ side, act ≠ .acquire side) ∧ (step slots s (t, act)).isSome = true

/-- Whoever has the lock goes on, and leaves it. -/
theorem Inv.owner_proceeds (h : Inv slots s) {t : ι} (ht : s.owner = some t) :
    Proceeds slots s t := by
  have hlocked := (h.owner t).mpr ht
  cases hphase : s.phase t <;> rw [hphase] at hlocked <;> try cases hlocked
  case testing side =>
    refine ⟨.test, fun _ => nofun, ?_⟩
    cases hblocked : s.blocked side <;> simp [step, hphase, hblocked]
  case releasing side => exact ⟨.release, fun _ => nofun, by simp [step, hphase]⟩

/-- A thread that wants the lock gets it, or another one has it and goes on. -/
theorem Inv.lock_proceeds (h : Inv slots s) {t : ι} {side : Side}
    (ht : s.phase t = .entering side ∨ s.phase t = .woken side ∨ s.phase t = .leaving side) :
    ∃ u, (u = t ∨ s.owner = some u) ∧ Proceeds slots s u := by
  cases howner : s.owner with
  | some u => exact ⟨u, .inr rfl, h.owner_proceeds howner⟩
  | none =>
    refine ⟨t, .inl rfl, .lock, fun _ => nofun, ?_⟩
    rcases ht with ht | ht | ht <;> simp [step, ht, howner]

/-- Where all slots are taken, somebody has one and can give it back. -/
theorem Inv.slot_proceeds (h : Inv slots s) (hslots : 0 < slots) {t : ι} {side : Side}
    (ht : s.phase t = .asking side) : ∃ u, Proceeds slots s u := by
  by_cases hfree : 0 < s.free
  · exact ⟨t, .take, fun _ => nofun, by simp [step, ht, hfree]⟩
  · obtain ⟨n, hn, hcount⟩ := h.slots
    obtain ⟨u, hu⟩ := hcount.some (by omega)
    refine ⟨u, .finish, fun _ => nofun, ?_⟩
    cases hphase : s.phase u <;> rw [hphase] at hu <;> try cases hu
    simp [step, hphase]

/-- Whoever is inside gets out, if need be after another one has given its slot back. -/
theorem Inv.holder_proceeds (h : Inv slots s) (hslots : 0 < slots) {t : ι} {side : Side}
    (ht : (s.phase t).holds side = true) : ∃ u, Proceeds slots s u := by
  cases hphase : s.phase t <;> rw [hphase] at ht <;> try cases ht
  case working side' => exact ⟨t, .finish, fun _ => nofun, by simp [step, hphase]⟩
  case asking side' => exact h.slot_proceeds hslots hphase
  case slotted side' => exact ⟨t, .finish, fun _ => nofun, by simp [step, hphase]⟩
  case leaving side' =>
    obtain ⟨u, -, hu⟩ := h.lock_proceeds (.inr (.inr hphase))
    exact ⟨u, hu⟩
  case releasing side' => exact ⟨t, .release, fun _ => nofun, by simp [step, hphase]⟩

omit [DecidableEq ι] in
/-- A gate that lets a side wait has somebody inside. -/
theorem Inv.holder_of_blocked (h : Inv slots s) {side : Side} (hblocked : s.blocked side = true) :
    ∃ u side', (s.phase u).holds side' = true := by
  by_cases hexclusive : s.exclusive = true
  · obtain ⟨u, hu⟩ := h.exclusive.some (by simp [hexclusive])
    exact ⟨u, .exclusive, hu⟩
  · obtain ⟨n, hn, hcount⟩ := h.shared
    have hne : s.shared ≠ 0 := by
      cases side with
      | shared => exact absurd hblocked hexclusive
      | exclusive => simpa [State.blocked, hexclusive] using hblocked
    obtain ⟨u, hu⟩ := hcount.some (by omega)
    exact ⟨u, .shared, hu⟩

/-- As long as a thread is anywhere on its way, some thread can take its next step. -/
theorem Inv.proceeds (h : Inv slots s) (hslots : 0 < slots) {t : ι} (ht : s.phase t ≠ .idle) :
    ∃ u, Proceeds slots s u := by
  cases hphase : s.phase t with
  | idle => exact absurd hphase ht
  | entering side =>
    obtain ⟨u, -, hu⟩ := h.lock_proceeds (.inl hphase)
    exact ⟨u, hu⟩
  | testing side => exact ⟨t, h.owner_proceeds ((h.owner t).mp (by rw [hphase]; rfl))⟩
  | parked side =>
    obtain ⟨u, side', hu⟩ := h.holder_of_blocked (h.parked t side hphase)
    exact h.holder_proceeds hslots hu
  | woken side =>
    obtain ⟨u, -, hu⟩ := h.lock_proceeds (.inr (.inl hphase))
    exact ⟨u, hu⟩
  | working side | asking side | slotted side | leaving side | releasing side =>
    have hholds : (s.phase t).holds side = true := by rw [hphase]; simp [Phase.holds]
    exact h.holder_proceeds hslots hholds

/-- A thread that waits has somebody to wait for, or has been woken and somebody goes on. -/
theorem Inv.waits_for (h : Inv slots s) {t : ι} (ht : (s.phase t).waits = true) :
    (∃ u, (∃ side, (s.phase u).holds side = true) ∨ (s.phase u).has_slot = true) ∨
      ∃ u side v, s.phase u = .woken side ∧ (v = u ∨ s.owner = some v) ∧ Proceeds slots s v := by
  cases hphase : s.phase t <;> rw [hphase] at ht <;> try cases ht
  case parked side =>
    obtain ⟨u, side', hu⟩ := h.holder_of_blocked (h.parked t side hphase)
    exact .inl ⟨u, .inl ⟨side', hu⟩⟩
  case woken side =>
    obtain ⟨u, hu, hproceeds⟩ := h.lock_proceeds (.inr (.inl hphase))
    exact .inr ⟨t, side, u, hphase, hu, hproceeds⟩
  case asking side => exact .inl ⟨t, .inl ⟨side, by rw [hphase]; simp [Phase.holds]⟩⟩

omit [DecidableEq ι] in
/-- The exclusive side is one thread's, and nobody else's side is any. -/
theorem Inv.alone (h : Inv slots s) {t u : ι} {side : Side}
    (ht : (s.phase t).holds .exclusive = true) (hu : (s.phase u).holds side = true) : u = t := by
  have hexclusive : s.exclusive = true := by
    have hne := h.exclusive.ne_zero ht
    simpa using hne
  cases side with
  | exclusive =>
    have hone : Counted s.phase (Phase.holds .exclusive) 1 := by
      simpa [hexclusive] using h.exclusive
    exact hone.one hu ht
  | shared =>
    obtain ⟨n, hn, hcount⟩ := h.shared
    have hne := hcount.ne_zero hu
    have hzero := h.apart hexclusive
    omega

end

/-- **The gate is safe.** In every state the threads can reach, in any order of their steps: the
exclusive side is held alone, the shared count is the number of those inside, and nobody waits in
vain. A parked thread has the gate shut before it; while somebody waits, somebody is inside or has a
slot, or a thread has been woken and either gets the lock or waits for one who goes on; and with a
slot to give at all, as long as any thread is on its way, one can take its step. -/
theorem gate_safe {slots : ℕ} {s : State ι} {acts : List (ι × Act)}
    (h : run (step slots) (start slots) acts = some s) :
    (∀ t u side, (s.phase t).holds .exclusive = true → (s.phase u).holds side = true → u = t) ∧
    ((At s.phase (Phase.holds .shared)).Finite ∧
      s.shared = (At s.phase (Phase.holds .shared)).ncard) ∧
    (∀ t side, s.phase t = .parked side → s.blocked side = true) ∧
    (∀ t, (s.phase t).waits = true →
      (∃ u, (∃ side, (s.phase u).holds side = true) ∨ (s.phase u).has_slot = true) ∨
      ∃ u side v, s.phase u = .woken side ∧ (v = u ∨ s.owner = some v) ∧ Proceeds slots s v) ∧
    (0 < slots → ∀ t, s.phase t ≠ .idle → ∃ u, Proceeds slots s u) := by
  have hinv := inv_run h
  refine ⟨fun t u side ht hu => hinv.alone ht hu, ?_, hinv.parked, fun t ht => hinv.waits_for ht,
    fun hslots t ht => hinv.proceeds hslots ht⟩
  obtain ⟨n, hn, hcount⟩ := hinv.shared
  exact ⟨hcount.finite, by rw [hn, hcount.card]⟩

/-- A deletion of everything goes in, and a search comes to the gate. -/
def deletion_first : List (ℕ × Act) :=
  [(0, .acquire .exclusive), (0, .lock), (0, .test), (1, .acquire .shared), (1, .lock), (1, .test)]

/-- A search that comes while a deletion holds the gate is parked. -/
theorem search_parked : ∃ s, run (step 1) (start 1) deletion_first = some s ∧
    s.phase 1 = .parked .shared ∧
    s.blocked .shared = true := by
  obtain ⟨s, hs⟩ : ∃ s, run (step 1) (start 1) deletion_first = some s := ⟨_, rfl⟩
  have hphase : (run (step 1) (start 1) deletion_first).map (fun s => s.phase 1) =
      some (.parked .shared) := rfl
  rw [hs] at hphase
  have hparked : s.phase 1 = .parked .shared := Option.some.inj hphase
  exact ⟨s, hs, hparked, (gate_safe hs).2.2.1 1 .shared hparked⟩

end

end Memline.RWGate
