/-
A streamed answer, and what is reported of it while it arrives.

The thread that reads the stream counts what arrives; another one, the heartbeat, reports the
counters from time to time, so that a live stream can be told from a silent one. Both take a
snapshot under the lock and report it after letting go of the lock, so that lines may be reported
out of turn. Each line says how much came since the snapshot before it, and nothing that came is
said twice or not at all.

The clock is left out: how long a request has taken, and how old its last chunk is.
-/
import Mathlib.Algebra.BigOperators.Group.List.Basic
import Mathlib.Algebra.Order.BigOperators.Group.List
import Mathlib.Algebra.Order.Ring.Nat
import Memline.Lib.Json
import Memline.Lib.Logic

set_option autoImplicit false

namespace Memline.relay

open Effect Py

/-! ## Chunks -/

structure Delta where
  content : Option String
  reasoning_content : Option String
  reasoning : Option String

structure Choice where
  delta : Option Delta
  finish_reason : Option String

structure Chunk where
  choices : List Choice
  usage : Option Dict

/-- What a request came to: an exception by the name of its type and its text. -/
structure Failure where
  type_name : String
  exc : String
  deriving DecidableEq

/-- `parts`, `usage` and `finish` of a stream so far. -/
structure Gathered where
  parts : List String
  usage : Dict
  finish : Option String

namespace Gathered

def empty : Gathered := ⟨[], [], none⟩

/-- `x or y` on strings. -/
def or_else (x y : Option String) : Option String := if x = none ∨ x = some "" then y else x

def choice (g : Gathered) (c : Choice) : Gathered :=
  { g with
    finish := or_else c.finish_reason g.finish
    -- an empty content is no part
    parts := match c.delta.bind Delta.content with
      | some content => if content = "" then g.parts else g.parts ++ [content]
      | none => g.parts }

def chunk (g : Gathered) (c : Chunk) : Gathered :=
  c.choices.foldl choice { g with usage := c.usage.getD g.usage }

def text (g : Gathered) : String := String.join g.parts

end Gathered

/-- Everything a stream brought. -/
def gather (chunks : List Chunk) : Gathered := chunks.foldl Gathered.chunk .empty

/-! ## Counters -/

structure Counts where
  chunks : ℕ
  content_chars : ℕ
  reasoning_chars : ℕ
  content_deltas : ℕ
  reasoning_deltas : ℕ
  deriving DecidableEq

def Chunk.deltas (c : Chunk) : List Delta := c.choices.filterMap Choice.delta

def Chunk.contents (c : Chunk) : List String := c.deltas.filterMap Delta.content

def Chunk.reasonings (c : Chunk) : List String :=
  c.deltas.flatMap fun d => [d.reasoning_content, d.reasoning].filterMap id

def chars (parts : List String) : ℕ := (parts.map String.length).sum

namespace Counts

def zero : Counts := ⟨0, 0, 0, 0, 0⟩

def add (n : Counts) (c : Chunk) : Counts where
  chunks := n.chunks + 1
  content_chars := n.content_chars + chars c.contents
  reasoning_chars := n.reasoning_chars + chars c.reasonings
  content_deltas := n.content_deltas + c.contents.length
  reasoning_deltas := n.reasoning_deltas + c.reasonings.length

/-- `out_tokens`. -/
def est (n : Counts) : ℕ := n.content_deltas + n.reasoning_deltas

end Counts

/-- All that arrived. -/
def counted (chunks : List Chunk) : Counts := chunks.foldl Counts.add .zero

/-- `isinstance(x, int)`. -/
def is_int : Json → Bool
  | .int _ | .bool _ => true
  | _ => false

/-- An exact number of tokens, where the usage has one. -/
def tokens (usage : Dict) (key : String) (before : Option Json) : Option Json :=
  match usage.lookup key with
  | some v => if is_int v then some v else before
  | none => before

/-- A line of the report. The last one says why the stream ended. -/
structure Line where
  status : String
  counts : Counts
  since_tokens : ℤ
  prompt_tokens : Option Json
  completion_tokens : Option Json
  finish_reason : Option String

/-- What the two threads share. -/
structure Progress where
  counts : Counts
  prompt_tokens : Option Json
  completion_tokens : Option Json
  marked_tokens : ℕ
  stopped : Bool
  reported : List Line

namespace Progress

def empty : Progress := ⟨.zero, none, none, 0, false, []⟩

def take_usage (s : Progress) (usage : Dict) : Progress :=
  { s with
    prompt_tokens := tokens usage "prompt_tokens" s.prompt_tokens
    completion_tokens := tokens usage "completion_tokens" s.completion_tokens }

/-- `observe`, under the lock. -/
def observe (s : Progress) (c : Chunk) : Progress :=
  ({ s with counts := s.counts.add c } : Progress).take_usage (c.usage.getD [])

/-- What `_line` takes down under the lock, and the mark it leaves. -/
def snapshot (s : Progress) (status : String) : Line × Progress :=
  (⟨status, s.counts, (s.counts.est : ℤ) - s.marked_tokens, s.prompt_tokens,
    s.completion_tokens, none⟩, { s with marked_tokens := s.counts.est })

end Progress

/-! ## The threads -/

inductive Turn where
  | observe (chunk : Chunk)
  | take_usage (usage : Dict)
  | snapshot (status : String)
  | report (line : Line)
  | set_stopped
  /-- `self._stopped.wait(self.interval)`. -/
  | wait

namespace Turn

def Answer : Turn → Type
  | snapshot _ => Line
  | wait => Bool
  | _ => Unit

end Turn

abbrev Turns : Interface := ⟨Turn, Turn.Answer, Failure⟩

def answer : Handler Turns Progress
  | .observe chunk, s => (.ok (), s.observe chunk)
  | .take_usage usage, s => (.ok (), s.take_usage usage)
  | .snapshot status, s => (.ok (s.snapshot status).1, (s.snapshot status).2)
  | .report line, s => (.ok (), { s with reported := s.reported ++ [line] })
  | .set_stopped, s => (.ok (), { s with stopped := true })
  | .wait, s => (.ok s.stopped, s)

/-- `self.report(self._line(status))`. -/
def report_line (status : String) (finish_reason : Option String) : Prog Turns Unit := do
  let line : Line ← Prog.perform (I := Turns) (.snapshot status)
  Prog.perform (I := Turns) (.report { line with finish_reason := finish_reason })

def start : Prog Turns Unit := report_line "started" none

def emit : Prog Turns Unit := report_line "active" none

def stop (status : String) (g : Gathered) : Prog Turns Unit := do
  Prog.perform (I := Turns) .set_stopped
  if g.usage ≠ [] then Prog.perform (I := Turns) (.take_usage g.usage)
  report_line status (some (Gathered.or_else g.finish (some "none") |>.getD ""))

/-- One chunk of the stream. -/
def read_chunk (g : Gathered) (chunk : Chunk) : Prog Turns Gathered := do
  Prog.perform (I := Turns) (.observe chunk)
  pure (g.chunk chunk)

/-- The thread that reads a stream: these chunks, and an exception where it broke. -/
def stream_once (chunks : List Chunk) (broken : Option Failure) : Prog Turns (Option Gathered) := do
  start
  let g ← chunks.foldlM read_chunk .empty
  match broken with
  | some e => do
    -- the counters are reported before the exception goes on
    stop "error" g
    throw e
  | none => do
    stop "complete" g
    pure (some g)

/-- The heartbeat, for at most so many beats. -/
def heartbeat : ℕ → Prog Turns (Option Gathered)
  | 0 => pure none
  | beats + 1 => do
    let stopped : Bool ← Prog.perform (I := Turns) .wait
    if stopped then pure none
    else do
      emit
      heartbeat beats

/-- Both threads, as far as a schedule takes them. -/
def progress (chunks : List Chunk) (broken : Option Failure) (beats : ℕ) (sched : List Bool) :
    Conf Turns Bool (Option Gathered) Progress :=
  Conf.exec answer
    (Conf.start (fun i => if i then stream_once chunks broken else heartbeat beats) .empty) sched

/-! ## What the calls come to -/

/-- The chunk that a call takes in. -/
def observed : Event Turns → Option Chunk
  | ⟨.observe chunk, _⟩ => some chunk
  | _ => none

/-- The counters of a line, and how much it says came since the one before. -/
def Line.said (line : Line) : Counts × ℤ := (line.counts, line.since_tokens)

/-- What a snapshot took down. -/
def taken : Event Turns → Option (Counts × ℤ)
  | ⟨.snapshot _, .ok line⟩ => some (Line.said line)
  | _ => none

/-- What a report told. -/
def told : Event Turns → Option (Counts × ℤ)
  | ⟨.report line, _⟩ => some line.said
  | _ => none

theorem est_le_add (n : Counts) (c : Chunk) : n.est ≤ (n.add c).est := by
  simp only [Counts.est, Counts.add]
  omega

/-- What answered calls leave of the shared state. -/
structure Took (s : Progress) (es : List (Event Turns)) (s' : Progress) : Prop where
  counts : s'.counts = (es.filterMap observed).foldl Counts.add s.counts
  marked : (s'.marked_tokens : ℤ) = s.marked_tokens + ((es.filterMap taken).map Prod.snd).sum
  told : s'.reported.map Line.said = s.reported.map Line.said ++ es.filterMap told
  bounded : s.marked_tokens ≤ s.counts.est →
      s'.marked_tokens ≤ s'.counts.est ∧ ∀ x ∈ es.filterMap taken, 0 ≤ x.2
  /-- A snapshot counts what had been observed before it. -/
  exact : ∀ x ∈ es.filterMap taken, ∃ cs, cs <+: es.filterMap observed ∧
    x.1 = cs.foldl Counts.add s.counts

theorem took_nil (s : Progress) : Took s [] s where
  counts := rfl
  marked := by simp
  told := by simp
  bounded h := ⟨h, by simp⟩
  exact := by simp

theorem Took.cons {s m s' : Progress} {e : Event Turns} {es : List (Event Turns)} (h : Took s [e] m)
    (h' : Took m es s') : Took s (e :: es) s' := by
  -- every field is split behind the first call
  rw [← List.singleton_append]
  constructor
  · rw [h'.counts, h.counts, ← List.foldl_append, ← List.filterMap_append]
  · have h1 := h.marked
    have h2 := h'.marked
    rw [List.filterMap_append, List.map_append, List.sum_append]
    omega
  · rw [h'.told, h.told, List.append_assoc, ← List.filterMap_append]
  · intro hs
    obtain ⟨hm, hone⟩ := h.bounded hs
    obtain ⟨hs', hrest⟩ := h'.bounded hm
    refine ⟨hs', fun x hx => ?_⟩
    rw [List.filterMap_append] at hx
    exact (List.mem_append.mp hx).elim (hone x) (hrest x)
  · intro x hx
    rw [List.filterMap_append] at hx
    rw [List.filterMap_append]
    rcases List.mem_append.mp hx with hx | hx
    · obtain ⟨cs, hcs, heq⟩ := h.exact x hx
      exact ⟨cs, hcs.trans (List.prefix_append _ _), heq⟩
    · obtain ⟨cs, hcs, heq⟩ := h'.exact x hx
      -- a later snapshot counts what the first call took in as well
      refine ⟨[e].filterMap observed ++ cs, (List.prefix_append_right_inj _).mpr hcs, ?_⟩
      rw [heq, h.counts, List.foldl_append]

/-- A call that takes nothing down. -/
theorem took_plain {e : Event Turns} {s s' : Progress}
    (hcounts : s'.counts = ([e].filterMap observed).foldl Counts.add s.counts)
    (hmarked : s'.marked_tokens = s.marked_tokens)
    (htold : s'.reported.map Line.said = s.reported.map Line.said ++ [e].filterMap told)
    (hest : s.counts.est ≤ s'.counts.est) (htaken : taken e = none) : Took s [e] s' := by
  have hnone : [e].filterMap taken = [] := List.filterMap_cons_none htaken
  refine ⟨hcounts, by simp [hnone, hmarked], htold, fun h => ⟨?_, by simp [hnone]⟩, by simp [hnone]⟩
  rw [hmarked]
  exact h.trans hest

/-- One call. -/
theorem took_one (c : Turn) (s : Progress) : Took s [⟨c, (answer c s).1⟩] (answer c s).2 := by
  cases c with
  | observe chunk => exact took_plain rfl rfl (List.append_nil _).symm (est_le_add _ _) rfl
  | snapshot status =>
    -- the mark moves by what the line says came since
    have hsince :
        [(⟨.snapshot status, (answer (.snapshot status) s).1⟩ : Event Turns)].filterMap taken =
        [(s.counts, (s.counts.est : ℤ) - s.marked_tokens)] := rfl
    refine ⟨rfl, ?_, (List.append_nil _).symm, fun h => ⟨le_refl _, fun x hx => ?_⟩, fun x hx => ?_⟩
    · rw [hsince]
      change (s.counts.est : ℤ) = s.marked_tokens + (s.counts.est - s.marked_tokens + 0)
      omega
    · rw [hsince, List.mem_singleton] at hx
      rw [hx]
      omega
    · rw [hsince, List.mem_singleton] at hx
      exact ⟨[], List.nil_prefix, by rw [hx]; rfl⟩
  | report line => exact took_plain rfl rfl List.map_append (le_refl _) rfl
  | take_usage usage => exact took_plain rfl rfl (List.append_nil _).symm (le_refl _) rfl
  | set_stopped => exact took_plain rfl rfl (List.append_nil _).symm (le_refl _) rfl
  | wait => exact took_plain rfl rfl (List.append_nil _).symm (le_refl _) rfl

theorem took_of_answered {s s' : Progress} {es : List (Event Turns)} (h : Answered answer s es s') :
    Took s es s' := by
  induction h with
  | nil s => exact took_nil s
  | cons _ ih => exact (took_one _ _).cons ih

/-! ## What one thread does -/

/-- A thread reports what it took down, in order, and takes in these chunks. -/
def Orderly (chunks : List Chunk) (es : List (Event Turns)) : Prop :=
  es.filterMap told <+: es.filterMap taken ∧ es.filterMap observed <+: chunks

/-- Everything it took down has been reported. -/
def Settled (es : List (Event Turns)) : Prop := es.filterMap told = es.filterMap taken

/-- The call was carried out. -/
def Granted (e : Event Turns) : Prop := ∃ a, e.2 = .ok a

/-- What may be said of a thread at any time. -/
abbrev orderly (chunks : List Chunk) : Tally Turns (List (Event Turns)) :=
  Tally.recording Granted (Orderly chunks)

variable {chunks : List Chunk} {es : List (Event Turns)}

/-- A turn that is granted: what is asked of the events after it. -/
theorem wp_granted {c : Turn} {Q : Except Failure c.Answer → List (Event Turns) → Prop}
    (h : Orderly chunks es) (hc : ∀ a, Orderly chunks (es ++ [⟨c, .ok a⟩]) ∧
      Q (.ok a) (es ++ [⟨c, .ok a⟩])) :
    (orderly chunks).wp (Prog.perform (I := Turns) c) Q es := by
  refine Tally.wp_perform h fun r hr => ?_
  obtain ⟨a, rfl⟩ : ∃ a, r = .ok a := hr
  exact hc a

/-- A call that is neither a snapshot nor a report nor takes a chunk in. -/
def Quiet (e : Event Turns) : Prop := taken e = none ∧ told e = none ∧ observed e = none

/-- Events that tell nothing of the kind change nothing of what is told. -/
theorem filterMap_quiet {β : Type} {f : Event Turns → Option β} {fs : List (Event Turns)}
    (h : ∀ e ∈ fs, f e = none) : (es ++ fs).filterMap f = es.filterMap f := by
  rw [List.filterMap_append, List.filterMap_eq_nil_iff.mpr h, List.append_nil]

theorem Orderly.quiet {fs : List (Event Turns)} (h : Orderly chunks es) (hfs : ∀ e ∈ fs, Quiet e) :
    Orderly chunks (es ++ fs) := by
  rw [Orderly, filterMap_quiet fun e he => (hfs e he).1, filterMap_quiet fun e he => (hfs e he).2.1,
    filterMap_quiet fun e he => (hfs e he).2.2]
  exact h

theorem Settled.quiet {fs : List (Event Turns)} (h : Settled es) (hfs : ∀ e ∈ fs, Quiet e) :
    Settled (es ++ fs) := by
  rw [Settled, filterMap_quiet fun e he => (hfs e he).1, filterMap_quiet fun e he => (hfs e he).2.1]
  exact h

/-- A snapshot and its report. -/
def reporting (status : String) (finish_reason : Option String)
    (line : Line) : List (Event Turns) :=
  [⟨.snapshot status, .ok line⟩, ⟨.report { line with finish_reason := finish_reason }, .ok ()⟩]

/-- A snapshot keeps the order, whatever it shows. -/
theorem Orderly.snapshot (h : Orderly chunks es) (status : String) (line : Line) :
    Orderly chunks (es ++ [⟨.snapshot status, .ok line⟩]) := by
  refine ⟨?_, ?_⟩
  · rw [filterMap_quiet (f := told) (List.forall_mem_singleton.mpr rfl), List.filterMap_append]
    exact h.1.trans (List.prefix_append _ _)
  · rw [filterMap_quiet (f := observed) (List.forall_mem_singleton.mpr rfl)]
    exact h.2

/-- A report that was begun and given out leaves none unfinished. -/
theorem Settled.reporting (h : Settled es) (status : String) (finish_reason : Option String)
    (line : Line) : Settled (es ++ reporting status finish_reason line) := by
  rw [Settled, List.filterMap_append, List.filterMap_append, h]
  rfl

theorem Orderly.reporting (h : Orderly chunks es) (hs : Settled es) (status : String)
    (finish_reason : Option String) (line : Line) :
    Orderly chunks (es ++ reporting status finish_reason line) := by
  refine ⟨?_, ?_⟩
  · rw [hs.reporting status finish_reason line]
  · have hnone : ∀ e ∈ relay.reporting status finish_reason line, observed e = none :=
      List.forall_mem_cons.mpr ⟨rfl, List.forall_mem_singleton.mpr rfl⟩
    rw [filterMap_quiet hnone]
    exact h.2

/-- Reporting a line, whatever the line is, in an order where none is unfinished. -/
theorem wp_report_line {status : String} {finish_reason : Option String}
    {Q : Except Failure Unit → List (Event Turns) → Prop} (h : Orderly chunks es) (hs : Settled es)
    (hQ : ∀ line, Q (.ok ()) (es ++ reporting status finish_reason line)) :
    (orderly chunks).wp (report_line status finish_reason) Q es := by
  -- between the snapshot and its report the line is taken down and not yet told
  refine Tally.wp_bind (R := fun line es' => es' = es ++ [⟨.snapshot status, .ok line⟩]) ?_ ?_
  · exact wp_granted h fun line => ⟨h.snapshot status line, rfl⟩
  · rintro line _ hsnap rfl
    refine wp_granted hsnap fun _ => ?_
    rw [List.append_assoc]
    exact ⟨h.reporting hs status finish_reason line, hQ line⟩

/-- The heartbeat reports line by line, and leaves none unfinished. -/
theorem wp_heartbeat (beats : ℕ) (h : Orderly chunks es) (hs : Settled es) :
    (orderly chunks).wp (heartbeat beats) (fun _ es' => Settled es') es := by
  induction beats generalizing es with
  | zero => exact Tally.wp_pure _ h hs
  | succ beats ih =>
    refine Tally.wp_bind (R := fun _ es' => Settled es') ?_ ?_
    · refine wp_granted h fun a => ?_
      have hquiet : ∀ e ∈ [(⟨.wait, .ok a⟩ : Event Turns)], Quiet e :=
        List.forall_mem_singleton.mpr ⟨rfl, rfl, rfl⟩
      exact ⟨h.quiet hquiet, hs.quiet hquiet⟩
    -- told to stop while it waited, it reports no more
    · intro stopped es' h hs
      cases stopped with
      | true => exact Tally.wp_pure _ h hs
      | false =>
        refine Tally.wp_bind (R := fun _ es'' => Settled es'') ?_ fun _ es'' h hs => ih h hs
        exact wp_report_line h hs fun line => hs.reporting _ _ line

/-- The chunks are taken in. -/
def taking (cs : List Chunk) : List (Event Turns) := cs.map fun c => ⟨.observe c, .ok ()⟩

/-- The chunks that were read are those that were observed. -/
theorem observed_taking (cs : List Chunk) : (taking cs).filterMap observed = cs := by
  rw [taking, List.filterMap_map]
  exact List.filterMap_some

/-- Taking a chunk in neither takes down nor tells. -/
theorem quiet_taking (cs : List Chunk) : ∀ e ∈ taking cs, taken e = none ∧ told e = none := by
  intro e he
  obtain ⟨c, -, rfl⟩ := List.mem_map.mp he
  exact ⟨rfl, rfl⟩

theorem Settled.taking (h : Settled es) (cs : List Chunk) : Settled (es ++ taking cs) := by
  rw [Settled, filterMap_quiet fun e he => (quiet_taking cs e he).2,
    filterMap_quiet fun e he => (quiet_taking cs e he).1]
  exact h

/-- Reading chunks keeps the order as long as they come as they were sent. -/
theorem Orderly.taking {cs : List Chunk} (h : Orderly chunks es)
    (hcs : es.filterMap observed ++ cs <+: chunks) : Orderly chunks (es ++ taking cs) := by
  refine ⟨?_, ?_⟩
  · rw [filterMap_quiet fun e he => (quiet_taking cs e he).2,
      filterMap_quiet fun e he => (quiet_taking cs e he).1]
    exact h.1
  · rwa [List.filterMap_append, observed_taking]

/-- The reader gathers the chunks in their order, and observes each once. -/
theorem wp_read (rest : List Chunk) (g : Gathered) (h : Orderly chunks es)
    (hrest : es.filterMap observed ++ rest <+: chunks) :
    (orderly chunks).wp (rest.foldlM read_chunk g)
      (fun r es' => r = .ok (rest.foldl Gathered.chunk g) ∧ es' = es ++ taking rest) es := by
  induction rest generalizing es g with
  | nil => exact Tally.wp_pure _ h ⟨rfl, (List.append_nil es).symm⟩
  | cons c rest ih =>
    -- the chunk at hand is among those that are still to come
    have hone : es.filterMap observed ++ [c] <+: chunks := List.IsPrefix.trans ⟨rest, by simp⟩ hrest
    have hc := h.taking hone
    rw [List.foldlM_cons]
    refine Tally.wp_bind (R := fun g' es' => g' = g.chunk c ∧ es' = es ++ taking [c]) ?_ ?_
    · refine Tally.wp_bind (R := fun _ es' =>
        es' = es ++ taking [c]) (wp_granted h fun _ => ⟨hc, rfl⟩) ?_
      rintro _ es' h' rfl
      exact Tally.wp_pure _ h' ⟨rfl, rfl⟩
    · rintro g' es' h' ⟨rfl, rfl⟩
      refine Tally.wp_mono (ih (g.chunk c) h' ?_) ?_
      · rwa [List.filterMap_append, observed_taking, ← List.append_cons]
      · rintro r es'' _ ⟨rfl, rfl⟩
        exact ⟨rfl, by rw [List.append_assoc]; rfl⟩

/-- What a stream that stopped reports as its reason. -/
def finish_text (g : Gathered) : String := (Gathered.or_else g.finish (some "none")).getD ""

/-- Stopping reports what was gathered, behind nothing but quiet events. -/
theorem wp_stop {status : String} {g : Gathered}
    {Q : Except Failure Unit → List (Event Turns) → Prop} (h : Orderly chunks es) (hs : Settled es)
    (hQ : ∀ pre line, (∀ e ∈ pre, Quiet e) →
      Q (.ok ()) (es ++ pre ++ reporting status (some (finish_text g)) line)) :
    (orderly chunks).wp (stop status g) Q es := by
  have hstopped : ∀ a, ∀ e ∈ [(⟨.set_stopped, .ok a⟩ : Event Turns)], Quiet e := fun a =>
    List.forall_mem_singleton.mpr ⟨rfl, rfl, rfl⟩
  refine Tally.wp_bind (R := fun _ es' => ∃ a, es' = es ++ [⟨.set_stopped, .ok a⟩]) ?_ ?_
  · exact wp_granted h fun a => ⟨h.quiet (hstopped a), a, rfl⟩
  rintro _ es' h' ⟨a, rfl⟩
  -- the line comes last, whether the usage is taken in before it or not
  have hreport : ∀ pre, (∀ e ∈ pre, Quiet e) →
      (orderly chunks).wp (report_line status (some (finish_text g))) Q (es ++ pre) :=
    fun pre hpre =>
    wp_report_line (h.quiet hpre) (hs.quiet hpre) fun line => hQ pre line hpre
  by_cases husage : g.usage ≠ []
  · rw [if_pos husage]
    have hpre : ∀ b, ∀ e ∈ [(⟨.set_stopped, .ok a⟩ : Event Turns), ⟨.take_usage g.usage, .ok b⟩],
        Quiet e := fun b =>
      List.forall_mem_cons.mpr ⟨⟨rfl, rfl, rfl⟩, List.forall_mem_singleton.mpr ⟨rfl, rfl, rfl⟩⟩
    refine Tally.wp_bind (R := fun _ es' => ∃ b,
      es' = es ++ [⟨.set_stopped, .ok a⟩, ⟨.take_usage g.usage, .ok b⟩]) ?_ ?_
    · refine wp_granted h' fun b => ?_
      rw [List.append_assoc]
      exact ⟨h.quiet (hpre b), b, rfl⟩
    · rintro _ _ _ ⟨b, rfl⟩
      exact hreport _ (hpre b)
  · rw [if_neg husage]
    exact hreport _ (hstopped a)

/-- How the thread that reads ends. -/
def outcome (chunks : List Chunk) : Option Failure → Except Failure (Option Gathered)
  | some e => .error e
  | none => .ok (some (gather chunks))

/-- The status of its last line. -/
def last_status (broken : Option Failure) : String := if broken.isSome then "error" else "complete"

/-- A whole stream: it begins with a line, reads the chunks up to the break, and ends with a line of
what came of it. -/
theorem wp_stream_once (chunks : List Chunk) (broken : Option Failure) :
    (orderly chunks).wp (stream_once chunks broken) (fun r es => r = outcome chunks broken ∧
      ∃ first pre last, (∀ e ∈ pre, Quiet e) ∧
        es = reporting "started" none first ++ taking chunks ++ pre ++
        reporting (last_status broken) (some (finish_text (gather chunks))) last) [] := by
  have hnil : Orderly chunks [] := ⟨List.prefix_refl _, List.nil_prefix⟩
  have hsettled : Settled [] := rfl
  refine Tally.wp_bind (R := fun _ es => ∃ first, es = reporting "started" none first) ?_ ?_
  · exact wp_report_line hnil hsettled fun line => ⟨line, rfl⟩
  rintro _ _ hfirst ⟨first, rfl⟩
  -- the first line has taken nothing in, so that all the chunks are still to come
  have hread : (reporting "started" none first).filterMap observed ++ chunks <+: chunks :=
    List.prefix_refl _
  have hsettled' := (hsettled.reporting "started" none first).taking chunks
  rw [List.nil_append] at hsettled'
  refine Tally.wp_bind (R := fun g es => g = gather chunks ∧
    es = reporting "started" none first ++ taking chunks) ?_ ?_
  · refine Tally.wp_mono (wp_read chunks .empty hfirst hread) ?_
    rintro r es _ ⟨rfl, rfl⟩
    exact ⟨rfl, rfl⟩
  rintro g _ htaken ⟨rfl, rfl⟩
  -- the last line is reported either way; only then is the exception raised again
  cases broken with
  | some e =>
    refine Tally.wp_bind (R := fun _ es => ∃ pre last, (∀ e ∈ pre, Quiet e) ∧
      es = reporting "started" none first ++
      taking chunks ++ pre ++ reporting "error" (some (finish_text (gather chunks))) last) ?_ ?_
    · exact wp_stop htaken hsettled' fun pre last hpre => ⟨pre, last, hpre, rfl⟩
    · rintro _ es hes ⟨pre, last, hpre, rfl⟩
      exact Tally.wp_throw _ hes ⟨rfl, first, pre, last, hpre, rfl⟩
  | none =>
    refine Tally.wp_bind (R := fun _ es => ∃ pre last, (∀ e ∈ pre, Quiet e) ∧
      es = reporting "started" none first ++
      taking chunks ++ pre ++ reporting "complete" (some (finish_text (gather chunks))) last) ?_ ?_
    · exact wp_stop htaken hsettled' fun pre last hpre => ⟨pre, last, hpre, rfl⟩
    · rintro _ es hes ⟨pre, last, hpre, rfl⟩
      exact Tally.wp_pure _ hes ⟨rfl, first, pre, last, hpre, rfl⟩

/-! ## Both threads -/

section both

variable {l : List (Bool × Event Turns)}

/-- What is told in a log is told by one of the two threads. -/
theorem mem_filterMap_own {β : Type} {f : Event Turns → Option β} {x : β} :
    x ∈ (l.map Prod.snd).filterMap f ↔ ∃ i, x ∈ (Conf.own i l).filterMap f := by
  simp only [List.mem_filterMap, List.mem_map, Conf.mem_own]
  constructor
  · rintro ⟨e, ⟨⟨i, e'⟩, he, rfl⟩, hx⟩
    exact ⟨i, e', he, hx⟩
  · rintro ⟨i, e, he, hx⟩
    exact ⟨e, ⟨(i, e), he, rfl⟩, hx⟩

/-- When the heartbeat tells nothing of the kind, the reader tells it all. -/
theorem filterMap_own {β : Type} {f : Event Turns → Option β}
    (h : (Conf.own false l).filterMap f = []) :
    (l.map Prod.snd).filterMap f = (Conf.own true l).filterMap f := by
  induction l with
  | nil => rfl
  | cons ie l ih =>
    obtain ⟨i, e⟩ := ie
    cases i with
    | true =>
      rw [Conf.own_cons_ne (by simp)] at h
      rw [Conf.own_cons_self, List.map_cons, List.filterMap_cons, List.filterMap_cons, ih h]
    | false =>
      rw [Conf.own_cons_self, List.filterMap_cons] at h
      rw [Conf.own_cons_ne (by simp), List.map_cons, List.filterMap_cons]
      -- a call of the heartbeat is none of those
      cases he : f e with
      | none =>
        rw [he] at h
        exact ih h
      | some x =>
        rw [he] at h
        cases h

/-- What the threads counted, together. -/
theorem sum_own (f : Event Turns → Option (Counts × ℤ)) :
    (((l.map Prod.snd).filterMap f).map Prod.snd).sum =
      (((Conf.own true l).filterMap f).map Prod.snd).sum +
        (((Conf.own false l).filterMap f).map Prod.snd).sum := by
  induction l with
  | nil => rfl
  | cons ie l ih =>
    obtain ⟨i, e⟩ := ie
    cases i with
    | true =>
      rw [Conf.own_cons_self, Conf.own_cons_ne (by simp), List.map_cons, List.filterMap_cons,
        List.filterMap_cons]
      cases f e with
      | none => exact ih
      | some x =>
        simp only [List.map_cons, List.sum_cons, ih]
        omega
    | false =>
      rw [Conf.own_cons_self, Conf.own_cons_ne (by simp), List.map_cons, List.filterMap_cons,
        List.filterMap_cons]
      cases f e with
      | none => exact ih
      | some x =>
        simp only [List.map_cons, List.sum_cons, ih]
        omega

end both

/-- A part of the stream counts for no more than the whole of it. -/
theorem est_of_prefix {cs : List Chunk} (h : cs <+: chunks) (n : Counts) :
    (cs.foldl Counts.add n).est ≤ (chunks.foldl Counts.add n).est := by
  obtain ⟨ds, rfl⟩ := h
  rw [List.foldl_append]
  -- counting further only adds
  generalize cs.foldl Counts.add n = m
  induction ds generalizing m with
  | nil => exact le_refl _
  | cons d ds ih => exact (est_le_add m d).trans (ih _)

/-- The parts of a sum of positive terms are no more than the sum. -/
theorem sum_le_of_prefix {xs ys : List (Counts × ℤ)} (h : xs <+: ys) (hy : ∀ y ∈ ys, 0 ≤ y.2) :
    (xs.map Prod.snd).sum ≤ (ys.map Prod.snd).sum := by
  obtain ⟨zs, rfl⟩ := h
  have hz : 0 ≤ (zs.map Prod.snd).sum := by
    refine List.sum_nonneg fun z hz => ?_
    obtain ⟨y, hmem, rfl⟩ := List.mem_map.mp hz
    exact hy y (List.mem_append_right _ hmem)
  rw [List.map_append, List.sum_append]
  omega

/-! ## The text -/

theorem length_text_choice (g : Gathered) (c : Choice) :
    (g.choice c).text.length = g.text.length + chars ((c.delta.bind Delta.content).toList) := by
  unfold Gathered.choice Gathered.text
  cases c.delta.bind Delta.content with
  | none => rfl
  | some content =>
    by_cases hempty : content = ""
    · simp [hempty, chars]
    · simp [hempty, chars, String.join_append]

theorem length_text_choices (choices : List Choice) (g : Gathered) :
    (choices.foldl Gathered.choice g).text.length =
      g.text.length + chars ((choices.filterMap Choice.delta).filterMap Delta.content) := by
  induction choices generalizing g with
  | nil => rfl
  | cons c choices ih =>
    rw [List.foldl_cons, ih, length_text_choice, List.filterMap_cons]
    cases c.delta with
    | none => simp [chars]
    | some d =>
      cases hd : d.content with
      | none => simp [chars, hd]
      | some content =>
        simp only [Option.bind_some, hd, Option.toList_some, chars, List.filterMap_cons,
          List.map_cons, List.sum_cons, List.map_nil, List.sum_nil]
        omega

/-- The characters counted are those of the text. -/
theorem length_text (chunks : List Chunk) :
    (gather chunks).text.length = (counted chunks).content_chars := by
  -- by induction on the chunks, from any text that has been counted so far
  have hall : ∀ (g : Gathered) (n : Counts), g.text.length = n.content_chars →
      (chunks.foldl Gathered.chunk g).text.length = (chunks.foldl Counts.add n).content_chars := by
    induction chunks with
    | nil => exact fun g n h => h
    | cons c chunks ih =>
      intro g n h
      refine ih (g.chunk c) (n.add c) ?_
      rw [Gathered.chunk, length_text_choices, Counts.add, ← h]
      rfl
  exact hall _ _ rfl

/-! ## The report of a stream -/

/-- What is proved of a finished program is proved of how it ended. -/
theorem wp_done {T : Tally Turns (List (Event Turns))} {α : Type} {p : Prog Turns α}
    {Q : Except Failure α → List (Event Turns) → Prop} (h : T.wp p Q es) (hp : p.Done) :
    ∃ r, p = Prog.ended r ∧ Q r es := by
  cases p with
  | ret a => exact ⟨.ok a, rfl, h.2⟩
  | raise e => exact ⟨.error e, rfl, h.2⟩
  | call c k => exact hp.elim

/-- A line that was given out is among the reported ones. -/
theorem mem_reported {s s' : Progress} {line : Line} {r : Except Failure Unit}
    (h : Answered answer s es s') (hmem : (⟨.report line, r⟩ : Event Turns) ∈ es) :
    line ∈ s'.reported := by
  obtain ⟨es₁, es₂, t, -, -, -, hrest⟩ := h.mem hmem
  -- what has been reported stays reported
  refine hrest.induction (P := fun s =>
    line ∈ s.reported) (List.mem_append_right _ (List.mem_singleton_self line)) ?_
  intro e _ t ht
  cases e.1 with
  | report line' => exact List.mem_append_left _ ht
  | _ => exact ht

/-- Once the stream has ended, its last line has been reported, it counts all chunks, and so does
the mark. -/
theorem last_report {l : List (Bool × Event Turns)} {s : Progress} {first last : Line}
    {pre : List (Event Turns)} {status : String} {finish_reason : Option String}
    (h : Answered answer .empty (l.map Prod.snd) s) (hpre : ∀ e ∈ pre, Quiet e)
    (hlog : Conf.own true l = reporting "started" none first ++ taking chunks ++ pre ++
      reporting status finish_reason last) (hnone : (Conf.own false l).filterMap observed = []) :
    ({ last with status := status, finish_reason := finish_reason } : Line) ∈ s.reported ∧
      last.counts = counted chunks ∧
      (s.marked_tokens : ℤ) = (counted chunks).est := by
  have hcut : Conf.own true l = (reporting "started" none first ++ taking chunks ++ pre) ++
      (⟨.snapshot status, .ok last⟩ : Event Turns) ::
        [⟨.report { last with finish_reason := finish_reason }, .ok ()⟩] := hlog
  -- the run is cut at the last snapshot of the stream; the heartbeat may still go on after it
  obtain ⟨l₁, l₂, rfl, hown₁, hown₂⟩ := Conf.own_split hcut
  rw [Conf.own_append, Conf.own_cons_ne (by simp), List.filterMap_append,
    List.append_eq_nil_iff] at hnone
  rw [List.map_append, List.map_cons] at h
  obtain ⟨t, h₁, hrest⟩ := h.split
  obtain ⟨hlast, h₂⟩ := hrest.of_cons
  have hsnap : last = (t.snapshot status).1 := Except.ok.inj hlast
  -- all the chunks were taken in before the cut, and none after it
  have hbefore : (l₁.map Prod.snd).filterMap observed = chunks := by
    rw [filterMap_own hnone.1, hown₁, filterMap_quiet fun e he => (hpre e he).2.2,
      List.filterMap_append, observed_taking]
    rfl
  have hafter : (l₂.map Prod.snd).filterMap observed = [] := by
    rw [filterMap_own hnone.2, hown₂]
    rfl
  have hcounts : t.counts = counted chunks := by
    rw [(took_of_answered h₁).counts, hbefore]
    rfl
  -- after the cut nothing is counted, so no later snapshot moves the mark
  have hlate := took_of_answered h₂
  obtain ⟨hle, hpos⟩ := hlate.bounded (le_refl _)
  have hsame : s.counts = t.counts := by
    rw [hlate.counts, hafter]
    rfl
  have hsum : 0 ≤ (((l₂.map Prod.snd).filterMap taken).map Prod.snd).sum := by
    refine List.sum_nonneg fun z hz => ?_
    obtain ⟨y, hmem, rfl⟩ := List.mem_map.mp hz
    exact hpos y hmem
  have hmark := hlate.marked
  change (s.marked_tokens : ℤ) = (t.counts.est : ℤ) + _ at hmark
  rw [hsame] at hle
  refine ⟨?_, ?_, ?_⟩
  · have hreport : (⟨.report { last with finish_reason := finish_reason }, .ok ()⟩ : Event Turns) ∈
        l₂.map Prod.snd := by
      have hmem : (⟨.report { last with finish_reason := finish_reason }, .ok ()⟩ : Event Turns) ∈
          Conf.own true l₂ := by
        rw [hown₂]
        exact List.mem_singleton_self _
      exact List.mem_map.mpr ⟨_, Conf.mem_own.mp hmem, rfl⟩
    have hline := mem_reported h₂ hreport
    rw [hsnap] at hline ⊢
    exact hline
  · rw [hsnap]
    exact hcounts
  · rw [← hcounts]
    omega

/-- **Progress adds up.** However the two threads take turns, no line counts part of a chunk,
nothing that arrived is told twice, and when both are done the lines together tell all that arrived,
the last of the stream among them. -/
theorem progress_adds_up (chunks : List Chunk) (broken : Option Failure) (beats : ℕ)
    (sched : List Bool) :
    (∀ line ∈ (progress chunks broken beats sched).state.reported,
      0 ≤ line.since_tokens ∧ ∃ cs, cs <+: chunks ∧ line.counts = counted cs) ∧
    ((progress chunks broken beats sched).state.reported.map Line.since_tokens).sum ≤
      (counted chunks).est ∧
    ((progress chunks broken beats sched).Finished →
      ((progress chunks broken beats sched).state.reported.map Line.since_tokens).sum =
        (counted chunks).est ∧
      (progress chunks broken beats sched).prog true = Prog.ended (outcome chunks broken) ∧
      ∃ line ∈ (progress chunks broken beats sched).state.reported,
        line.status = last_status broken ∧
        line.finish_reason = some (finish_text (gather chunks)) ∧ line.counts = counted chunks ∧
        line.counts.content_chars = (gather chunks).text.length) := by
  obtain ⟨l, -, htrace, hanswered⟩ := Conf.exec_trace answer
    (Conf.start (fun i => if i then stream_once chunks broken else heartbeat beats) .empty) sched
  change (∀ i, Trace _ _ ((progress chunks broken beats sched).prog i)) at htrace
  change Answered answer .empty _ (progress chunks broken beats sched).state at hanswered
  generalize progress chunks broken beats sched = c at htrace hanswered ⊢
  have htook := took_of_answered hanswered
  -- no call fails, so both threads go by their own specifications
  have hgranted : ∀ i, ∀ e ∈ Conf.own i l, Granted e := by
    intro i e he
    obtain ⟨es₁, es₂, t, -, -, heq, -⟩ :=
      hanswered.mem (List.mem_map.mpr ⟨_, Conf.mem_own.mp he, rfl⟩)
    rw [Granted, heq]
    cases e.1 with
    | _ => exact ⟨_, rfl⟩
  have hread := Tally.recording_trace (htrace true) (wp_stream_once chunks broken) (hgranted true)
  have hnil : Orderly [] [] := ⟨List.prefix_refl _, List.prefix_refl _⟩
  have hbeat := Tally.recording_trace (htrace false) (wp_heartbeat beats hnil rfl) (hgranted false)
  obtain ⟨htold, hobserved⟩ := Tally.wp_holds hread
  obtain ⟨htold', hnone⟩ := Tally.wp_holds hbeat
  -- all that is taken in is taken in by the thread that reads
  have hall := filterMap_own (List.prefix_nil.mp hnone)
  obtain ⟨hmarked, hpos⟩ := htook.bounded (le_refl _)
  have hown : ∀ i, ∀ x ∈ (Conf.own i l).filterMap taken, 0 ≤ x.2 :=
    fun i x hx => hpos x (mem_filterMap_own.mpr ⟨i, hx⟩)
  have hest : c.state.counts.est ≤ (counted chunks).est := by
    rw [htook.counts, hall]
    exact est_of_prefix hobserved _
  -- the mark is the sum of what was taken down, by either thread
  have hsum := htook.marked
  rw [sum_own taken] at hsum
  -- and so is the report the sum of what was told
  have hreported : (c.state.reported.map Line.since_tokens).sum =
      (((Conf.own true l).filterMap told).map Prod.snd).sum +
        (((Conf.own false l).filterMap told).map Prod.snd).sum := by
    have htotal := congrArg (List.map Prod.snd) htook.told
    rw [List.map_map] at htotal
    rw [← sum_own told]
    exact congrArg List.sum htotal
  refine ⟨fun line hline => ?_, ?_, fun hdone => ?_⟩
  -- a line that was told was taken down by the same thread, some time before
  · have hsaid : line.said ∈ (l.map Prod.snd).filterMap told := by
      have hmem := List.mem_map_of_mem (f := Line.said) hline
      rwa [htook.told] at hmem
    obtain ⟨i, hi⟩ := mem_filterMap_own.mp hsaid
    have hsnap : line.said ∈ (l.map Prod.snd).filterMap taken := by
      cases i with
      | true => exact mem_filterMap_own.mpr ⟨true, htold.subset hi⟩
      | false => exact mem_filterMap_own.mpr ⟨false, htold'.subset hi⟩
    obtain ⟨cs, hcs, heq⟩ := htook.exact _ hsnap
    rw [hall] at hcs
    exact ⟨hpos _ hsnap, cs, hcs.trans hobserved, heq⟩
  -- each thread has told a part of what it took down
  · have htrue := sum_le_of_prefix htold (hown true)
    have hfalse := sum_le_of_prefix htold' (hown false)
    rw [hreported]
    change ((c.state.marked_tokens : ℕ) : ℤ) = ((0 : ℕ) : ℤ) + _ at hsum
    omega
  -- at the end each has told all of it
  · obtain ⟨r, hprog, rfl, first, pre, last, hpre, hlog⟩ := wp_done hread (hdone true)
    obtain ⟨-, -, hsettled'⟩ := wp_done hbeat (hdone false)
    have hsettled : Settled (Conf.own true l) := by
      have hstart : Settled [] := rfl
      rw [hlog]
      exact (((hstart.reporting "started" none first).taking chunks).quiet hpre).reporting _ _ last
    obtain ⟨hlast, hcounts, hend⟩ := last_report hanswered hpre hlog (List.prefix_nil.mp hnone)
    refine ⟨?_, hprog, _, hlast, rfl, rfl, hcounts, ?_⟩
    · rw [hreported, hsettled, hsettled', ← hend]
      change ((c.state.marked_tokens : ℕ) : ℤ) = ((0 : ℕ) : ℤ) + _ at hsum
      omega
    · rw [length_text]
      exact congrArg Counts.content_chars hcounts

end Memline.relay
