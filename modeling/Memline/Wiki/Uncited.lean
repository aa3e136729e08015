/-
The uncited passages of a draft.

Each block has one piece that no packet takes: the whole of it where nothing is cited, and otherwise
what stands behind its last citation. A piece that reads like prose goes to the reviewer, and
whether it does is told from how it begins, or from whether all of its lines begin with a hash. A
piece that is passed over may hold prose: behind a closed fence, or behind hashes that open no
heading.
-/
import Memline.Wiki.Packets

set_option autoImplicit false

namespace Memline.wiki.draft

open Regex Mem0

/-! ## Pieces -/

/-- What no packet takes of a block, and where it starts. -/
def uncited_piece (e : ℕ × List Char) : ℕ × List Char :=
  match (citation_groups e.2).getLast? with
  | none => e
  | some last => (e.1 + last.stop, e.2.drop last.stop)

def pieces (draft : List Char) : List (ℕ × List Char) := (blocks draft).map uncited_piece

def plain (e : ℕ × List Char) : Bool := plain_passage (String.ofList e.2)

/-- The pieces that are noted as uncited passages. -/
def recorded (draft : List Char) : List (ℕ × List Char) := (pieces draft).filter plain

/-- A passage is noted for a piece. -/
def Notes (draft : List Char) (e : ℕ × List Char) (p : Passage) : Prop :=
  p.line = line_at draft e.1 ∧ p.text = strip e.2

section uncited

variable {draft : List Char} {i : EvidenceIndex}

/-- Whether a passage reads like prose does not depend on the blanks about it. -/
theorem plain_strip (l : List Char) :
    plain_passage (strip l) = plain_passage (String.ofList l) := by
  rw [plain_passage, strip, strip_strip]
  rfl

/-- Every line begins with a hash, or is blank. -/
def Hashes (l : List Char) : Prop :=
  ∀ line ∈ ledger.splitlines (strip l), Mem0.strip line ≠ "" →
    starts_with (Mem0.strip line) "#" = true

/-- A piece is passed over if it begins with a fence, or if its lines all begin with a hash. -/
theorem plain_eq_false_iff (e : ℕ × List Char) :
    plain e = false ↔ starts_with (strip e.2) "\x60\x60\x60" = true ∨ Hashes e.2 := by
  have hlines : (((ledger.splitlines (strip e.2)).map Mem0.strip).filter fun line =>
      decide (line ≠ "")).any (fun line => !starts_with line "#") = false ↔ Hashes e.2 := by
    simp [Hashes]
  have hempty : strip e.2 = "" → Hashes e.2 := by
    intro h line hline
    rw [h] at hline
    cases hline
  rw [plain, plain_passage]
  dsimp only
  rw [← strip]
  split
  · rename_i hskip
    rw [Bool.or_eq_true, decide_eq_true_eq] at hskip
    exact iff_of_true rfl (hskip.elim (fun h => .inr (hempty h)) .inl)
  · rename_i hread
    rw [Bool.or_eq_true, not_or] at hread
    rw [hlines]
    exact (or_iff_right hread.2).symm

/-- A piece is noted if it reads like prose. -/
theorem noted (s : Packets) (e : ℕ × List Char) :
    ∃ ps, (if plain e then note_uncited draft s e.1 (strip e.2) else s).uncited = s.uncited ++ ps ∧
      List.Forall₂ (Notes draft) ([e].filter plain) ps := by
  by_cases hplain : plain e = true
  · rw [List.filter_cons_of_pos hplain, if_pos hplain]
    exact ⟨_, rfl, .cons ⟨rfl, rfl⟩ .nil⟩
  · rw [List.filter_cons_of_neg hplain, if_neg hplain]
    exact ⟨[], (List.append_nil _).symm, .nil⟩

/-- One block notes its uncited piece, if that reads like prose. -/
theorem review_block_uncited (s : Packets) (e : ℕ × List Char) :
    ∃ ps, (review_block draft i s e).uncited = s.uncited ++ ps ∧
      List.Forall₂ (Notes draft) ([uncited_piece e].filter plain) ps := by
  obtain ⟨off, block⟩ := e
  rw [review_block, uncited_piece]
  dsimp only
  cases (citation_groups block).getLast? with
  | none => exact noted s (off, block)
  | some last =>
    dsimp only
    rw [plain_strip]
    exact noted { s with packets := _ } (off + last.stop, block.drop last.stop)

/-- All blocks note their uncited pieces, in their order. -/
theorem review_blocks_uncited (s : Packets) (es : List (ℕ × List Char)) :
    ∃ ps, (es.foldl (review_block draft i) s).uncited = s.uncited ++ ps ∧
      List.Forall₂ (Notes draft) ((es.map uncited_piece).filter plain) ps := by
  induction es generalizing s with
  | nil => exact ⟨[], (List.append_nil _).symm, .nil⟩
  | cons e es ih =>
    obtain ⟨ps, hps, hall⟩ := @review_block_uncited draft i s e
    obtain ⟨qs, hqs, hall'⟩ := ih (review_block draft i s e)
    refine ⟨ps ++ qs, by rw [List.foldl_cons, hqs, hps, List.append_assoc], ?_⟩
    have hsplit : ((e :: es).map uncited_piece).filter plain =
        [uncited_piece e].filter plain ++ (es.map uncited_piece).filter plain := by
      rw [List.map_cons, ← List.filter_append, List.singleton_append]
    rw [hsplit]
    exact List.rel_append hall hall'

end uncited

section bundle

variable {rt : Runtime} {cls : Classes} {domains : Option (List String)} {draft_markdown : String}
    {b : bundle.Bundle}
  {claims_manifest approved_topic : Option Py.Dict} {draft_name : Option String} {r : ReviewBundle}

/-- The uncited passages are the pieces that read like prose, in order. -/
theorem uncited_recorded
    (h : build_review_bundle rt cls domains draft_markdown b claims_manifest approved_topic
      draft_name = .ok r) :
    List.Forall₂ (Notes draft_markdown.toList) (recorded draft_markdown.toList)
      r.uncited_passages := by
  obtain ⟨ps, hps, hall⟩ :=
    @review_blocks_uncited draft_markdown.toList (evidence_index b) {}
      (blocks draft_markdown.toList)
  rw [(claim_packets_eq h).2, hps]
  exact hall

end bundle

/-! ## Lines -/

/-- A line of a draft, and where it starts. -/
def Line (draft : List Char) (start : ℕ) (line : List Char) : Prop :=
  ∃ before after, draft = before ++ line ++ after ∧ before.length = start ∧ '\n' ∉ line ∧
    (before = [] ∨ before.getLast? = some '\n') ∧ (after = [] ∨ after.head? = some '\n')

/-- One to six hashes, and then a blank or nothing. -/
def is_heading (line : List Char) : Bool :=
  let stripped := (strip line).toList
  let hashes := (stripped.takeWhile (· == '#')).length
  1 ≤ hashes && hashes ≤ 6 && (stripped.drop hashes).head?.all isspace

/-- Three backticks open or close a fence. -/
def is_fence (line : List Char) : Bool := starts_with (strip line) "\x60\x60\x60"

/-- The line is a fence, or a fence before it is open. -/
def Fenced (draft : List Char) (start : ℕ) (line : List Char) : Prop :=
  is_fence line = true ∨ ((draft.take start).splitOn '\n').countP is_fence % 2 = 1

instance (draft : List Char) (start : ℕ) (line : List Char) : Decidable (Fenced draft start line) :=
  inferInstanceAs (Decidable (_ ∨ _))

structure Prose (draft : List Char) (start : ℕ) (line : List Char) : Prop where
  is_line : Line draft start line
  not_blank : ¬ Blank line
  not_heading : is_heading line = false
  not_fenced : ¬ Fenced draft start line

/-! ## Where the packets stand -/

/-- The part of a draft that a packet takes, and the packet's text. -/
structure Stretch where
  start : ℕ
  stop : ℕ
  text : String

def packet_stretches (off : ℕ) (block : List Char) : ℕ → List Group → List Stretch
  | _, [] => []
  | cursor, g :: groups =>
    ⟨off + cursor, off + g.stop, strip (slice block cursor g.start)⟩ ::
      packet_stretches off block g.stop groups

/-- From the preceding group of citations, or the start of the block, to the end of a packet's
own. -/
def stretches (draft : List Char) : List Stretch :=
  (blocks draft).flatMap fun e => packet_stretches e.1 e.2 0 (citation_groups e.2)

/-- A line is in no packet's text or citations. -/
def Apart (draft : List Char) (start : ℕ) (line : List Char) : Prop :=
  ∀ s ∈ stretches draft, start + line.length ≤ s.start ∨ s.stop ≤ start

/-- A line is in the text of an uncited passage, and in the piece that the passage was noted for. -/
def Shown (draft : List Char) (passages : List Passage) (start : ℕ) (line : List Char) : Prop :=
  ∃ e p, (e, p) ∈ (recorded draft).zip passages ∧ Notes draft e p ∧ e.1 ≤ start ∧
    start + line.length ≤ e.1 + e.2.length ∧
    (strip line).toList <:+: p.text.toList

section stretches

variable {draft : List Char}

/-- The last of ordered groups ends within the block. -/
theorem ordered_last {stop cursor : ℕ} {gs : List Group} (h : Ordered stop cursor gs) {last : Group}
    (hlast : gs.getLast? = some last) : cursor ≤ last.stop ∧ last.stop ≤ stop := by
  induction gs generalizing cursor with
  | nil => cases hlast
  | cons g gs ih =>
    obtain ⟨hcursor, hlt, hrest⟩ := h
    cases gs with
    | nil =>
      rw [List.getLast?_singleton, Option.some.injEq] at hlast
      rw [← hlast]
      exact ⟨by omega, hrest⟩
    | cons g' gs =>
      rw [List.getLast?_cons_cons] at hlast
      obtain ⟨hge, hle⟩ := ih hrest hlast
      exact ⟨by omega, hle⟩

/-- Where a packet stands in its block. -/
theorem stretch_bounds {off : ℕ} {block : List Char} {cursor : ℕ} {gs : List Group}
    (h : Ordered block.length cursor gs) {last : Group} (hlast : gs.getLast? = some last)
    {s : Stretch} (hs : s ∈ packet_stretches off block cursor gs) :
    off + cursor ≤ s.start ∧ s.start < s.stop ∧ s.stop ≤ off + last.stop := by
  induction gs generalizing cursor with
  | nil => cases hs
  | cons g gs ih =>
    obtain ⟨hcursor, hlt, hrest⟩ := h
    cases gs with
    | nil =>
      rw [List.getLast?_singleton, Option.some.injEq] at hlast
      rw [List.mem_singleton.mp hs, ← hlast]
      exact ⟨le_rfl, by dsimp only; omega, le_rfl⟩
    | cons g' gs =>
      rw [List.getLast?_cons_cons] at hlast
      rcases List.mem_cons.mp hs with rfl | hs
      · have hge := (ordered_last hrest hlast).1
        exact ⟨le_rfl, by dsimp only; omega, by dsimp only; omega⟩
      · obtain ⟨hstart, hs', hle⟩ := ih hrest hlast hs
        exact ⟨by omega, hs', hle⟩

/-- The packets of a block stand side by side, from its start up to its last citation. -/
theorem stretch_of_lt {off : ℕ} {block : List Char} {cursor : ℕ} {gs : List Group} {last : Group}
    (hlast : gs.getLast? = some last) {x : ℕ} (hge : off + cursor ≤ x) (hlt : x < off + last.stop) :
    ∃ s ∈ packet_stretches off block cursor gs, s.start ≤ x ∧ x < s.stop := by
  induction gs generalizing cursor with
  | nil => cases hlast
  | cons g gs ih =>
    by_cases hhere : x < off + g.stop
    · exact ⟨_, List.mem_cons_self, hge, hhere⟩
    · cases gs with
      | nil =>
        rw [List.getLast?_singleton, Option.some.injEq] at hlast
        rw [hlast] at hhere
        exact absurd hlt hhere
      | cons g' gs =>
        rw [List.getLast?_cons_cons] at hlast
        obtain ⟨s, hs, hin⟩ := @ih g.stop hlast (by omega)
        exact ⟨s, List.mem_cons_of_mem _ hs, hin⟩

/-- The blocks are the pieces that are not blank. -/
theorem mem_blocks {e : ℕ × List Char} :
    e ∈ blocks draft ↔ e ∈ (finditer BLOCK draft).map piece ∧ strip e.2 ≠ "" := by
  rw [blocks, List.mem_filter, decide_eq_true_eq]

/-- Where a piece stands in the draft. -/
theorem piece_within {t : ℕ × List Char} (ht : t ∈ blocks draft) :
    ∃ a b, draft = a ++ (uncited_piece t).2 ++ b ∧ (uncited_piece t).1 = 0 + a.length := by
  obtain ⟨a, b, hdraft, hstart⟩ := (tiles_draft draft).within (mem_blocks.mp ht).1
  rw [uncited_piece]
  split
  · exact ⟨a, b, hdraft, hstart⟩
  · rename_i last hlast
    have hend := (ordered_last (cut_block t.2).2 hlast).2
    refine ⟨a ++ t.2.take last.stop, b, ?_, ?_⟩
    · rw [List.append_assoc a, List.take_append_drop, ← hdraft]
    · rw [List.length_append, List.length_take_of_le hend, hstart]
      omega

/-- A line between the ends of a stretch of the draft is in it. -/
theorem line_of_cuts {before line after : List Char} (hdraft : draft = before ++ line ++ after)
    {e : ℕ × List Char} (he : ∃ a b, draft = a ++ e.2 ++ b ∧ e.1 = 0 + a.length)
    (hge : e.1 ≤ before.length) (hle : before.length + line.length ≤ e.1 + e.2.length) :
    line <:+: e.2 := by
  obtain ⟨a, b, hwhole, hstart⟩ := he
  have hlen := congrArg List.length (hwhole.symm.trans hdraft)
  simp only [List.length_append] at hlen
  exact Lists.infix_of_cuts (hwhole.symm.trans hdraft) (by omega) (by omega)

/-- What stands in a piece stands in its block. -/
theorem block_of_piece {t : ℕ × List Char} {x y : ℕ} (hxy : x < y)
    (h : (uncited_piece t).1 ≤ x ∧ y ≤ (uncited_piece t).1 + (uncited_piece t).2.length) :
    t.1 ≤ x ∧ y ≤ t.1 + t.2.length := by
  rw [uncited_piece] at h
  split at h
  · exact h
  · rw [List.length_drop] at h
    dsimp only at h
    omega

/-- What stands in a block and in no packet stands in the block's piece. -/
theorem piece_of_block {t : ℕ × List Char} (ht : t ∈ blocks draft) {start : ℕ} {line : List Char}
    (hne : line ≠ []) (h : t.1 ≤ start ∧ start + line.length ≤ t.1 + t.2.length)
    (hapart : Apart draft start line) :
    (uncited_piece t).1 ≤ start ∧
      start + line.length ≤ (uncited_piece t).1 + (uncited_piece t).2.length := by
  have hpos := List.length_pos_of_ne_nil hne
  rw [uncited_piece]
  split
  · exact h
  · rename_i last hlast
    have hbehind : t.1 + last.stop ≤ start := by
      by_contra hlt
      obtain ⟨s, hs, hin⟩ := @stretch_of_lt t.1 t.2 0 _ last hlast start (by omega) (by omega)
      have hor := hapart s (List.mem_flatMap.mpr ⟨t, ht, hs⟩)
      omega
    rw [List.length_drop]
    dsimp only
    omega

/-- What stands in a piece stands in no packet. -/
theorem apart_of_piece {t : ℕ × List Char} (ht : t ∈ blocks draft) {start : ℕ} {line : List Char}
    (hne : line ≠ []) (h : (uncited_piece t).1 ≤ start ∧
      start + line.length ≤ (uncited_piece t).1 + (uncited_piece t).2.length) :
    Apart draft start line := by
  have hpos := List.length_pos_of_ne_nil hne
  have hblock := block_of_piece (by omega) h
  intro s hs
  obtain ⟨t', ht', hs⟩ := List.mem_flatMap.mp hs
  obtain ⟨last, hlast⟩ : ∃ last, (citation_groups t'.2).getLast? = some last := by
    cases hlast : (citation_groups t'.2).getLast? with
    | some last => exact ⟨last, rfl⟩
    | none =>
      rw [List.getLast?_eq_none_iff.mp hlast] at hs
      cases hs
  have hordered := (cut_block t'.2).2
  obtain ⟨hstart, hlt, hstop⟩ := stretch_bounds hordered hlast hs
  have hend := (ordered_last hordered hlast).2
  by_contra hor
  rw [not_or] at hor
  -- a place that the line and the packet share is one of both blocks
  have hsame : t = t' := by
    refine (tiles_draft draft).eq_of_overlap (mem_blocks.mp ht).1 (mem_blocks.mp ht').1
      (x := max start s.start) ?_ ?_
    · omega
    · omega
  rw [← hsame] at hlast hstop
  rw [uncited_piece, hlast] at h
  dsimp only at h
  omega

end stretches

/-! ## What is passed over -/

section bundle

variable {rt : Runtime} {cls : Classes} {domains : Option (List String)} {draft_markdown : String}
    {b : bundle.Bundle}
  {claims_manifest approved_topic : Option Py.Dict} {draft_name : Option String} {r : ReviewBundle}

theorem mem_zip_of_forall₂ {α β : Type} {R : α → β → Prop} {l : List α} {m : List β}
    (h : List.Forall₂ R l m) {x : α} (hx : x ∈ l) : ∃ y, (x, y) ∈ l.zip m ∧ R x y := by
  induction h with
  | nil => cases hx
  | @cons x' y' l m hR h ih =>
    rcases List.mem_cons.mp hx with rfl | hx
    · exact ⟨y', List.mem_cons_self, hR⟩
    · obtain ⟨y, hy, hR'⟩ := ih hx
      exact ⟨y, List.mem_cons_of_mem _ hy, hR'⟩

/-- A kind of lines that are not blank reaches the reviewer exactly when no piece that is passed
over has one. -/
theorem recorded_iff
    (h : build_review_bundle rt cls domains draft_markdown b claims_manifest approved_topic
      draft_name = .ok r)
    {Q : ℕ → List Char → Prop}
    (hQ : ∀ start line, Q start line → Line draft_markdown.toList start line ∧ ¬ Blank line) :
    (∀ start line, Q start line → Apart draft_markdown.toList start line →
      Shown draft_markdown.toList r.uncited_passages start line) ↔
      ∀ e ∈ pieces draft_markdown.toList, plain e = false →
        ∀ start line, e.1 ≤ start → start + line.length ≤ e.1 + e.2.length → ¬ Q start line := by
  have hne : ∀ {start line}, Q start line → line ≠ [] := by
    rintro start line hq rfl
    exact (hQ start [] hq).2 nofun
  constructor
  · intro hshown e he hplain start line hge hle hq
    obtain ⟨t, ht, rfl⟩ := List.mem_map.mp he
    have hpos := List.length_pos_of_ne_nil (hne hq)
    obtain ⟨e', p, hzip, -, hge', hle', -⟩ :=
      hshown start line hq (apart_of_piece ht (hne hq) ⟨hge, hle⟩)
    obtain ⟨hmem, hplain'⟩ := List.mem_filter.mp (List.of_mem_zip hzip).1
    obtain ⟨t', ht', rfl⟩ := List.mem_map.mp hmem
    -- two pieces with a line in common are one
    have hb := block_of_piece (t := t) (y := start + line.length) (by omega) ⟨hge, hle⟩
    have hb' := block_of_piece (t := t') (y := start + line.length) (by omega) ⟨hge', hle'⟩
    have hsame : t = t' := (tiles_draft _).eq_of_overlap (mem_blocks.mp ht).1 (mem_blocks.mp ht').1
      (x := start) (by omega) (by omega)
    rw [hsame, hplain'] at hplain
    cases hplain
  · intro hpassed start line hq hapart
    obtain ⟨⟨before, after, hdraft, rfl, hbreak, -, -⟩, hblank⟩ := hQ start line hq
    obtain ⟨t, ht, hge, hle⟩ := (tiles_draft draft_markdown.toList).line hdraft hbreak hblank
    rw [Nat.zero_add] at hge hle
    have hin :=
      line_of_cuts hdraft ((tiles_draft draft_markdown.toList).within ht) (by omega) (by omega)
    have hblock : t ∈ blocks draft_markdown.toList := by
      refine mem_blocks.mpr ⟨ht, ?_⟩
      intro hstrip
      have hb := strip_eq_empty_iff.mp hstrip
      rw [String.toList_ofList] at hb
      exact hblank fun c hc => hb c (hin.subset hc)
    obtain ⟨hge', hle'⟩ := piece_of_block hblock (hne hq) ⟨hge, hle⟩ hapart
    have hpiece : uncited_piece t ∈ pieces draft_markdown.toList :=
      List.mem_map.mpr ⟨t, hblock, rfl⟩
    by_cases hplain : plain (uncited_piece t) = true
    · obtain ⟨p, hzip, hnotes⟩ :=
        mem_zip_of_forall₂ (uncited_recorded h) (List.mem_filter.mpr ⟨hpiece, hplain⟩)
      refine ⟨uncited_piece t, p, hzip, hnotes, hge', hle', ?_⟩
      rw [hnotes.2]
      exact strip_infix (line_of_cuts hdraft (piece_within hblock) hge' hle')
    · exact absurd hq (hpassed _ hpiece (Bool.not_eq_true _ ▸ hplain) _ _ hge' hle')

/-- The packets are those of the stretches, in order. -/
theorem packets_stand
    (h : build_review_bundle rt cls domains draft_markdown b claims_manifest approved_topic
      draft_name = .ok r) :
    r.claim_packets.map Packet.text = (stretches draft_markdown.toList).map Stretch.text := by
  obtain ⟨pss, hpss, hall⟩ :=
    @review_blocks_packets draft_markdown.toList (evidence_index b) {}
      (blocks draft_markdown.toList)
  have htexts : ∀ off block cursor (gs : List Group),
      (packet_stretches off block cursor gs).map Stretch.text =
        (claims block cursor gs).map Prod.fst := by
    intro off block cursor gs
    induction gs generalizing cursor with
    | nil => rfl
    | cons g gs ih => rw [packet_stretches, List.map_cons, ih, claims, List.map_cons]
  rw [(claim_packets_eq h).1, hpss, List.nil_append, stretches, List.map_flatMap]
  clear hpss
  generalize blocks draft_markdown.toList = es at hall ⊢
  induction hall with
  | nil => rfl
  | @cons e ps es pss hps hall ih =>
    rw [List.flatten_cons, List.map_append, ih, List.flatMap_cons, htexts, ← hps, List.map_map]
    rfl

/-- **Uncited prose.** All of it reaches the reviewer exactly when the pieces that are passed over
hold none: no piece that begins with a fence, and none whose lines all begin with a hash. -/
theorem prose_shown_iff
    (h : build_review_bundle rt cls domains draft_markdown b claims_manifest approved_topic
      draft_name = .ok r) :
    (∀ start line, Prose draft_markdown.toList start line → Apart draft_markdown.toList start line →
      Shown draft_markdown.toList r.uncited_passages start line) ↔
      ∀ e ∈ pieces draft_markdown.toList, starts_with (strip e.2) "\x60\x60\x60" = true ∨
        Hashes e.2 →
        ∀ start line, e.1 ≤ start → start + line.length ≤ e.1 + e.2.length →
          ¬ Prose draft_markdown.toList start line := by
  rw [recorded_iff h fun _ _ hprose => ⟨hprose.is_line, hprose.not_blank⟩]
  exact forall₂_congr fun e _ => by rw [plain_eq_false_iff e]

end bundle

/-- The line at a place is what stands there up to the next line break. -/
theorem Line.eq {draft line : List Char} {start : ℕ} (h : Line draft start line) :
    line = (draft.drop start).takeWhile (fun c => c ≠ '\n') ∧
      (start = 0 ∨ (draft.take start).getLast? = some '\n') := by
  obtain ⟨before, after, rfl, rfl, hbreak, hbefore, hafter⟩ := h
  have hline : ∀ c ∈ line, decide (c ≠ '\n') = true := fun c hc =>
    decide_eq_true fun heq => hbreak (heq ▸ hc)
  constructor
  · rw [List.append_assoc, List.drop_left, List.takeWhile_append_of_pos hline]
    rcases hafter with rfl | hafter
    · simp
    · obtain ⟨after, rfl⟩ := List.head?_eq_some_iff.mp hafter
      simp
  · rcases hbefore with rfl | hbefore
    · exact .inl rfl
    · right
      rw [List.append_assoc, List.take_left]
      exact hbefore

/-- A block of code, two blank lines, a paragraph, and one with a citation and a tail. -/
def fenced_draft : String :=
  "\x60\x60\x60\ncode\n\x60\x60\x60\n\n\nSome prose.\nMore of it.\n\n" ++
    "A claim.^[sources/a] And a tail."

/-- Both passages of prose are shown, and the code is not. -/
theorem plain_prose_shown : ∃ r,
    build_review_bundle Runtime.plain Classes.ascii (some []) fenced_draft no_items none none none =
      .ok r ∧
      r.uncited_passages.map Passage.text = ["Some prose.\nMore of it.", "And a tail."] ∧
      ∀ start line, Prose fenced_draft.toList start line → Apart fenced_draft.toList start line →
        Shown fenced_draft.toList r.uncited_passages start line := by
  obtain ⟨r, hrun⟩ : ∃ r,
      build_review_bundle Runtime.plain Classes.ascii (some []) fenced_draft no_items none none
        none = .ok r :=
    ⟨_, rfl⟩
  refine ⟨r, hrun, ?_, (prose_shown_iff hrun).mpr ?_⟩
  · rw [(claim_packets_eq hrun).2]
    decide +kernel
  intro e he hplain start line hge hle hprose
  -- only the block of code is passed over
  have hpassed : ∀ e ∈ pieces fenced_draft.toList, plain e = false →
      e.1 + e.2.length ≤ 12 := by decide +kernel
  have hend := hpassed e he ((plain_eq_false_iff e).mpr hplain)
  have hfenced : ∀ start < 13, (start = 0 ∨ (fenced_draft.toList.take start).getLast? = some '\n') →
      Fenced fenced_draft.toList start ((fenced_draft.toList.drop start).takeWhile fun c =>
        c ≠ '\n') := by
    decide +kernel
  obtain ⟨hline, hstart⟩ := hprose.is_line.eq
  refine hprose.not_fenced ?_
  rw [hline]
  exact hfenced start (by omega) hstart

def behind_fence : String := "\x60\x60\x60\ncode\n\x60\x60\x60\nProse here."

/-- The prose behind a fence is shown nowhere. -/
theorem fence_hides_prose :
    ∃ r, build_review_bundle Runtime.plain Classes.ascii (some []) behind_fence no_items none none
      none = .ok r ∧
    r.claim_packets = [] ∧ r.uncited_passages = [] ∧
      Prose behind_fence.toList 13 "Prose here.".toList ∧
        Apart behind_fence.toList 13 "Prose here.".toList ∧
      ¬ Shown behind_fence.toList r.uncited_passages 13 "Prose here.".toList := by
  refine ⟨_, rfl, rfl, rfl,
    ⟨⟨"\x60\x60\x60\ncode\n\x60\x60\x60\n".toList, [], by decide, by decide, by decide,
      .inr (by decide), .inl rfl⟩, ?_,
    by decide +kernel, by decide +kernel⟩, ?_, ?_⟩
  · intro hblank
    exact absurd (hblank 'P' (by decide)) (by decide)
  · have hnone : stretches behind_fence.toList = [] := List.isEmpty_iff.mp (by decide +kernel)
    intro s hs
    rw [hnone] at hs
    cases hs
  · rintro ⟨e, p, hzip, -⟩
    have hnone : recorded behind_fence.toList = [] := List.isEmpty_iff.mp (by decide +kernel)
    have hmem := (List.of_mem_zip hzip).1
    rw [hnone] at hmem
    cases hmem

/-! ## Where passages stand -/

/-- Where the first character of a piece stands that is not blank. -/
def visible (e : ℕ × List Char) : ℕ := e.1 + (e.2.takeWhile isspace).length

/-- The passage that is noted for a piece begins where the piece does, and its line is the one that
this place is on. -/
structure Placed (draft : List Char) (e : ℕ × List Char) (p : Passage) : Prop where
  text : p.text.toList <+: draft.drop (visible e)
  line : p.line = line_at draft (visible e)

section placed

variable {draft : List Char} {e : ℕ × List Char}

theorem cut_visible (he : ∃ a b, draft = a ++ e.2 ++ b ∧ e.1 = 0 + a.length) :
    ∃ a b, draft = a ++ e.2.takeWhile isspace ++ (e.2.dropWhile isspace ++ b) ∧ e.1 = a.length := by
  obtain ⟨a, b, hdraft, hstart⟩ := he
  refine ⟨a, b, ?_, by omega⟩
  rw [hdraft, ← List.append_assoc, List.append_assoc a (e.2.takeWhile isspace),
    List.takeWhile_append_dropWhile]

/-- The text of a piece starts where it is visible. -/
theorem text_visible (he : ∃ a b, draft = a ++ e.2 ++ b ∧ e.1 = 0 + a.length) :
    (strip e.2).toList <+: draft.drop (visible e) := by
  obtain ⟨a, b, hdraft, hstart⟩ := cut_visible he
  have hdrop : draft.drop (visible e) = e.2.dropWhile isspace ++ b := by
    rw [hdraft, visible, hstart, ← List.length_append, List.drop_left]
  rw [hdrop, strip, strip_toList, String.toList_ofList]
  exact (List.rdropWhile_prefix _ _).trans (List.prefix_append _ _)

/-- The line breaks among the blanks that a piece begins with come before its first visible
place. -/
theorem line_visible (he : ∃ a b, draft = a ++ e.2 ++ b ∧ e.1 = 0 + a.length) :
    line_at draft (visible e) = line_at draft e.1 + (e.2.takeWhile isspace).count '\n' := by
  obtain ⟨a, b, hdraft, hstart⟩ := cut_visible he
  have htake : draft.take (visible e) = a ++ e.2.takeWhile isspace := by
    rw [hdraft, visible, hstart, ← List.length_append, List.take_left]
  have htake' : draft.take e.1 = a := by
    rw [hdraft, hstart, List.append_assoc, List.take_left]
  rw [line_at, line_at, htake, htake', List.count_append]
  omega

/-- A passage has its line exactly when its piece begins with no line break. -/
theorem placed_iff {p : Passage} (he : ∃ a b, draft = a ++ e.2 ++ b ∧ e.1 = 0 + a.length)
    (hnotes : Notes draft e p) : Placed draft e p ↔ '\n' ∉ e.2.takeWhile isspace := by
  have hline := line_visible he
  rw [← List.count_eq_zero]
  constructor
  · intro hplaced
    have hsame := hnotes.1.symm.trans hplaced.line
    omega
  · intro hnone
    refine ⟨?_, ?_⟩
    · rw [hnotes.2]
      exact text_visible he
    · rw [hnotes.1, hline, hnone, Nat.add_zero]

/-- Pairs are related another way exactly when their first parts have a property. -/
theorem forall₂_iff_of_forall₂ {α β : Type} {R S : α → β → Prop} {Q : α → Prop} {l : List α}
    {m : List β} (h : List.Forall₂ R l m) (hQ : ∀ x ∈ l, ∀ y, R x y → (S x y ↔ Q x)) :
    List.Forall₂ S l m ↔ ∀ x ∈ l, Q x := by
  induction h with
  | nil => exact iff_of_true .nil nofun
  | @cons x y l m hR h ih =>
    rw [List.forall₂_cons, hQ x List.mem_cons_self y hR,
      ih fun x' hx' => hQ x' (List.mem_cons_of_mem _ hx'), List.forall_mem_cons]

theorem recorded_within (he : e ∈ recorded draft) :
    ∃ a b, draft = a ++ e.2 ++ b ∧ e.1 = 0 + a.length := by
  obtain ⟨t, ht, rfl⟩ := List.mem_map.mp (List.mem_filter.mp he).1
  exact piece_within ht

end placed

section bundle

variable {rt : Runtime} {cls : Classes} {domains : Option (List String)} {draft_markdown : String}
    {b : bundle.Bundle}
  {claims_manifest approved_topic : Option Py.Dict} {draft_name : Option String} {r : ReviewBundle}

/-- **The lines of passages.** Every passage has the line that it begins on exactly when no piece
that is noted begins with a line break, or with blanks and a line break. -/
theorem passages_placed_iff
    (h : build_review_bundle rt cls domains draft_markdown b claims_manifest approved_topic
      draft_name = .ok r) :
    List.Forall₂ (Placed draft_markdown.toList) (recorded draft_markdown.toList)
      r.uncited_passages ↔
      ∀ e ∈ recorded draft_markdown.toList, '\n' ∉ e.2.takeWhile isspace :=
  forall₂_iff_of_forall₂ (uncited_recorded h) fun _ he _ hnotes =>
    placed_iff (recorded_within he) hnotes

end bundle

/-- A block of code, a paragraph, and one with a citation and a tail, each behind one blank line. -/
def tailed_draft : String :=
  "\x60\x60\x60\ncode\n\x60\x60\x60\n\nSome prose.\nMore of it.\n\nA claim.^[sources/a] And a tail."

/-- Both passages have the lines that they begin on. -/
theorem plain_prose_placed : ∃ r,
    build_review_bundle Runtime.plain Classes.ascii (some []) tailed_draft no_items none none none =
      .ok r ∧
      r.uncited_passages = [⟨"uncited-0001", 5, "Some prose.\nMore of it."⟩,
        ⟨"uncited-0002", 8, "And a tail."⟩] ∧
      List.Forall₂ (Placed tailed_draft.toList) (recorded tailed_draft.toList)
        r.uncited_passages := by
  obtain ⟨r, hrun⟩ : ∃ r,
      build_review_bundle Runtime.plain Classes.ascii (some []) tailed_draft no_items none none
        none = .ok r :=
    ⟨_, rfl⟩
  refine ⟨r, hrun, ?_, (passages_placed_iff hrun).mpr (by decide +kernel)⟩
  rw [(claim_packets_eq hrun).2]
  decide +kernel

/-- A second blank line before a block belongs to the block. -/
theorem blank_line_misplaces :
    ∃ r, build_review_bundle Runtime.plain Classes.ascii (some []) "a\n\n\nb" no_items none none
      none = .ok r ∧
    r.uncited_passages = [⟨"uncited-0001", 1, "a"⟩, ⟨"uncited-0002", 3, "b"⟩] ∧
      line_at "a\n\n\nb".toList 4 = 4 ∧
    ¬ List.Forall₂ (Placed "a\n\n\nb".toList) (recorded "a\n\n\nb".toList) r.uncited_passages := by
  have hrecorded : recorded "a\n\n\nb".toList = [(0, ['a']), (3, ['\n', 'b'])] := by decide +kernel
  refine ⟨_, rfl, rfl, by decide, ?_⟩
  rw [hrecorded]
  rintro (- | ⟨-, - | ⟨hplaced, -⟩⟩)
  exact absurd hplaced.line (by decide)

end Memline.wiki.draft
