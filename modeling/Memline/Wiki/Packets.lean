/-
The claim packets of a draft.

A block is cut into stretches of text, each with the run of citations behind it, and a tail. The
packets hold these stretches in order, each beside its own citations, so that no citation is lost
and none comes twice.
-/
import Memline.Wiki.Blocks

set_option autoImplicit false

namespace Memline.wiki.draft

open Regex Mem0

/-! ## A block in claims -/

/-- A citation with its brackets. -/
def Citation (w : List Char) : Prop := is_reference w = true ∧ ']' ∉ w

def bracket (w : List Char) : List Char := '^' :: '[' :: (w ++ [']'])

/-- Citations with nothing but blanks between them, and what they cite. -/
inductive Run : List Char → List String → Prop
  | one {w : List Char} (hw : Citation w) : Run (bracket w) [String.ofList w]
  | more {t s w : List Char} {refs : List String} (h : Run t refs) (hs : Blank s)
      (hw : Citation w) :
    Run (t ++ s ++ bracket w) (refs ++ [String.ofList w])

/-- Stretches of text, each with the run of citations behind it, and a tail without citations.
Between two runs there is more than blanks. -/
inductive Cut : List Char → List (String × List String) → Prop
  | tail {t : List Char} (hnone : groups CITATION t = []) : Cut t []
  | claim {s t rest : List Char} {refs : List String} {cs : List (String × List String)}
    (hnone : groups CITATION s = []) (hrun : Run t refs) (hrest : Cut rest cs)
    (hnext : ∀ c ∈ cs.head?, c.1 ≠ "") : Cut (s ++ t ++ rest) ((strip s, refs) :: cs)

/-! ## Groups -/

section groups

variable {block : List Char}

def Group.refs (g : Group) : List String := g.cites.map fun e => String.ofList e.group

/-- The groups that come of one group and some more matches. -/
def grown (block : List Char) (g : Group) (ms : List Match) : List Group :=
  ms.foldl (add_match block) [g]

theorem foldl_add_match (gs : List Group) (g : Group) (ms : List Match) :
    ms.foldl (add_match block) (gs ++ [g]) = gs ++ grown block g ms := by
  induction ms generalizing gs g with
  | nil => rfl
  | cons e ms ih =>
    have hadd : add_match block (gs ++ [g]) e = gs ++ add_match block [g] e := by
      rw [add_match, add_match, List.getLast?_append_of_ne_nil _ (List.cons_ne_nil _ _)]
      dsimp only [List.getLast?_singleton]
      split
      · rw [List.dropLast_concat]
        rfl
      · rw [List.append_assoc]
    rw [grown, List.foldl_cons, List.foldl_cons, hadd, add_match]
    dsimp only [List.getLast?_singleton]
    split
    · exact ih gs _
    · rw [← List.append_assoc, ih, List.append_assoc]
      exact congrArg (gs ++ ·) (ih [g] _).symm

/-- One match more: it belongs to the group when nothing but blanks lies between, and else begins
another. -/
theorem grown_cons (g : Group) (e : Match) (ms : List Match) : grown block g (e :: ms) =
    if strip (slice block g.stop e.start) = "" then grown block ⟨g.first, g.rest ++ [e]⟩ ms
    else g :: grown block ⟨e, []⟩ ms := by
  rw [grown, List.foldl_cons, add_match]
  dsimp only [List.getLast?_singleton]
  split
  · rfl
  · exact foldl_add_match [g] ⟨e, []⟩ ms

/-- A match more is one citation more. -/
theorem cites_add_match (groups : List Group) (e : Match) :
    (add_match block groups e).flatMap Group.cites = groups.flatMap Group.cites ++ [e] := by
  rw [add_match]
  cases hlast : groups.getLast? with
  | none =>
    rw [List.getLast?_eq_none_iff.mp hlast]
    rfl
  | some g =>
    obtain ⟨front, rfl⟩ := List.getLast?_eq_some_iff.mp hlast
    dsimp only
    split
    · rw [List.dropLast_concat, List.flatMap_append, List.flatMap_append, List.append_assoc]
      simp [Group.cites]
    · rw [List.flatMap_append]
      rfl

/-- The matches of all groups are those of the block. -/
theorem cites_groups (block : List Char) :
    (citation_groups block).flatMap Group.cites = finditer CITATION block := by
  have hfold : ∀ (groups : List Group) (ms : List Match),
      (ms.foldl (add_match block) groups).flatMap Group.cites =
        groups.flatMap Group.cites ++ ms := by
    intro groups ms
    induction ms generalizing groups with
    | nil => exact (List.append_nil _).symm
    | cons e ms ih =>
      rw [List.foldl_cons, ih, cites_add_match, List.append_assoc, List.singleton_append]
  exact hfold [] _

/-- The claims of a block, each with what it cites. -/
def claims (block : List Char) : ℕ → List Group → List (String × List String)
  | _, [] => []
  | cursor, g :: groups => (strip (slice block cursor g.start), g.refs) ::
      claims block g.stop groups

theorem slice_eq (i j : ℕ) : slice block i j = (block.drop i).take (j - i) := List.drop_take

theorem slice_append {i j k : ℕ} (hij : i ≤ j) (hjk : j ≤ k) :
    slice block i k = slice block i j ++ slice block j k := by
  have hdrop : block.drop j = (block.drop i).drop (j - i) := by
    rw [List.drop_drop]
    congr 1
    omega
  have hlen : k - i = (j - i) + (k - j) := by omega
  rw [slice_eq, slice_eq, slice_eq, hdrop, hlen, List.take_add]

/-- What lies behind a place, and between it and a later one. -/
theorem drop_slice {i j : ℕ} (hij : i ≤ j) : block.drop i = slice block i j ++ block.drop j := by
  have hdrop : block.drop j = (block.drop i).drop (j - i) := by
    rw [List.drop_drop]
    congr 1
    omega
  rw [slice_eq, hdrop, List.take_append_drop]

/-- The first citation behind a place. -/
theorem citation_behind {cursor : ℕ} {e : Match} {ms : List Match}
    (h : Scan citation_reader cursor (block.drop cursor) (e :: ms)) :
    cursor ≤ e.start ∧ e.start < e.stop ∧ e.stop ≤ block.length ∧ Citation e.group ∧
      slice block e.start e.stop = bracket e.group ∧
      groups CITATION (slice block cursor e.start) = [] ∧
      Scan citation_reader e.stop (block.drop e.stop) ms := by
  obtain ⟨s, l, k, hl, hstart, hstop, hread, hnone, hrest⟩ := h.first readsBy_citation.toClosed
  obtain ⟨⟨rfl, hclosing, rest, rfl⟩, href⟩ := citation_reader_eq_some.mp hread
  have hbehind : block.drop e.start = '^' :: '[' :: (e.group ++ ']' :: rest) := by
    rw [hstart, ← List.drop_drop, hl, List.drop_left]
  have hbracket : '^' :: '[' :: (e.group ++ ']' :: rest) = bracket e.group ++ rest := by
    simp [bracket]
  have hlen : (bracket e.group).length = e.group.length + 3 := by simp [bracket]
  have hall := congrArg List.length hbehind
  simp only [List.length_drop, List.length_cons, List.length_append] at hall
  refine ⟨by omega, by omega, by omega, ⟨href, hclosing⟩, ?_, ?_, ?_⟩
  · have hread : e.stop - e.start = (bracket e.group).length := by omega
    rw [slice_eq, hbehind, hbracket, hread, List.take_left]
  · have hread : e.start - cursor = s.length := by omega
    rw [slice_eq, hl, hread, List.take_left]
    have hgroups := readsBy_citation.groups_of_scan hnone
    rw [List.map_nil, List.map_eq_nil_iff] at hgroups
    rw [groups, hgroups]
    rfl
  · rw [hstop, ← List.drop_drop, hbehind, ← hstop]
    exact hrest

/-- Groups stand one behind the other, from a place on and up to the end. -/
def Ordered (stop : ℕ) : ℕ → List Group → Prop
  | cursor, [] => cursor ≤ stop
  | cursor, g :: groups => cursor ≤ g.start ∧ g.start < g.stop ∧ Ordered stop g.stop groups

/-- One group and the matches behind it: the run grows as long as there are but blanks between, and
then the next starts. -/
theorem cut_grown {g : Group} {ms : List Match} (hrun : Run (slice block g.start g.stop) g.refs)
    (hlt : g.start < g.stop) (hend : g.stop ≤ block.length)
    (hs : Scan citation_reader g.stop (block.drop g.stop) ms) :
    ∃ first gs, grown block g ms = first :: gs ∧ first.start = g.start ∧ first.start < first.stop ∧
      Ordered block.length first.stop gs ∧ Run (slice block first.start first.stop) first.refs ∧
        Cut (block.drop first.stop) (claims block first.stop gs) ∧
          ∀ c ∈ (claims block first.stop gs).head?, c.1 ≠ "" := by
  -- over the citations behind the group: one with only space before it joins it, any other
  -- begins the next
  induction ms generalizing g with
  | nil =>
    refine ⟨g, [], rfl, rfl, hlt, hend, hrun, .tail ?_, nofun⟩
    have hgroups := readsBy_citation.groups_of_scan hs
    rw [List.map_nil, List.map_eq_nil_iff] at hgroups
    rw [groups, hgroups]
    rfl
  | cons e ms ih =>
    obtain ⟨hstart, hstop, hend', hcitation, hbracket, hnone, hrest⟩ := citation_behind hs
    rw [grown_cons]
    by_cases hblank : strip (slice block g.stop e.start) = ""
    · rw [if_pos hblank]
      have hlast : (⟨g.first, g.rest ++ [e]⟩ : Group).stop = e.stop := by
        rw [Group.stop, List.getLastD_concat]
      have hrefs : (⟨g.first, g.rest ++ [e]⟩ : Group).refs = g.refs ++ [String.ofList e.group] := by
        simp [Group.refs, Group.cites]
      have hblank' : Blank (slice block g.stop e.start) := by
        have hb := strip_eq_empty_iff.mp hblank
        rwa [String.toList_ofList] at hb
      refine @ih ⟨g.first, g.rest ++ [e]⟩ ?_ ?_ ?_ ?_
      · rw [hlast, hrefs]
        show Run (slice block g.start e.stop) _
        rw [slice_append (hlt.le.trans hstart) hstop.le, slice_append hlt.le hstart, hbracket]
        exact hrun.more hblank' hcitation
      · rw [hlast]
        exact (hlt.trans_le hstart).trans hstop
      · rw [hlast]
        exact hend'
      · rw [hlast]
        exact hrest
    · rw [if_neg hblank]
      obtain ⟨first, gs, hgrown, hfirst, hlt', hordered, hrun', hcut, hnext⟩ :=
        @ih ⟨e, []⟩ (hbracket ▸ Run.one hcitation) hstop hend' hrest
      have hsame : first.start = e.start := hfirst
      refine ⟨g, first :: gs, by rw [hgrown], rfl, hlt,
        ⟨hsame ▸ hstart, hlt', hordered⟩, hrun, ?_, ?_⟩
      · rw [claims, hsame]
        have hwhole : block.drop g.stop =
            slice block g.stop e.start ++ slice block first.start first.stop ++
              block.drop first.stop := by
          rw [drop_slice hstart, hsame, List.append_assoc, ← hsame, ← drop_slice hlt'.le]
        rw [hwhole]
        exact .claim hnone hrun' hcut hnext
      · rintro c hc
        rw [claims, List.head?_cons, Option.mem_some_iff] at hc
        rw [← hc, hsame]
        exact hblank

/-- A block in claims. -/
theorem cut_block (block : List Char) :
    Cut block (claims block 0 (citation_groups block)) ∧
      Ordered block.length 0 (citation_groups block) := by
  have hs := readsBy_citation.scan block
  rw [citation_groups]
  cases hms : finditer CITATION block with
  | nil =>
    refine ⟨.tail ?_, Nat.zero_le _⟩
    rw [groups, hms]
    rfl
  | cons e ms =>
    rw [hms] at hs
    obtain ⟨hstart, hstop, hend, hcitation, hbracket, hnone, hrest⟩ :=
      @citation_behind block 0 e ms hs
    obtain ⟨first, gs, hgrown, hfirst, hlt, hordered, hrun, hcut, hnext⟩ :=
      @cut_grown block ⟨e, []⟩ ms (hbracket ▸ Run.one hcitation) hstop hend hrest
    have hsame : first.start = e.start := hfirst
    have hgroups : (e :: ms).foldl (add_match block) [] = first :: gs := hgrown
    have hwhole : block = slice block 0 e.start ++ slice block first.start first.stop ++
        block.drop first.stop := by
      rw [List.append_assoc, ← drop_slice hlt.le, hsame, ← drop_slice hstart, List.drop_zero]
    rw [hgroups, claims, hsame]
    refine ⟨?_, Nat.zero_le _, hlt, hordered⟩
    nth_rewrite 1 [hwhole]
    exact .claim hnone hrun hcut hnext

end groups

/-! ## The packets -/

/-- What a packet asks the evidence for. -/
def Packet.requested (p : Packet) : List String := p.citations.map Resolution.requested_ref

/-- A packet without its place. -/
def Packet.claim (p : Packet) : String × List String := (p.text, p.requested)

/-- What was requested is told by the resolution, whatever came of it. -/
theorem requested_ref (ref : String) (i : EvidenceIndex) :
    (resolve_reference ref i).requested_ref = ref := by
  rw [resolve_reference]
  split
  · rfl
  · dsimp only
    split
    · rfl
    · rfl
    · rfl

section packets

variable {draft : List Char} {i : EvidenceIndex}

theorem claim_packets_claims (off : ℕ) (block : List Char) (number cursor : ℕ) (gs : List Group) :
    (claim_packets draft i off block number cursor gs).map Packet.claim =
      claims block cursor gs := by
  induction gs generalizing number cursor with
  | nil => rfl
  | cons g gs ih =>
    rw [claim_packets, List.map_cons, ih, claims]
    have hrequested :
        (g.cites.map fun e => resolve_reference (String.ofList e.group) i).map
          Resolution.requested_ref = g.refs := by
      rw [List.map_map]
      exact List.map_congr_left fun e _ => requested_ref _ i
    rw [Packet.claim, Packet.requested, hrequested]

/-- A block adds its claims to the packets. -/
theorem review_block_packets (s : Packets) (e : ℕ × List Char) :
    ∃ ps, (review_block draft i s e).packets = s.packets ++ ps ∧
      ps.map Packet.claim = claims e.2 0 (citation_groups e.2) := by
  obtain ⟨off, block⟩ := e
  rw [review_block]
  dsimp only
  cases hlast : (citation_groups block).getLast? with
  | none =>
    rw [List.getLast?_eq_none_iff.mp hlast]
    refine ⟨[], ?_, rfl⟩
    dsimp only
    split
    · exact (List.append_nil _).symm
    · exact (List.append_nil _).symm
  | some last =>
    refine ⟨claim_packets draft i off block s.packets.length 0 (citation_groups block), ?_,
      claim_packets_claims ..⟩
    dsimp only
    split
    · rfl
    · rfl

theorem review_blocks_packets (s : Packets) (es : List (ℕ × List Char)) :
    ∃ pss, (es.foldl (review_block draft i) s).packets = s.packets ++ pss.flatten ∧
      List.Forall₂ (fun e ps => ps.map Packet.claim =
        claims e.2 0 (citation_groups e.2)) es pss := by
  induction es generalizing s with
  | nil => exact ⟨[], (List.append_nil _).symm, .nil⟩
  | cons e es ih =>
    obtain ⟨ps, hps, hclaims⟩ := @review_block_packets draft i s e
    obtain ⟨pss, hpss, hall⟩ := ih (review_block draft i s e)
    exact ⟨ps :: pss, by rw [List.foldl_cons, hpss, hps, List.append_assoc, List.flatten_cons],
      .cons hclaims hall⟩

end packets

/-- What the claims of a block cite is what the block cites. -/
theorem refs_claims (block : List Char) :
    (claims block 0 (citation_groups block)).flatMap Prod.snd = groups CITATION block := by
  have hrefs : ∀ cursor (gs : List Group), (claims block cursor gs).flatMap Prod.snd =
      (gs.flatMap Group.cites).map fun e => String.ofList e.group := by
    intro cursor gs
    induction gs generalizing cursor with
    | nil => rfl
    | cons g gs ih =>
      rw [claims, List.flatMap_cons, List.flatMap_cons, List.map_append, ih, Group.refs]
  rw [hrefs, cites_groups]
  rfl

/-- The references that the packets request are those of the blocks. -/
theorem requested_of_claims {es : List (ℕ × List Char)} {pss : List (List Packet)}
    (h : List.Forall₂ (fun e ps => ps.map Packet.claim =
      claims e.2 0 (citation_groups e.2)) es pss) :
    pss.flatten.flatMap Packet.requested = es.flatMap fun e => groups CITATION e.2 := by
  induction h with
  | nil => rfl
  | @cons e ps es pss hps h ih =>
    have hrequested : ps.flatMap Packet.requested = (ps.map Packet.claim).flatMap Prod.snd := by
      rw [List.flatMap_map]
      rfl
    rw [List.flatten_cons, List.flatMap_append, List.flatMap_cons, hrequested, hps, refs_claims, ih]

/-- A text of blanks cites nothing. -/
theorem groups_of_blank {l : List Char} (h : Blank l) : groups CITATION l = [] := by
  have hnone : Scan citation_reader 0 l [] := by
    refine .of_none ?_
    rintro s c t rfl
    apply citation_reader_cons
    rintro rfl
    exact absurd (h '^' (by simp)) (by decide)
  rw [groups, (readsBy_citation.scan l).unique readsBy_citation.toClosed hnone]
  rfl

/-- The citations of a draft are those of its blocks. -/
theorem groups_blocks {draft : List Char} (h : ∀ ref ∈ groups CITATION draft, '\n' ∉ ref.toList) :
    (blocks draft).flatMap (fun e => groups CITATION e.2) = groups CITATION draft := by
  have hs := readsBy_citation.scan draft
  have hline : ∀ e ∈ finditer CITATION draft, '\n' ∉ e.group := by
    intro e he
    have href := h _ (List.mem_map.mpr ⟨e, he, rfl⟩)
    rwa [String.toList_ofList] at href
  obtain ⟨mss, hms, hall⟩ := scan_tiles (tiles_draft draft) hs hline
  have htiles : ∀ {es : List (ℕ × List Char)} {mss : List (List Match)},
      List.Forall₂ (fun e cs => Scan citation_reader e.1 e.2 cs) es mss →
        (es.filter fun e => strip e.2 ≠ "").flatMap (fun e => groups CITATION e.2) =
          mss.flatten.map fun e => String.ofList e.group := by
    intro es mss hall
    induction hall with
    | nil => rfl
    | @cons e cs es mss hscan hall ih =>
      have hgroups : groups CITATION e.2 = cs.map fun e => String.ofList e.group := by
        have hmap := congrArg (List.map String.ofList) (readsBy_citation.groups_of_scan hscan)
        rw [List.map_map, List.map_map] at hmap
        exact hmap
      rw [List.flatten_cons, List.map_append, ← hgroups, ← ih]
      by_cases hblank : strip e.2 = ""
      · rw [List.filter_cons_of_neg (by simp [hblank])]
        have hb := strip_eq_empty_iff.mp hblank
        rw [String.toList_ofList] at hb
        rw [groups_of_blank hb, List.nil_append]
      · rw [List.filter_cons_of_pos (by simp [hblank]), List.flatMap_cons]
  rw [blocks, htiles hall, ← hms]
  rfl

section bundle

variable {rt : Runtime} {cls : Classes} {domains : Option (List String)} {draft_markdown : String}
    {b : bundle.Bundle}
  {claims_manifest approved_topic : Option Py.Dict} {draft_name : Option String} {r : ReviewBundle}

/-- The bundle has the packets and the passages of the blocks, one after the other. -/
theorem claim_packets_eq
    (h : build_review_bundle rt cls domains draft_markdown b claims_manifest approved_topic
      draft_name = .ok r) :
    r.claim_packets =
      ((blocks draft_markdown.toList).foldl
        (review_block draft_markdown.toList (evidence_index b)) {}).packets ∧
      r.uncited_passages =
        ((blocks draft_markdown.toList).foldl
          (review_block draft_markdown.toList (evidence_index b)) {}).uncited := by
  obtain ⟨report, -, h⟩ := Except.bind_ok.mp h
  cases h
  exact ⟨rfl, rfl⟩

/-- **The packets of a draft.** The blocks are cut from a draft that is tiled by them, by what
stands between them and by blocks of blanks. The packets ask for the draft's citations, in order
and each once, and the packets of a block are its claims. -/
theorem packets_conserve
    (h : build_review_bundle rt cls domains draft_markdown b claims_manifest approved_topic
      draft_name = .ok r)
    (hline : ∀ ref ∈ groups CITATION draft_markdown.toList, '\n' ∉ ref.toList) :
    (∃ es, Tiles 0 draft_markdown.toList es ∧
        blocks draft_markdown.toList = es.filter fun e => strip e.2 ≠ "") ∧
      r.claim_packets.flatMap Packet.requested = groups CITATION draft_markdown.toList ∧
      ∃ pss, r.claim_packets = pss.flatten ∧
        List.Forall₂ (fun e ps => Cut e.2 (ps.map Packet.claim))
          (blocks draft_markdown.toList) pss := by
  obtain ⟨pss, hpss, hall⟩ :=
    @review_blocks_packets draft_markdown.toList (evidence_index b) {}
      (blocks draft_markdown.toList)
  have hpackets : r.claim_packets = pss.flatten := (claim_packets_eq h).1.trans hpss
  refine ⟨⟨_, tiles_draft _, rfl⟩, ?_, pss, hpackets,
    hall.imp fun e ps hps => hps ▸ (cut_block e.2).1⟩
  rw [hpackets, requested_of_claims hall, groups_blocks hline]

end bundle

/-- A bundle without items. -/
def no_items : bundle.Bundle where
  memories := []
  source_sections := []

def two_paragraphs : String :=
  "Warm it.^[mem:0123456789ab] ^[sources/a]\n\nThen run.^[sources/b] Done."

/-- Two paragraphs with three citations: the packets hold their texts, and each citation once. -/
theorem two_paragraphs_conserve : ∃ r,
    build_review_bundle Runtime.plain Classes.ascii (some []) two_paragraphs no_items none none
      none = .ok r ∧
      r.claim_packets.map Packet.text = ["Warm it.", "Then run."] ∧
      r.claim_packets.flatMap Packet.requested = ["mem:0123456789ab", "sources/a",
        "sources/b"] := by
  obtain ⟨r, hrun⟩ : ∃ r,
      build_review_bundle Runtime.plain Classes.ascii (some []) two_paragraphs no_items none none
        none = .ok r :=
    ⟨_, rfl⟩
  refine ⟨r, hrun, ?_, ?_⟩
  · rw [(claim_packets_eq hrun).1]
    decide +kernel
  · rw [(packets_conserve hrun (by decide +kernel)).2.1]
    decide +kernel

end Memline.wiki.draft
