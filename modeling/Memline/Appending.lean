/-
A ledger file that grows.

What is appended to a file adds its chunks to those the file had, unless the file ends in a
list item and what is appended starts with a line that the item goes on with: the last chunk is
then another one.
-/
import Memline.Segments
import Memline.Lib.Json

set_option autoImplicit false

namespace Memline.ledger

/-! ## Segments -/

/-- The lines end in an item, which goes on up to the end. -/
def EndsInItem (lines : List String) : Prop :=
  ∃ before line more, lines = before ++ line :: more ∧ IsItem line ∧ ∀ l ∈ more, continues l = true

/-- An item at the end stays there when lines are put in front. -/
theorem EndsInItem.append {rest : List String} (h : EndsInItem rest) (lines : List String) :
    EndsInItem (lines ++ rest) := by
  obtain ⟨before, line, more, rfl, hline, hmore⟩ := h
  exact ⟨lines ++ before, line, more, (List.append_assoc _ _ _).symm, hline, hmore⟩

/-- Where lines meet that belong to no one segment, the segments are those of each. -/
theorem Segmented.append {mode : Mode} {lines added : List String} {segs segs' : List Segment}
    (h : Segmented mode lines segs) (h' : Segmented mode added segs')
    (hitem : mode = .entry → EndsInItem lines → ∀ l ∈ added.head?, continues l = false)
    (hplain : mode = .entry → ∀ l ∈ added.head?, ¬ IsPlain l) :
    Segmented mode (lines ++ added) (segs ++ segs') := by
  induction h with
  | nil => exact h'
  | @blank line rest segs hline _ ih =>
    exact .blank hline (ih fun hmode hends => hitem hmode (hends.append [line]))
  | @heading line rest segs hline _ ih =>
    exact .heading hline (ih fun hmode hends => hitem hmode (hends.append [line]))
  | @line line rest segs hmode hline _ ih =>
    exact .line hmode hline (ih fun hmode hends => hitem hmode (hends.append [line]))
  | @item line more rest segs hmode hline hmore hend _ ih =>
    rw [List.append_assoc]
    refine .item hmode hline hmore (fun l hl => ?_) (ih fun hmode hends =>
      hitem hmode (hends.append (line :: more)))
    cases rest with
    | nil => exact hitem hmode ⟨[], line, more, by simp, hline, hmore⟩ l hl
    | cons first rest => exact hend l hl
  | @paragraph line more rest segs hmode hlines hend _ ih =>
    rw [List.append_assoc]
    refine .paragraph hmode hlines (fun l hl => ?_) (ih fun hmode hends =>
      hitem hmode (hends.append (line :: more)))
    cases rest with
    | nil => exact hplain hmode l hl
    | cons first rest => exact hend l hl

/-- What comes after some segments does not change their chunks. -/
theorem exists_layout_append (path : Path) (n : ℕ) (headings : List (ℕ × String))
    (segs : List Segment) :
    ∃ headings', ∀ segs', layout path n headings (segs ++ segs')
      = layout path n headings segs ++ layout path (n + extent segs) headings' segs' := by
  induction segs generalizing n headings with
  | nil => exact ⟨headings, fun segs' => rfl⟩
  | cons seg segs ih =>
    rw [extent_cons, ← Nat.add_assoc]
    cases seg with
    | blank line => exact ih _ _
    | heading line => exact ih _ _
    | entry lines body =>
      obtain ⟨headings', hall⟩ := ih (n + lines.length) headings
      exact ⟨headings', fun segs' => congrArg _ (hall segs')⟩

/-- A file that is cut into segments is parsed as they are laid out. -/
theorem parse_file_of_segmented (path : Path) {text : String} {mode : Mode} {segs : List Segment}
    (h : Segmented mode (splitlines text) segs) :
    parse_file path text mode = layout path 1 [] segs :=
  parse_lines_layout h 1 {} rfl

/-! ## Ids -/

/-- What the id of a chunk is the hash of. -/
def payload (rel : String) (c : Chunk) : String := s!"{rel}:{c.start_line}:{c.end_line}:{c.body}"

/-- Chunks of different ranges or bodies have different texts to hash. -/
theorem payload_inj {rel : String} {c c' : Chunk} (h : payload rel c = payload rel c') :
    c.start_line = c'.start_line ∧ c.end_line = c'.end_line ∧ c.body = c'.body := by
  have hcolon : ∀ n : ℕ, ':' ∉ (toString n).toList := fun n => Py.notMem_toString_nat (by decide) n
  have hshape : ∀ c : Chunk,
      (payload rel c).toList = rel.toList ++ ':' :: ((toString c.start_line).toList ++ ':' ::
      ((toString c.end_line).toList ++ ':' :: c.body.toList)) := by
    intro c
    simp only [payload, String.toList_append, List.append_assoc]
    rfl
  have hlist := congrArg String.toList h
  rw [hshape, hshape] at hlist
  have hrest := (List.cons.inj (List.append_cancel_left hlist)).2
  obtain ⟨hstart, hrest⟩ := Lists.append_sep_inj (hcolon _) (hcolon _) hrest
  obtain ⟨hend, hbody⟩ := Lists.append_sep_inj (hcolon _) (hcolon _) hrest
  exact ⟨Py.toString_nat_inj (String.toList_inj.mp hstart),
    Py.toString_nat_inj (String.toList_inj.mp hend), String.toList_inj.mp hbody⟩

/-- The id of a chunk is the start of a hash over its path, its date and its text. -/
theorem ledger_id_eq {sha256 : String → String} {root : Path} {rel : String} {c : Chunk}
    (h : relative_to root c.source_path = .ok rel) :
    ledger_id sha256 root c = .ok (clip 24 (sha256 (payload rel c))) := by
  rw [ledger_id, h]
  rfl

/-- Every chunk of a file carries its path, and starts where the file does or below. -/
theorem source_path_of_layout {path : Path} {n : ℕ} {headings : List (ℕ × String)}
    {segs : List Segment} {c : Chunk} (hc : c ∈ layout path n headings segs) :
    c.source_path = path ∧ n ≤ c.start_line := by
  induction segs generalizing n headings with
  | nil => cases hc
  | cons seg segs ih =>
    cases seg with
    | blank line => exact (ih hc).imp_right fun h => by omega
    | heading line => exact (ih hc).imp_right fun h => by omega
    | entry lines body =>
      rcases List.mem_cons.mp hc with rfl | hc
      · exact ⟨rfl, le_rfl⟩
      · exact (ih hc).imp_right fun h => by omega

/-! ## What a later import finds -/

section later

variable (sha256 : String → String) (root : Path)

/-- The ids of the old chunks are what they were, and a later run over the file, with the old
chunks in its manifest and nothing else, finds the new chunks pending and no others. -/
def AppendStable (path : Path) (mode : Mode) (text added : String) : Prop :=
  let old := parse_file path text mode
  let new := parse_file path (text ++ added) mode
  (new.take old.length).map (ledger_id sha256 root) = old.map (ledger_id sha256 root) ∧
    ∀ (disk : Path → Option String) (a : Args) (m : Manifests), disk path = some (text ++ added) →
      a.paths = [path] → a.mode = mode → a.limit = 0 → a.force = false →
      (∀ id, Held m (month disk a) id ↔ .ok id ∈ old.map (ledger_id sha256 root)) →
      ∃ entries, pending disk sha256 root a m = .ok entries ∧
        entries.map Entry.chunk = new.drop old.length

/-- No two different texts among those hashed for the chunks have the same id. -/
def Collisionless (rel : String) (cs : List Chunk) : Prop :=
  ∀ c ∈ cs, ∀ c' ∈ cs, clip 24 (sha256 (payload rel c)) = clip 24 (sha256 (payload rel c')) →
    payload rel c = payload rel c'

/-- The chunks of a run over one file. -/
theorem chunks_one {disk : Path → Option String} {a : Args} {path : Path} {text : String}
    (hdisk : disk path = some text) (hpaths : a.paths = [path]) (hlimit : a.limit = 0) :
    chunks disk a = parse_file path text a.mode := by
  have hfiles : files disk a = [path] := by
    rw [files, hpaths, List.filter_cons_of_pos (by rw [hdisk]; rfl)]
    rfl
  rw [chunks, if_pos hlimit, hfiles, List.flatMap_singleton, hdisk]
  rfl

variable {sha256 root}

/-- The entries that some chunks give a run. -/
theorem ordered_chunks_one {disk : Path → Option String} {a : Args} {path : Path}
    {text rel : String} (hrel : relative_to root path = .ok rel) (hdisk : disk path = some text)
    (hpaths : a.paths = [path]) (hlimit : a.limit = 0) :
    ordered_chunks disk sha256 root a = .ok (((parse_file path text a.mode).zipIdx 1).map
      fun e => ⟨e.2, e.1, clip 24 (sha256 (payload rel e.1))⟩) := by
  rw [ordered_chunks, chunks_one hdisk hpaths hlimit]
  refine Except.mapM_ok fun e he => ?_
  obtain ⟨segs, -, hfile⟩ := exists_layout path text a.mode
  have hmem : e.1 ∈ parse_file path text a.mode := by
    rw [← List.zipIdx_map_fst 1 (parse_file path text a.mode)]
    exact List.mem_map_of_mem he
  rw [hfile] at hmem
  rw [ledger_id_eq (by rw [(source_path_of_layout hmem).1, hrel])]
  rfl

/-- Without force, what is pending is what the manifest of the month does not have. -/
theorem pending_of_ordered {disk : Path → Option String} {a : Args} {m : Manifests}
    {entries : List Entry} (hforce : a.force = false)
    (h : ordered_chunks disk sha256 root a = .ok entries) :
    pending disk sha256 root a m =
      .ok (entries.filter fun e => ¬ e.ledger_id ∈ load_manifest (m (month disk a))) := by
  rw [pending, h, hforce]
  rfl

/-- Chunks of which the first are in a manifest and the rest are not. -/
theorem fresh_chunks (id : Chunk → String) {known : String → Prop} [DecidablePred known]
    {old fresh : List Chunk} (hold : ∀ c ∈ old, known (id c))
    (hfresh : ∀ c ∈ fresh, ¬ known (id c)) :
    ((((old ++ fresh).zipIdx 1).map fun e => (⟨e.2, e.1, id e.1⟩ : Entry)).filter fun e =>
      ¬ known e.ledger_id).map
      Entry.chunk = fresh := by
  have hmem : ∀ {cs : List Chunk} {k : ℕ} {e : Chunk × ℕ}, e ∈ cs.zipIdx k → e.1 ∈ cs := by
    intro cs k e he
    rw [← List.zipIdx_map_fst k cs]
    exact List.mem_map_of_mem he
  rw [List.zipIdx_append, List.map_append, List.filter_append, List.filter_eq_nil_iff.mpr,
    List.nil_append, List.filter_eq_self.mpr, List.map_map]
  · exact List.zipIdx_map_fst _ fresh
  · intro e he
    obtain ⟨x, hx, rfl⟩ := List.mem_map.mp he
    exact decide_eq_true (hfresh x.1 (hmem hx))
  · intro e he
    obtain ⟨x, hx, rfl⟩ := List.mem_map.mp he
    simpa using hold x.1 (hmem hx)

end later

section appended

variable {sha256 : String → String} {root path : Path} {rel text added : String} {mode : Mode}

/-- Where the segments of what is appended stand by themselves, the old chunks stay and the new
ones come after them. -/
theorem append_stable (hrel : relative_to root path = .ok rel)
    (hnl : text.toList.getLast? = some '\n')
    (hash : Collisionless sha256 rel (parse_file path text mode ++
      parse_file path (text ++ added) mode))
    (hitem : mode = .entry → EndsInItem (splitlines text) →
      ∀ l ∈ (splitlines added).head?, continues l = false)
    (hplain : mode = .entry → ∀ l ∈ (splitlines added).head?, ¬ IsPlain l) :
    AppendStable sha256 root path mode text added := by
  obtain ⟨segs, hsegs⟩ := exists_segmented mode (splitlines text)
  obtain ⟨segs', hsegs'⟩ := exists_segmented mode (splitlines added)
  have hwhole : Segmented mode (splitlines (text ++ added)) (segs ++ segs') := by
    rw [splitlines_append hnl]
    exact hsegs.append hsegs' hitem hplain
  obtain ⟨headings, hlayout⟩ := exists_layout_append path 1 [] segs
  have hold := parse_file_of_segmented path hsegs
  have hnew : parse_file path (text ++ added) mode
      = parse_file path text mode ++ layout path (1 + extent segs) headings segs' := by
    rw [parse_file_of_segmented path hwhole, hlayout, hold]
  -- a new chunk starts where no old one does, and is hashed from another text
  have hapart : ∀ c ∈ layout path (1 + extent segs) headings segs',
      ∀ c' ∈ parse_file path text mode,
      clip 24 (sha256 (payload rel c)) ≠ clip 24 (sha256 (payload rel c')) := by
    intro c hc c' hc' heq
    have hsame := payload_inj (hash c (by rw [hnew]; simp [hc]) c' (by simp [hc']) heq)
    rw [hold] at hc'
    have hrange := (chunk_within hsegs hc').2
    have hstart := (source_path_of_layout hc).2
    have hextent : extent segs = (splitlines text).length := by rw [extent, hsegs.lines_eq]
    omega
  have hids : ∀ id, .ok id ∈ (parse_file path text mode).map (ledger_id sha256 root) ↔
      ∃ c ∈ parse_file path text mode, clip 24 (sha256 (payload rel c)) = id := by
    intro id
    rw [List.mem_map]
    refine exists_congr fun c => and_congr_right fun hc => ?_
    rw [hold] at hc
    rw [ledger_id_eq (by rw [(source_path_of_layout hc).1, hrel]), Except.ok.injEq]
  refine ⟨by rw [hnew, List.take_left], fun disk a m hdisk hpaths hmode hlimit hforce hheld => ?_⟩
  subst hmode
  have hknown : ∀ id, id ∈ load_manifest (m (month disk a)) ↔
      ∃ c ∈ parse_file path text a.mode, clip 24 (sha256 (payload rel c)) = id := by
    intro id
    rw [mem_load_manifest, ← hids, ← hheld]
    rfl
  refine ⟨_, pending_of_ordered hforce (ordered_chunks_one hrel hdisk hpaths hlimit), ?_⟩
  rw [hnew, List.drop_left]
  refine fresh_chunks (fun c => clip 24 (sha256 (payload rel c))) (fun c hc =>
    (hknown _).mpr ⟨c, hc, rfl⟩)
    fun c hc hmem => ?_
  obtain ⟨c', hc', heq⟩ := (hknown _).mp hmem
  exact hapart c hc c' hc' heq.symm

/-- An item at the end goes on with what is appended, and its chunk is another one then. -/
theorem not_append_stable (hrel : relative_to root path = .ok rel)
    (hnl : text.toList.getLast? = some '\n')
    (hash : Collisionless sha256 rel (parse_file path text .entry ++
      parse_file path (text ++ added) .entry))
    (hends : EndsInItem (splitlines text))
    (hadded : ∃ l ∈ (splitlines added).head?, continues l = true) :
    ¬ AppendStable sha256 root path .entry text added := by
  rintro ⟨hids, -⟩
  obtain ⟨before, line, more, htext, hline, hmore⟩ := hends
  obtain ⟨extra, rest, hextra, hall, hrest⟩ := exists_run continues (splitlines added)
  have hne : 0 < extra.length := by
    obtain ⟨l, hl, hcontinues⟩ := hadded
    cases extra with
    | nil =>
      rw [hextra] at hl
      rw [hrest l hl] at hcontinues
      cases hcontinues
    | cons l extra => exact Nat.succ_pos _
  obtain ⟨segs, hsegs⟩ := exists_segmented .entry before
  obtain ⟨segs', hsegs'⟩ := exists_segmented .entry rest
  obtain ⟨headings, hlayout⟩ := exists_layout_append path 1 [] segs
  -- the item has its place after the same segments, with and without what is appended
  have hitem : ∀ {tail rest : List String}
      {segs' : List Segment}, (∀ l ∈ tail, continues l = true) →
      (∀ l ∈ rest.head?, continues l = false) → Segmented .entry rest segs' →
      Segmented .entry (before ++ (line :: tail ++ rest))
        (segs ++ .entry (line :: tail) (body_of (line :: tail)) :: segs') := by
    intro tail rest segs' htail hrest hsegs'
    refine hsegs.append (.item rfl hline htail hrest hsegs') (fun _ _ l hl => ?_) fun _ l hl => ?_
    · rw [← Option.some.inj hl]
      exact hline.not_continues
    · rw [← Option.some.inj hl]
      exact fun hplain => hplain.2 hline
  have hold : parse_file path text .entry = layout path 1 [] segs ++
      [chunk_at path (1 + extent segs) headings (line :: more) (body_of (line :: more))] := by
    have hsegmented := hitem hmore (fun l hl => absurd hl (by simp)) .nil
    rw [List.append_nil, ← htext] at hsegmented
    rw [parse_file_of_segmented path hsegmented, hlayout]
    rfl
  have hnew : parse_file path (text ++ added) .entry = layout path 1 [] segs ++
      chunk_at path (1 + extent segs) headings (line :: (more ++ extra))
        (body_of (line :: (more ++ extra))) ::
        layout path (1 + extent segs + (line :: (more ++ extra)).length) headings segs' := by
    have hsegmented := hitem (List.forall_mem_append.mpr ⟨hmore, hall⟩) hrest hsegs'
    have hlines : splitlines (text ++ added) = before ++ (line :: (more ++ extra) ++ rest) := by
      rw [splitlines_append hnl, htext, hextra]
      simp
    rw [← hlines] at hsegmented
    rw [parse_file_of_segmented path hsegmented, hlayout]
    rfl
  rw [hnew, hold] at hids hash
  rw [List.length_append, List.length_singleton, List.take_length_add_append, List.map_append,
    List.map_append] at hids
  have hlast := List.append_cancel_left hids
  simp only [List.take_succ_cons, List.take_zero, List.map_cons, List.map_nil] at hlast
  have hid := (List.cons.inj hlast).1
  have hids : ∀ n lines body, ledger_id sha256 root (chunk_at path n headings lines body)
      = .ok (clip 24 (sha256 (payload rel (chunk_at path n headings lines body)))) :=
    fun _ _ _ => ledger_id_eq hrel
  rw [hids, hids, Except.ok.injEq] at hid
  have hsame := (payload_inj (hash _ (by simp) _ (by simp) hid)).2.1
  change 1 + extent segs + (line :: (more ++ extra)).length - 1 =
    1 + extent segs + (line :: more).length - 1 at hsame
  simp only [List.length_cons, List.length_append] at hsame
  omega

/-- **What is appended leaves the ids of a file.** An addition starts with a list item or with a
blank line. After it the chunks of before have the ids they had, and a later import finds the
new chunks pending and none of the old, if and only if the file is read by lines, or does not
end in a list item, or the addition starts with a list item of its own. -/
theorem append_stable_iff (hrel : relative_to root path = .ok rel)
    (hnl : text.toList.getLast? = some '\n')
    (hadded : ∃ line ∈ (splitlines added).head?, IsItem line ∨ Mem0.strip line = "")
    (hash : Collisionless sha256 rel (parse_file path text mode ++
      parse_file path (text ++ added) mode)) :
    AppendStable sha256 root path mode text added ↔
      mode = .line ∨ ¬ EndsInItem (splitlines text) ∨ ∃ line ∈ (splitlines added).head?,
        IsItem line := by
  obtain ⟨line, hhead, hkind⟩ := hadded
  have hfirst : ∀ l ∈ (splitlines added).head?, l = line :=
    fun l hl => Option.some.inj (hl.symm.trans hhead)
  constructor
  · intro h
    by_contra hnot
    simp only [not_or, not_not, not_exists, not_and] at hnot
    obtain ⟨hmode, hends, hnone⟩ := hnot
    have hentry : mode = .entry := by
      cases mode with
      | line => exact absurd rfl hmode
      | entry => rfl
    subst hentry
    -- entry by entry, a blank line goes on with the item before it, whose chunk then changes
    have hblank := hkind.resolve_left (hnone line hhead)
    refine not_append_stable hrel hnl hash hends ⟨line, hhead, ?_⟩ h
    rw [continues, decide_eq_true hblank]
    rfl
  · intro h
    refine append_stable hrel hnl hash (fun hmode hends l hl => ?_) fun _ l hl hplain => ?_
    · rcases h with rfl | h | ⟨l', hl', hitem⟩
      · cases hmode
      · exact absurd hends h
      · rw [hfirst l hl, ← hfirst l' hl']
        exact hitem.not_continues
    · rw [hfirst l hl] at hplain
      exact hkind.elim hplain.2 hplain.1.1

end appended

/-- The hashes of the texts of three chunks. -/
def three_hashes (s : String) : String :=
  if s = "2026-05-31.md:1:1:- a" then
    "42e4fa86ac82724dd65c83164959bcb4c6b165aae14417b0c41b914b182e8865"
  else if s = "2026-05-31.md:1:2:- a" then
    "158724f7f10f44d0fff47ba4a9b8f3db91f9478e2ad42666b91c50e2385a3c9b"
  else "5d2f68af106715d2ac4c6394631db337d39dba4d9aa199e0b5479099fa234669"

/-- An item below an item. -/
theorem item_append_stable :
    AppendStable three_hashes ["/", "w"] ["/", "w", "2026-05-31.md"] .entry "- a\n" "- b\n" := by
  have hrel : relative_to ["/", "w"] ["/", "w", "2026-05-31.md"] = .ok "2026-05-31.md" := rfl
  refine (append_stable_iff hrel (by decide) ⟨"- b", by decide, .inl (by decide)⟩ ?_).mpr
    (.inr (.inr ⟨"- b", by decide, by decide⟩))
  unfold Collisionless
  decide +kernel

/-- A blank line and a heading after an item: its chunk now ends with the blank line. -/
theorem heading_after_item :
    ¬ AppendStable three_hashes ["/", "w"] ["/", "w",
      "2026-05-31.md"] .entry "- a\n" "\n# b\n" := by
  rintro ⟨hids, -⟩
  revert hids
  decide +kernel

end Memline.ledger
