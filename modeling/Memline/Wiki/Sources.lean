/-
Passes over a tree of source documents.

The artifact of a document is named by the stem of its file, and a document whose artifact exists is
passed over. Two documents of one stem, in different folders, write to one file; a document that has
been edited keeps the artifact of what it said before; and so does one that was refused.
-/
import Memline.Wiki.Resume

set_option autoImplicit false

namespace Memline.wiki.profile

/-! ## What an artifact was made of -/

/-- The last answer that was kept under a stem. -/
def kept (log : List (Document × Status)) (stem : String) : Option (Document × Status) :=
  (log.filter fun e => e.1.stem = stem ∧ e.2 ≠ .failed).getLast?

/-- What is kept under a stem after one more answer. -/
theorem kept_append (log : List (Document × Status)) (d : Document) (s : Status) (stem : String) :
    kept (log ++ [(d, s)]) stem = if d.stem = stem ∧ s ≠ .failed then some (d, s)
      else kept log stem := by
  rw [kept, List.filter_append]
  by_cases h : d.stem = stem ∧ s ≠ .failed
  · rw [if_pos h, List.filter_cons_of_pos (by simpa using h), List.filter_nil, List.getLast?_concat]
  · rw [if_neg h, List.filter_cons_of_neg (by simpa using h), List.filter_nil,
      List.append_nil, kept]

/-- An answer that is not among the last ones is an earlier one. -/
theorem kept_append_of_none {log more : List (Document × Status)} {stem : String}
    (h : kept more stem = none) : kept (log ++ more) stem = kept log stem := by
  rw [kept, List.getLast?_eq_none_iff] at h
  rw [kept, List.filter_append, h, List.append_nil, kept]

theorem kept_append_of_some {log more : List (Document × Status)} {stem : String}
    {e : Document × Status} (h : kept more stem = some e) : kept (log ++ more) stem = some e := by
  rw [kept] at h
  rw [kept, List.filter_append, List.getLast?_append, h, Option.some_or]

/-- What is kept was answered, under its stem, and did not fail. -/
theorem of_kept {log : List (Document × Status)} {stem : String} {e : Document × Status}
    (h : kept log stem = some e) : e ∈ log ∧ e.1.stem = stem ∧ e.2 ≠ .failed := by
  obtain ⟨hmem, hprop⟩ := List.mem_filter.mp (List.mem_of_getLast? h)
  exact ⟨hmem, by simpa using hprop⟩

theorem kept_eq_none {log : List (Document × Status)} {stem : String} :
    kept log stem = none ↔ ∀ e ∈ log, e.1.stem = stem → e.2 = .failed := by
  rw [kept, List.getLast?_eq_none_iff, List.filter_eq_nil_iff]
  simp

/-- Every artifact is the record of the last answer that was kept under its name. -/
def Explained (files : Files) (log : List (Document × Status)) : Prop :=
  ∀ stem, match kept log stem with
    | none => files (artifact stem) = none
    | some (d, s) => ∃ answer : Answer, answer.status = s ∧
        files (artifact stem) = some (some (source_record d answer))

/-- An artifact is missing exactly when nothing is kept. -/
theorem Explained.isNone {files : Files} {log : List (Document × Status)} (h : Explained files log)
    (stem : String) : (files (artifact stem)).isNone ↔ kept log stem = none := by
  have hstem := h stem
  cases hkept : kept log stem with
  | none =>
    rw [hkept] at hstem
    simp [hstem]
  | some e =>
    rw [hkept] at hstem
    obtain ⟨answer, -, hfile⟩ := hstem
    simp [hfile]

/-! ## The calls of a pass -/

section pass

variable {log : List (Document × Status)}

/-- One document more: the files are those of the log. -/
theorem explained_run (pass : SourcePass) {p : SourceProgress}
    (h : Explained p.files (log ++ p.answers)) (d : Document) :
    Explained (source_run pass p d).files (log ++ (source_run pass p d).answers) := by
  intro stem
  unfold source_run
  rcases source_prompt pass.template p.sanitizer d with ⟨sanitizer, prompt⟩
  dsimp only
  generalize pass.model d.rel prompt = answer
  rw [← List.append_assoc, kept_append]
  by_cases hkept : d.stem = stem ∧ answer.status ≠ .failed
  · rw [if_pos hkept, if_neg hkept.2, ← hkept.1]
    exact ⟨answer, rfl, Function.update_self ..⟩
  · rw [if_neg hkept]
    have hsame : (if answer.status = .failed then p.files
        else write p.files (artifact d.stem) (source_record d answer))
        (artifact stem) = p.files (artifact stem) := by
      split
      · rfl
      · rename_i hfailed
        refine Function.update_of_ne (fun heq => hkept ⟨(artifact_inj heq).symm, hfailed⟩) _ _
    rw [hsame]
    exact h stem

/-- A pass answers its documents in their order. -/
theorem source_run_answers (pass : SourcePass) (p : SourceProgress) (d : Document) :
    (source_run pass p d).answers.map Prod.fst = p.answers.map Prod.fst ++ [d] := by
  unfold source_run
  simp

/-- A whole pass: the files are those of the log, and each document was answered. -/
theorem explained_foldl (pass : SourcePass) (ds : List Document) {p : SourceProgress}
    (h : Explained p.files (log ++ p.answers)) :
    Explained (ds.foldl (source_run pass) p).files (log ++ (ds.foldl (source_run pass) p).answers) ∧
      (ds.foldl (source_run pass) p).answers.map Prod.fst = p.answers.map Prod.fst ++ ds := by
  induction ds generalizing p with
  | nil => exact ⟨h, (List.append_nil _).symm⟩
  | cons d ds ih =>
    obtain ⟨hfiles, hanswers⟩ := ih (explained_run pass h d)
    refine ⟨hfiles, ?_⟩
    rw [List.foldl_cons, hanswers, source_run_answers, List.append_assoc, List.singleton_append]

/-- A pass asks once for each document without an artifact, and explains what it leaves. -/
theorem profile_sources_spec (pass : SourcePass) (tree : List Document) {files : Files}
    (h : Explained files log) :
    Explained (profile_sources tree pass files).files
      (log ++ (profile_sources tree pass files).answers) ∧
      ∀ d, (∃ s, (d, s) ∈ (profile_sources tree pass files).answers) ↔
        d ∈ source_docs tree ∧ kept log d.stem = none := by
  have hstart : Explained files (log ++ []) := by rwa [List.append_nil]
  obtain ⟨hfiles, hanswers⟩ := explained_foldl pass
    (pass.order ((source_docs tree).filter fun d => (files (artifact d.stem)).isNone))
    (p := { files, sanitizer := ⟨[], pass.rules, {}⟩ }) hstart
  refine ⟨hfiles, fun d => ?_⟩
  rw [List.map_nil, List.nil_append] at hanswers
  calc (∃ s, (d, s) ∈ (profile_sources tree pass files).answers)
      ↔ d ∈ (profile_sources tree pass files).answers.map Prod.fst := by simp
    _ ↔ d ∈ (source_docs tree).filter fun d => (files (artifact d.stem)).isNone := by
        rw [profile_sources, hanswers, (pass.order_perm _).mem_iff]
    _ ↔ d ∈ source_docs tree ∧ kept log d.stem = none := by rw [List.mem_filter, h.isNone]

end pass

/-! ## Passes into one directory -/

/-- A directory of artifacts, and all that was answered so far. -/
structure Shelf where
  files : Files := fun _ => none
  log : List (Document × Status) := []

/-- A pass over the tree as it is then. -/
def Shelf.pass (shelf : Shelf) (e : List Document × SourcePass) : Shelf :=
  let done := profile_sources e.1 e.2 shelf.files
  { files := done.files, log := shelf.log ++ done.answers }

/-- Any number of passes: the files are those of the log. -/
theorem explained_passes (history : List (List Document × SourcePass)) {shelf : Shelf}
    (h : Explained shelf.files shelf.log) :
    Explained (history.foldl Shelf.pass shelf).files (history.foldl Shelf.pass shelf).log := by
  induction history generalizing shelf with
  | nil => exact h
  | cons e history ih => exact ih (profile_sources_spec e.2 e.1 h).1

/-- Each document has an artifact of its own, made of what the document holds. -/
structure Shelved (shelf : Shelf) (docs : List Document) : Prop where
  made : ∀ d ∈ docs, kept shelf.log d.stem = some (d, .ok)
  filed : ∀ d ∈ docs, ∃ data provenance,
    shelf.files (artifact d.stem) = some (some (source_record d (.ok data provenance)))
  own : ∀ d ∈ docs, ∀ e ∈ docs, artifact d.stem = artifact e.stem → d = e

/-- An artifact made of the document is its record. -/
theorem Explained.filed {shelf : Shelf} {d : Document} (h : Explained shelf.files shelf.log)
    (hd : kept shelf.log d.stem = some (d, .ok)) :
    ∃ data provenance, shelf.files (artifact d.stem) =
      some (some (source_record d (.ok data provenance))) := by
  have hstem := h d.stem
  rw [hd] at hstem
  obtain ⟨answer, hstatus, hfile⟩ := hstem
  cases answer with
  | ok data provenance => exact ⟨data, provenance, hfile⟩
  | refused detail => cases hstatus
  | failed detail => cases hstatus

theorem source_docs_nodup {tree : List Document} (h : (tree.map Document.path).Nodup) :
    (source_docs tree).Nodup :=
  (List.perm_insertionSort _ _).nodup_iff.mpr (h.of_map.filter _)

/-- **Sources.** After a pass in which every call succeeds, each document has an artifact of its
own, made of what it holds now, exactly when no two documents have one stem and what was there
before under a document's name was made of that document, as it is now, by an ok answer. -/
theorem sources_settle {history : List (List Document × SourcePass)} {tree : List Document}
    {pass : SourcePass} (hpaths : (tree.map Document.path).Nodup)
    (hok : ∀ e ∈ (profile_sources tree pass (history.foldl Shelf.pass {}).files).answers,
      e.2 = .ok) :
    Shelved ((history.foldl Shelf.pass {}).pass (tree, pass)) (source_docs tree) ↔
      ((source_docs tree).map Document.stem).Nodup ∧
        ∀ d ∈ source_docs tree, ∀ e, kept (history.foldl Shelf.pass {}).log d.stem = some e →
          e = (d, .ok) := by
  generalize hshelf : history.foldl Shelf.pass {} = shelf at hok ⊢
  have hbefore : Explained shelf.files shelf.log :=
    hshelf ▸ explained_passes history (fun stem => rfl)
  obtain ⟨hafter, hasked⟩ := profile_sources_spec pass tree hbefore
  -- what was there stays; a document whose stem was free is asked about, and answered ok
  have hold : ∀ (d : Document) (e), kept shelf.log d.stem = some e →
      kept (shelf.pass (tree, pass)).log d.stem = some e := by
    intro d e hkept
    rw [Shelf.pass, kept_append_of_none, hkept]
    rw [kept_eq_none]
    intro f hf hstem
    have hfree := ((hasked f.1).mp ⟨f.2, hf⟩).2
    rw [hstem, hkept] at hfree
    cases hfree
  have hnew : ∀ d ∈ source_docs tree, kept shelf.log d.stem = none →
      ∃ e ∈ source_docs tree, e.stem = d.stem ∧
        kept (shelf.pass (tree, pass)).log d.stem = some (e, .ok) := by
    intro d hd hfree
    obtain ⟨s, hs⟩ := (hasked d).mpr ⟨hd, hfree⟩
    cases hkept : kept (profile_sources tree pass shelf.files).answers d.stem with
    | none =>
      have hfailed := kept_eq_none.mp hkept _ hs rfl
      rw [hok _ hs] at hfailed
      cases hfailed
    | some e =>
      obtain ⟨hmem, hstem, -⟩ := of_kept hkept
      refine ⟨e.1, ((hasked e.1).mp ⟨e.2, hmem⟩).1, hstem, ?_⟩
      rw [Shelf.pass, kept_append_of_some hkept, ← hok e hmem]
  constructor
  · intro h
    constructor
    -- documents of one stem would share a file
    · refine List.Nodup.map_on (fun d hd e he hstem => h.own d hd e he (by rw [hstem]))
        (source_docs_nodup hpaths)
    · intro d hd e hkept
      have hmade := h.made d hd
      rw [hold d e hkept, Option.some.injEq] at hmade
      exact hmade
  · rintro ⟨hstems, hsame⟩
    have hmade : ∀ d ∈ source_docs tree, kept (shelf.pass (tree, pass)).log d.stem =
        some (d, .ok) := by
      intro d hd
      cases hkept : kept shelf.log d.stem with
      | none =>
        obtain ⟨e, he, hstem, hnow⟩ := hnew d hd hkept
        rw [hnow, List.inj_on_of_nodup_map hstems he hd hstem]
      | some e => rw [hold d e hkept, hsame d hd e hkept]
    refine ⟨hmade, fun d hd => hafter.filed (hmade d hd), ?_⟩
    intro d hd e he hname
    exact List.inj_on_of_nodup_map hstems hd he (artifact_inj hname)

/-- A pass over documents in which every call succeeds. -/
def succeeding : SourcePass where
  template := "\x7bmaterial\x7d"
  rules := [("HOST", HOST .ascii), ("USER", USER .ascii), ("JOB", JOB .ascii)]
  model _ _ := .ok .null .null
  order ds := ds
  order_perm _ := .refl _

/-- A document joins another one between two passes. -/
theorem sources_settle_added :
    Shelved (([([⟨["a", "x.md"], "one"⟩], succeeding)].foldl Shelf.pass {}).pass
      ([⟨["a", "x.md"], "one"⟩, ⟨["b", "y.md"], "two"⟩], succeeding))
      (source_docs [⟨["a", "x.md"], "one"⟩, ⟨["b", "y.md"], "two"⟩]) :=
  (sources_settle (by decide) (by decide +kernel)).mpr ⟨by decide +kernel, by decide +kernel⟩

/-- Two documents of one stem share an artifact; an edited document keeps the one of its first
text. -/
theorem stem_shared_or_edited :
    (¬ Shelved (Shelf.pass {} ([⟨["a", "x.md"], "one"⟩, ⟨["b", "x.md"], "two"⟩], succeeding))
      (source_docs [⟨["a", "x.md"], "one"⟩, ⟨["b", "x.md"], "two"⟩])) ∧
    ¬ Shelved ((Shelf.pass {} ([⟨["a", "x.md"], "one"⟩], succeeding)).pass
      ([⟨["a", "x.md"], "more"⟩], succeeding))
      (source_docs [⟨["a", "x.md"], "more"⟩]) := by
  constructor
  · intro h
    have hmade := h.made ⟨["a", "x.md"], "one"⟩ (by decide +kernel)
    exact absurd hmade (by decide +kernel)
  · intro h
    have hmade := h.made ⟨["a", "x.md"], "more"⟩ (by decide +kernel)
    exact absurd hmade (by decide +kernel)

end Memline.wiki.profile
