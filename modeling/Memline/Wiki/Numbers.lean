/-
The numbers of a draft.

A number of three or more digits is to come from the material, and the verifier looks whether its
digits are anywhere in there. They are also in there where a longer number or an identifier has them
in it, and then the number passes although nobody stated it. What is shown is when this happens: the
digits lie in some text of the bundle, and wherever they do, what stands before or behind goes on
with them.
-/
import Memline.Lib.Coding
import Memline.Wiki.Verify

set_option autoImplicit false

namespace Memline.wiki.draft

open Py Regex bundle

/-! ## What a complete number is -/

section

variable (cls : Classes)

/-- A character that goes on with a number, or with an identifier. -/
def joins (c : Char) : Bool := cls.word c || c == '.' || c == '-'

/-- What stands before a number goes on into it: by such a character, or by a digit and a
separator. -/
def leads (u : List Char) : Bool :=
  match u.reverse with
  | [] => false
  | [c] => joins cls c
  | c :: d :: _ => joins cls c || (c == ',' && cls.digit d)

/-- What stands behind a number goes on with it: up to a digit, or by a separator and a digit. -/
def trails (v : List Char) : Bool :=
  (v.takeWhile (joins cls)).any cls.digit ||
    match v with
    | c :: d :: _ => c == ',' && cls.digit d
    | _ => false

/-- Without thousands separators. -/
def ungrouped (w : List Char) : List Char := w.filter fun c => c ≠ ','

/-- The number stands in the text as a number of its own. -/
def Whole (text n : List Char) : Prop :=
  ∃ u w v, text = u ++ w ++ v ∧ ungrouped w = ungrouped n ∧ leads cls u = false ∧
    trails cls v = false

/-- Whether the number stands there, tried at every place and with every length. -/
def stands (text n : List Char) : Bool :=
  (List.range (text.length + 1)).any fun i => (List.range (text.length + 1)).any fun k =>
    ungrouped ((text.drop i).take k) == ungrouped n && !leads cls (text.take i) &&
      !trails cls (text.drop (i + k))

/-- A number stands in a text when it is there in whole. -/
theorem stands_iff (text n : List Char) : stands cls text n = true ↔ Whole cls text n := by
  simp only [stands, List.any_eq_true, List.mem_range, Bool.and_eq_true, beq_iff_eq,
    Bool.not_eq_true']
  constructor
  · rintro ⟨i, -, k, -, ⟨hw, hu⟩, hv⟩
    refine ⟨text.take i, (text.drop i).take k, text.drop (i + k), ?_, hw, hu, hv⟩
    rw [← List.drop_drop, List.append_assoc, List.take_append_drop, List.take_append_drop]
  · rintro ⟨u, w, v, rfl, hw, hu, hv⟩
    refine ⟨u.length, ?_, w.length, ?_, ?_⟩
    · simp only [List.length_append]
      omega
    · simp only [List.length_append]
      omega
    · rw [← List.length_append, List.drop_left, List.append_assoc, List.drop_left, List.take_left,
        List.take_left]
      exact ⟨⟨hw, hu⟩, hv⟩

instance (text n : List Char) : Decidable (Whole cls text n) :=
  decidable_of_iff _ (stands_iff cls text n)

/-- The numbers in the prose of a draft, outside its citations. -/
def numbers (draft : List Char) : List String :=
  whole_matches (TRACEABLE_NUMBER cls) (sub CITATION " " draft)

/-- The texts of a bundle's items. -/
def texts (b : Bundle) : List String :=
  b.memories.map BundledMemory.text ++ b.source_sections.map SourceSection.text

/-- The digits of a number are somewhere in the text. -/
def Lies (text n : List Char) : Prop := n <:+: text ∨ ungrouped n <:+: text

/-- The digits are in some text, and always something goes on with them. -/
def Swallowed (b : Bundle) (n : List Char) : Prop :=
  (∃ t ∈ texts b, Lies t.toList n) ∧
    ∀ t ∈ texts b, ∀ u w v, t.toList = u ++ w ++ v → ungrouped w = ungrouped n →
      leads cls u = true ∨ trails cls v = true

/-- The digits are in no text. -/
def Missing (b : Bundle) (n : List Char) : Prop := ∀ t ∈ texts b, ¬ Lies t.toList n

end

variable {cls : Classes}

/-- A number is swallowed when it lies within a longer one of some text, and stands in none. -/
theorem swallowed_iff {b : Bundle} {n : List Char} :
    Swallowed cls b n ↔ (∃ t ∈ texts b, Lies t.toList n) ∧ ¬ ∃ t ∈ texts b,
      Whole cls t.toList n := by
  refine and_congr_right fun _ => ?_
  constructor
  · rintro h ⟨t, ht, u, w, v, htext, hw, hu, hv⟩
    rcases h t ht u w v htext hw with h | h
    · rw [hu] at h
      cases h
    · rw [hv] at h
      cases h
  · intro h t ht u w v htext hw
    by_contra hnot
    rw [not_or, Bool.not_eq_true, Bool.not_eq_true] at hnot
    exact h ⟨t, ht, u, w, v, htext, hw, hnot.1, hnot.2⟩

/-! ## Removing a character -/

/-- One character replaced by nothing is filtered out. -/
theorem str_replace_char (text old : String) {c : Char} (hold : old.toList = [c]) :
    (str_replace text old "").toList = text.toList.filter fun d => d ≠ c := by
  have hne : old ≠ "" := by
    rintro rfl
    cases hold
  have hcut : ∀ t : List Char, (Rewriting.fill (fun (_ : Unit) _ => ((), ([] : List Char))) ()
      ((lit [c]).finder.cut t)).2 = t.filter fun d => d ≠ c := by
    intro t
    induction t with
    | nil => rfl
    | cons d t ih =>
      by_cases hd : d = c
      · subst hd
        have hfound : (lit [d]).finder.cut (d :: t) = .inr [d] :: (lit [d]).finder.cut t :=
          cut_lit_append (List.cons_ne_nil d []) t
        rw [hfound]
        simpa [Rewriting.fill] using ih
      · have hleft : (lit [c]).finder.cut (d :: t) = .inl d :: (lit [c]).finder.cut t :=
          cut_lit_cons fun h => hd (List.cons_prefix_cons.mp h).1.symm
        rw [hleft]
        simpa [Rewriting.fill, hd] using ih
  rw [str_replace, String.toList_ofList, occurrences, if_neg hne, hold]
  exact hcut text.toList

theorem toList_without_commas (n : String) : (str_replace n "," "").toList = ungrouped n.toList :=
  @str_replace_char n "," ',' rfl

/-- The digits of a number, without its separators. -/
theorem length_without_separators (n : String) :
    (str_replace (str_replace n "," "") "." "").length =
      (n.toList.filter fun c => c ≠ ',' ∧ c ≠ '.').length := by
  rw [← String.length_toList, @str_replace_char _ "." '.' rfl, @str_replace_char n "," ',' rfl,
    List.filter_filter]
  congr 1
  refine List.filter_congr fun c _ => ?_
  by_cases hdot : c = '.' <;> by_cases hcomma : c = ',' <;> simp [hdot, hcomma]

/-! ## The numbers that are read -/

/-- A match is what the pattern reads, from one place to another. -/
theorem mem_whole_matches {r : Regex} {text : List Char} {n : String}
    (h : n ∈ whole_matches r text) : ∃ p, ∃ q ∈ run r p, n.toList = p.upTo q := by
  obtain ⟨e, he, rfl⟩ := List.mem_map.mp h
  obtain ⟨p, q, hq, hgroup⟩ := matchesFrom_reads he
  obtain ⟨m, hm, hcaptured⟩ := captured_group hq
  refine ⟨p, m, hm, ?_⟩
  rw [String.toList_ofList, hgroup, hcaptured]

theorem upTo_of_append {p q : Place} {s : List Char} (h : p.after = s ++ q.after) :
    p.upTo q = s := by
  rw [Place.upTo, h, List.length_append, Nat.add_sub_cancel, List.take_left]

theorem avoids_newline : Avoids '\n' (TRACEABLE_NUMBER cls) := by
  have hdigit : cls.digit '\n' = false := cls.digit_ascii '\n' (by decide)
  have hword : cls.word '\n' = false := cls.word_ascii '\n' (by decide)
  simp [TRACEABLE_NUMBER, Avoids, many, atMost, char, plus, hdigit, hword]

/-- A number is on one line. -/
theorem number_newline {draft : List Char} {n : String} (h : n ∈ numbers cls draft) :
    '\n' ∉ n.toList := by
  obtain ⟨p, q, hq, hn⟩ := mem_whole_matches h
  obtain ⟨s, hs, hafter⟩ := run_avoids avoids_newline hq
  rw [hn, upTo_of_append hafter]
  exact hs

/-- A number begins with a digit. -/
theorem number_head {draft : List Char} {n : String} (h : n ∈ numbers cls draft) :
    ∃ c rest, n.toList = c :: rest ∧ cls.digit c = true := by
  obtain ⟨p, q, hq, hn⟩ := mem_whole_matches h
  rw [TRACEABLE_NUMBER, run] at hq
  obtain ⟨m, hm, hrest⟩ := List.mem_flatMap.mp hq
  obtain rfl : m = p := by
    rw [run] at hm
    split at hm
    · cases hm
    · exact List.mem_singleton.mp hm
  rw [run] at hrest
  obtain ⟨m', hm', hread⟩ := List.mem_flatMap.mp hrest
  obtain ⟨s, hs, -⟩ := run_reads hread
  rw [run] at hm'
  split at hm'
  · cases hm'
  · rename_i c rest hafter
    split at hm'
    · rename_i hdigit
      obtain rfl := List.mem_singleton.mp hm'
      refine ⟨c, s, ?_, hdigit⟩
      rw [hn]
      refine upTo_of_append ?_
      rw [hafter, show rest = s ++ q.after from hs]
      rfl
    · cases hm'

theorem comma_not_digit : cls.digit ',' = false := cls.digit_ascii ',' (by decide)

theorem dot_not_digit : cls.digit '.' = false := cls.digit_ascii '.' (by decide)

theorem ungrouped_ne_nil {draft : List Char} {n : String} (h : n ∈ numbers cls draft) :
    ungrouped n.toList ≠ [] := by
  obtain ⟨c, rest, hn, hdigit⟩ := number_head h
  have hcomma : c ≠ ',' := by
    rintro rfl
    rw [comma_not_digit] at hdigit
    cases hdigit
  rw [hn, ungrouped, List.filter_cons_of_pos (by simpa using hcomma)]
  exact List.cons_ne_nil _ _

/-- A number of three digits is long enough to be looked for. -/
theorem digits_le (n : List Char) :
    n.countP cls.digit ≤ (n.filter fun c => c ≠ ',' ∧ c ≠ '.').length := by
  rw [List.countP_eq_length_filter]
  refine (List.Sublist.length_le ?_)
  refine List.monotone_filter_right n fun c hc => ?_
  have hcomma : c ≠ ',' := by
    rintro rfl
    rw [comma_not_digit] at hc
    cases hc
  have hdot : c ≠ '.' := by
    rintro rfl
    rw [dot_not_digit] at hc
    cases hc
  simp [hcomma, hdot]

/-! ## The material -/

/-- What is on one line is in the joined texts where it is in one of them. -/
theorem infix_joined {w : List Char} (hne : w ≠ []) (hw : '\n' ∉ w) (ts : List String) :
    w <:+: ("\n".intercalate ts).toList ↔ ∃ t ∈ ts, w <:+: t.toList := by
  have hsep : "\n".toList = ['\n'] := rfl
  rw [String.toList_intercalate, hsep, Lists.infix_intercalate_iff hne hw]
  simp

/-- The corpus holds what some text holds. -/
theorem holds_corpus {b : Bundle} {part : String} (hne : part.toList ≠ [])
    (hpart : '\n' ∉ part.toList) :
    suggest.holds (bundle_index b).corpus part = true ↔
      ∃ t ∈ texts b, part.toList <:+: t.toList := by
  have hholds : suggest.holds (bundle_index b).corpus part = true ↔
      part.toList <:+: (bundle_index b).corpus.toList := by
    simp only [suggest.holds, decide_eq_true_eq]
  rw [hholds]
  exact infix_joined hne hpart (texts b)

/-! ## The findings -/

/-- A finding about something else than a number. -/
def Unnumbered (f : Json) : Prop :=
  ∃ kind fields, f = finding kind fields ∧ kind ≠ "number_not_in_material"

/-- A finding that is not about a number has another kind. -/
theorem Unnumbered.kind {f : Json} (h : Unnumbered f) :
    f.get "kind" ≠ .ok (.str "number_not_in_material") := by
  obtain ⟨kind, fields, rfl, hkind⟩ := h
  intro hget
  exact hkind (Json.str.inj (Except.ok.inj hget))

/-- A finding of another kind is not about a number. -/
theorem unnumbered {kind : String} {fields : Dict} (h : kind ≠ "number_not_in_material") :
    Unnumbered (finding kind fields) :=
  ⟨kind, fields, rfl, h⟩

/-- No finding about a citation is about a number. -/
theorem citation_unnumbered {i : Index} {refs : List String} :
    ∀ f ∈ citation_findings i refs, Unnumbered f := by
  intro f hf
  obtain ⟨ref, -, hf⟩ := List.mem_flatMap.mp hf
  cases hstanding : standing i ref with
  | known =>
    rw [hstanding] at hf
    cases hf
  | abbreviates full =>
    rw [hstanding] at hf
    exact List.mem_singleton.mp hf ▸ unnumbered (by decide)
  | unknown =>
    rw [hstanding] at hf
    exact List.mem_singleton.mp hf ▸ unnumbered (by decide)

theorem leak_unnumbered {patterns : List (String × Regex)} {draft : List Char} :
    ∀ f ∈ leak_findings patterns draft, Unnumbered f := by
  intro f hf
  obtain ⟨p, -, hf⟩ := List.mem_flatMap.mp hf
  obtain ⟨value, -, rfl⟩ := List.mem_map.mp hf
  refine unnumbered fun h => ?_
  have hhead := congrArg (fun s => s.toList.head?) h
  simp at hhead

/-- Two collections without findings about numbers. -/
theorem and_unnumbered {a b : Collected} (ha : ∀ f ∈ a.findings, Unnumbered f)
    (hb : ∀ f ∈ b.findings, Unnumbered f) : ∀ f ∈ (a.and b).findings, Unnumbered f :=
  fun f hf => (List.mem_append.mp hf).elim (ha f) (hb f)

theorem collect_ref_unnumbered (path : String) (ref : Json) :
    ∀ f ∈ (collect_ref path ref).findings, Unnumbered f := by
  intro f hf
  cases ref with
  | str s =>
    rw [collect_ref] at hf
    split at hf
    · cases hf
    · exact List.mem_singleton.mp hf ▸ unnumbered (by decide)
  | _ => exact List.mem_singleton.mp hf ▸ unnumbered (by decide)

theorem collect_refs_unnumbered (path : String) (refs : Json) :
    ∀ f ∈ (collect_refs path refs).findings, Unnumbered f := by
  cases refs with
  | list xs =>
    rw [collect_refs]
    induction xs with
    | nil => exact nofun
    | cons x xs ih => exact and_unnumbered (collect_ref_unnumbered path x) ih
  | _ => exact fun f hf => List.mem_singleton.mp hf ▸ unnumbered (by decide)

mutual

/-- Whatever is wrong with a sidecar is nothing about a number. -/
theorem sidecar_unnumbered (path : String) (x : Json) :
    ∀ f ∈ (collect_sidecar_refs path x).findings, Unnumbered f := by
  cases x with
  | list items =>
    rw [collect_sidecar_refs]
    exact items_unnumbered path 0 items
  | obj fields =>
    rw [collect_sidecar_refs]
    exact fields_unnumbered path fields
  | _ =>
    intro f hf
    rw [collect_sidecar_refs] at hf
    · cases hf
    all_goals exact nofun

theorem items_unnumbered (path : String) (index : ℕ) (items : List Json) :
    ∀ f ∈ (collect_items path index items).findings, Unnumbered f := by
  cases items with
  | nil =>
    intro f hf
    rw [collect_items] at hf
    cases hf
  | cons item items =>
    rw [collect_items]
    exact and_unnumbered (sidecar_unnumbered _ item) (items_unnumbered path (index + 1) items)

theorem fields_unnumbered (path : String) (fields : List (String × Json)) :
    ∀ f ∈ (collect_fields path fields).findings, Unnumbered f := by
  cases fields with
  | nil =>
    intro f hf
    rw [collect_fields] at hf
    cases hf
  | cons e fields =>
    obtain ⟨key, item⟩ := e
    rw [collect_fields]
    refine and_unnumbered ?_ (fields_unnumbered path fields)
    by_cases hkey : key = "evidence_refs"
    · rw [if_pos hkey]
      exact collect_refs_unnumbered _ item
    · rw [if_neg hkey]
      exact sidecar_unnumbered _ item

end

/-- No finding about a reference is about a number. -/
theorem ref_unnumbered {kind : String} (hkind : kind ≠ "number_not_in_material") (i : Index)
    (refs : List String) : ∀ f ∈ ref_findings kind i refs, Unnumbered f := by
  intro f hf
  obtain ⟨ref, -, rfl⟩ := List.mem_map.mp hf
  exact unnumbered hkind

/-- No finding about unused references is about a number. -/
theorem unused_unnumbered (claims : Dict) : ∀ f ∈ (unused_raw claims).2, Unnumbered f := by
  intro f hf
  rw [unused_raw] at hf
  split at hf
  · cases hf
  · exact List.mem_singleton.mp hf ▸ unnumbered (by decide)

/-- In either case none of the findings is about a number. -/
theorem ite_unnumbered {p : Prop} [Decidable p] {f g : List Json} (hf : ∀ x ∈ f, Unnumbered x)
    (hg : ∀ x ∈ g, Unnumbered x) : ∀ x ∈ if p then f else g, Unnumbered x := by
  by_cases hp : p
  · rw [if_pos hp]
    exact hf
  · rw [if_neg hp]
    exact hg

/-- One finding of another kind is not about a number. -/
theorem one_unnumbered {kind : String} {fields : Dict} (h : kind ≠ "number_not_in_material") :
    ∀ x ∈ [finding kind fields], Unnumbered x :=
  fun _ hx => List.mem_singleton.mp hx ▸ unnumbered h

/-- A listed finding of another kind is not about a number. -/
theorem list_unnumbered {kind : String} (h : kind ≠ "number_not_in_material") (refs : List String) :
    ∀ x ∈ list_finding kind refs, Unnumbered x := ite_unnumbered nofun (one_unnumbered h)

/-- No finding about the summary is about a number. -/
theorem summary_unnumbered (claims : Option Dict) :
    ∀ f ∈ summary_findings claims, Unnumbered f := by
  cases claims with
  | none => exact nofun
  | some claims => exact ite_unnumbered (one_unnumbered (by decide)) nofun

/-- No finding about a bare citation is about a number. -/
theorem bare_unnumbered (draft : List Char) : ∀ f ∈ bare_findings draft, Unnumbered f := by
  intro f hf
  obtain ⟨ref, -, rfl⟩ := List.mem_map.mp hf
  exact unnumbered (by decide)

theorem token_unnumbered (draft : List Char) : ∀ f ∈ token_findings draft, Unnumbered f := by
  intro f hf
  obtain ⟨token, -, rfl⟩ := List.mem_map.mp hf
  exact unnumbered (by decide)

/-- No finding about a section is about a number. -/
theorem section_unnumbered (draft : List Char) : ∀ f ∈ section_findings draft, Unnumbered f := by
  intro f hf
  obtain ⟨sec, -, rfl⟩ := List.mem_map.mp hf
  exact unnumbered (by decide)

section verify

variable {domains : Option (List String)} {draft_markdown : String} {b : Bundle}
    {claims : Option Dict} {report : Report}

/-- What is found about numbers is reported. -/
theorem numbers_reported (h : verify cls domains draft_markdown b claims = .ok report) :
    number_findings cls (bundle_index b).corpus draft_markdown.toList ⊆ report.findings := by
  obtain ⟨patterns, -, h⟩ := Except.bind_ok.mp h
  obtain rfl := Except.ok.inj h
  iterate 8 refine List.subset_append_of_subset_left _ ?_
  exact List.subset_append_right _ _

/-- And everything else that is reported is about something else. -/
theorem reported_unnumbered (h : verify cls domains draft_markdown b claims = .ok report) :
    ∀ f ∈ report.findings,
    Unnumbered f ∨ f ∈ number_findings cls (bundle_index b).corpus draft_markdown.toList := by
  obtain ⟨patterns, -, h⟩ := Except.bind_ok.mp h
  obtain rfl := Except.ok.inj h
  have hor : ∀ {fs gs : List Json} {P : Json → Prop}, (∀ x ∈ fs, P x) → (∀ x ∈ gs, P x) →
      ∀ x ∈ fs ++ gs, P x :=
    fun hfs hgs => List.forall_mem_append.mpr ⟨hfs, hgs⟩
  have hleft : ∀ {fs : List Json}, (∀ x ∈ fs, Unnumbered x) → ∀ x ∈ fs,
      Unnumbered x ∨ x ∈ number_findings cls (bundle_index b).corpus draft_markdown.toList :=
    fun hfs x hx => .inl (hfs x hx)
  refine hor (hor (hor (hor (hor (hor (hor (hor (hor (hor (hor (hor (hor (hor
    (hleft ?_) (hleft ?_)) (hleft ?_)) (hleft ?_)) (hleft ?_)) (hleft ?_)) fun x hx => .inr hx)
    (hleft ?_)) (hleft ?_)) (hleft ?_)) (hleft ?_)) (hleft ?_)) (hleft ?_)) (hleft ?_)) (hleft ?_)
  · exact summary_unnumbered claims
  · exact bare_unnumbered _
  · exact token_unnumbered _
  · exact citation_unnumbered
  · exact section_unnumbered _
  · exact leak_unnumbered
  · exact ite_unnumbered nofun (one_unnumbered (by decide))
  · exact sidecar_unnumbered "$" _
  · exact ref_unnumbered (by decide) _ _
  · exact unused_unnumbered _
  · exact ite_unnumbered nofun (one_unnumbered (by decide))
  · exact ref_unnumbered (by decide) _ _
  · exact list_unnumbered (by decide) _
  · exact ite_unnumbered (list_unnumbered (by decide) _) nofun

/-- No finding is about a number where every number that is long enough has its digits in some
text. -/
theorem unnoted_iff (h : verify cls domains draft_markdown b claims = .ok report) :
    (∀ f ∈ report.findings, f.get "kind" ≠ .ok (.str "number_not_in_material")) ↔
      ∀ n ∈ numbers cls draft_markdown.toList,
        3 ≤ (n.toList.filter fun c => c ≠ ',' ∧ c ≠ '.').length →
        ¬ Missing b n.toList := by
  -- a number has no line break, so in the corpus it lies in one of the joined texts
  have hlies : ∀ n ∈ numbers cls draft_markdown.toList,
      (suggest.holds (bundle_index b).corpus n = true ∨
      suggest.holds (bundle_index b).corpus (str_replace n "," "") = true) ↔
        ∃ t ∈ texts b, Lies t.toList n.toList := by
    intro n hn
    have hne : n.toList ≠ [] := by
      obtain ⟨c, rest, hcons, -⟩ := number_head hn
      rw [hcons]
      exact List.cons_ne_nil c rest
    have hline := number_newline hn
    have hline' : '\n' ∉ ungrouped n.toList := fun hin => hline (List.mem_of_mem_filter hin)
    rw [holds_corpus hne hline,
      holds_corpus (by rw [toList_without_commas]; exact ungrouped_ne_nil hn)
      (by rw [toList_without_commas]; exact hline'), toList_without_commas]
    simp only [texts, Lies, ← exists_or, ← and_or_left]
  -- nothing but the check of the numbers notes one that is not in the material
  have hfindings : (∀ f ∈ report.findings, f.get "kind" ≠ .ok (.str "number_not_in_material")) ↔
      unsupported cls (bundle_index b).corpus draft_markdown.toList = [] := by
    constructor
    · intro hnone
      by_contra hne
      obtain ⟨n, ns, hns⟩ := List.exists_cons_of_ne_nil hne
      refine hnone (finding "number_not_in_material" [("detail", .str n)])
        (numbers_reported h ?_) rfl
      rw [number_findings, hns]
      exact List.mem_cons_self
    · intro hnil f hf
      rcases reported_unnumbered h f hf with hf | hf
      · exact hf.kind
      · rw [number_findings, hnil] at hf
        cases hf
  rw [hfindings, unsupported, List.filter_eq_nil_iff]
  simp only [List.mem_eraseDups]
  refine forall₂_congr fun n hn => ?_
  have hmissing : ¬ Missing b n.toList ↔ ∃ t ∈ texts b, Lies t.toList n.toList := by
    simp only [Missing, not_forall, not_not, exists_prop]
  rw [hmissing, ← hlies n hn, length_without_separators]
  generalize hholds : suggest.holds (bundle_index b).corpus n = x
  generalize hholds' : suggest.holds (bundle_index b).corpus (str_replace n "," "") = y
  cases x <;> cases y <;> simp

/-- **Invented numbers.** One is reported unless it is swallowed, and then not either if another one
is found missing. -/
theorem traced_iff (h : verify cls domains draft_markdown b claims = .ok report) :
    ((∀ f ∈ report.findings, f.get "kind" ≠ .ok (.str "number_not_in_material")) →
      ∀ n ∈ numbers cls draft_markdown.toList, 3 ≤ n.toList.countP cls.digit →
        ∃ t ∈ texts b, Whole cls t.toList n.toList) ↔
    ((∃ n ∈ numbers cls draft_markdown.toList, 3 ≤ n.toList.countP cls.digit ∧
      Swallowed cls b n.toList) →
      ∃ n ∈ numbers cls draft_markdown.toList,
        3 ≤ (n.toList.filter fun c => c ≠ ',' ∧ c ≠ '.').length ∧
        Missing b n.toList) := by
  rw [unnoted_iff h]
  constructor
  · rintro hall ⟨n, hn, hdigits, hswallowed⟩
    by_contra hnone
    have hlies : ∀ m ∈ numbers cls draft_markdown.toList,
        3 ≤ (m.toList.filter fun c => c ≠ ',' ∧ c ≠ '.').length → ¬ Missing b m.toList :=
      fun m hm hlong hmissing => hnone ⟨m, hm, hlong, hmissing⟩
    exact (swallowed_iff.mp hswallowed).2 (hall hlies n hn hdigits)
  · intro hmissing hlies n hn hdigits
    by_contra hwhole
    -- it was not noted, so it lies in some text, if not as a whole
    have hlie : ∃ t ∈ texts b, Lies t.toList n.toList := by
      have hnot := hlies n hn (hdigits.trans (digits_le n.toList))
      simpa only [Missing, not_forall, not_not, exists_prop] using hnot
    obtain ⟨m, hm, hlong, hnone⟩ := hmissing ⟨n, hn, hdigits, swallowed_iff.mpr ⟨hlie, hwhole⟩⟩
    exact hlies m hm hlong hnone

end verify

def memory_bundle (text : String) : Bundle where
  memories := [⟨"0123456789ab", .null, .null, some false, "#", text⟩]
  source_sections := []

/-- A number that is stated with a comma in the material passes. -/
theorem stated_number : ∃ report,
    verify Classes.ascii (some []) "It took 1234 steps." (memory_bundle "Ran 1,234 steps: 1234.")
      none = .ok report ∧
      ∃ t ∈ texts (memory_bundle "Ran 1,234 steps: 1234."),
        Whole Classes.ascii t.toList "1234".toList := by
  obtain ⟨report, hrun, hfindings⟩ : ∃ report,
      verify Classes.ascii (some []) "It took 1234 steps." (memory_bundle "Ran 1,234 steps: 1234.")
        none = .ok report ∧
        ∀ f ∈ report.findings, f.get "kind" ≠ .ok (.str "number_not_in_material") :=
        ⟨_, rfl, by decide +kernel⟩
  have hnumbers : numbers Classes.ascii "It took 1234 steps.".toList = ["1234"] := by decide +kernel
  refine ⟨report, hrun,
    (traced_iff hrun).mpr ?_ hfindings "1234" (by rw [hnumbers]; exact List.mem_cons_self)
      (by decide)⟩
  rintro ⟨n, hn, -, hswallowed⟩
  rw [hnumbers, List.mem_singleton] at hn
  subst hn
  exact absurd (swallowed_iff.mp hswallowed).2 (not_not.mpr ⟨_, List.mem_cons_self,
    by decide +kernel⟩)

/-- An invented number whose digits are in the middle of a longer one is not reported. -/
theorem invented_number : ∃ report,
    verify Classes.ascii (some []) "It took 1234 steps." (memory_bundle "Build 912345 passed.")
      none = .ok report ∧
      (∀ f ∈ report.findings, f.get "kind" ≠ .ok (.str "number_not_in_material")) ∧
      "1234" ∈ numbers Classes.ascii "It took 1234 steps.".toList ∧
      3 ≤ "1234".toList.countP Classes.ascii.digit ∧
      ¬ ∃ t ∈ texts (memory_bundle "Build 912345 passed."),
        Whole Classes.ascii t.toList "1234".toList :=
  ⟨_, rfl, by decide +kernel, by decide +kernel, by decide, by decide +kernel⟩

end Memline.wiki.draft
