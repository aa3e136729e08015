/-
Rewriting a generated region, and what that leaves of a page.

A region goes from the first opening marker to the first closing marker behind it. Rewriting
it keeps what lies before and behind, up to line ends; but where the first opening marker has
lost its closing one, a block is appended, and from then on the region is all from the lost
marker to the end of the block.
-/
import Mathlib.Logic.Relation
import Memline.Wiki.Page

set_option autoImplicit false

namespace Memline.wiki

open Lists (around Solid)

/-! ## Line ends -/

/-- Any character but a carriage return is read as it is. -/
theorem read_text_cons {c : Char} (h : c ≠ '\r') (rest : List Char) :
    read_text (c :: rest) = c :: read_text rest := by
  rw [read_text]
  · rw [if_neg h]
  · intro rest' heq
    exact absurd heq h

/-- Text without carriage returns is read as it is. -/
theorem read_text_append_of_notMem {a : List Char} (h : '\r' ∉ a) (b : List Char) :
    read_text (a ++ b) = a ++ read_text b := by
  induction a with
  | nil => rfl
  | cons c a ih =>
    rw [List.mem_cons, not_or] at h
    rw [List.cons_append, read_text_cons (Ne.symm h.1), ih h.2, List.cons_append]

/-- A text without carriage returns is read as it is. -/
theorem read_text_of_notMem {a : List Char} (h : '\r' ∉ a) : read_text a = a := by
  have hnil := read_text_append_of_notMem h []
  rwa [List.append_nil, read_text, List.append_nil] at hnil

theorem cr_notMem_read_text (t : List Char) : '\r' ∉ read_text t := by
  fun_induction read_text t with
  | case1 => exact List.not_mem_nil
  | case2 rest ih =>
    rw [List.mem_cons, not_or]
    exact ⟨by decide, ih⟩
  | case3 c rest _ ih =>
    rw [List.mem_cons, not_or]
    refine ⟨?_, ih⟩
    by_cases hc : c = '\r'
    · rw [if_pos hc]
      decide
    · rw [if_neg hc]
      exact Ne.symm hc

/-- A text is read piece by piece where a piece begins with no line end. -/
theorem read_text_append_cons {c : Char} (hc : newline c = false) (a b : List Char) :
    read_text (a ++ c :: b) = read_text a ++ c :: read_text b := by
  have hcr : c ≠ '\r' := by
    rintro rfl
    exact absurd hc (by decide)
  have hlf : c ≠ '\n' := by
    rintro rfl
    exact absurd hc (by decide)
  fun_induction read_text a with
  | case1 => exact read_text_cons hcr b
  | case2 rest ih => rw [List.cons_append, List.cons_append, read_text, ih, List.cons_append]
  | case3 d rest hd ih =>
    rw [List.cons_append, read_text, ih, List.cons_append]
    rintro rest' rfl heq
    cases rest with
    | nil =>
      injection heq with heq
      exact hlf heq
    | cons e rest =>
      injection heq with he
      exact hd rest rfl (he ▸ rfl)

/-- Line ends are read as line ends. -/
theorem read_text_newlines {w : List Char} (h : ∀ c ∈ w, newline c = true) :
    ∀ c ∈ read_text w, c = '\n' := by
  fun_induction read_text w with
  | case1 => exact fun c hc => absurd hc List.not_mem_nil
  | case2 rest ih =>
    intro c hc
    rcases List.mem_cons.mp hc with rfl | hc
    · rfl
    · exact ih (fun d hd => h d (List.mem_cons_of_mem _ (List.mem_cons_of_mem _ hd))) c hc
  | case3 d rest _ ih =>
    intro c hc
    rcases List.mem_cons.mp hc with rfl | hc
    · have hd := h d List.mem_cons_self
      by_cases hcr : d = '\r'
      · rw [if_pos hcr]
      · rw [if_neg hcr]
        simpa [newline, hcr] using hd
    · exact ih (fun e he => h e (List.mem_cons_of_mem _ he)) c hc

/-- A text within a line is where it was. -/
theorem prefix_read_text {pat : List Char} (hpat : ∀ c ∈ pat, newline c = false) (t : List Char) :
    pat <+: read_text t ↔ pat <+: t := by
  -- only line ends are read as something else, and the pattern has none
  fun_induction read_text t generalizing pat with
  | case1 => rfl
  | case2 rest ih =>
    cases pat with
    | nil => simp
    | cons d pat =>
      have hd := hpat d List.mem_cons_self
      rw [List.cons_prefix_cons, List.cons_prefix_cons]
      constructor
      · rintro ⟨rfl, -⟩
        exact absurd hd (by decide)
      · rintro ⟨rfl, -⟩
        exact absurd hd (by decide)
  | case3 c rest _ ih =>
    cases pat with
    | nil => simp
    | cons d pat =>
      have hd := hpat d List.mem_cons_self
      rw [List.cons_prefix_cons, List.cons_prefix_cons,
        ih fun e he => hpat e (List.mem_cons_of_mem _ he)]
      by_cases hc : c = '\r'
      · subst hc
        have hlf : d ≠ '\n' := by
          rintro rfl
          exact absurd hd (by decide)
        have hcr : d ≠ '\r' := by
          rintro rfl
          exact absurd hd (by decide)
        simp [hlf, hcr]
      · rw [if_neg hc]

theorem infix_read_text {pat : List Char} (hne : pat ≠ []) (hpat : ∀ c ∈ pat, newline c = false)
    (t : List Char) : pat <:+: read_text t ↔ pat <:+: t := by
  have hlf : '\n' ∉ pat := fun h => absurd (hpat _ h) (by decide)
  fun_induction read_text t with
  | case1 => rfl
  | case2 rest ih =>
    have hcr : '\r' ∉ pat := fun h => absurd (hpat _ h) (by decide)
    have hbefore : pat <:+: '\r' :: '\n' :: rest ↔ pat <:+: rest := by
      have hin : pat <:+: ['\r'] ++ '\n' :: rest ↔ _ := Lists.infix_append_cons_iff hne hlf
      have hone : ¬ pat <:+: ['\r'] := by
        intro h
        obtain ⟨d, pat, rfl⟩ := List.exists_cons_of_ne_nil hne
        exact hcr (List.mem_singleton.mp (h.subset List.mem_cons_self) ▸ List.mem_cons_self)
      rw [List.singleton_append] at hin
      rw [hin, or_iff_right hone]
    have hread : pat <:+: '\n' :: read_text rest ↔ pat <:+: read_text rest := by
      have hin : pat <:+: [] ++ '\n' :: read_text rest ↔ _ := Lists.infix_append_cons_iff hne hlf
      rw [List.nil_append, List.infix_nil, or_iff_right hne] at hin
      exact hin
    exact hread.trans (ih.trans hbefore.symm)
  | case3 c rest hrest ih =>
    have hread : read_text (c :: rest) = (if c = '\r' then '\n' else c) :: read_text rest := by
      rw [read_text]
      exact hrest
    have hprefix := prefix_read_text hpat (c :: rest)
    rw [hread] at hprefix
    rw [List.infix_cons_iff, List.infix_cons_iff]
    exact or_congr hprefix ih

namespace Markers

variable (m : Markers)

/-- No carriage return is in the opening marker. -/
theorem opening_ne_cr : '\r' ∉ m.opening := fun h => absurd (m.opening_line _ h) (by decide)

theorem closing_ne_cr : '\r' ∉ m.closing := fun h => absurd (m.closing_line _ h) (by decide)

theorem opening_ne_lf : '\n' ∉ m.opening := fun h => absurd (m.opening_line _ h) (by decide)

theorem closing_ne_lf : '\n' ∉ m.closing := fun h => absurd (m.closing_line _ h) (by decide)

/-- A page with a region after `u` and before `v`. -/
def framed (u y v : List Char) : List Char := u ++ m.opening ++ (y ++ m.closing ++ v)

/-- A text is read piece by piece around a closing marker. -/
theorem read_text_closing (y v : List Char) :
    read_text (y ++ m.closing ++ v) = read_text y ++ m.closing ++ read_text v := by
  obtain ⟨c, rest, hclosing, -⟩ := m.closing_solid
  have hc : newline c = false := m.closing_line c (hclosing ▸ List.mem_cons_self)
  have hrest : '\r' ∉ rest := fun h => m.closing_ne_cr (hclosing ▸ List.mem_cons_of_mem _ h)
  rw [hclosing, List.append_assoc, List.cons_append, read_text_append_cons hc,
    read_text_append_of_notMem hrest, List.append_assoc, List.cons_append]

theorem opening_infix_framed (u y v : List Char) : m.opening <:+: m.framed u y v :=
  ⟨u, y ++ m.closing ++ v, rfl⟩

/-- Where the region begins does not depend on how it goes on. -/
theorem framed_start {u y v u' y' v' : List Char} (h : m.framed u y v = m.framed u' y' v')
    (hu : ¬ m.opening <:+: u) (hu' : ¬ m.opening <:+: u') : u = u' := by
  have hfirst := Lists.around_append m.opening_solid hu (y ++ m.closing ++ v)
  have hfirst' := Lists.around_append m.opening_solid hu' (y' ++ m.closing ++ v')
  rw [framed, framed] at h
  rw [h, hfirst'] at hfirst
  injection hfirst with hpair
  exact (congrArg Prod.fst hpair).symm

/-- A page is read piece by piece around its region. -/
theorem read_text_framed (u y v : List Char) :
    read_text (m.framed u y v) = m.framed (read_text u) (read_text y) (read_text v) := by
  obtain ⟨c, rest, hopening, -⟩ := m.opening_solid
  have hc : newline c = false := m.opening_line c (hopening ▸ List.mem_cons_self)
  have hrest : '\r' ∉ rest := fun h => m.opening_ne_cr (hopening ▸ List.mem_cons_of_mem _ h)
  rw [framed, framed, hopening, List.append_assoc, List.cons_append, read_text_append_cons hc,
    read_text_append_of_notMem hrest, read_text_closing]
  simp

end Markers

/-! ## The region that is rewritten -/

section updated

variable {m : Markers} {body : String}

theorem write_region_of_ne {t : List Char} (h : updated m body (read_text t) ≠ read_text t) :
    write_region m t body = (updated m body (read_text t), true) :=
  if_neg h

/-- A region that does not change is not written, and the file stays as it was. -/
theorem write_region_of_eq {t : List Char} (h : updated m body (read_text t) = read_text t) :
    write_region m t body = (t, false) :=
  if_pos h

/-- The pattern finds the first opening marker and the first closing one behind it. -/
theorem search_region (current : List Char) :
    (region_pattern m).search [] current = (around m.opening current).bind fun w =>
      (around m.closing w.2).map fun w' =>
        (⟨w.1.reverse ++ [], m.opening ++ w.2, []⟩,
          ⟨(w.1 ++ m.opening ++ w'.1 ++ m.closing).reverse ++ [], w'.2, []⟩) :=
  Regex.search_between m.opening m.closing [] current

/-- The first region, between its first opening marker and the first closing one behind it. -/
theorem updated_framed {u y : List Char} (hu : ¬ m.opening <:+: u) (hy : ¬ m.closing <:+: y)
    (v : List Char) : updated m body (m.framed u y v) = u ++ m.block body ++ v := by
  have hopening := Lists.around_append m.opening_solid hu (y ++ m.closing ++ v)
  have hclosing := Lists.around_append m.closing_solid hy v
  rw [updated, Regex.sub_first, search_region, Markers.framed, hopening, Option.bind_some, hclosing]
  simp

/-- No region, and a new one at the end. -/
theorem updated_append {current : List Char}
    (h : ∀ u r, around m.opening current = some (u, r) → ¬ m.closing <:+: r) :
    updated m body current = current.rdropWhile (· = '\n') ++ "\n\n".toList ++ m.block body ++
      "\n".toList := by
  have hnone : (region_pattern m).search [] current = none := by
    rw [search_region]
    cases hopening : around m.opening current with
    | none => rfl
    | some w =>
      rw [Option.bind_some, Lists.around_eq_none_iff.mpr (h w.1 w.2 hopening)]
      rfl
  rw [updated, hnone]
  rfl

/-- Whatever is in the region, it stays between what lies before and behind it. -/
theorem updated_keeps {u y : List Char} (hu : ¬ m.opening <:+: u) (v : List Char) :
    ∃ y', updated m body (m.framed u y v) = m.framed u y' v := by
  by_cases hy : m.closing <:+: y
  · cases hfirst : around m.closing y with
    | none => exact absurd hy (Lists.around_eq_none_iff.mp hfirst)
    | some w =>
      -- a closing marker inside ends the region early; the rest of it stays
      obtain ⟨rfl, hw⟩ := (Lists.around_eq_some_iff m.closing_solid).mp (show around m.closing y =
        some (w.1, w.2) from hfirst)
      refine ⟨'\n' :: body.toList.rdropWhile Mem0.isspace ++ ['\n'] ++ m.closing ++ w.2, ?_⟩
      have hearly : m.framed u (w.1 ++ m.closing ++ w.2) v =
          m.framed u w.1 (w.2 ++ m.closing ++ v) := by
        simp [Markers.framed]
      rw [hearly, updated_framed hu hw]
      simp [Markers.block, Markers.framed]
  · refine ⟨'\n' :: body.toList.rdropWhile Mem0.isspace ++ ['\n'], ?_⟩
    rw [updated_framed hu hy]
    simp [Markers.block, Markers.framed]

end updated

/-! ## Newlines at the end -/

/-- A text without the newlines at its end. -/
def trimmed (t : List Char) : List Char := t.rdropWhile newline

theorem trimmed_split (t : List Char) : ∃ w, t = trimmed t ++ w ∧ ∀ c ∈ w, newline c = true :=
  ⟨t.rtakeWhile newline, List.rdropWhile_append_rtakeWhile.symm,
    fun _ hc => List.mem_rtakeWhile_imp hc⟩

/-- Newlines at the end make no difference to what is left of it. -/
theorem trimmed_append_newlines (s : List Char) {w : List Char} (h : ∀ c ∈ w, newline c = true) :
    trimmed (s ++ w) = trimmed s := by
  induction w using List.reverseRecOn with
  | nil => rw [List.append_nil]
  | append_singleton w c ih =>
    rw [← List.append_assoc, trimmed, List.rdropWhile_concat_pos _ _ _ (h c (by simp))]
    exact ih fun d hd => h d (List.mem_append_left _ hd)

/-- What is left of a trimmed text is its beginning. -/
theorem trimmed_starts (t : List Char) : trimmed t <+: t := List.rdropWhile_prefix _ _

/-- What lies before the text stays. -/
theorem trimmed_append (u t : List Char) : trimmed (u ++ t) <+: u ++ trimmed t := by
  obtain ⟨w, ht, hw⟩ := trimmed_split t
  have heq : trimmed (u ++ t) = trimmed (u ++ trimmed t) := by
    conv_lhs => rw [ht]
    rw [← List.append_assoc, trimmed_append_newlines _ hw]
  rw [heq]
  exact trimmed_starts _

theorem trimmed_sublist {s t : List Char} (h : s.Sublist t) : (trimmed s).Sublist (trimmed t) := by
  obtain ⟨w, ht, hw⟩ := trimmed_split t
  rw [ht] at h
  obtain ⟨s₁, s₂, rfl, hs₁, hs₂⟩ := List.sublist_append_iff.mp h
  rw [trimmed_append_newlines _ fun c hc => hw c (hs₂.subset hc)]
  exact (trimmed_starts s₁).sublist.trans hs₁

/-- Reading changes the newlines at the end, and nothing where there is no carriage return. -/
theorem read_text_of_trimmed {t : List Char} (h : '\r' ∉ trimmed t) :
    ∃ w, read_text t = trimmed t ++ w ∧ ∀ c ∈ w, c = '\n' := by
  obtain ⟨w, ht, hw⟩ := trimmed_split t
  refine ⟨read_text w, ?_, read_text_newlines hw⟩
  conv_lhs => rw [ht]
  exact read_text_append_of_notMem h w

/-- Line feeds behind a trimmed text are taken off again. -/
theorem rdropWhile_trimmed (t : List Char) {w : List Char} (hw : ∀ c ∈ w, c = '\n') :
    (trimmed t ++ w).rdropWhile (· = '\n') = trimmed t := by
  induction w using List.reverseRecOn with
  | nil =>
    rw [List.append_nil, List.rdropWhile_eq_self_iff]
    intro hne hlast
    refine List.rdropWhile_last_not newline t hne ?_
    rw [newline, Bool.or_eq_true]
    exact .inl hlast
  | append_singleton w c ih =>
    rw [← List.append_assoc, List.rdropWhile_concat_pos _ _ _ (by simpa using hw c (by simp))]
    exact ih fun d hd => hw d (List.mem_append_left _ hd)

/-- A marker does not lie in the newlines that follow a text. -/
theorem infix_append_newlines {pat s w : List Char} (hpat : pat ≠ []) (hlf : '\n' ∉ pat)
    (hw : ∀ c ∈ w, c = '\n') (h : pat <:+: s ++ w) : pat <:+: s := by
  cases w with
  | nil => rwa [List.append_nil] at h
  | cons c w =>
    obtain ⟨rfl, hrest⟩ := List.forall_mem_cons.mp hw
    rcases (Lists.infix_append_cons_iff hpat hlf).mp h with h | h
    · exact h
    · obtain ⟨d, pat, rfl⟩ := List.exists_cons_of_ne_nil hpat
      have hd : d = '\n' := hrest d (h.subset List.mem_cons_self)
      exact absurd (hd ▸ List.mem_cons_self) hlf

/-! ## The page through all its rewritings -/

section prose

variable (m : Markers)

/-- The text outside the pairs of an opening marker and a closing one with no opening marker
between them. -/
def prose_from : ℕ → List Char → List Char
  | 0, t => t
  | fuel + 1, t =>
    match around m.opening t with
    | none => t
    | some (u, r) =>
      match around m.closing r with
      | none => t
      | some (x, v) =>
        -- a marker that opens inside: the region begins there, and what is before it is
        -- prose
        if m.opening <:+: x then u ++ m.opening ++ prose_from fuel r else u ++ prose_from fuel v

/-- The prose of a page: each pair takes up some of the fuel's characters. -/
def prose (t : List Char) : List Char := prose_from m t.length t

/-- Some generator rewrote the region of a page. -/
def Rewritten (t t' : List Char) : Prop := ∃ body, t' = (write_region m t body).1

/-- The prose of a page is in another text, as it was and in order, save newlines at its end. -/
def Preserved (t t' : List Char) : Prop := (trimmed (prose m t)).Sublist t'

/-- Every opening marker has its closing one, as far as the region goes: there is no opening
marker at all, or the first one is closed before the next. Carriage returns are only in that
region, and among the newlines at the end. -/
def Fit (t : List Char) : Prop :=
  (¬ m.opening <:+: t ∧ '\r' ∉ trimmed t) ∨
    ∃ u x v, t = m.framed u x v ∧ ¬ m.opening <:+: u ∧ ¬ m.opening <:+: x ∧ ¬ m.closing <:+: x ∧
      '\r' ∉ u ∧ '\r' ∉ trimmed v

/-- A page with some text before its region and some text behind it, up to line ends. -/
def Surrounds (u v t : List Char) : Prop :=
  ∃ y v', (v' = v ∨ v' = read_text v) ∧ t = m.framed u y v'

variable {m}

theorem prose_from_sublist (fuel : ℕ) (t : List Char) : (prose_from m fuel t).Sublist t := by
  induction fuel generalizing t with
  | zero => exact List.Sublist.refl t
  | succ fuel ih =>
    rw [prose_from]
    cases hopening : around m.opening t with
    | none => exact List.Sublist.refl t
    | some w =>
      obtain ⟨u, r⟩ := w
      have ht := Lists.eq_of_around hopening
      cases hclosing : around m.closing r with
      | none =>
        simp only [hclosing]
        exact List.Sublist.refl t
      | some w' =>
        obtain ⟨x, v⟩ := w'
        have hr := Lists.eq_of_around hclosing
        have hv : v.Sublist r := by
          rw [hr]
          exact List.sublist_append_right _ _
        by_cases hx : m.opening <:+: x
        · simp only [hclosing, if_pos hx, ht]
          exact (ih r).append_left _
        · simp only [hclosing, if_neg hx, ht, List.append_assoc]
          exact (((ih v).trans hv).trans (List.sublist_append_right _ _)).append_left u

theorem preserved_self (t : List Char) : Preserved m t t :=
  (trimmed_starts _).sublist.trans (prose_from_sublist _ t)

/-- The prose around a region. -/
theorem prose_framed {u x : List Char} (hu : ¬ m.opening <:+: u) (hx : ¬ m.opening <:+: x)
    (hx' : ¬ m.closing <:+: x) (v : List Char) : ∃ p, prose m (m.framed u x v) = u ++ p ∧
      p.Sublist v := by
  have hlen : ∃ n, (m.framed u x v).length = n + 1 := by
    obtain ⟨c, rest, hopening, -⟩ := m.opening_solid
    refine ⟨(m.framed u x v).length - 1, ?_⟩
    rw [Markers.framed, hopening]
    simp only [List.length_append, List.length_cons]
    omega
  obtain ⟨n, hn⟩ := hlen
  refine ⟨prose_from m n v, ?_, prose_from_sublist n v⟩
  rw [prose, hn, prose_from, Markers.framed, Lists.around_append m.opening_solid hu]
  simp only [Lists.around_append m.closing_solid hx', if_neg hx]

theorem prose_of_notInfix {t : List Char} (h : ¬ m.opening <:+: t) : prose m t = t := by
  unfold prose
  cases t.length with
  | zero => rfl
  | succ n => rw [prose_from, Lists.around_eq_none_iff.mpr h]

/-- The step lemma: a page keeps what surrounds its region. -/
theorem Surrounds.rewritten {u v t t' : List Char} (hu : ¬ m.opening <:+: u) (hcr : '\r' ∉ u)
    (h : Surrounds m u v t) (ht : Rewritten m t t') : Surrounds m u v t' := by
  obtain ⟨y, v', hv', rfl⟩ := h
  obtain ⟨body, rfl⟩ := ht
  unfold write_region
  simp only
  split
  · exact ⟨y, v', hv', rfl⟩
  · rw [m.read_text_framed, read_text_of_notMem hcr]
    obtain ⟨y', hy'⟩ := @updated_keeps m body _ _ hu (read_text v')
    refine ⟨y', read_text v', .inr ?_, hy'⟩
    rcases hv' with rfl | rfl
    · rfl
    · exact read_text_of_notMem (cr_notMem_read_text v)

/-- A text without an opening marker has none after it is read, with any newlines after it. -/
theorem no_opening {t : List Char} (h : ¬ m.opening <:+: t) {w : List Char}
    (hw : ∀ c ∈ w, c = '\n') :
    ¬ m.opening <:+: trimmed t ++ w := fun hin =>
  h ((infix_append_newlines m.opening_solid.ne_nil m.opening_ne_lf hw hin).trans
    (trimmed_starts t).isInfix)

/-- A page without an opening marker gets its region after its text. -/
theorem write_region_appends {t : List Char} (h : ¬ m.opening <:+: t) (hcr : '\r' ∉ trimmed t)
    (body : String) : Surrounds m (trimmed t ++ ['\n', '\n']) ['\n'] (write_region m t body).1 := by
  obtain ⟨w, hread, hw⟩ := read_text_of_trimmed hcr
  have hnone : ¬ m.opening <:+: read_text t := hread ▸ no_opening h hw
  have hnew : updated m body (read_text t) = trimmed t ++ "\n\n".toList ++ m.block body ++
      "\n".toList := by
    rw [updated_append, hread, rdropWhile_trimmed t hw]
    intro u r hopening
    rw [Lists.around_eq_none_iff.mpr hnone] at hopening
    cases hopening
  have hwritten : updated m body (read_text t) ≠ read_text t := by
    intro heq
    refine hnone ?_
    rw [← heq, hnew]
    exact ⟨trimmed t ++ "\n\n".toList,
      '\n' :: body.toList.rdropWhile Mem0.isspace ++ '\n' :: m.closing ++ ['\n'],
      by simp [Markers.block]⟩
  refine ⟨'\n' :: body.toList.rdropWhile Mem0.isspace ++ ['\n'], ['\n'], .inl rfl, ?_⟩
  rw [write_region_of_ne hwritten, hnew]
  simp [Markers.block, Markers.framed]

/-- The run lemma: what surrounds a region surrounds it after any rewritings. -/
theorem Surrounds.rewritings {u v t t' : List Char} (hu : ¬ m.opening <:+: u) (hcr : '\r' ∉ u)
    (h : Surrounds m u v t) (ht : Relation.ReflTransGen (Rewritten m) t t') :
    Surrounds m u v t' := by
  induction ht with
  | refl => exact h
  | tail _ hstep ih => exact ih.rewritten hu hcr hstep

/-- What a fit page has for prose, it has after any rewritings. -/
theorem preserved_of_rewritings {t t' : List Char} (hfit : Fit m t)
    (h : Relation.ReflTransGen (Rewritten m) t t') : Preserved m t t' := by
  rcases hfit with ⟨hnone, hcr⟩ | ⟨u, x, v, rfl, hu, hx, hx', hucr, hvcr⟩
  · rw [Preserved, prose_of_notInfix hnone]
    rcases Relation.ReflTransGen.cases_head h with rfl | ⟨t₁, ⟨body, rfl⟩, hrest⟩
    · exact (trimmed_starts t).sublist
    · -- from the first call on, the text stands before the region
      have hlf : ∀ c ∈ ['\n', '\n'], c = '\n' := by simp
      have hcr' : '\r' ∉ trimmed t ++ ['\n', '\n'] := by
        rw [List.mem_append, not_or]
        exact ⟨hcr, by decide⟩
      obtain ⟨y, v', -, rfl⟩ :=
        (write_region_appends hnone hcr body).rewritings (no_opening hnone hlf) hcr' hrest
      rw [Markers.framed, List.append_assoc, List.append_assoc]
      exact List.sublist_append_left _ _
  · have hsurrounds : Surrounds m u v (m.framed u x v) := ⟨x, v, .inl rfl, rfl⟩
    obtain ⟨y, v', hv', rfl⟩ := hsurrounds.rewritings hu hucr h
    obtain ⟨p, hp, hsub⟩ := prose_framed hu hx hx' v
    have hv : (trimmed v).Sublist v' := by
      rcases hv' with hv' | hv'
      · rw [hv']
        exact (trimmed_starts v).sublist
      · obtain ⟨w, hw, -⟩ := read_text_of_trimmed hvcr
        rw [hv', hw]
        exact List.sublist_append_left _ _
    have hbehind : (trimmed p).Sublist (m.opening ++ (y ++ m.closing ++ v')) :=
      ((trimmed_sublist hsub).trans hv).trans
        ((List.sublist_append_right _ _).trans (List.sublist_append_right _ _))
    rw [Preserved, hp, Markers.framed, List.append_assoc]
    exact (trimmed_append u p).sublist.trans (hbehind.append_left u)

end prose

/-- What a file holds after `write_region`, when it has no carriage return. -/
theorem write_region_fst {m : Markers} {t : List Char} (h : '\r' ∉ t) (body : String) :
    (write_region m t body).1 = updated m body t := by
  have hread := read_text_of_notMem h
  by_cases heq : updated m body (read_text t) = read_text t
  · rw [write_region_of_eq heq]
    rw [hread] at heq
    exact heq.symm
  · rw [write_region_of_ne heq, hread]

/-- What ends in no such character is taken off no further. -/
theorem rdropWhile_append_of_self {p : Char → Bool} {a : List Char} (h : a.rdropWhile p = a)
    (b : List Char) : (a ++ b).rdropWhile p = a ++ b.rdropWhile p := by
  induction b using List.reverseRecOn with
  | nil => rw [List.append_nil, h, List.rdropWhile_nil, List.append_nil]
  | append_singleton b c ih =>
    rw [← List.append_assoc]
    by_cases hc : p c = true
    · rw [List.rdropWhile_concat_pos _ _ _ hc, List.rdropWhile_concat_pos _ _ _ hc, ih]
    · rw [List.rdropWhile_concat_neg _ _ _ hc, List.rdropWhile_concat_neg _ _ _ hc,
        List.append_assoc]

/-- A block has no carriage return that its body has not. -/
theorem cr_notMem_block {m : Markers} {body : String}
    (h : '\r' ∉ body.toList.rdropWhile Mem0.isspace) : '\r' ∉ m.block body := by
  simp [Markers.block, m.opening_ne_cr, m.closing_ne_cr, h]

/-- What a lost marker costs: after two calls, all that stood behind it is gone. -/
theorem orphan_swallows {m : Markers} {t u r : List Char} (hcr : '\r' ∉ t)
    (hopening : around m.opening t = some (u, r)) (hclosing : ¬ m.closing <:+: r) {body : String}
    (hbody : '\r' ∉ body.toList) (hbody_closing : ¬ m.closing <:+: body.toList) (body' : String) :
    (write_region m (write_region m t body).1 body').1 = u ++ m.block body' ++ ['\n'] := by
  obtain ⟨ht, hu⟩ := (Lists.around_eq_some_iff m.opening_solid).mp hopening
  have happend : updated m body t = t.rdropWhile (· = '\n') ++ "\n\n".toList ++ m.block body ++
      "\n".toList := by
    refine updated_append fun u' r' h => ?_
    rw [hopening] at h
    cases h
    exact hclosing
  have hlast : (u ++ m.opening).rdropWhile (· = '\n') = u ++ m.opening := by
    rw [List.rdropWhile_eq_self_iff]
    intro hne hlf
    have hmem : (u ++ m.opening).getLast hne ∈ m.opening := by
      rw [List.getLast_append_of_ne_nil _ m.opening_solid.ne_nil]
      exact List.getLast_mem _
    exact m.opening_ne_lf (of_decide_eq_true hlf ▸ hmem)
  have hfirst : updated m body t =
      m.framed u (r.rdropWhile (· = '\n') ++ "\n\n".toList ++ m.opening ++
      '\n' :: body.toList.rdropWhile Mem0.isspace ++ ['\n']) ['\n'] := by
    rw [happend, ht, rdropWhile_append_of_self hlast]
    simp [Markers.block, Markers.framed]
  -- the first closing marker is that of the block that was appended
  have hno : ¬ m.closing <:+: r.rdropWhile (· = '\n') ++ "\n\n".toList ++ m.opening ++
      '\n' :: body.toList.rdropWhile Mem0.isspace ++ ['\n'] := by
    have hlines : r.rdropWhile (· = '\n') ++ "\n\n".toList ++ m.opening ++
        '\n' :: body.toList.rdropWhile Mem0.isspace ++ ['\n']
          = r.rdropWhile (· = '\n') ++ '\n' :: ([] ++ '\n' :: (m.opening ++ '\n' ::
            (body.toList.rdropWhile Mem0.isspace ++ '\n' :: []))) := by
      simp
    have hne := m.closing_solid.ne_nil
    rw [hlines]
    simp only [Lists.infix_append_cons_iff hne m.closing_ne_lf, List.infix_nil, hne, not_or,
      false_or, or_false]
    refine ⟨fun h => hclosing (h.trans ?_), m.apart, fun h => hbody_closing (h.trans ?_)⟩
    · exact (List.rdropWhile_prefix _ _).isInfix
    · exact (List.rdropWhile_prefix _ _).isInfix
  have hread : '\r' ∉ updated m body t := by
    have hbody' : '\r' ∉ body.toList.rdropWhile Mem0.isspace :=
      fun h => hbody ((List.rdropWhile_prefix _ _).subset h)
    have htext : '\r' ∉ t.rdropWhile (· = '\n') :=
      fun h => hcr ((List.rdropWhile_prefix _ _).subset h)
    rw [happend]
    simp [htext, cr_notMem_block hbody']
  rw [write_region_fst hcr, write_region_fst hread, hfirst, updated_framed hu hno]

/-! ## A region that settles -/

/-- A page has no markers, or one region with none inside and none outside. -/
def Marked (m : Markers) (t : List Char) : Prop :=
  (¬ m.opening <:+: t ∧ ¬ m.closing <:+: t) ∨
    ∃ u x v, t = m.framed u x v ∧ (¬ m.opening <:+: u ∧ ¬ m.closing <:+: u) ∧
      (¬ m.opening <:+: x ∧ ¬ m.closing <:+: x) ∧ (¬ m.opening <:+: v ∧ ¬ m.closing <:+: v)

/-- A text that a region can hold: it does not close it, and has no carriage return. -/
def Tame (m : Markers) (s : List Char) : Prop := ¬ m.closing <:+: s ∧ '\r' ∉ s

instance (m : Markers) (s : List Char) : Decidable (Tame m s) := inferInstanceAs (Decidable (_ ∧ _))

section settled

variable {m : Markers} {body : String}

theorem Tame.infix {s t : List Char} (h : Tame m s) (ht : t <:+: s) : Tame m t :=
  ⟨fun hin => h.1 (hin.trans ht), fun hin => h.2 (ht.subset hin)⟩

/-- The text between the markers of a block. -/
def inside (body : String) : List Char := '\n' :: body.toList.rdropWhile Mem0.isspace ++ ['\n']

end settled

end Memline.wiki
