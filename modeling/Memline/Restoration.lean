/-
The originals of scrubbed texts, from the mapping that stays local.

A placeholder stands in brackets and has upper-case letters, underscores, one dash and a
number in it. None of the rules matches in there: they all need a character that is not
there, or a digit directly behind a letter. So what is scrubbed after a placeholder was put
in leaves it alone, and at the end it stands for what was found.
-/
import Memline.Lib.Coding
import Memline.Scrubbing
import Memline.Wiki.Bundle

set_option autoImplicit false

namespace Memline

open Rewriting

variable {cls : Classes}

/-! ## Placeholders -/

/-- The name of a category: upper-case letters, of any script, and underscores. -/
def Categorical (cls : Classes) (category : String) : Prop :=
  ∀ c ∈ category.toList, c = '_' ∨ c.isUpper = true ∨ 128 ≤ c.toNat ∧ cls.digit c = false

/-- What is between the brackets of a placeholder. -/
def inside (category : String) (n : ℕ) : List Char := category.toList ++ '-' :: (toString n).toList

/-- A placeholder is its inside between brackets. -/
theorem toList_numbered (category : String) (n : ℕ) :
    (numbered category n).toList = '<' :: inside category n ++ ['>'] := by
  simp [numbered, inside]

/-- No other character is in there. -/
theorem notMem_inside {category : String} (hcategory : Categorical cls category) (n : ℕ) {c : Char}
    (hc : c ≠ '_' ∧ c.isUpper = false ∧ c.toNat < 128 ∧ c ≠ '-' ∧ c.isDigit = false) :
    c ∉ inside category n := by
  obtain ⟨hunderscore, hupper, hascii, hdash, hdigit⟩ := hc
  intro hmem
  rcases List.mem_append.mp hmem with hmem | hmem
  · rcases hcategory c hmem with h | h | ⟨h, -⟩
    · exact hunderscore h
    · rw [hupper] at h
      cases h
    · omega
  rcases List.mem_cons.mp hmem with h | h
  · exact hdash h
  · exact Py.notMem_toString_nat hdigit n h

theorem bracketed_numbered {category : String} (hcategory : Categorical cls category) (n : ℕ) :
    Bracketed '<' '>' (numbered category n).toList :=
  ⟨inside category n, toList_numbered category n, notMem_inside hcategory n (by decide),
    notMem_inside hcategory n (by decide), by decide⟩

/-- A finder that stops at brackets and finds nothing between them skips the placeholder. -/
theorem skips_numbered {f : Finder Char} (hstop : ∀ c, bracket c → f.StopsAt c) {category : String}
    {n : ℕ} (h : f.cut (inside category n) = (inside category n).map .inl) :
    f.Skips (numbered category n).toList := by
  rw [toList_numbered]
  exact (hstop '<' (.inl rfl)).skips (hstop '>' (.inr rfl)) h

/-! ## Rules -/

/-- A rule of one of the built-in shapes, where domains and hosts are names of a kind. -/
inductive BuiltIn (cls : Classes) (named : String → Prop) : String × Regex → Prop
  | host : BuiltIn cls named ("HOST", HOST cls)
  | user : BuiltIn cls named ("USER", USER cls)
  | internal_host {domains : List String} (hne : domains ≠ []) (h : ∀ d ∈ domains, named d) :
      BuiltIn cls named ("INTERNAL_HOST", INTERNAL_HOST cls domains)
  | internal_repo {repo_hosts : List String} (hne : repo_hosts ≠ [])
      (h : ∀ d ∈ repo_hosts, named d) :
      BuiltIn cls named ("INTERNAL_REPO", INTERNAL_REPO cls repo_hosts)
  | job : BuiltIn cls named ("JOB", JOB cls)

/-- The active rules are. -/
theorem sanitize_rules_builtIn {named : String → Prop} {domains repo_hosts : List String}
    {rules : List (String × Regex)}
    (h : sanitize_rules cls (some domains) (some repo_hosts) = .ok rules)
    (hdomains : ∀ d ∈ domains, named d) (hhosts : ∀ d ∈ repo_hosts, named d) :
    ∀ e ∈ rules, BuiltIn cls named e := by
  rw [sanitize_rules, Except.ok.injEq] at h
  subst h
  simp only [List.forall_mem_append, List.forall_mem_cons]
  have hnone : ∀ e ∈ ([] : List (String × Regex)), BuiltIn cls named e :=
    fun e he => absurd he List.not_mem_nil
  refine ⟨⟨⟨⟨.host, .user, hnone⟩, ?_⟩, ?_⟩, .job, hnone⟩
  · split
    · rename_i hne
      exact fun e he => List.mem_singleton.mp he ▸ .internal_host hne hdomains
    · exact hnone
  · split
    · rename_i hne
      exact fun e he => List.mem_singleton.mp he ▸ .internal_repo hne hhosts
    · exact hnone

/-- A built-in rule reads no bracket, unless it is configured. -/
theorem BuiltIn.avoids {e : String × Regex} (he : BuiltIn cls Unbracketed e) {c : Char}
    (hc : bracket c) : Regex.Avoids c e.2 := by
  have hfixed : ∀ e ∈ [("HOST", HOST cls), ("USER", USER cls), ("JOB", JOB cls)],
      Regex.Avoids c e.2 :=
    @sanitize_rules_avoid cls [] [] _ rfl nofun nofun c hc
  cases he with
  | host => exact hfixed ("HOST", HOST cls) (by simp)
  | user => exact hfixed ("USER", USER cls) (by simp)
  | job => exact hfixed ("JOB", JOB cls) (by simp)
  | @internal_host domains hne h =>
    exact @sanitize_rules_avoid cls domains [] _ rfl h nofun c hc (_,
      INTERNAL_HOST cls domains) (by simp [hne])
  | @internal_repo repo_hosts hne h =>
    exact @sanitize_rules_avoid cls [] repo_hosts _ rfl nofun h c hc (_,
      INTERNAL_REPO cls repo_hosts) (by simp [hne])

/-- An account is a letter with a digit behind it. -/
theorem user_reads {p q : Regex.Place} (h : q ∈ Regex.run (USER cls) p) :
    ∃ l d rest, p.after = l :: d :: rest ∧ l.isAlpha = true ∧ cls.digit d = true := by
  have hone : ∀ {f : Char → Bool} {p q : Regex.Place}, q ∈ Regex.run (.one f) p →
      ∃ c, p.after = c :: q.after ∧ f c = true := by
    intro f p q hq
    rw [Regex.run] at hq
    split at hq
    · cases hq
    · rename_i c rest hafter
      split at hq
      · rename_i hc
        rw [List.mem_singleton.mp hq]
        exact ⟨c, hafter, hc⟩
      · cases hq
  obtain ⟨m, hm, h⟩ := List.mem_flatMap.mp h
  obtain ⟨m', hm', h⟩ := List.mem_flatMap.mp h
  obtain ⟨m'', hm'', -⟩ := List.mem_flatMap.mp h
  obtain ⟨k, hk, -⟩ :=
    List.mem_flatMap.mp (show m'' ∈ (Regex.run (.one cls.digit) m').flatMap _ from hm'')
  obtain ⟨l, hl, hletter⟩ := hone hm'
  obtain ⟨d, hd, hdigit⟩ := hone hk
  have hstart : m = p := by
    rw [edge, Regex.run] at hm
    split at hm
    · exact List.mem_singleton.mp hm
    · cases hm
  exact ⟨l, d, k.after, by rw [← hstart, hl, hd], hletter, hdigit⟩

/-- Between the brackets no digit stands behind a letter. -/
theorem user_cut_inside {category : String} (hcategory : Categorical cls category) (n : ℕ) :
    (USER cls).finder.cut (inside category n) = (inside category n).map .inl := by
  refine Regex.cut_of_no_match fun before after hafter => ?_
  rw [Regex.matchAt, List.head?_eq_none_iff, List.eq_nil_iff_forall_not_mem]
  intro q hq
  -- a match reads a letter and a digit behind it, which do not stand so in a placeholder
  obtain ⟨l, d, rest, rfl, hl, hd⟩ := user_reads hq
  obtain ⟨a, ha⟩ := hafter
  have hdigit : ∀ c : Char, c.toNat < 128 → cls.digit c = true → c.isDigit = true := by
    intro c hc hdc
    rwa [cls.digit_ascii c hc] at hdc
  have hnumber : ∀ c ∈ '-' :: (toString n).toList, c.isAlpha = true → False := by
    intro c hc halpha
    rw [Py.isAlpha_iff] at halpha
    rcases List.mem_cons.mp hc with rfl | hc
    · revert halpha
      decide
    · have hc := Py.isDigit_iff.mp (Py.isDigit_of_mem_toString_nat hc)
      omega
  rcases List.append_eq_append_iff.mp ha with ⟨x, hx, hrest⟩ | ⟨x, -, hrest⟩
  · -- the letter is in the category, and the digit in it or the dash
    cases x with
    | nil =>
      exact hnumber l (by rw [← List.nil_append ('-' :: _), ← hrest]; exact List.mem_cons_self) hl
    | cons l' x =>
      rw [List.cons_append, List.cons.injEq] at hrest
      cases x with
      | nil =>
        rw [List.nil_append, List.cons.injEq] at hrest
        rw [hrest.2.1] at hd
        exact absurd (hdigit '-' (by decide) hd) (by decide)
      | cons d' x =>
        rw [List.cons_append, List.cons.injEq] at hrest
        have hmem : d ∈ category.toList := by
          rw [hx, hrest.2.1]
          simp
        rcases hcategory d hmem with rfl | hupper | ⟨-, hnot⟩
        · exact absurd (hdigit '_' (by decide) hd) (by decide)
        · rw [Py.isUpper_iff] at hupper
          have hd := Py.isDigit_iff.mp (hdigit d (by omega) hd)
          omega
        · rw [hnot] at hd
          cases hd
  · exact hnumber l (by rw [hrest]; simp) hl

/-- No rule finds anything in a placeholder, and none reads a bracket. -/
theorem BuiltIn.skips {e : String × Regex} (he : BuiltIn cls Unbracketed e) {category : String}
    (hcategory : Categorical cls category) (n : ℕ) :
    e.2.finder.Skips (numbered category n).toList := by
  refine skips_numbered (fun c hc => Regex.finder_stopsAt (he.avoids hc)) ?_
  have hdot : '.' ∉ inside category n := notMem_inside hcategory n (by decide)
  have hcolon : ':' ∉ inside category n := notMem_inside hcategory n (by decide)
  have hm : 'm' ∉ inside category n := notMem_inside hcategory n (by decide)
  cases he with
  | host =>
    have hneeds : Regex.Needs '.' (HOST cls) :=
      Or.inr (Or.inr (Or.inl (Or.inl (Or.inr (Regex.needs_char '.')))))
    exact hneeds.cut hdot
  | user => exact user_cut_inside hcategory n
  | internal_host =>
    have hneeds : ∀ domains, Regex.Needs '.' (INTERNAL_HOST cls domains) :=
      fun _ => Or.inr (Or.inr (Or.inl (Regex.needs_char '.')))
    exact (hneeds _).cut hdot
  | internal_repo =>
    have hneeds : ∀ repo_hosts, Regex.Needs ':' (INTERNAL_REPO cls repo_hosts) :=
      fun _ => Or.inr (Or.inr (Or.inr (Or.inl (Regex.needs_lit (by decide)))))
    exact (hneeds _).cut hcolon
  | job =>
    have hneeds : Regex.Needs 'm' (JOB cls) := Or.inr (Or.inl (Regex.needs_lit (by decide)))
    exact hneeds.cut hm

/-! ## The numbering as a code -/

/-- The placeholder stands for the value it was assigned to. -/
def Numbering.code (n : Numbering) (w v : List Char) : Prop :=
  ∃ e ∈ n.assigned, w = e.2.toList ∧ v = e.1.2.toList

/-- Placeholders of categories, for values without brackets. -/
def Numbering.Proper (cls : Classes) (n : Numbering) : Prop :=
  ∀ e ∈ n.assigned, Categorical cls e.1.1 ∧ Unbracketed e.1.2

/-- A number is given once, and for all. -/
theorem Numbering.assigned_placeholder (n : Numbering) (category value : String) :
    (n.placeholder category value).1.assigned = n.assigned ∨
      (n.placeholder category value).1.assigned =
        n.assigned ++ [((category, value), (n.placeholder category value).2)] := by
  rw [Numbering.placeholder]
  split
  · exact .inl rfl
  · exact .inr rfl

/-- A placeholder that was given out is assigned. -/
theorem Numbering.mem_placeholder (n : Numbering) (category value : String) :
    ((category, value), (n.placeholder category value).2) ∈
      (n.placeholder category value).1.assigned := by
  rw [Numbering.placeholder]
  split
  · rename_i ph hlookup
    obtain ⟨before, behind, hsplit, -⟩ := List.lookup_eq_some_iff.mp hlookup
    simp [hsplit]
  · simp

theorem unbracketed_iff {t : List Char} : Unbracketed (String.ofList t) ↔ ∀ c ∈ t, ¬ bracket c := by
  simp only [Unbracketed, String.toList_ofList, bracket]
  constructor
  · rintro ⟨ho, he⟩ c hc (rfl | rfl)
    · exact ho hc
    · exact he hc
  · exact fun h => ⟨fun hc => h _ hc (.inl rfl), fun hc => h _ hc (.inr rfl)⟩

/-- Replacing what is found by its placeholder puts words of this code into a text. -/
theorem codes_replace {category : String} (hcategory : Categorical cls category) :
    Codes bracket (Numbering.Proper cls) Numbering.code (Sanitizer.replace category) where
  grow n u w v h := by
    obtain ⟨e, he, hw, hv⟩ := h
    refine ⟨e, ?_, hw, hv⟩
    simp only [Sanitizer.replace]
    rcases n.assigned_placeholder category (String.ofList u) with h | h
    · rwa [h]
    · rw [h]
      exact List.mem_append_left _ he
  inv n u hu hn := by
    intro e he
    simp only [Sanitizer.replace] at he
    rcases n.assigned_placeholder category (String.ofList u) with h | h
    · rw [h] at he
      exact hn e he
    · rw [h, List.mem_append, List.mem_singleton] at he
      rcases he with he | rfl
      · exact hn e he
      · exact ⟨hcategory, unbracketed_iff.mpr hu⟩
  word n u :=
    ⟨_, n.mem_placeholder category (String.ofList u), rfl, (String.toList_ofList (l := u)).symm⟩

/-- The words of the code are placeholders with nothing but a name and a number in them. -/
theorem Numbering.Proper.bracketed {n : Numbering} (hn : n.Proper cls) {w v : List Char}
    (h : n.code w v) :
    Bracketed '<' '>' w ∧ ∃ category k, Categorical cls category ∧
      w = (numbered category k).toList := by
  obtain ⟨e, he, rfl, -⟩ := h
  obtain ⟨k, -, hk⟩ := n.counted e he
  rw [hk]
  exact ⟨bracketed_numbered (hn e he).1 k, _, k, (hn e he).1, rfl⟩

/-- A placeholder stands for one value. -/
theorem Numbering.code_unique {n : Numbering} {w v v' : List Char} (h : n.code w v)
    (h' : n.code w v') : v = v' := by
  obtain ⟨e, he, rfl, rfl⟩ := h
  obtain ⟨e', he', hw, rfl⟩ := h'
  by_contra hne
  have hapart : e ≠ e' := fun heq => hne (by rw [heq])
  have hsymm : Std.Symm fun e e' : (String × String) × String => e.2 ≠ e'.2 :=
    ⟨fun _ _ h => Ne.symm h⟩
  exact n.apart.forall he he' hapart (String.toList_inj.mp hw)

namespace Sanitizer

/-! ## Scrubbing -/

/-- What is configured has no brackets, and the categories are names. -/
structure Restorable (cls : Classes) (s : Sanitizer) : Prop where
  categories : ∀ e ∈ s.extra, Categorical cls e.2
  values : ∀ e ∈ s.extra, Unbracketed e.1
  rules : ∀ e ∈ s.rules, BuiltIn cls Unbracketed e

/-- No value of the redaction list occurs in a placeholder. -/
def Apart (s : Sanitizer) (n : Numbering) : Prop :=
  ∀ e ∈ s.extra, ∀ a ∈ n.assigned, ¬ e.1.toList <:+: a.2.toList

/-- The categories that are built in have names that a placeholder can hold. -/
theorem BuiltIn.categorical {e : String × Regex} (he : BuiltIn cls Unbracketed e) :
    Categorical cls e.1 := by
  have hupper : ∀ category ∈ ["HOST", "USER", "INTERNAL_HOST", "INTERNAL_REPO", "JOB"],
      ∀ c ∈ category.toList, c = '_' ∨ c.isUpper = true := by decide
  have hname : ∀ category ∈ ["HOST", "USER", "INTERNAL_HOST", "INTERNAL_REPO", "JOB"],
      Categorical cls category :=
    fun category hcategory c hc => (hupper category hcategory c hc).imp_right .inl
  cases he with
  | _ => exact hname _ (by simp)

/-- Where a value does not occur, it is not found. -/
theorem occurrences_skips {value category : String} {n : ℕ} (hvalue : Unbracketed value)
    (h : ¬ value.toList <:+: (numbered category n).toList) :
    (occurrences value).Skips (numbered category n).toList := by
  have hne : value ≠ "" := by
    rintro rfl
    exact h List.nil_infix
  refine skips_numbered (fun c hc => occurrences_stopsAt hvalue hc) ?_
  rw [occurrences, if_neg hne]
  refine Regex.cut_of_no_match fun before after hafter => ?_
  rw [Regex.matchAt_lit, if_neg]
  intro hstart
  refine h ((hstart.isInfix.trans hafter.isInfix).trans ?_)
  rw [toList_numbered]
  exact ⟨['<'], ['>'], rfl⟩

/-- What a sanitizer puts in is a code, and what it goes on to look for is not in there. -/
theorem steps_code {s : Sanitizer} (hs : s.Restorable cls) :
    ∀ k ∈ s.finders.map fun e => (⟨e.2, replace e.1⟩ : Rewriting.Step Numbering Char),
      Codes bracket (Numbering.Proper cls) Numbering.code k.put ∧
        ∀ (n : Numbering) w v, n.Proper cls → n.code w v → (∀ e ∈ s.extra, ¬ e.1.toList <:+: w) →
          k.finder.Skips w := by
  intro k hk
  obtain ⟨e, he, rfl⟩ := List.mem_map.mp hk
  rcases List.mem_append.mp he with he | he
  · obtain ⟨x, hx, rfl⟩ := List.mem_map.mp he
    refine ⟨codes_replace (hs.categories x hx), fun n w v hn hw hapart => ?_⟩
    obtain ⟨-, category, k, -, rfl⟩ := hn.bracketed hw
    exact occurrences_skips (hs.values x hx) (hapart x hx)
  · obtain ⟨x, hx, rfl⟩ := List.mem_map.mp he
    refine ⟨codes_replace (BuiltIn.categorical (hs.rules x hx)), fun n w v hn hw _ => ?_⟩
    obtain ⟨-, category, k, hcategory, rfl⟩ := hn.bracketed hw
    exact (hs.rules x hx).skips hcategory k

/-- **One text.** What is left of it spells it. -/
theorem scrub_coded {s : Sanitizer} (hs : s.Restorable cls) (hn : s.numbering.Proper cls)
    {text : String} (htext : Unbracketed text) {last : Numbering} (hapart : s.Apart last)
    (hlast : (s.scrub text).1.numbering.assigned <+: last.assigned) :
    (s.scrub text).1.numbering.Proper cls ∧
      Coded bracket (s.scrub text).1.numbering.code (s.scrub text).2.toList text.toList := by
  have hplain : Coded bracket s.numbering.code text.toList text.toList := by
    refine .plain ?_
    rwa [← unbracketed_iff, String.ofList_toList]
  have hskip : ∀ k ∈ s.finders.map fun e => (⟨e.2, replace e.1⟩ : Rewriting.Step Numbering Char),
      ∀ n w v, Numbering.Proper cls n → n.code w v → last.code w v → k.finder.Skips w := by
    rintro k hk n w v hn hw ⟨a, ha, rfl, -⟩
    exact (steps_code hs k hk).2 n _ v hn hw fun e he => hapart e he a ha
  rw [scrub, String.toList_ofList]
  refine hplain.run (fun k hk => (steps_code hs k hk).1) hskip hn ?_
  rintro w v ⟨a, ha, hw, hv⟩
  exact ⟨a, hlast.subset ha, hw, hv⟩

/-- Nothing that was assigned is lost. -/
theorem scrub_assigned (s : Sanitizer) (text : String) :
    s.numbering.assigned <+: (s.scrub text).1.numbering.assigned := by
  refine run_related (R := fun n n' : Numbering => n.assigned <+: n'.assigned) (fun _ =>
    List.prefix_rfl)
    List.IsPrefix.trans ?_ _ _
  intro k hk n u
  obtain ⟨e, -, rfl⟩ := List.mem_map.mp hk
  simp only [replace]
  rcases n.assigned_placeholder e.1 (String.ofList u) with h | h
  · rw [h]
  · rw [h]
    exact List.prefix_append _ _

/-! ## Many texts -/

/-- Several texts are scrubbed, one after the other, by one sanitizer. -/
def scrub_texts (s : Sanitizer) (texts : List String) : List String × Sanitizer :=
  (bundle.scrub_all id (fun _ scrubbed => scrubbed) texts).run s

/-- Scrubbing several texts, one after the other. -/
theorem scrub_texts_cons (s : Sanitizer) (text : String) (texts : List String) :
    s.scrub_texts (text :: texts) =
      ((s.scrub text).2 :: ((s.scrub text).1.scrub_texts texts).1,
        ((s.scrub text).1.scrub_texts texts).2) := rfl

/-- Scrubbing two lists of texts, the second from where the first ends. -/
theorem scrub_texts_append (s : Sanitizer) (texts texts' : List String) :
    (s.scrub_texts (texts ++ texts')).2 = ((s.scrub_texts texts).2.scrub_texts texts').2 := by
  induction texts generalizing s with
  | nil => rfl
  | cons text texts ih => exact ih (s.scrub text).1

theorem scrub_texts_assigned (s : Sanitizer) (texts : List String) :
    s.numbering.assigned <+: (s.scrub_texts texts).2.numbering.assigned := by
  induction texts generalizing s with
  | nil => exact List.prefix_rfl
  | cons text texts ih => exact (s.scrub_assigned text).trans (ih (s.scrub text).1)

/-- The run lemma: in the end every scrubbed text spells its original. -/
theorem scrub_texts_coded {s : Sanitizer} (hs : s.Restorable cls) (hn : s.numbering.Proper cls)
    {texts : List String} (htexts : ∀ t ∈ texts, Unbracketed t)
    (hapart : s.Apart (s.scrub_texts texts).2.numbering) :
    (s.scrub_texts texts).2.numbering.Proper cls ∧
      List.Forall₂ (fun scrubbed text : String =>
        Coded bracket (s.scrub_texts texts).2.numbering.code scrubbed.toList text.toList)
        (s.scrub_texts texts).1 texts := by
  induction texts generalizing s with
  | nil => exact ⟨hn, .nil⟩
  | cons text texts ih =>
    rw [List.forall_mem_cons] at htexts
    rw [scrub_texts_cons] at hapart ⊢
    have hlast := (s.scrub text).1.scrub_texts_assigned texts
    obtain ⟨hproper, hcoded⟩ := scrub_coded hs hn htexts.1 hapart hlast
    have hs' : (s.scrub text).1.Restorable cls := ⟨hs.categories, hs.values, hs.rules⟩
    obtain ⟨hproper', hrest⟩ := ih hs' hproper htexts.2 hapart
    refine ⟨hproper', .cons (hcoded.mono ?_) hrest⟩
    rintro w v ⟨a, ha, hw, hv⟩
    exact ⟨a, hlast.subset ha, hw, hv⟩

/-! ## Restoring -/

/-- Each placeholder replaced by its value, in the order in which they are listed. -/
def restore (mapping : List (String × String)) (text : String) : String :=
  mapping.foldl (fun text e => str_replace text e.1 e.2) text

/-- The words of a numbering but for some placeholders. -/
def without (n : Numbering) (gone : List String) (w v : List Char) : Prop :=
  n.code w v ∧ ∀ ph ∈ gone, w ≠ ph.toList

/-- One placeholder after the other. -/
theorem restore_coded {n : Numbering} (hn : n.Proper cls) {ms : List (String × String)}
    (hms : ∀ m ∈ ms, m ∈ n.assigned.map fun e => (e.2, e.1.2)) {gone : List String}
    {text original : String} (h : Coded bracket (without n gone) text.toList original.toList) :
    Coded bracket (without n (gone ++ ms.map Prod.fst)) (restore ms text).toList
      original.toList := by
  induction ms generalizing gone text with
  | nil =>
    rw [List.map_nil, List.append_nil]
    exact h
  | cons m ms ih =>
    rw [List.forall_mem_cons] at hms
    obtain ⟨⟨e, he, rfl⟩, hrest⟩ := And.imp_left List.mem_map.mp hms
    have hcode : n.code e.2.toList e.1.2.toList := ⟨e, he, rfl, rfl⟩
    have hbracketed := (hn.bracketed hcode).1
    have hplain : ∀ c ∈ e.1.2.toList, ¬ bracket c := by
      rw [← unbracketed_iff, String.ofList_toList]
      exact (hn e he).2
    -- replacing one placeholder decodes just that one, since no value holds a bracket
    have hstep := h.replace (.inl rfl) hbracketed (fun w v hw => (hn.bracketed hw.1).1)
      (fun v hv => n.code_unique hv.1 hcode) hplain
    have hne : e.2 ≠ "" := by
      intro heq
      obtain ⟨x, hx, -⟩ := hbracketed
      rw [heq] at hx
      cases hx
    have hgone : ∀ w v, without n gone w v ∧ w ≠ e.2.toList → without n (gone ++ [e.2]) w v := by
      rintro w v ⟨⟨hw, hnot⟩, hlast⟩
      refine ⟨hw, fun ph hph => ?_⟩
      rcases List.mem_append.mp hph with hph | hph
      · exact hnot ph hph
      · rw [List.mem_singleton.mp hph]
        exact hlast
    have hnext :
        Coded bracket (without n (gone ++ [e.2])) (str_replace text e.2 e.1.2).toList
          original.toList := by
      rw [str_replace, occurrences, if_neg hne, String.toList_ofList]
      exact hstep.mono hgone
    have hrun := ih hrest hnext
    rw [List.append_assoc] at hrun
    exact hrun

/-- All of them, in whatever order. -/
theorem restore_eq {n : Numbering} (hn : n.Proper cls) {order : List (String × String)}
    (horder : order.Perm (n.assigned.map fun e => (e.2, e.1.2))) {text original : String}
    (h : Coded bracket n.code text.toList original.toList) : restore order text = original := by
  have hstart : Coded bracket (without n []) text.toList original.toList :=
    h.mono fun w v hw => ⟨hw, fun _ hph => nomatch hph⟩
  have hend := restore_coded hn (fun m hm => horder.mem_iff.mp hm) hstart
  refine String.toList_inj.mp (hend.eq_of_empty ?_)
  rintro w v ⟨⟨e, he, rfl, -⟩, hnot⟩
  refine hnot e.2 ?_ rfl
  have hmem : (e.2, e.1.2) ∈ order := horder.mem_iff.mpr (List.mem_map_of_mem he)
  exact List.mem_append_right _ (List.mem_map_of_mem hmem)

/-- **Restorability.** The numbering is injective and what was once assigned stays so, and
replacing the placeholders by their values, in whatever order, gives the texts back. -/
theorem scrub_restores {s s' : Sanitizer} (hs : s.Restorable cls) (hfresh : s.numbering = {})
    {texts scrubbed : List String} (htexts : ∀ t ∈ texts, Unbracketed t)
    (hrun : s.scrub_texts texts = (scrubbed, s')) (hapart : s.Apart s'.numbering) :
    (∀ k k' ph, s'.numbering.assigned.lookup k = some ph →
      s'.numbering.assigned.lookup k' = some ph → k = k') ∧
      (∀ i k ph, (s.scrub_texts (texts.take i)).2.numbering.assigned.lookup k = some ph →
        s'.numbering.assigned.lookup k = some ph) ∧
      ∀ order, order.Perm (bundle.mapping s') → scrubbed.map (restore order) = texts := by
  have hproper : s.numbering.Proper cls := by
    rw [hfresh]
    exact fun e he => absurd he List.not_mem_nil
  have hmem : ∀ k ph, s'.numbering.assigned.lookup k = some ph →
      (k, ph) ∈ s'.numbering.assigned := by
    intro k ph h
    obtain ⟨a, b, hsplit, -⟩ := List.lookup_eq_some_iff.mp h
    simp [hsplit]
  -- each text that was scrubbed is coded by the numbering at the end
  have hcoded := scrub_texts_coded hs hproper htexts (by rwa [hrun])
  rw [hrun] at hcoded
  refine ⟨fun k k' ph hk hk' => ?_, fun i k ph hk => ?_, fun order horder => ?_⟩
  · by_contra hne
    have hsymm : Std.Symm fun e e' : (String × String) × String => e.2 ≠ e'.2 :=
      ⟨fun _ _ h => Ne.symm h⟩
    exact s'.numbering.apart.forall (hmem k ph hk) (hmem k' ph hk') (fun heq =>
      hne (congrArg Prod.fst heq)) rfl
  · have hgrows := (s.scrub_texts (texts.take i)).2.scrub_texts_assigned (texts.drop i)
    rw [← scrub_texts_append, List.take_append_drop, hrun] at hgrows
    obtain ⟨more, hmore⟩ := hgrows
    rw [← hmore, List.lookup_append, hk]
    rfl
  · have hall : List.Forall₂ (fun scrubbed text => restore order scrubbed = text) scrubbed texts :=
      hcoded.2.imp fun _ _ h => restore_eq hcoded.1 horder h
    rw [← List.forall₂_eq_eq_eq, List.forall₂_map_left_iff]
    exact hall

/-- Two texts with a name and an address. -/
theorem corp_restores : ((corp.scrub_texts ["Alice on 10.0.0.1", "10.0.0.1"]).1.map
    (restore (bundle.mapping (corp.scrub_texts ["Alice on 10.0.0.1", "10.0.0.1"]).2)))
      = ["Alice on 10.0.0.1", "10.0.0.1"] := by
  have hcorp : corp.Restorable .ascii := by
    refine ⟨?_, by unfold Unbracketed; decide, ?_⟩
    · rintro e he
      rw [List.mem_singleton.mp he]
      exact fun c hc => .inr (.inl ((by decide : ∀ c ∈ "NAME".toList, c.isUpper = true) c hc))
    · exact @sanitize_rules_builtIn .ascii Unbracketed ["corp.com"] ["git.corp.com"] corp.rules rfl
        (by unfold Unbracketed; decide) (by unfold Unbracketed; decide)
  have hassigned : (corp.scrub_texts ["Alice on 10.0.0.1", "10.0.0.1"]).2.numbering.assigned =
      [(("NAME", "Alice"), "<NAME-1>"), (("HOST", "10.0.0.1"), "<HOST-1>")] := by decide +kernel
  have hapart : corp.Apart (corp.scrub_texts ["Alice on 10.0.0.1", "10.0.0.1"]).2.numbering := by
    unfold Apart
    rw [hassigned]
    decide
  exact (scrub_restores hcorp rfl (by unfold Unbracketed; decide) rfl hapart).2.2 _ .rfl

/-- A domain that is no name of a host: it is found across the border of a placeholder. -/
def crossing : Sanitizer where
  extra := []
  rules := [("HOST", HOST .ascii), ("USER", USER .ascii),
    ("INTERNAL_HOST", INTERNAL_HOST .ascii ["<HOST-1"]), ("JOB", JOB .ascii)]

/-- What the rules of this deployment leave of a text without brackets is not restored. -/
theorem crossing_not_restored :
    sanitize_rules .ascii (some ["<HOST-1"]) (some []) = .ok crossing.rules ∧
    (∀ e ∈ crossing.rules, BuiltIn .ascii (fun _ => True) e) ∧ Unbracketed "x.10.0.0.1" ∧
    (crossing.scrub_texts ["x.10.0.0.1"]).1.map
      (restore (bundle.mapping (crossing.scrub_texts ["x.10.0.0.1"]).2))
      ≠ ["x.10.0.0.1"] := by
  refine ⟨rfl, @sanitize_rules_builtIn .ascii (fun _ => True) ["<HOST-1"] [] _ rfl (fun _ _ =>
    trivial) nofun, by unfold Unbracketed; decide, ?_⟩
  decide +kernel

end Sanitizer

end Memline
