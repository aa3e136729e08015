/-
Whether everything that a sanitizer is to replace is replaced.

The rules go one after the other through a text that the earlier ones have changed. Placeholders
stand in brackets that no rule reads, so that each rule sees the stretches which the earlier ones
have left as texts of their own. As long as no rule is disturbed by the matches of those before it,
all that is matched in the text is gone. Where an earlier match lies inside a later one, the rest
of that is often no match any more, and stays.
-/
import Memline.Sanitizer

set_option autoImplicit false

namespace Memline

open Rewriting

/-! ## The characters of a text -/

/-- Each character with its position. -/
def positions (text : String) : List (Char × Option ℕ) :=
  text.toList.zipIdx.map fun e => (e.1, some e.2)

theorem mem_positions {text : String} {c : Char} {i : ℕ} :
    (c, some i) ∈ positions text ↔ text.toList[i]? = some c := by
  simp only [positions, List.mem_map, Prod.mk.injEq, Option.some.injEq]
  constructor
  · rintro ⟨e, he, rfl, rfl⟩
    exact List.mem_zipIdx_iff_getElem?.mp he
  · intro h
    exact ⟨(c, i), List.mem_zipIdx_iff_getElem?.mpr h, rfl, rfl⟩

theorem nodup_positions (text : String) : (positions text).Nodup := by
  refine List.Nodup.of_map Prod.snd ?_
  have hmarks : (positions text).map Prod.snd = (List.range' 0 text.toList.length).map some := by
    rw [positions, List.map_map, ← List.zipIdx_map_snd 0 text.toList, List.map_map]
    rfl
  rw [hmarks]
  exact List.Nodup.map (Option.some_injective ℕ) List.nodup_range'

namespace Sanitizer

/-- The character at the position lies inside an occurrence of a value that is to be replaced, or
inside what a rule matches in the whole text. -/
def Sensitive (s : Sanitizer) (text : String) (i : ℕ) : Prop :=
  (∃ e ∈ s.extra, ∃ a b, text.toList = a ++ e.1.toList ++ b ∧ a.length ≤ i ∧
    i < a.length + e.1.toList.length) ∨
    ∃ e ∈ s.rules, ∃ found ∈ founds (e.2.finder.marked.cut (positions text)), ∃ c,
      (c, some i) ∈ found

/-- The character at the position is not in the scrubbed text. -/
def Replaced (s : Sanitizer) (text : String) (i : ℕ) : Prop :=
  ∀ c, (c, some i) ∉ (scrub_traced (fun _ _ => none) s (positions text)).2

/-- The character at the position is found in its stretch: in what the values and rules before
leave around it, taken as a text of its own. -/
def FoundInTurn (s : Sanitizer) (text : String) (i : ℕ) : Prop :=
  ∃ c, Taken (s.finders.map fun e => e.2.marked) (positions text) (c, some i)

/-- It is a character of the text. -/
theorem Sensitive.mem {s : Sanitizer} {text : String} {i : ℕ} (h : s.Sensitive text i) :
    ∃ c, (c, some i) ∈ positions text := by
  rcases h with ⟨e, -, a, b, htext, hstart, hend⟩ | ⟨e, -, found, hfound, c, hc⟩
  · have hlen : i < text.toList.length := by
      simp only [htext, List.length_append]
      omega
    exact ⟨text.toList[i], mem_positions.mpr (List.getElem?_eq_getElem hlen)⟩
  · have hperm := text_perm (e.2.finder.marked.cut (positions text))
    rw [e.2.finder.marked.text_cut] at hperm
    exact ⟨c, hperm.mem_iff.mpr (List.mem_append_right _ (List.mem_flatten_of_mem hfound hc))⟩

/-- A placeholder is a numbered one. -/
theorem placeholder_numbered (n : Numbering) (category value : String) :
    ∃ c k, (n.placeholder category value).2 = numbered c k := by
  rw [Numbering.placeholder]
  split
  · rename_i ph hlookup
    obtain ⟨before, behind, hsplit, -⟩ := List.lookup_eq_some_iff.mp hlookup
    obtain ⟨k, -, hph⟩ := n.counted ((category, value), ph) (by rw [hsplit]; simp)
    exact ⟨_, k, hph⟩
  · exact ⟨_, _, rfl⟩

/-- What is put in stands in brackets, and is marked as put in. -/
theorem replace_block (category : String) (n : Numbering) (found : List (Char × Option ℕ)) :
    Block (fun e => bracket e.1) (fun e =>
      e.2 = none) (replace_traced (fun _ _ => none) category n found).2 := by
  obtain ⟨c, k, hph⟩ := placeholder_numbered n category (String.ofList (found.map Prod.fst))
  have hshape : (numbered c k).toList =
      '<' :: (c.toList ++ '-' :: (toString k).toList) ++ ['>'] := by
    simp [numbered]
  constructor
  · refine ⟨('<', none), (c.toList ++ '-' :: (toString k).toList).map fun d => (d, none),
      ('>', none), ?_, .inl rfl, .inr rfl⟩
    simp only [replace_traced, hph, hshape, List.map_append, List.map_cons, List.map_nil]
  · intro y hy
    obtain ⟨d, -, rfl⟩ := List.mem_map.mp hy
    rfl

/-- **What is replaced** is what is found in its turn. -/
theorem replaced_iff {s : Sanitizer} (hstop : ∀ e ∈ s.finders, ∀ c, bracket c → e.2.StopsAt c)
    {text : String} {i : ℕ} (hi : ∃ c, (c, some i) ∈ positions text) : s.Replaced text i ↔
      s.FoundInTurn text i := by
  have hput : ∀ k ∈ s.steps (fun _ _ => (none : Option ℕ)), ∀ n t,
      Block (fun e : Char × Option ℕ => bracket e.1) (fun e => e.2 = none) (k.put n t).2 := by
    intro k hk n t
    obtain ⟨e, -, rfl⟩ := List.mem_map.mp hk
    exact replace_block e.1 n t
  have hstops : ∀ k ∈ s.steps (fun _ _ => (none : Option ℕ)), ∀ e : Char × Option ℕ, bracket e.1 →
      k.finder.StopsAt e := by
    rintro k hk ⟨c, m⟩ hc
    obtain ⟨e, he, rfl⟩ := List.mem_map.mp hk
    exact (hstop e he c hc).marked m
  have hwoven := Woven.run hput hstops (.single (positions text)) s.numbering
  have hfinders : (s.steps (fun _ _ => (none : Option ℕ))).map Step.finder = s.finders.map fun e =>
      e.2.marked := by
    rw [steps, List.map_map]
    rfl
  rw [List.flatMap_singleton, hfinders] at hwoven
  have hleft : ∀ c, (c, some i) ∈ (scrub_traced (fun _ _ => none) s (positions text)).2 ↔
      (c, some i) ∈ (left (s.finders.map fun e => e.2.marked) (positions text)).flatten := fun c =>
    hwoven.mem_iff (by simp)
  have htaken : ∀ c, Taken (s.finders.map fun e => e.2.marked) (positions text) (c, some i) ↔
      _ := fun c =>
    taken_iff (nodup_positions text)
  obtain ⟨c, hc⟩ := hi
  constructor
  · intro h
    exact ⟨c, (htaken c).mpr ⟨hc, fun hmem => h c ((hleft c).mpr hmem)⟩⟩
  · rintro ⟨d, hd⟩ d' hd'
    obtain ⟨hmem, hnot⟩ := (htaken d).mp hd
    rw [hleft] at hd'
    -- there is one character at the position
    have hmem' := (left_sublist _ _).subset hd'
    rw [mem_positions] at hmem hmem'
    rw [hmem, Option.some.injEq] at hmem'
    rw [hmem'] at hnot
    exact hnot hd'

/-- The finders of a sanitizer stop at brackets when nothing that is configured has one. -/
theorem finders_stop {cls : Classes} {domains repo_hosts : List String} {s : Sanitizer}
    (hrules : sanitize_rules cls (some domains) (some repo_hosts) = .ok s.rules)
    (hdomains : ∀ d ∈ domains, Unbracketed d) (hhosts : ∀ d ∈ repo_hosts, Unbracketed d)
    (hextra : ∀ e ∈ s.extra, Unbracketed e.1) : ∀ e ∈ s.finders, ∀ c, bracket c →
      e.2.StopsAt c := by
  intro e he c hc
  rcases List.mem_append.mp he with he | he
  · obtain ⟨v, hv, rfl⟩ := List.mem_map.mp he
    exact occurrences_stopsAt (hextra v hv) hc
  · obtain ⟨r, hr, rfl⟩ := List.mem_map.mp he
    exact Regex.finder_stopsAt (sanitize_rules_avoid hrules hdomains hhosts hc r hr)

/-- Everything that is to be replaced is matched in the text, and no value or rule is disturbed by
the matches that those before it have in the text: on the stretches outside of these it finds what
it finds there in the whole text. -/
structure Unhindered (s : Sanitizer) (text : String) : Prop where
  matched : ∀ i, s.Sensitive text i →
    ∃ e ∈ s.finders, ∃ c, (c, some i) ∈ (founds (e.2.marked.cut (positions text))).flatten
  independent : Independent (s.finders.map fun e => e.2.marked) (positions text)

/-- Something that is to be replaced stands in a stretch outside of the matches of the first values
and rules, which do not disturb one another, and none of the others finds it in any part of that
stretch. -/
def Stranded (s : Sanitizer) (text : String) : Prop :=
  ∃ before behind, s.finders = before ++ behind ∧
    Independent (before.map fun e => e.2.marked) (positions text) ∧
    ∃ i, s.Sensitive text i ∧ ∃ stretch ∈ outside (before.map fun e => e.2.marked) (positions text),
      ∃ c, (c, some i) ∈ stretch ∧
        ∀ e ∈ behind, ∀ u, u <:+: stretch → (c, some i) ∉ (founds (e.2.marked.cut u)).flatten

/-- What is to be replaced of an unhindered text is found when its turn comes. -/
theorem Unhindered.found_in_turn {s : Sanitizer} {text : String} (h : s.Unhindered text) {i : ℕ}
    (hi : s.Sensitive text i) : s.FoundInTurn text i := by
  obtain ⟨e, he, c, hc⟩ := h.matched i hi
  exact ⟨c, h.independent.taken (nodup_positions text) (List.mem_map_of_mem he) hc⟩

/-- Of a stranded text something to be replaced is not found. -/
theorem Stranded.not_found {s : Sanitizer} {text : String} (h : s.Stranded text) :
    ∃ i, s.Sensitive text i ∧ ¬ s.FoundInTurn text i := by
  obtain ⟨before, behind, hfinders, hindependent, i, hi, stretch, hstretch, c, hc, hnone⟩ := h
  refine ⟨i, hi, ?_⟩
  rintro ⟨d, hd⟩
  obtain ⟨hmem, hnot⟩ := (taken_iff (nodup_positions text)).mp hd
  have hleft := (mem_left_iff hindependent (List.ne_nil_of_mem hc)).mpr hstretch
  have hstays :
      (c, some i) ∈ (left (s.finders.map fun e => e.2.marked) (positions text)).flatten := by
    rw [hfinders, List.map_append]
    refine mem_left_append.mpr ⟨stretch, hleft, mem_left_of_not_found hc fun f hf u hu => ?_⟩
    obtain ⟨e, he, rfl⟩ := List.mem_map.mp hf
    exact hnone e he u hu
  -- there is one character at the position
  have hmem' := (left_sublist _ _).subset hstays
  rw [mem_positions] at hmem hmem'
  rw [hmem', Option.some.injEq] at hmem
  rw [hmem] at hstays
  exact hnot hstays

/-- **Everything that is to be replaced is replaced** when no value or rule is disturbed by the
matches of those before it, and something stays when it is stranded. -/
theorem scrub_complete {cls : Classes} {domains repo_hosts : List String} {s : Sanitizer}
    (hrules : sanitize_rules cls (some domains) (some repo_hosts) = .ok s.rules)
    (hdomains : ∀ d ∈ domains, Unbracketed d) (hhosts : ∀ d ∈ repo_hosts, Unbracketed d)
    (hextra : ∀ e ∈ s.extra, Unbracketed e.1) (text : String) :
    (s.Unhindered text → ∀ i, s.Sensitive text i → s.Replaced text i) ∧
      (s.Stranded text → ∃ i, s.Sensitive text i ∧ ¬ s.Replaced text i) := by
  have hstop := finders_stop hrules hdomains hhosts hextra
  constructor
  · intro h i hi
    exact (replaced_iff hstop hi.mem).mpr (h.found_in_turn hi)
  · intro h
    obtain ⟨i, hi, hnot⟩ := h.not_found
    exact ⟨i, hi, fun hreplaced => hnot ((replaced_iff hstop hi.mem).mp hreplaced)⟩

/-- A deployment with an internal domain and a repository host under it. -/
def corp : Sanitizer where
  extra := [("Alice", "NAME")]
  rules := [("HOST", HOST .ascii), ("USER", USER .ascii),
    ("INTERNAL_HOST", INTERNAL_HOST .ascii ["corp.com"]),
    ("INTERNAL_REPO", INTERNAL_REPO .ascii ["git.corp.com"]), ("JOB", JOB .ascii)]

/-- The same without the domain. -/
def forge : Sanitizer where
  extra := [("Alice", "NAME")]
  rules := [("HOST", HOST .ascii), ("USER", USER .ascii),
    ("INTERNAL_REPO", INTERNAL_REPO .ascii ["git.corp.com"]), ("JOB", JOB .ascii)]

def pushed : String := "Alice: https://git.corp.com/a/a12345678 on 10.0.0.1"

def cited : String := "see https://git.corp.com/team/secret"

/-- The account is taken out of the path, and what is left of the URL is found all the same. -/
theorem forge_unhindered : forge.Unhindered pushed where
  matched := by
    rintro i (⟨e, he, a, b, htext, hstart, hend⟩ | ⟨e, he, found, hfound, c, hc⟩)
    · rw [forge, List.mem_singleton] at he
      subst he
      have hat : ∀ n < 52, (pushed.toList.drop n).take 5 = "Alice".toList →
          n = 0 := by decide +kernel
      have hlength : a.length < 52 := by
        have h := congrArg List.length htext
        simp only [List.length_append] at h
        have htotal : pushed.toList.length = 51 := by decide +kernel
        omega
      have hzero : a.length = 0 := by
        refine hat a.length hlength ?_
        rw [htext, List.append_assoc, List.drop_left]
        exact List.take_left' (by decide +kernel)
      have hbound : i < 5 := by
        have hfive : "Alice".toList.length = 5 := by decide +kernel
        simp only [hfive] at hend
        omega
      have hall : ∀ i < 5, ∃ c ∈ "Alice".toList,
          (c, some i) ∈ (founds ((occurrences "Alice").marked.cut
          (positions pushed))).flatten := by decide +kernel
      obtain ⟨c, -, hc⟩ := hall i hbound
      exact ⟨("NAME", occurrences "Alice"), by simp [finders, forge], c, hc⟩
    · exact ⟨(e.1, e.2.finder), List.mem_append_right _ (List.mem_map_of_mem he), c,
        List.mem_flatten_of_mem hfound hc⟩
  independent := by decide +kernel

theorem mem_infixes {α : Type} {u s : List α} : u <:+: s ↔ u ∈ s.tails.flatMap List.inits := by
  rw [List.infix_iff_prefix_suffix, List.mem_flatMap]
  simp only [List.mem_tails, List.mem_inits, and_comm]

/-- The rule for repositories matches the path in the whole text. -/
theorem corp_sensitive : corp.Sensitive cited 25 := by
  have hfound :
      ∃ found ∈ founds ((INTERNAL_REPO .ascii ["git.corp.com"]).finder.marked.cut
        (positions cited)),
      ('t', some 25) ∈ found := by decide +kernel
  obtain ⟨found, hfound, hmem⟩ := hfound
  exact .inr ⟨("INTERNAL_REPO", INTERNAL_REPO .ascii ["git.corp.com"]), by simp [corp], found,
    hfound, 't', hmem⟩

/-- The path of the repository stands behind the host that is taken out. -/
theorem corp_stranded : corp.Stranded cited := by
  refine ⟨corp.finders.take 4, corp.finders.drop 4, (List.take_append_drop 4 _).symm,
    by
    decide +kernel, 25, corp_sensitive,
    "/team/secret".toList.zipIdx.map fun e => (e.1, some (e.2 + 24)), by decide +kernel, 't',
    by decide +kernel, ?_⟩
  intro e he u hu
  rw [mem_infixes] at hu
  revert u e
  decide +kernel

/-- Nothing hinders the rules of the first deployment, and a repository is stranded by those of the
second. -/
theorem forge_complete : (∀ i, forge.Sensitive pushed i → forge.Replaced pushed i) ∧
    ∃ i, corp.Sensitive cited i ∧ ¬ corp.Replaced cited i :=
  ⟨(@scrub_complete .ascii [] ["git.corp.com"] forge rfl (by unfold Unbracketed; decide)
      (by unfold Unbracketed; decide) (by unfold Unbracketed; decide) _).1 forge_unhindered,
    (@scrub_complete .ascii ["corp.com"] ["git.corp.com"] corp rfl (by unfold Unbracketed; decide)
      (by unfold Unbracketed; decide) (by unfold Unbracketed; decide) _).2 corp_stranded⟩

/-- The host of a repository is taken out of its URL before the rule for repositories is applied. -/
theorem repo_not_replaced : corp.Sensitive cited 25 ∧ ¬ corp.Replaced cited 25 := by
  refine ⟨corp_sensitive, fun h => h 't' ?_⟩
  decide +kernel

end Sanitizer

end Memline
