/-
What is scrubbed off a text before it leaves the machine.

A sanitizer replaces first the values that a human has ruled on, then whatever its rules match,
one rule after the other, and gives equal values of a category the same numbered placeholder.
`scrub_traced` is the same with marks on the characters, so that it can be told of each of them
whether it was there before.
-/
import Mathlib.Algebra.Order.Ring.Nat
import Memline.Lib.Json
import Memline.Lib.Matching
import Memline.Mem0

set_option autoImplicit false

namespace Memline

open Rewriting

/-! ## Rules -/

/-- The character classes `\d` and `\w`, of which only the part below 128 is written out. -/
structure Classes where
  digit : Char → Bool
  word : Char → Bool
  word_of_digit : ∀ c, digit c = true → word c = true
  digit_ascii : ∀ c : Char, c.toNat < 128 → digit c = c.isDigit
  word_ascii : ∀ c : Char, c.toNat < 128 → word c = (c.isAlphanum || c == '_')

/-- Classes with nothing from 128 on. -/
def Classes.ascii : Classes where
  digit := Char.isDigit
  word c := c.isAlphanum || c == '_'
  word_of_digit c h := by simp [Char.isAlphanum, h]
  digit_ascii _ _ := rfl
  word_ascii _ _ := rfl

section rules

variable (cls : Classes)

def edge : Regex := .boundary cls.word

/-- `\b(?!127\.0\.0\.1\b)(?:\d{1,3}\.){3}\d{1,3}\b`. -/
def HOST : Regex :=
  .seq (edge cls) <| .seq (.notAhead (.seq (.lit "127.0.0.1".toList) (edge cls))) <|
    .seq (.between (.seq (.between (.one cls.digit) 1 2) (.char '.')) 3 0) <|
      .seq (.between (.one cls.digit) 1 2) (edge cls)

/-- `\b[a-zA-Z]\d{8}\b`. -/
def USER : Regex :=
  .seq (edge cls) <| .seq (.one Char.isAlpha) <| .seq (.between (.one cls.digit) 8 0) (edge cls)

/-- `\b[\w.-]+\.(?:…)\b`. -/
def INTERNAL_HOST (domains : List String) : Regex :=
  .seq (edge cls) <| .seq (.plus (.one fun c => cls.word c || c == '.' || c == '-')) <|
    .seq (.char '.') <|
    .seq (.oneOf (domains.map fun d => .lit d.toList)) (edge cls)

/-- `\bhttps?://(?:…)/[\w/.-]+`. -/
def INTERNAL_REPO (repo_hosts : List String) : Regex :=
  .seq (edge cls) <| .seq (.lit "http".toList) <| .seq (.between (.char 's') 0 1) <|
    .seq (.lit "://".toList) <|
    .seq (.oneOf (repo_hosts.map fun h => .lit h.toList)) <| .seq (.char '/') <|
      .plus (.one fun c => cls.word c || c == '.' || c == '/' || c == '-')

/-- `\bmodelarts-job-[\w-]+\b`. -/
def JOB : Regex :=
  .seq (edge cls) <| .seq (.lit "modelarts-job-".toList) <|
    .seq (.plus (.one fun c => cls.word c || c == '-')) (edge cls)

def sanitize_unconfigured_error : Exn :=
  .other <| "sanitize.internal_domains / sanitize.internal_repo_hosts are not " ++
    "configured. Add them to config.toml ([sanitize] section) before " ++
    "any wiki flow sends memory text to an external model; an explicit " ++
    "empty list declares the deployment has none."

/-- The active substitution rules, ordered: earlier patterns win. -/
def sanitize_rules (domains repo_hosts : Option (List String)) :
    Except Exn (List (String × Regex)) :=
  match domains, repo_hosts with
  | some domains, some repo_hosts => .ok <|
    [("HOST", HOST cls), ("USER", USER cls)] ++
      (if domains ≠ [] then [("INTERNAL_HOST", INTERNAL_HOST cls domains)] else []) ++
      (if repo_hosts ≠ [] then [("INTERNAL_REPO", INTERNAL_REPO cls repo_hosts)] else []) ++
      [("JOB", JOB cls)]
  | _, _ => .error sanitize_unconfigured_error

end rules

/-! ## Placeholders -/

/-- `<category-n>`. -/
def numbered (category : String) (n : ℕ) : String := "<" ++ category ++ "-" ++ toString n ++ ">"

/-- The last dash of a placeholder stands before its number. -/
theorem numbered_inj {c c' : String} {n n' : ℕ} (h : numbered c n = numbered c' n') :
    c = c' ∧ n = n' := by
  have hcut : ∀ (a a' d d' : List Char), '-' ∉ d → '-' ∉ d' → a ++ '-' :: d = a' ++ '-' :: d' →
      a = a' ∧ d = d' := by
    intro a a' d d' hd hd' heq
    rcases List.append_eq_append_iff.mp heq with ⟨x, hx, hy⟩ | ⟨x, hx, hy⟩
    · cases x with
      | nil => simp_all
      | cons e x =>
        rw [List.cons_append, List.cons.injEq] at hy
        rw [hy.2] at hd
        exact absurd (by simp) hd
    · cases x with
      | nil => simp_all
      | cons e x =>
        rw [List.cons_append, List.cons.injEq] at hy
        rw [hy.2] at hd'
        exact absurd (by simp) hd'
  have hdash : ∀ m : ℕ, '-' ∉ (toString m).toList ++ ['>'] := by
    intro m
    rw [List.mem_append, not_or]
    exact ⟨Py.notMem_toString_nat (by decide) m, by decide⟩
  have hlists := congrArg String.toList h
  simp only [numbered, String.toList_append] at hlists
  have hsame : c.toList ++ '-' :: ((toString n).toList ++ ['>']) =
      c'.toList ++ '-' :: ((toString n').toList ++ ['>']) := by
    simpa using hlists
  obtain ⟨hcategory, hnumber⟩ := hcut _ _ _ _ (hdash n) (hdash n') hsame
  refine ⟨String.toList_inj.mp hcategory, Py.toString_nat_inj (String.toList_inj.mp ?_)⟩
  exact List.append_cancel_right hnumber

theorem none_counted :
    ∀ e ∈ ([] : List ((String × String) × String)), ∃ n ≤ (fun _ => 0 : String → ℕ) e.1.1,
    e.2 = numbered e.1.1 n := fun _ he => absurd he List.not_mem_nil

theorem none_apart : ([] : List ((String × String) × String)).Pairwise fun e e' => e.2 ≠ e'.2 :=
  List.Pairwise.nil

/-- What has been replaced so far, and by what: `_assigned` and `_counters`. -/
structure Numbering where
  assigned : List ((String × String) × String) := []
  counters : String → ℕ := fun _ => 0
  counted : ∀ e ∈ assigned, ∃ n ≤ counters e.1.1, e.2 = numbered e.1.1 n := by exact none_counted
  apart : assigned.Pairwise fun e e' => e.2 ≠ e'.2 := by exact none_apart

namespace Numbering

/-- The next placeholder is counted like the others. -/
theorem counted_next (s : Numbering) (category value : String) :
    ∀ e ∈ s.assigned ++ [((category, value), numbered category (s.counters category + 1))],
      ∃ n ≤ Function.update s.counters category (s.counters category + 1) e.1.1,
        e.2 = numbered e.1.1 n := by
  intro e he
  rcases List.mem_append.mp he with he | he
  · obtain ⟨n, hn, hph⟩ := s.counted e he
    refine ⟨n, ?_, hph⟩
    by_cases hc : e.1.1 = category
    · rw [hc, Function.update_self]
      rw [hc] at hn
      omega
    · rwa [Function.update_of_ne hc]
  · rw [List.mem_singleton.mp he]
    exact ⟨_, by rw [Function.update_self], rfl⟩

/-- The next placeholder differs from all that were given out. -/
theorem apart_next (s : Numbering) (category value : String) :
    (s.assigned ++ [((category, value), numbered category (s.counters category + 1))]).Pairwise
      fun e e' => e.2 ≠ e'.2 := by
  refine List.pairwise_append.mpr ⟨s.apart, List.pairwise_singleton _ _, fun e he e' he' heq => ?_⟩
  obtain ⟨n, hn, hph⟩ := s.counted e he
  rw [List.mem_singleton.mp he'] at heq
  obtain ⟨hc, hnumber⟩ := numbered_inj (hph.symm.trans heq)
  rw [hc] at hn
  omega

/-- `_placeholder`. -/
def placeholder (s : Numbering) (category value : String) : Numbering × String :=
  match s.assigned.lookup (category, value) with
  | some ph => (s, ph)
  | none =>
    let ph := numbered category (s.counters category + 1)
    ({ assigned := s.assigned ++ [((category, value), ph)]
       counters := Function.update s.counters category (s.counters category + 1)
       counted := s.counted_next category value
       apart := s.apart_next category value }, ph)

end Numbering

/-- `counts`: how many values of each category have been replaced. -/
def Numbering.counts (s : Numbering) : List (String × ℕ) :=
  (s.assigned.map fun e => e.1.1).eraseDups.map fun category => (category, s.counters category)

/-! ## Scrubbing -/

/-- Nothing is found before, between and behind all characters. -/
def nothings : List Char → Cut Char
  | [] => [.inr []]
  | c :: t => .inr [] :: .inl c :: nothings t

/-- What `str.replace` finds of a value. -/
def occurrences (value : String) : Finder Char :=
  if value = "" then
    { cut := nothings
      text_cut := fun t => by
        induction t with
        | nil => rfl
        | cons c t ih => rw [nothings, text, text, ih, List.nil_append] }
  else (Regex.lit value.toList).finder

/-- `text.replace(old, new)`. -/
def str_replace (text old new : String) : String :=
  String.ofList (fill (fun (_ : Unit) _ =>
    ((), new.toList)) () ((occurrences old).cut text.toList)).2

structure Sanitizer where
  /-- What a human ruled must be replaced, with its category. -/
  extra : List (String × String)
  rules : List (String × Regex)
  numbering : Numbering := {}

namespace Sanitizer

variable {μ : Type}

/-- The finders of a sanitizer, with their categories: the values first, then the rules. -/
def finders (s : Sanitizer) : List (String × Finder Char) :=
  (s.extra.map fun e => (e.2, occurrences e.1)) ++ s.rules.map fun e => (e.1, e.2.finder)

/-- Whatever is found is given its placeholder. -/
def replace (category : String) (n : Numbering) (found : List Char) : Numbering × List Char :=
  let done := n.placeholder category (String.ofList found)
  (done.1, done.2.toList)

def scrub (s : Sanitizer) (text : String) : Sanitizer × String :=
  let done := run (s.finders.map fun e => ⟨e.2, replace e.1⟩) s.numbering text.toList
  ({ s with numbering := done.1 }, String.ofList done.2)

/-- The same, where all characters of a placeholder get its mark. -/
def replace_traced (stamp : String → String → μ) (category : String) (n : Numbering)
    (found : List (Char × μ)) : Numbering × List (Char × μ) :=
  let value := String.ofList (found.map Prod.fst)
  let done := n.placeholder category value
  (done.1, done.2.toList.map fun c => (c, stamp done.2 value))

def steps (stamp : String → String → μ) (s : Sanitizer) : List (Step Numbering (Char × μ)) :=
  s.finders.map fun e => ⟨e.2.marked, replace_traced stamp e.1⟩

def scrub_traced (stamp : String → String → μ) (s : Sanitizer) (text : List (Char × μ)) :
    Sanitizer × List (Char × μ) :=
  let done := run (s.steps stamp) s.numbering text
  ({ s with numbering := done.1 }, done.2)

/-- The marks are only looked on. -/
theorem scrub_traced_erase (stamp : String → String → μ) (s : Sanitizer) (text : List (Char × μ)) :
    (scrub_traced stamp s text).1 = (s.scrub (String.ofList (text.map Prod.fst))).1 ∧
      String.ofList ((scrub_traced stamp s text).2.map Prod.fst) =
        (s.scrub (String.ofList (text.map Prod.fst))).2 := by
  have hput : ∀ (e : String × Finder Char) n (u : List (Char × μ)),
      (replace_traced stamp e.1 n u).1 = (replace e.1 n (u.map Prod.fst)).1 ∧
        (replace_traced stamp e.1 n u).2.map Prod.fst = (replace e.1 n (u.map Prod.fst)).2 := by
    intro e n u
    refine ⟨rfl, ?_⟩
    simp only [replace_traced, replace, List.map_map]
    exact List.map_id' _
  obtain ⟨hstate, htext⟩ :=
    run_mark Prod.snd (fun e => replace e.1) (fun e => replace_traced stamp e.1) hput
    s.finders s.numbering text
  simp only [scrub, scrub_traced, steps, String.toList_ofList]
  exact ⟨by rw [hstate], by rw [htext]⟩

end Sanitizer

/-! ## Shapes for review -/

section review

variable (cls : Classes)

/-- `(?=…)`. -/
def ahead (r : Regex) : Regex := .notAhead (.notAhead r)

/-- `[一-鿿]{2,4}(?=\s*(?:的|老师|同学)?\b)`. -/
def CJK_PERSONAL_NAME : Regex :=
  .seq (.between (.one fun c => 0x4e00 ≤ c.toNat && c.toNat ≤ 0x9fff) 2 2) <|
    ahead <| .seq (.many (.one Mem0.isspace)) <|
      .seq (.atMost (.oneOf (["的", "老师", "同学"].map fun w => .lit w.toList)) 1) (edge cls)

/-- `\b[0-9a-f]{32,}\b`. -/
def LONG_HEX_ID : Regex :=
  let hex := .one fun c => c.isDigit || ('a' ≤ c && c ≤ 'f')
  .seq (edge cls) <| .seq (.between hex 32 0) <| .seq (.many hex) (edge cls)

/-- `\b[\w.+-]+@[\w.-]+\.\w+\b`. -/
def EMAIL : Regex :=
  .seq (edge cls) <| .seq (.plus (.one fun c => cls.word c || c == '.' || c == '+' || c == '-')) <|
    .seq (.char '@') <|
    .seq (.plus (.one fun c => cls.word c || c == '.' || c == '-')) <| .seq (.char '.') <|
      .seq (.plus (.one cls.word)) (edge cls)

/-- Shapes that are probably sensitive but cannot be replaced safely. -/
def REVIEW_PATTERNS : List (String × Regex) :=
  [("cjk_personal_name", CJK_PERSONAL_NAME cls), ("long_hex_id", LONG_HEX_ID cls),
    ("email", EMAIL cls)]

structure ReviewFlag where
  memory_id : String
  kind : String
  value : String
  deriving DecidableEq

/-- Sensitive-looking shapes this module refuses to guess at. -/
def review_flags (texts : List (String × String)) (reviewed : List String) : List ReviewFlag :=
  texts.flatMap fun (memory_id, text) => (REVIEW_PATTERNS cls).flatMap fun (kind, pattern) =>
    let found := (founds (pattern.finder.cut text.toList)).map String.ofList
    (found.eraseDups.filter fun value => value ∉ reviewed).map fun value => ⟨memory_id, kind, value⟩

end review

/-! ## What stops the finders -/

/-- The brackets of a placeholder. -/
def bracket (c : Char) : Prop := c = '<' ∨ c = '>'

/-- The text has no brackets. -/
def Unbracketed (t : String) : Prop := '<' ∉ t.toList ∧ '>' ∉ t.toList

theorem Unbracketed.notMem {t : String} (h : Unbracketed t) {c : Char} (hc : bracket c) :
    c ∉ t.toList := by
  rcases hc with rfl | rfl
  · exact h.1
  · exact h.2

/-- Occurrences of an unbracketed value end at every bracket. -/
theorem occurrences_stopsAt {value : String} (h : Unbracketed value) {c : Char} (hc : bracket c) :
    (occurrences value).StopsAt c := by
  rw [occurrences]
  split
  · intro a b
    induction a with
    | nil => rfl
    | cons d a ih =>
      change nothings (d :: (a ++ c :: b)) = _
      rw [nothings, show nothings (a ++ c :: b) = _ from ih]
      rfl
  · exact Regex.finder_stopsAt (Regex.avoids_lit.mpr (h.notMem hc))

variable {cls : Classes}

/-- No class of characters has a bracket. -/
theorem Classes.bracket (cls : Classes) {c : Char} (hc : Memline.bracket c) :
    cls.digit c = false ∧ cls.word c = false := by
  rcases hc with rfl | rfl
  · rw [cls.digit_ascii _ (by decide), cls.word_ascii _ (by decide)]
    decide
  · rw [cls.digit_ascii _ (by decide), cls.word_ascii _ (by decide)]
    decide

/-- Nor does a rule match one, unless it is configured. -/
theorem sanitize_rules_avoid {domains repo_hosts : List String} {rules : List (String × Regex)}
    (h : sanitize_rules cls (some domains) (some repo_hosts) = .ok rules)
    (hdomains : ∀ d ∈ domains, Unbracketed d) (hhosts : ∀ d ∈ repo_hosts, Unbracketed d) {c : Char}
    (hc : bracket c) : ∀ e ∈ rules, Regex.Avoids c e.2 := by
  -- an angle bracket is no digit and no word character, and stands in no constant of the
  -- rules
  obtain ⟨hdigit, hword⟩ := cls.bracket hc
  have hfixed : c ∉ "127.0.0.1".toList ∧ c ∉ "http".toList ∧ c ∉ "://".toList ∧
      c ∉ "modelarts-job-".toList ∧
      c.isAlpha = false ∧ (c == '.') = false ∧ (c == '/') = false ∧ (c == '-') = false ∧
      (c == 's') = false := by
    rcases hc with rfl | rfl
    · decide
    · decide
  obtain ⟨hloopback, hhttp, hslashes, hjob, halpha, hdot, hslash, hdash, hs⟩ := hfixed
  have hlit : ∀ {cs : List Char}, c ∉ cs → Regex.Avoids c (.lit cs) := Regex.avoids_lit.mpr
  have hnames : ∀ ds : List String, (∀ d ∈ ds, Unbracketed d) →
      Regex.Avoids c (.oneOf (ds.map fun d => .lit d.toList)) := by
    intro ds hds
    refine Regex.avoids_oneOf fun r hr => ?_
    obtain ⟨d, hd, rfl⟩ := List.mem_map.mp hr
    exact hlit ((hds d hd).notMem hc)
  have hedge : Regex.Avoids c (edge cls) := hword
  have hdigits : Regex.Avoids c (.one cls.digit) := hdigit
  have hletter : Regex.Avoids c (.char 's') := hs
  have hoctet : Regex.Avoids c (.between (.one cls.digit) 1 2) := Regex.avoids_between hdigits 1 2
  have hoctets : Regex.Avoids c (.seq (.between (.one cls.digit) 1 2) (.char '.')) := ⟨hoctet, hdot⟩
  have hclass : ∀ {f : Char → Bool}, f c = false → Regex.Avoids c (.plus (.one f)) :=
    fun hf => Regex.avoids_plus hf
  have hHOST : Regex.Avoids c (HOST cls) :=
    ⟨hedge, ⟨hlit hloopback, hedge⟩, Regex.avoids_between hoctets 3 0, hoctet, hedge⟩
  have hUSER : Regex.Avoids c (USER cls) := ⟨hedge, halpha, Regex.avoids_between hdigits 8 0, hedge⟩
  have hINTERNAL_HOST : Regex.Avoids c (INTERNAL_HOST cls domains) :=
    ⟨hedge, hclass (by simp only [hword, hdot, hdash, Bool.or_false]), hdot,
      hnames domains hdomains, hedge⟩
  have hINTERNAL_REPO : Regex.Avoids c (INTERNAL_REPO cls repo_hosts) :=
    ⟨hedge, hlit hhttp, Regex.avoids_between hletter 0 1, hlit hslashes,
      hnames repo_hosts hhosts, hslash,
      hclass (by simp only [hword, hdot, hslash, hdash, Bool.or_false])⟩
  have hJOB : Regex.Avoids c (JOB cls) :=
    ⟨hedge, hlit hjob, hclass (by simp only [hword, hdash, Bool.or_false]), hedge⟩
  have hmaybe : ∀ {name : String} {r : Regex} {ds : List String}, Regex.Avoids c r →
      ∀ e ∈ (if ds ≠ [] then [(name, r)] else []), Regex.Avoids c e.2 := by
    intro name r ds hr e he
    split at he
    · rw [List.mem_singleton.mp he]
      exact hr
    · cases he
  rw [sanitize_rules, Except.ok.injEq] at h
  subst h
  simp only [List.forall_mem_append, List.forall_mem_cons]
  exact ⟨⟨⟨⟨hHOST, hUSER, nofun⟩, hmaybe hINTERNAL_HOST⟩, hmaybe hINTERNAL_REPO⟩, hJOB, nofun⟩

end Memline
