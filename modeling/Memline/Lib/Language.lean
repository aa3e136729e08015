/-
What a pattern without assertions and groups reads.

Such a pattern reads the words of a regular language, wherever it stands: a way to match it is a
word of the language that the text goes on with. A character that the pattern avoids is in no such
word.
-/
import Mathlib.Computability.Language
import Memline.Lib.Matching

set_option autoImplicit false

namespace Regex

/-- It looks at nothing but what it reads, and it captures nothing. -/
def Plain : Regex → Prop
  | empty => True
  | one _ => True
  | seq r s => Plain r ∧ Plain s
  | alt r s => Plain r ∧ Plain s
  | star _ r => Plain r
  | boundary _ => False
  | notAhead _ => False
  | notBehind _ => False
  | group _ => False

/-- The words of a plain pattern. -/
def language : Regex → Language Char
  | empty => 1
  | one f => {w | ∃ c, f c = true ∧ w = [c]}
  | seq r s => language r * language s
  | alt r s => language r + language s
  | star _ r => KStar.kstar (language r)
  | boundary _ => 1
  | notAhead _ => 1
  | notBehind _ => 1
  | group r => language r

/-! ## Ways to match -/

theorem Place.skip_nil (p : Place) : p.skip [] = p := rfl

theorem Place.skip_skip (p : Place) (u v : List Char) : (p.skip u).skip v = p.skip (u ++ v) := by
  simp [Place.skip, List.drop_drop]

/-- What comes after some of the text that was skipped. -/
theorem Place.skip_after {p : Place} {w rest : List Char} (h : p.after = w ++ rest) :
    (p.skip w).after = rest := by
  show p.after.drop w.length = rest
  rw [h, List.drop_left]

/-- A word of the language is read. -/
def Reads (L : Language Char) (p q : Place) : Prop := ∃ w ∈ L, p.after = w ++ q.after ∧ q = p.skip w

theorem reads_one (p q : Place) : Reads 1 p q ↔ q = p := by
  constructor
  · rintro ⟨w, hw, -, rfl⟩
    rw [(Language.mem_one w).mp hw, Place.skip_nil]
  · rintro rfl
    exact ⟨[], rfl, rfl, rfl⟩

/-- A product of languages is read in two stretches. -/
theorem reads_mul {L M : Language Char} {p q : Place} :
    Reads (L * M) p q ↔ ∃ m, Reads L p m ∧ Reads M m q := by
  constructor
  · rintro ⟨w, hw, hafter, rfl⟩
    obtain ⟨u, hu, v, hv, rfl⟩ := Language.mem_mul.mp hw
    rw [List.append_assoc] at hafter
    have hmid := Place.skip_after hafter
    exact ⟨p.skip u, ⟨u, hu, by rw [hmid, hafter], rfl⟩, v, hv, hmid, by rw [Place.skip_skip]⟩
  · rintro ⟨m, ⟨u, hu, hafter, rfl⟩, v, hv, hafter', rfl⟩
    refine ⟨u ++ v, Language.mem_mul.mpr ⟨u, hu, v, hv, rfl⟩, ?_, by rw [Place.skip_skip]⟩
    rw [List.append_assoc, ← hafter', ← hafter]

theorem reads_add {L M : Language Char} {p q : Place} :
    Reads (L + M) p q ↔ Reads L p q ∨ Reads M p q := by
  constructor
  · rintro ⟨w, hw | hw, h⟩
    · exact .inl ⟨w, hw, h⟩
    · exact .inr ⟨w, hw, h⟩
  · rintro (⟨w, hw, h⟩ | ⟨w, hw, h⟩)
    · exact ⟨w, .inl hw, h⟩
    · exact ⟨w, .inr hw, h⟩

/-- Rounds that each read a word which is not empty, as long as the text lasts. -/
theorem mem_rounds_iff {L : Language Char} {greedy : Bool} {step : Place → List Place}
    (hstep : ∀ p q, q ∈ step p ↔ Reads L p q) {n : ℕ} {p q : Place} (hn : p.after.length ≤ n) :
    q ∈ rounds greedy step n p ↔ Reads (KStar.kstar L) p q := by
  have hsplit : ∀ n p q, q ∈ rounds greedy step (n + 1) p ↔
      q = p ∨ ∃ p' ∈ step p, p'.after.length < p.after.length ∧ q ∈ rounds greedy step n p' := by
    intro n p q
    rw [rounds]
    cases greedy <;> simp [and_assoc, or_comm]
  constructor
  · intro hq
    -- each round reads a word of the language, and the rounds behind it read the rest
    induction n generalizing p with
    | zero =>
      rw [rounds, List.mem_singleton] at hq
      exact ⟨[], Language.nil_mem_kstar L, by rw [hq]; rfl, by rw [hq]; rfl⟩
    | succ n ih =>
      rcases (hsplit n p _).mp hq with rfl | ⟨p', hp', hlt, hq⟩
      · exact ⟨[], Language.nil_mem_kstar L, rfl, rfl⟩
      · obtain ⟨u, hu, hafter, rfl⟩ := (hstep p p').mp hp'
        obtain ⟨v, hv, hafter', rfl⟩ := ih (by omega) hq
        refine ⟨u ++ v, ?_, by rw [List.append_assoc, ← hafter', ← hafter], by rw [Place.skip_skip]⟩
        obtain ⟨ws, rfl, hws⟩ := Language.mem_kstar.mp hv
        exact Language.mem_kstar.mpr ⟨u :: ws, rfl, List.forall_mem_cons.mpr ⟨hu, hws⟩⟩
  · rintro ⟨w, hw, hafter, rfl⟩
    obtain ⟨ws, rfl, hws⟩ := Language.mem_kstar_iff_exists_nonempty.mp hw
    clear hw
    -- empty words are left out, so that each word takes something and the fuel is enough
    induction ws generalizing n p with
    | nil =>
      cases n with
      | zero => exact List.mem_singleton.mpr rfl
      | succ n => exact (hsplit n p _).mpr (.inl rfl)
    | cons u ws ih =>
      obtain ⟨⟨hu, hne⟩, hws⟩ := List.forall_mem_cons.mp hws
      rw [List.flatten_cons, List.append_assoc] at hafter
      have hlen := congrArg List.length hafter
      have hpos := List.length_pos_of_ne_nil hne
      rw [List.length_append] at hlen
      obtain ⟨n, rfl⟩ : ∃ k, n = k + 1 := ⟨n - 1, by omega⟩
      have hmid := Place.skip_after hafter
      rw [← Place.skip_skip] at hmid
      rw [List.flatten_cons, ← Place.skip_skip]
      have hread : Reads L p (p.skip u) := ⟨u, hu, by rw [hmid, hafter, Place.skip_skip], rfl⟩
      have hlt : (p.skip u).after.length < p.after.length := by
        rw [hmid, Place.skip_skip]
        omega
      refine (hsplit n p _).mpr (.inr ⟨p.skip u, (hstep _ _).mpr hread, hlt, ?_⟩)
      exact ih (by omega) hws hmid

/-- The ways to match a plain pattern are the words of its language. -/
theorem mem_run_iff {r : Regex} (h : Plain r) {p q : Place} :
    q ∈ run r p ↔ Reads (language r) p q := by
  -- a plain expression looks at nothing but what it reads
  induction r generalizing p q with
  | empty => rw [run, List.mem_singleton, language, reads_one]
  | one f =>
    constructor
    · intro hq
      rw [run] at hq
      split at hq
      · cases hq
      · rename_i c rest hafter
        split at hq
        · rename_i hc
          rw [List.mem_singleton.mp hq]
          refine ⟨[c], ⟨c, hc, rfl⟩, hafter, ?_⟩
          rw [Place.skip, hafter]
          rfl
        · cases hq
    · rintro ⟨w, ⟨c, hc, rfl⟩, hafter, rfl⟩
      rw [run, hafter, List.singleton_append]
      dsimp only
      rw [if_pos hc, List.mem_singleton, Place.skip]
      rw [hafter]
      rfl
  | seq r s ihr ihs =>
    rw [run, List.mem_flatMap, language, reads_mul]
    exact exists_congr fun m => and_congr (ihr h.1) (ihs h.2)
  | alt r s ihr ihs =>
    rw [run, List.mem_append, language, reads_add]
    exact or_congr (ihr h.1) (ihs h.2)
  | star greedy r ih =>
    rw [run, language]
    exact mem_rounds_iff (fun p q => ih h) le_rfl
  | boundary _ => exact h.elim
  | notAhead _ _ => exact h.elim
  | notBehind _ => exact h.elim
  | group _ _ => exact h.elim

theorem mem_run_char {c : Char} {p q : Place} :
    q ∈ run (char c) p ↔ p.after = c :: q.after ∧ q = p.skip [c] := by
  have hplain : Plain (char c) := trivial
  rw [mem_run_iff hplain]
  constructor
  · rintro ⟨w, ⟨d, hd, rfl⟩, hafter, hq⟩
    rw [beq_iff_eq.mp hd] at hafter hq
    exact ⟨hafter, hq⟩
  · rintro ⟨hafter, hq⟩
    exact ⟨[c], ⟨c, beq_self_eq_true c, rfl⟩, hafter, hq⟩

/-- A plain pattern as a group captures what it reads. -/
theorem mem_run_group {r : Regex} (h : Plain r) {p q : Place} :
    q ∈ run (group r) p ↔ ∃ w ∈ language r, p.after = w ++ q.after ∧
      q = { p.skip w with captured := w } := by
  have hupTo : ∀ {w : List Char}, p.after = w ++ (p.skip w).after → p.upTo (p.skip w) = w := by
    intro w hafter
    have hlen := congrArg List.length hafter
    rw [List.length_append] at hlen
    have hread : p.after.length - (p.skip w).after.length = w.length := by omega
    rw [Place.upTo, hread, hafter, List.take_left]
  rw [run, List.mem_map]
  constructor
  · rintro ⟨m, hm, rfl⟩
    obtain ⟨w, hw, hafter, rfl⟩ := (mem_run_iff h).mp hm
    rw [hupTo hafter]
    exact ⟨w, hw, hafter, rfl⟩
  · rintro ⟨w, hw, hafter, rfl⟩
    have hskip : p.after = w ++ (p.skip w).after := hafter
    refine ⟨p.skip w, (mem_run_iff h).mpr ⟨w, hw, hskip, rfl⟩, ?_⟩
    rw [hupTo hskip]

/-! ## Looking around -/

theorem mem_run_start {p q : Place} : q ∈ run start p ↔ q = p ∧ p.before = [] := by
  rw [start, run]
  cases p.before with
  | nil => simp
  | cons c before => simp

theorem mem_run_stop {p q : Place} : q ∈ run stop p ↔ q = p ∧ p.after = [] := by
  rw [stop, run, any, run]
  cases p.after with
  | nil => simp
  | cons c after => simp

/-- Looking ahead reads nothing. -/
theorem mem_run_lookahead {r : Regex} {p q : Place} :
    q ∈ run (lookahead r) p ↔ q = p ∧ run r p ≠ [] := by
  rw [lookahead, run, run]
  cases run r p with
  | nil => simp
  | cons m more => simp

/-- A character that the pattern avoids is in none of its words. -/
theorem Avoids.not_mem {c : Char} {r : Regex} (h : Avoids c r) {w : List Char}
    (hw : w ∈ language r) : c ∉ w := by
  induction r generalizing w with
  | one f =>
    obtain ⟨d, hd, rfl⟩ := hw
    rintro hc
    rw [← List.mem_singleton.mp hc, h] at hd
    cases hd
  | seq r s ihr ihs =>
    obtain ⟨u, hu, v, hv, rfl⟩ := Language.mem_mul.mp hw
    rw [List.mem_append, not_or]
    exact ⟨ihr h.1 hu, ihs h.2 hv⟩
  | alt r s ihr ihs =>
    rcases hw with hw | hw
    · exact ihr h.1 hw
    · exact ihs h.2 hw
  | star greedy r ih =>
    obtain ⟨ws, rfl, hws⟩ := Language.mem_kstar.mp hw
    intro hc
    obtain ⟨u, hu, hcu⟩ := List.mem_flatten.mp hc
    exact ih h (hws u hu) hcu
  | group r ih => exact ih h hw
  | empty => rw [(Language.mem_one w).mp hw]; exact List.not_mem_nil
  | boundary _ => rw [(Language.mem_one w).mp hw]; exact List.not_mem_nil
  | notAhead _ _ => rw [(Language.mem_one w).mp hw]; exact List.not_mem_nil
  | notBehind _ => rw [(Language.mem_one w).mp hw]; exact List.not_mem_nil

/-! ## The words of some patterns -/

theorem mem_language_lit {cs w : List Char} : w ∈ language (lit cs) ↔ w = cs := by
  induction cs generalizing w with
  | nil => exact Language.mem_one w
  | cons c cs ih =>
    rw [lit, language, Language.mem_mul]
    constructor
    · rintro ⟨u, ⟨d, hd, rfl⟩, v, hv, rfl⟩
      rw [ih.mp hv, beq_iff_eq.mp hd]
      rfl
    · rintro rfl
      exact ⟨[c], ⟨c, beq_self_eq_true c, rfl⟩, cs, ih.mpr rfl, rfl⟩

/-- The words of a repeated class are made of its characters. -/
theorem mem_language_many {f : Char → Bool} {w : List Char} :
    w ∈ language (many (one f)) ↔ ∀ c ∈ w, f c = true := by
  rw [many, language, Language.mem_kstar]
  constructor
  · rintro ⟨ws, rfl, hws⟩ c hc
    obtain ⟨u, hu, hcu⟩ := List.mem_flatten.mp hc
    obtain ⟨d, hd, rfl⟩ := hws u hu
    rwa [List.mem_singleton.mp hcu]
  · intro h
    refine ⟨w.map fun c => [c], ?_, ?_⟩
    · induction w with
      | nil => rfl
      | cons c w ih =>
        rw [List.map_cons, List.flatten_cons, List.singleton_append,
          ← ih fun d hd => h d (List.mem_cons_of_mem c hd)]
    · intro u hu
      obtain ⟨c, hc, rfl⟩ := List.mem_map.mp hu
      exact ⟨c, h c hc, rfl⟩

/-- The words of a class repeated at least once are those that are not empty. -/
theorem mem_language_plus {f : Char → Bool} {w : List Char} :
    w ∈ language (.plus (.one f)) ↔ w ≠ [] ∧ ∀ c ∈ w, f c = true := by
  rw [plus, language, Language.mem_mul]
  constructor
  · rintro ⟨u, ⟨c, hc, rfl⟩, v, hv, rfl⟩
    exact ⟨List.cons_ne_nil _ _, List.forall_mem_cons.mpr ⟨hc, mem_language_many.mp hv⟩⟩
  · rintro ⟨hne, hw⟩
    cases w with
    | nil => exact absurd rfl hne
    | cons c w =>
      obtain ⟨hc, hw⟩ := List.forall_mem_cons.mp hw
      exact ⟨[c], ⟨c, hc, rfl⟩, w, mem_language_many.mpr hw, rfl⟩

/-- So many characters of a kind. -/
theorem mem_language_between {f : Char → Bool} {n : ℕ} {w : List Char} :
    w ∈ language (between (one f) n 0) ↔ w.length = n ∧ ∀ c ∈ w, f c = true := by
  induction n generalizing w with
  | zero =>
    rw [between, atMost, language, Language.mem_one, List.length_eq_zero_iff]
    constructor
    · rintro rfl
      exact ⟨rfl, nofun⟩
    · exact And.left
  | succ n ih =>
    rw [between, language, Language.mem_mul]
    constructor
    · rintro ⟨u, ⟨c, hc, rfl⟩, v, hv, rfl⟩
      obtain ⟨hlen, hv⟩ := ih.mp hv
      exact ⟨by rw [← hlen]; rfl, List.forall_mem_cons.mpr ⟨hc, hv⟩⟩
    · rintro ⟨hlen, hw⟩
      cases w with
      | nil => cases hlen
      | cons c w =>
        obtain ⟨hc, hw⟩ := List.forall_mem_cons.mp hw
        exact ⟨[c], ⟨c, hc, rfl⟩, w, ih.mpr ⟨Nat.succ.inj hlen, hw⟩, rfl⟩

/-- A given text, and then a word of a language. -/
theorem mem_lit_seq {cs w : List Char} {r : Regex} :
    w ∈ language (.seq (.lit cs) r) ↔ cs.isPrefixOf w = true ∧ w.drop cs.length ∈ language r := by
  rw [language, Language.mem_mul, List.isPrefixOf_iff_prefix]
  constructor
  · rintro ⟨u, hu, v, hv, rfl⟩
    rw [mem_language_lit.mp hu, List.drop_left]
    exact ⟨List.prefix_append cs v, hv⟩
  · rintro ⟨⟨v, rfl⟩, hv⟩
    rw [List.drop_left] at hv
    exact ⟨cs, mem_language_lit.mpr rfl, v, hv, rfl⟩

/-- At least so many characters of a kind. -/
theorem mem_between_many {f : Char → Bool} {n : ℕ} {w : List Char} :
    w ∈ language (.seq (.between (.one f) n 0) (.many (.one f))) ↔
      n ≤ w.length ∧ ∀ c ∈ w, f c = true := by
  rw [language, Language.mem_mul]
  constructor
  · rintro ⟨u, hu, v, hv, rfl⟩
    obtain ⟨hlen, hu⟩ := mem_language_between.mp hu
    refine ⟨by rw [List.length_append]; omega, ?_⟩
    intro c hc
    exact (List.mem_append.mp hc).elim (hu c) (mem_language_many.mp hv c)
  · rintro ⟨hlen, hw⟩
    refine ⟨w.take n, mem_language_between.mpr ⟨List.length_take_of_le hlen, ?_⟩, w.drop n,
      mem_language_many.mpr ?_, List.take_append_drop n w⟩
    · exact fun c hc => hw c (List.mem_of_mem_take hc)
    · exact fun c hc => hw c (List.mem_of_mem_drop hc)

/-- A literal looks at nothing but what it reads. -/
theorem plain_lit (cs : List Char) : Plain (lit cs) := by
  induction cs with
  | nil => trivial
  | cons c cs ih => exact ⟨trivial, ih⟩

/-- A repetition with bounds looks at nothing but what its body does. -/
theorem plain_between {r : Regex} (h : Plain r) (m n : ℕ) : Plain (between r m n) := by
  induction m with
  | zero =>
    induction n with
    | zero => trivial
    | succ n ih => exact ⟨⟨h, ih⟩, trivial⟩
  | succ m ih => exact ⟨h, ih⟩

end Regex
