/-
Texts in which words of a code stand for parts of an original.

A substitution that puts a word of the code in the place of what it finds leaves a text
that still spells the original, provided that it finds nothing in the words that are there
already. Replacing the words one by one by what they stand for gives the original back, in
whatever order that is done: a word is read where its first character is, and nowhere else.
-/
import Memline.Lib.Lists
import Memline.Lib.Matching

set_option autoImplicit false

namespace Rewriting

variable {α β σ : Type}

/-! ## Coded texts -/

/-- The first text spells the second: words of the code stand in it, between characters at
which nothing stops. -/
inductive Coded (stop : α → Prop) (code : List α → List α → Prop) : List α → List α → Prop
  | plain {t : List α} (ht : ∀ c ∈ t, ¬ stop c) : Coded stop code t t
  | word {g w v t o : List α} (hg : ∀ c ∈ g, ¬ stop c) (hw : code w v) (h : Coded stop code t o) :
      Coded stop code (g ++ w ++ t) (g ++ v ++ o)

/-- The finder finds nothing in the word, and cuts what lies around it by itself. -/
def Finder.Skips (f : Finder α) (w : List α) : Prop :=
  ∀ a b, f.cut (a ++ w ++ b) = f.cut a ++ w.map .inl ++ f.cut b

/-- A word in brackets in which nothing is found is skipped. -/
theorem Finder.StopsAt.skips {f : Finder α} {o e : α} {x : List α} (ho : f.StopsAt o)
    (he : f.StopsAt e) (hx : f.cut x = x.map .inl) : f.Skips (o :: x ++ [e]) := by
  intro a b
  have hopen := ho a (x ++ e :: b)
  have hclose := he x b
  simp only [List.append_assoc, List.cons_append, List.nil_append, List.map_cons, List.map_append,
    List.map_nil] at hopen hclose ⊢
  rw [hopen, hclose, hx]

/-- Filling a cut without findings changes nothing. -/
@[simp] theorem fill_map_inl (put : σ → List α → σ × List α) (s : σ) (t : List α) :
    fill put s (t.map .inl) = (s, t) := by
  induction t with
  | nil => rfl
  | cons c t ih => rw [List.map_cons, fill, ih]

theorem fill_append_state (put : σ → List α → σ × List α) (s : σ) (ps qs : Cut α) :
    (fill put s (ps ++ qs)).1 = (fill put (fill put s ps).1 qs).1 := by
  induction ps generalizing s with
  | nil => rfl
  | cons p ps ih =>
    cases p with
    | inl c => exact ih s
    | inr t => exact ih (put s t).1

namespace Coded

variable {stop : α → Prop} {code code' : List α → List α → Prop} {t o : List α}

/-- A weaker requirement on what stands for a word is met as well. -/
theorem mono (hcode : ∀ w v, code w v → code' w v) (h : Coded stop code t o) :
    Coded stop code' t o := by
  induction h with
  | plain ht => exact .plain ht
  | word hg hw _ ih => exact .word hg (hcode _ _ hw) ih

/-- A character in front. -/
theorem cons {c : α} (hc : ¬ stop c) (h : Coded stop code t o) :
    Coded stop code (c :: t) (c :: o) := by
  cases h with
  | plain ht => exact .plain (List.forall_mem_cons.mpr ⟨hc, ht⟩)
  | @word g _ _ _ _ hg hw h => exact .word (g := c :: g) (List.forall_mem_cons.mpr ⟨hc, hg⟩) hw h

/-- Characters in front. -/
theorem append_left {g : List α} (hg : ∀ c ∈ g, ¬ stop c) (h : Coded stop code t o) :
    Coded stop code (g ++ t) (g ++ o) := by
  induction g with
  | nil => exact h
  | cons c g ih =>
    rw [List.forall_mem_cons] at hg
    exact (ih hg.2).cons hg.1

/-- A coded text behind another. -/
theorem append {t' o' : List α} (h : Coded stop code t o) (h' : Coded stop code t' o') :
    Coded stop code (t ++ t') (o ++ o') := by
  induction h with
  | plain ht => exact h'.append_left ht
  | word hg hw _ ih =>
    have hword := Coded.word hg hw ih
    simp only [List.append_assoc] at hword ⊢
    exact hword

/-- Where no word is left, it is the original. -/
theorem eq_of_empty (h : Coded stop code t o) (hcode : ∀ w v, ¬ code w v) : t = o := by
  cases h with
  | plain => rfl
  | word _ hw _ => exact absurd hw (hcode _ _)

end Coded

/-! ## Substitutions that code -/

/-- Whatever is put in the place of a stretch at which nothing stops becomes a word that stands
for the stretch. No word is forgotten, and the state keeps its invariant. -/
structure Codes (stop : α → Prop) (inv : σ → Prop) (code : σ → List α → List α → Prop)
    (put : σ → List α → σ × List α) : Prop where
  grow : ∀ s u w v, code s w v → code (put s u).1 w v
  inv : ∀ s u, (∀ c ∈ u, ¬ stop c) → inv s → inv (put s u).1
  word : ∀ s u, code (put s u).1 (put s u).2 u

section coding

variable {stop : α → Prop} {inv : σ → Prop} {code : σ → List α → List α → Prop}
  {put : σ → List α → σ × List α}

/-- Filling a cut forgets no name that was given. -/
theorem Codes.grows (h : Codes stop inv code put) (s : σ) (ps : Cut α) {w v : List α}
    (hw : code s w v) : code (fill put s ps).1 w v := by
  induction ps generalizing s with
  | nil => exact hw
  | cons p ps ih =>
    cases p with
    | inl c => exact ih s hw
    | inr t => exact ih (put s t).1 (h.grow s t w v hw)

/-- What is filled in stands for what was found. -/
theorem Codes.fill (h : Codes stop inv code put) {s : σ} (hs : inv s) {ps : Cut α}
    (hps : ∀ c ∈ text ps, ¬ stop c) :
    inv (Rewriting.fill put s ps).1 ∧
      Coded stop (code (Rewriting.fill put s ps).1) (Rewriting.fill put s ps).2 (text ps) := by
  induction ps generalizing s with
  | nil => exact ⟨hs, .plain hps⟩
  | cons p ps ih =>
    cases p with
    | inl c =>
      rw [text, List.forall_mem_cons] at hps
      obtain ⟨hinv, hcoded⟩ := ih hs hps.2
      exact ⟨hinv, hcoded.cons hps.1⟩
    | inr u =>
      rw [text, List.forall_mem_append] at hps
      obtain ⟨hinv, hcoded⟩ := ih (h.inv s u hps.1 hs) hps.2
      have hword : code (Rewriting.fill put s (.inr u :: ps)).1 (put s u).2 u :=
        h.grows _ ps (h.word s u)
      exact ⟨hinv, .word (g := []) (by simp) hword hcoded⟩

/-- **One substitution.** A coded text stays one, when the words in it are skipped. -/
theorem Coded.fill (hput : Codes stop inv code put) {f : Finder α} {words : List α → List α → Prop}
    {t o : List α} (h : Coded stop words t o) (hskip : ∀ w v, words w v → f.Skips w) {s : σ}
    (hs : inv s) (hwords : ∀ w v, words w v → code s w v) :
    inv (Rewriting.fill put s (f.cut t)).1 ∧
      Coded stop (code (Rewriting.fill put s (f.cut t)).1)
        (Rewriting.fill put s (f.cut t)).2 o := by
  induction h generalizing s with
  | @plain t ht =>
    have hfill := hput.fill hs (show ∀ c ∈ text (f.cut t), ¬ stop c by rwa [f.text_cut])
    rwa [f.text_cut] at hfill
  | @word g w v t o hg hw _ ih =>
    obtain ⟨hinv, hfront⟩ := hput.fill hs (show ∀ c ∈ text (f.cut g), ¬ stop c by rwa [f.text_cut])
    rw [f.text_cut] at hfront
    obtain ⟨hinv', hback⟩ := ih hinv fun w v hwv => hput.grows s _ (hwords w v hwv)
    have hkeep : ∀ w v, code (Rewriting.fill put s (f.cut g)).1 w v →
        code (Rewriting.fill put (Rewriting.fill put s (f.cut g)).1 (f.cut t)).1 w v :=
      fun w v hwv => hput.grows _ _ hwv
    rw [hskip w v hw, fill_append, fill_append, fill_append_state, fill_append_state, fill_map_inl,
      List.append_assoc]
    have hstays := hkeep w v (hput.grows s (f.cut g) (hwords w v hw))
    rw [List.append_assoc]
    exact ⟨hinv', (hfront.mono hkeep).append (.word (g := []) (by simp) hstays hback)⟩

/-- No word is forgotten in a run. -/
theorem run_grows {ks : List (Step σ α)} (hput : ∀ k ∈ ks, Codes stop inv code k.put) (s : σ)
    (t : List α) {w v : List α} (h : code s w v) : code (run ks s t).1 w v := by
  induction ks generalizing s t with
  | nil => exact h
  | cons k ks ih =>
    rw [List.forall_mem_cons] at hput
    exact ih hput.2 _ _ (hput.1.grows s _ h)

/-- **One substitution after the other.** The finders are to skip what is a word at some time
and in the end. -/
theorem Coded.run {ks : List (Step σ α)} (hput : ∀ k ∈ ks, Codes stop inv code k.put)
    {last : List α → List α → Prop}
    (hskip : ∀ k ∈ ks, ∀ s w v, inv s → code s w v → last w v → k.finder.Skips w) {s : σ}
    {t o : List α} (h : Coded stop (code s) t o) (hs : inv s)
    (hlast : ∀ w v, code (Rewriting.run ks s t).1 w v → last w v) :
    inv (Rewriting.run ks s t).1 ∧
      Coded stop (code (Rewriting.run ks s t).1) (Rewriting.run ks s t).2 o := by
  induction ks generalizing s t with
  | nil => exact ⟨hs, h⟩
  | cons k ks ih =>
    rw [List.forall_mem_cons] at hput hskip
    have hend : ∀ w v, code s w v → last w v := fun w v hwv =>
      hlast w v (run_grows hput.2 _ _ (hput.1.grows s _ hwv))
    obtain ⟨hinv, hcoded⟩ :=
      h.fill hput.1 (fun w v hwv => hskip.1 s w v hs hwv (hend w v hwv)) hs fun _ _ h => h
    exact ih hput.2 hskip.2 hcoded hinv hlast

end coding

end Rewriting

/-! ## Where a pattern finds nothing -/

namespace Regex

open Rewriting

/-- Nothing is found where no match begins. -/
theorem cut_of_no_match {r : Regex} {t : List Char}
    (h : ∀ before after, after <:+ t → matchAt r ⟨before, after, []⟩ = none) :
    r.finder.cut t = t.map .inl := by
  have hpieces : ∀ (u before : List Char), u <:+ t →
      (pieces r u.length before u).map Piece.cut = u.map .inl := by
    intro u
    induction u with
    | nil => exact fun _ _ => rfl
    | cons c u ih =>
      intro before hu
      rw [List.length_cons, pieces, h before (c :: u) hu]
      exact congrArg _ (ih (c :: before) ((List.suffix_cons c u).trans hu))
  exact hpieces t [] List.suffix_rfl

/-- Every match reads the character. -/
def Needs (c : Char) : Regex → Prop
  | one f => ∀ d, f d = true → d = c
  | seq r s => Needs c r ∨ Needs c s
  | alt r s => Needs c r ∧ Needs c s
  | group r => Needs c r
  | _ => False

/-- A pattern that needs a character is matched only where the character follows. -/
theorem Needs.mem {c : Char} {r : Regex} (hr : Needs c r) {p q : Place} (hq : q ∈ run r p) :
    c ∈ p.after := by
  induction r generalizing p q with
  | one f =>
    rw [run] at hq
    split at hq
    · cases hq
    · rename_i d rest hafter
      split at hq
      · rename_i hd
        rw [hafter, hr d hd]
        exact List.mem_cons_self
      · cases hq
  | seq r s ihr ihs =>
    obtain ⟨m, hm, hq⟩ := List.mem_flatMap.mp hq
    rcases hr with hr | hs
    · exact ihr hr hm
    · obtain ⟨u, hu, -⟩ := run_reads hm
      rw [hu]
      exact List.mem_append_right _ (ihs hs hq)
  | alt r s ihr ihs =>
    rcases List.mem_append.mp hq with hq | hq
    · exact ihr hr.1 hq
    · exact ihs hr.2 hq
  | group r ih =>
    obtain ⟨m, hm, -⟩ := List.mem_map.mp hq
    exact ih hr hm
  | _ => exact hr.elim

theorem needs_char (c : Char) : Needs c (char c) := fun _ hd => eq_of_beq hd

theorem needs_lit {c : Char} {cs : List Char} (h : c ∈ cs) : Needs c (lit cs) := by
  induction cs with
  | nil => cases h
  | cons d cs ih =>
    rcases List.mem_cons.mp h with rfl | h
    · exact .inl (needs_char _)
    · exact .inr (ih h)

/-- Nothing is found where the character is not. -/
theorem Needs.cut {c : Char} {r : Regex} (hr : Needs c r) {t : List Char} (hc : c ∉ t) :
    r.finder.cut t = t.map .inl := by
  refine cut_of_no_match fun before after hafter => ?_
  rw [matchAt, List.head?_eq_none_iff, List.eq_nil_iff_forall_not_mem]
  exact fun q hq => hc (hafter.subset (hr.mem hq))

/-! ## Replacing a word -/


/-- A literal is matched where it stands in front. -/
theorem matchAt_lit (cs : List Char) (p : Place) :
    matchAt (lit cs) p = if cs <+: p.after then some (p.skip cs) else none := by
  unfold matchAt
  rw [run_lit]
  split
  · rfl
  · rfl

/-- The pieces of a literal: it is found where it stands, and else a character is passed over. -/
theorem pieces_lit_cons (cs : List Char) (n : ℕ) (before : List Char) (c : Char)
    (rest : List Char) :
    pieces (lit cs) (n + 1) before (c :: rest) =
      if cs ≠ [] ∧ cs <+: c :: rest then
        .found cs [] :: pieces (lit cs) n (cs.reverse ++ before) ((c :: rest).drop cs.length)
      else .plain c :: pieces (lit cs) n (c :: before) rest := by
  rw [pieces, matchAt_lit]
  by_cases hstart : cs <+: c :: rest
  · have hlen := hstart.length_le
    rw [List.length_cons] at hlen
    simp only [hstart, if_true, and_true, Place.skip, List.length_drop, List.length_cons]
    by_cases hcs : cs = []
    · subst hcs
      rw [if_neg (by simp), if_neg (by simp)]
    · have hpos := List.length_pos_iff.mpr hcs
      rw [if_pos (by omega), if_pos hcs]
      congr 2
      rw [Place.upTo, List.length_drop, List.length_cons]
      rw [show rest.length + 1 - (rest.length + 1 - cs.length) = cs.length by omega]
      exact (List.prefix_iff_eq_take.mp hstart).symm
  · simp only [hstart, if_false, and_false]

/-- What lies before does not matter to a literal. -/
theorem pieces_lit {cs : List Char} {n m : ℕ} {before before' t : List Char} (hn : t.length ≤ n)
    (hm : t.length ≤ m) : pieces (lit cs) n before t = pieces (lit cs) m before' t := by
  induction n generalizing m before before' t with
  | zero =>
    rw [List.eq_nil_of_length_eq_zero (Nat.le_zero.mp hn)]
    cases m with
    | zero => rfl
    | succ m => rfl
  | succ n ih =>
    cases t with
    | nil =>
      cases m with
      | zero => rfl
      | succ m => rfl
    | cons c rest =>
      rw [List.length_cons] at hn hm
      obtain ⟨m, rfl⟩ : ∃ k, m = k + 1 := ⟨m - 1, by omega⟩
      rw [pieces_lit_cons, pieces_lit_cons]
      split
      · rename_i hstart
        have hpos := List.length_pos_iff.mpr hstart.1
        have hlen : ((c :: rest).drop cs.length).length ≤ rest.length := by
          rw [List.length_drop, List.length_cons]
          omega
        exact congrArg _ (ih (by omega) (by omega))
      · exact congrArg _ (ih (by omega) (by omega))

/-- A character at which the literal does not stand. -/
theorem cut_lit_cons {cs t : List Char} {c : Char} (h : ¬ cs <+: c :: t) :
    (lit cs).finder.cut (c :: t) = .inl c :: (lit cs).finder.cut t := by
  change (pieces (lit cs) (t.length + 1) [] (c :: t)).map Piece.cut = _
  rw [pieces_lit_cons, if_neg fun hstart => h hstart.2]
  rw [@pieces_lit cs t.length t.length [c] [] t le_rfl le_rfl]
  rfl

/-- The literal itself. -/
theorem cut_lit_append {cs : List Char} (h : cs ≠ []) (t : List Char) :
    (lit cs).finder.cut (cs ++ t) = .inr cs :: (lit cs).finder.cut t := by
  obtain ⟨c, rest, rfl⟩ := List.exists_cons_of_ne_nil h
  change (pieces _ ((rest ++ t).length + 1) [] (c :: (rest ++ t))).map Piece.cut = _
  rw [pieces_lit_cons, if_pos ⟨h, t, rfl⟩]
  have hdrop : (c :: (rest ++ t)).drop (c :: rest).length = t := List.drop_left
  have hlen : t.length ≤ (rest ++ t).length := by
    rw [List.length_append]
    omega
  rw [hdrop, @pieces_lit (c :: rest) _ t.length _ [] t hlen le_rfl]
  rfl

/-- A stretch without its first character is passed over. -/
theorem cut_lit_pass {c : Char} {cs g : List Char} (hg : c ∉ g) (t : List Char) :
    (lit (c :: cs)).finder.cut (g ++ t) = g.map .inl ++ (lit (c :: cs)).finder.cut t := by
  induction g with
  | nil => rfl
  | cons d g ih =>
    rw [List.mem_cons, not_or] at hg
    rw [List.cons_append, cut_lit_cons, ih hg.2, List.map_cons, List.cons_append]
    exact fun h => hg.1 (List.cons_prefix_cons.mp h).1

end Regex

namespace Rewriting

/-- A word in brackets, without brackets inside. -/
def Bracketed (o e : Char) (w : List Char) : Prop := ∃ x, w = o :: x ++ [e] ∧ o ∉ x ∧ e ∉ x ∧ o ≠ e

/-- Such a word stands at the beginning of a text that begins with another one only if it is
the same. -/
theorem Bracketed.eq_of_start {o e : Char} {w w' t : List Char} (hw : Bracketed o e w)
    (hw' : Bracketed o e w') (h : w' <+: w ++ t) : w' = w := by
  obtain ⟨x, rfl, -, hx, -⟩ := hw
  obtain ⟨x', rfl, -, hx', -⟩ := hw'
  obtain ⟨rest, hrest⟩ := h
  have hinner : x' ++ e :: rest = x ++ e :: t := by simpa using hrest
  rw [(Lists.append_sep_inj hx' hx hinner).1]

/-- **One word replaced.** What is left spells the original with the other words. -/
theorem Coded.replace {o e : Char} {stop : Char → Prop} {code : List Char → List Char → Prop}
    {t original : List Char} (h : Coded stop code t original) (hopen : stop o) {w v : List Char}
    (hw : Bracketed o e w) (hcode : ∀ w v, code w v → Bracketed o e w)
    (hv : ∀ v', code w v' → v' = v) (hplain : ∀ c ∈ v, ¬ stop c) :
    Coded stop (fun w' v' => code w' v' ∧ w' ≠ w)
      (Rewriting.fill (fun (_ : Unit) _ => ((), v)) () ((Regex.lit w).finder.cut t)).2
        original := by
  obtain ⟨x, rfl, hx, -, hne⟩ := id hw
  -- a stretch without the opening mark is passed over as it stands
  have hpass : ∀ {g : List Char}, o ∉ g → ∀ t, (Regex.lit (o :: x ++ [e])).finder.cut (g ++ t)
      = g.map .inl ++ (Regex.lit (o :: x ++ [e])).finder.cut t :=
    fun hg t => Regex.cut_lit_pass hg t
  induction h with
  | @plain t ht =>
    have hall := hpass (fun hmem => ht o hmem hopen) []
    have hnil : (Regex.lit (o :: x ++ [e])).finder.cut [] = [] := rfl
    rw [List.append_nil, hnil, List.append_nil] at hall
    rw [hall, fill_map_inl]
    exact .plain ht
  | @word g w' v' t original hg hw' _ ih =>
    rw [List.append_assoc, hpass fun hmem => hg o hmem hopen, fill_append, fill_map_inl]
    -- the word that is replaced, or another one, which begins differently
    by_cases hsame : w' = o :: x ++ [e]
    · subst hsame
      rw [Regex.cut_lit_append (by simp), Rewriting.fill, hv v' hw', List.append_assoc]
      exact (ih.append_left hplain).append_left hg
    · have hnot : ¬ o :: x ++ [e] <+: w' ++ t :=
        fun hstart => hsame ((hcode _ _ hw').eq_of_start hw hstart).symm
      obtain ⟨x', rfl, hx', -, -⟩ := hcode _ _ hw'
      have hkeep : (Regex.lit (o :: x ++ [e])).finder.cut (o :: x' ++ [e] ++ t)
          = (o :: x' ++ [e]).map .inl ++ (Regex.lit (o :: x ++ [e])).finder.cut t := by
        have hfirst : (Regex.lit (o :: x ++ [e])).finder.cut (o :: (x' ++ [e] ++ t)) = _ :=
          Regex.cut_lit_cons hnot
        have hbehind := @hpass (x' ++ [e]) (by simp [hx', hne]) t
        rw [hbehind] at hfirst
        exact hfirst
      rw [hkeep, fill_append, fill_map_inl, ← List.append_assoc]
      exact .word hg ⟨hw', hsame⟩ ih

end Rewriting
