/-
What a pattern finds on both sides of a character that it avoids.

Such a character is in no match, and a word boundary does not tell it from the end of the text:
the text on each side of it is searched as if it were all there is.
-/
import Memline.Lib.Regex
import Memline.Lib.Rewriting

set_option autoImplicit false

namespace Regex

/-! ## Reading -/

/-- Some of what lies after one place was read on the way to the other. -/
def Place.Reads (p q : Place) : Prop :=
  ∃ s, p.after = s ++ q.after ∧ q.before = s.reverse ++ p.before

theorem Place.Reads.refl (p : Place) : p.Reads p := ⟨[], rfl, rfl⟩

/-- What is read in two stretches is read in one. -/
theorem Place.Reads.trans {p q r : Place} (h : p.Reads q) (h' : q.Reads r) : p.Reads r := by
  obtain ⟨s, hs, hb⟩ := h
  obtain ⟨t, ht, hb'⟩ := h'
  exact ⟨s ++ t, by rw [hs, ht, List.append_assoc],
    by rw [hb', hb, List.reverse_append, List.append_assoc]⟩

theorem Place.Reads.length_le {p q : Place} (h : p.Reads q) : q.after.length ≤ p.after.length := by
  obtain ⟨s, hs, -⟩ := h
  rw [hs, List.length_append]
  omega

/-- What was read is what `upTo` gives. -/
theorem Place.Reads.upTo_append {p q : Place} (h : p.Reads q) : p.upTo q ++ q.after = p.after := by
  obtain ⟨s, hs, -⟩ := h
  rw [Place.upTo, hs, List.length_append, Nat.add_sub_cancel, List.take_left]

/-- A repetition stops here, or goes on from the end of one round. -/
theorem mem_rounds {greedy : Bool} {step : Place → List Place} {n : ℕ} {p q : Place}
    (h : q ∈ rounds greedy step (n + 1) p) :
    q = p ∨ ∃ p' ∈ step p, q ∈ rounds greedy step n p' := by
  have hmore :
      q ∈ ((step p).filter fun q => q.after.length < p.after.length).flatMap
        (rounds greedy step n) →
      ∃ p' ∈ step p, q ∈ rounds greedy step n p' := by
    intro hq
    obtain ⟨p', hp', hq⟩ := List.mem_flatMap.mp hq
    exact ⟨p', List.mem_of_mem_filter hp', hq⟩
  rw [rounds] at h
  cases greedy with
  | true =>
    rcases List.mem_append.mp h with h | h
    · exact .inr (hmore h)
    · exact .inl (List.mem_singleton.mp h)
  | false =>
    rcases List.mem_cons.mp h with h | h
    · exact .inl h
    · exact .inr (hmore h)

/-- A pattern reads on from where it starts. -/
theorem run_reads {r : Regex} {p q : Place} (h : q ∈ run r p) : p.Reads q := by
  induction r generalizing p q with
  | empty => exact List.mem_singleton.mp h ▸ .refl p
  | one f =>
    rw [run] at h
    split at h
    · cases h
    · rename_i c rest hafter
      split at h
      · rw [List.mem_singleton.mp h]
        exact ⟨[c], hafter, rfl⟩
      · cases h
  | seq r s ihr ihs =>
    obtain ⟨m, hm, hq⟩ := List.mem_flatMap.mp h
    exact (ihr hm).trans (ihs hq)
  | alt r s ihr ihs =>
    rcases List.mem_append.mp h with h | h
    · exact ihr h
    · exact ihs h
  | star greedy r ih =>
    -- however many rounds, each goes on from where the last one ended
    have hrounds : ∀ n p, q ∈ rounds greedy (run r) n p → p.Reads q := by
      intro n
      induction n with
      | zero =>
        intro p hq
        exact List.mem_singleton.mp hq ▸ .refl p
      | succ n ihn =>
        intro p hq
        rcases mem_rounds hq with rfl | ⟨p', hp', hq⟩
        · exact .refl q
        · exact (ih hp').trans (ihn p' hq)
    exact hrounds _ p h
  | boundary word =>
    rw [run] at h
    split at h
    · exact List.mem_singleton.mp h ▸ .refl p
    · cases h
  | notAhead r _ =>
    rw [run] at h
    split at h
    · exact List.mem_singleton.mp h ▸ .refl p
    · cases h
  | notBehind f =>
    rw [run] at h
    split at h
    · cases h
    · exact List.mem_singleton.mp h ▸ .refl p
  | group r ih =>
    obtain ⟨m, hm, rfl⟩ := List.mem_map.mp h
    obtain ⟨s, hs, hb⟩ := ih hm
    exact ⟨s, hs, hb⟩

/-- A match reads from where it starts to where it ends. -/
theorem matchAt_reads {r : Regex} {p q : Place} (h : matchAt r p = some q) : p.Reads q :=
  run_reads (List.mem_of_mem_head? h)

/-! ## More around it -/

/-- The place in a text with more before and after it. -/
def Place.amid (x y : List Char) (p : Place) : Place := ⟨p.before ++ x, p.after ++ y, p.captured⟩

/-- The character is in no match of the pattern, and it is not one of a word. -/
def Avoids (c : Char) : Regex → Prop
  | empty => True
  | one f => f c = false
  | seq r s => Avoids c r ∧ Avoids c s
  | alt r s => Avoids c r ∧ Avoids c s
  | star _ r => Avoids c r
  | boundary word => word c = false
  | notAhead r => Avoids c r
  | notBehind f => f c = false
  | group r => Avoids c r

/-- A literal avoids a character that it does not contain. -/
theorem avoids_lit {c : Char} {cs : List Char} : Avoids c (lit cs) ↔ c ∉ cs := by
  induction cs with
  | nil => simp [lit, Avoids]
  | cons d cs ih => simp [lit, char, Avoids, ih]

/-- An alternative avoids what its branches avoid. -/
theorem avoids_oneOf {c : Char} {rs : List Regex} (h : ∀ r ∈ rs, Avoids c r) :
    Avoids c (oneOf rs) := by
  induction rs with
  | nil => rfl
  | cons r rs ih =>
    rw [List.forall_mem_cons] at h
    cases rs with
    | nil => exact h.1
    | cons r' rs => exact ⟨h.1, ih h.2⟩

/-- A repetition with bounds avoids what its body avoids. -/
theorem avoids_between {c : Char} {r : Regex} (h : Avoids c r) (m n : ℕ) :
    Avoids c (between r m n) := by
  induction m with
  | zero =>
    induction n with
    | zero => trivial
    | succ n ih => exact ⟨⟨h, ih⟩, trivial⟩
  | succ m ih => exact ⟨h, ih⟩

theorem avoids_plus {c : Char} {r : Regex} (h : Avoids c r) : Avoids c (plus r) := ⟨h, h⟩

/-- A character that the pattern avoids is not among those it reads. -/
theorem run_avoids {c : Char} {r : Regex} (hr : Avoids c r) {p q : Place} (h : q ∈ run r p) :
    ∃ s, c ∉ s ∧ p.after = s ++ q.after := by
  induction r generalizing p q with
  | one f =>
    rw [run] at h
    split at h
    · cases h
    · rename_i d rest hafter
      split at h
      · rename_i hd
        rw [List.mem_singleton.mp h]
        refine ⟨[d], fun hc => ?_, hafter⟩
        rw [← List.mem_singleton.mp hc, hr] at hd
        cases hd
      · cases h
  | seq r s ihr ihs =>
    obtain ⟨m, hm, hq⟩ := List.mem_flatMap.mp h
    obtain ⟨u, hu, hafter⟩ := ihr hr.1 hm
    obtain ⟨v, hv, hafter'⟩ := ihs hr.2 hq
    refine ⟨u ++ v, fun hc => (List.mem_append.mp hc).elim hu hv, ?_⟩
    rw [hafter, hafter', List.append_assoc]
  | alt r s ihr ihs =>
    rcases List.mem_append.mp h with h | h
    · exact ihr hr.1 h
    · exact ihs hr.2 h
  | star greedy r ih =>
    have hrounds : ∀ n p, q ∈ rounds greedy (run r) n p → ∃ s, c ∉ s ∧ p.after = s ++ q.after := by
      intro n
      induction n with
      | zero =>
        intro p hq
        exact ⟨[], List.not_mem_nil, by rw [List.mem_singleton.mp hq]; rfl⟩
      | succ n ihn =>
        intro p hq
        rcases mem_rounds hq with rfl | ⟨p', hp', hq⟩
        · exact ⟨[], List.not_mem_nil, rfl⟩
        · obtain ⟨u, hu, hafter⟩ := ih hr hp'
          obtain ⟨v, hv, hafter'⟩ := ihn p' hq
          refine ⟨u ++ v, fun hc => (List.mem_append.mp hc).elim hu hv, ?_⟩
          rw [hafter, hafter', List.append_assoc]
    exact hrounds _ p h
  | group r ih =>
    obtain ⟨m, hm, rfl⟩ := List.mem_map.mp h
    obtain ⟨s, hs, hafter⟩ := ih hr hm
    exact ⟨s, hs, hafter⟩
  -- the others read nothing
  | empty => exact ⟨[], List.not_mem_nil, by rw [List.mem_singleton.mp h]; rfl⟩
  | boundary word =>
    rw [run] at h
    split at h
    · exact ⟨[], List.not_mem_nil, by rw [List.mem_singleton.mp h]; rfl⟩
    · cases h
  | notAhead r _ =>
    rw [run] at h
    split at h
    · exact ⟨[], List.not_mem_nil, by rw [List.mem_singleton.mp h]; rfl⟩
    · cases h
  | notBehind f =>
    rw [run] at h
    split at h
    · cases h
    · exact ⟨[], List.not_mem_nil, by rw [List.mem_singleton.mp h]; rfl⟩

/-- What a group captures is what its pattern reads. -/
theorem captured_group {r : Regex} {p q : Place} (h : q ∈ run (group r) p) :
    ∃ m ∈ run r p, q.captured = p.upTo m := by
  obtain ⟨m, hm, rfl⟩ := List.mem_map.mp h
  exact ⟨m, hm, rfl⟩

/-- At the end of a text there is no more round. -/
theorem rounds_end {greedy : Bool} {step : Place → List Place} {p : Place} (hp : p.after.length = 0)
    (n : ℕ) : rounds greedy step n p = [p] := by
  cases n with
  | zero => rfl
  | succ n =>
    have hnone : ((step p).filter fun q => q.after.length < p.after.length) = [] := by
      rw [hp]
      exact List.filter_eq_nil_iff.mpr fun q _ => by simp
    cases greedy with
    | true => rw [rounds, hnone]; rfl
    | false => rw [rounds, hnone]; rfl

/-- Fuel beyond what is left to read makes no difference. -/
theorem rounds_fuel {greedy : Bool} {step : Place → List Place} {n m : ℕ} {p : Place}
    (hn : p.after.length ≤ n) (hm : p.after.length ≤ m) :
    rounds greedy step n p = rounds greedy step m p := by
  induction n generalizing m p with
  | zero =>
    have hp : p.after.length = 0 := by omega
    rw [rounds_end hp, rounds_end hp]
  | succ n ih =>
    by_cases hp : p.after.length = 0
    · rw [rounds_end hp, rounds_end hp]
    · obtain ⟨m, rfl⟩ : ∃ k, m = k + 1 := ⟨m - 1, by omega⟩
      have hmore :
          ((step p).filter fun q => q.after.length < p.after.length).flatMap (rounds greedy step n)
          = ((step p).filter fun q => q.after.length < p.after.length).flatMap
            (rounds greedy step m) := by
        refine List.flatMap_congr fun q hq => ?_
        have hlt := of_decide_eq_true (List.mem_filter.mp hq).2
        exact ih (by omega) (by omega)
      rw [rounds, rounds, hmore]

/-- What is read between two places is read there still. -/
theorem amid_upTo (x y : List Char) {p q : Place} (h : p.Reads q) :
    (p.amid x y).upTo (q.amid x y) = p.upTo q := by
  obtain ⟨s, hs, -⟩ := h
  simp only [Place.upTo, Place.amid, hs, List.length_append]
  have hlen : s.length + q.after.length + y.length - (q.after.length + y.length) = s.length := by
    omega
  rw [hlen, Nat.add_sub_cancel, List.append_assoc, List.take_left, List.take_left]

/-- At the end of a list there is a character that is not of the kind. -/
theorem head_amid (f : Char → Bool) (a z : List Char) (hz : ∀ c ∈ z.head?, f c = false) :
    (((a ++ z).head?.map f).getD false) = ((a.head?.map f).getD false) := by
  cases a with
  | nil =>
    cases z with
    | nil => rfl
    | cons c z => simp [hz c rfl]
  | cons c a => rfl

/-- What lies beyond an avoided character, on either side, makes no difference. -/
theorem run_amid {r : Regex} {x y : List Char} (hx : ∀ c ∈ x.head?, Avoids c r)
    (hy : ∀ c ∈ y.head?, Avoids c r) (p : Place) :
    run r (p.amid x y) = (run r p).map (Place.amid x y) := by
  -- only what looks past an end of the text can tell that there is more of it: a character,
  -- a boundary, a look behind
  induction r generalizing p with
  | empty => rfl
  | one f =>
    obtain ⟨before, after, captured⟩ := p
    cases after with
    | nil =>
      cases y with
      | nil => rfl
      | cons c y =>
        have hc : f c = false := hy c rfl
        simp [Place.amid, run, hc]
    | cons c rest =>
      by_cases hc : f c = true
      · simp [Place.amid, run, hc]
      · simp [Place.amid, run, hc]
  | seq r s ihr ihs =>
    have hr := ihr (fun c hc => (hx c hc).1) (fun c hc => (hy c hc).1) p
    have hs := ihs (fun c hc => (hx c hc).2) fun c hc => (hy c hc).2
    rw [run, run, hr, List.flatMap_map, List.map_flatMap]
    exact List.flatMap_congr fun q _ => hs q
  | alt r s ihr ihs =>
    have hr := ihr (fun c hc => (hx c hc).1) (fun c hc => (hy c hc).1) p
    have hs := ihs (fun c hc => (hx c hc).2) (fun c hc => (hy c hc).2) p
    rw [run, run, hr, hs, List.map_append]
  | star greedy r ih =>
    have hrounds : ∀ n p, rounds greedy (run r) n (p.amid x y) =
        (rounds greedy (run r) n p).map (Place.amid x y) := by
      intro n
      induction n with
      | zero =>
        intro p
        rfl
      | succ n ihn =>
        intro p
        have hmore :
            ((run r (p.amid x y)).filter fun q => q.after.length <
            (p.amid x y).after.length).flatMap
            (rounds greedy (run r) n) =
              (((run r p).filter fun q => q.after.length < p.after.length).flatMap
              (rounds greedy (run r) n)).map (Place.amid x y) := by
          rw [ih hx hy p, List.filter_map, List.flatMap_map, List.map_flatMap]
          have hshorter : ((fun q : Place => decide (q.after.length < (p.amid x y).after.length)) ∘
              Place.amid x y)
              = fun q => decide (q.after.length < p.after.length) := by
            funext q
            simp [Place.amid]
          rw [hshorter]
          exact List.flatMap_congr fun q _ => ihn q
        rw [rounds, rounds, hmore]
        cases greedy with
        | true => simp
        | false => simp
    -- the longer text allows more rounds, but each of them takes something, so none is
    -- added
    rw [run, run, hrounds, rounds_fuel (n := (p.amid x y).after.length) (m := p.after.length)]
    · simp [Place.amid]
    · exact le_rfl
  | boundary word =>
    have hbefore := head_amid word p.before x fun c hc => hx c hc
    have hafter := head_amid word p.after y fun c hc => hy c hc
    simp only [run, Place.amid, hbefore, hafter]
    split
    · rfl
    · rfl
  | notAhead r ih =>
    rw [run, run, ih (fun c hc => hx c hc) (fun c hc => hy c hc) p, List.isEmpty_map]
    split
    · rfl
    · rfl
  | notBehind f =>
    have hbefore := head_amid f p.before x fun c hc => hx c hc
    simp only [run, Place.amid, hbefore]
    split
    · rfl
    · rfl
  | group r ih =>
    rw [run, run, ih (fun c hc => hx c hc) (fun c hc => hy c hc) p, List.map_map, List.map_map]
    refine List.map_congr_left fun q hq => ?_
    simp only [Function.comp_apply, amid_upTo x y (run_reads hq)]
    rfl

/-- Text beyond a character that the pattern avoids changes no match. -/
theorem matchAt_amid {r : Regex} {x y : List Char} (hx : ∀ c ∈ x.head?, Avoids c r)
    (hy : ∀ c ∈ y.head?, Avoids c r) (p : Place) :
    matchAt r (p.amid x y) = (matchAt r p).map (Place.amid x y) := by
  rw [matchAt, matchAt, run_amid hx hy, List.head?_map]

/-! ## Going through a text -/

/-- A piece as a finder has it. -/
def Piece.cut : Piece → Char ⊕ List Char
  | .plain c => .inl c
  | .found t _ => .inr t

/-- The pieces of what lies behind one character or one match. -/
theorem pieces_cons (r : Regex) (n : ℕ) (before : List Char) (c : Char) (rest : List Char) :
    (∃ q, matchAt r ⟨before, c :: rest, []⟩ = some q ∧ q.after.length ≤ rest.length ∧
      pieces r (n + 1) before (c :: rest)
        = .found (Place.upTo ⟨before, c :: rest, []⟩ q) q.captured :: pieces r n q.before q.after) ∨
    (∀ q, matchAt r ⟨before, c :: rest, []⟩ = some q → ¬ q.after.length ≤ rest.length) ∧
      pieces r (n + 1) before (c :: rest) = .plain c :: pieces r n (c :: before) rest := by
  rw [pieces]
  cases hmatch : matchAt r ⟨before, c :: rest, []⟩ with
  | none => exact .inr ⟨nofun, rfl⟩
  | some q =>
    by_cases hq : q.after.length < rest.length + 1
    · exact .inl ⟨q, rfl, Nat.le_of_lt_succ hq, by simp only [hq, if_true]⟩
    · refine .inr ⟨fun q' hq' => ?_, by simp only [hq, if_false]⟩
      cases hq'
      omega

/-- The pieces of a text, put together, are the text. -/
theorem text_pieces (r : Regex) {n : ℕ} (before : List Char) {t : List Char} (h : t.length ≤ n) :
    Rewriting.text ((pieces r n before t).map Piece.cut) = t := by
  induction n generalizing before t with
  | zero =>
    rw [List.eq_nil_of_length_eq_zero (Nat.le_zero.mp h)]
    rfl
  | succ n ih =>
    cases t with
    | nil => rfl
    | cons c rest =>
      rw [List.length_cons] at h
      rcases pieces_cons r n before c rest with ⟨q, hq, hlen, hpieces⟩ | ⟨-, hpieces⟩
      · rw [hpieces, List.map_cons, Piece.cut, Rewriting.text, ih q.before (by omega)]
        exact (matchAt_reads hq).upTo_append
      · rw [hpieces, List.map_cons, Piece.cut, Rewriting.text, ih (c :: before) (by omega)]

/-- A pattern finds what it matches. -/
def finder (r : Regex) : Rewriting.Finder Char where
  cut t := (cut r t).map Piece.cut
  text_cut _ := text_pieces r [] le_rfl

/-- The next piece is the same with more before and after the text. -/
theorem pieces_cons_amid {r : Regex} {x y : List Char} (hx : ∀ c ∈ x.head?, Avoids c r)
    (hy : ∀ c ∈ y.head?, Avoids c r) (before : List Char) (d : Char) (rest : List Char) :
    ∃ u b a, a.length ≤ rest.length ∧ ∀ n m,
      pieces r (m + 1) before (d :: rest) = u :: pieces r m b a ∧
        pieces r (n + 1) (before ++ x) (d :: (rest ++ y)) = u :: pieces r n (b ++ x) (a ++ y) := by
  -- the text about it changes no match, only where it lies
  have hamid := matchAt_amid hx hy ⟨before, d :: rest, []⟩
  change matchAt r ⟨before ++ x, d :: (rest ++ y), []⟩ = _ at hamid
  by_cases hmatch : ∃ q, matchAt r ⟨before, d :: rest, []⟩ = some q ∧ q.after.length ≤ rest.length
  · obtain ⟨q, hq, hlen⟩ := hmatch
    rw [hq, Option.map_some] at hamid
    have hlen' : (q.amid x y).after.length ≤ (rest ++ y).length := by
      simp only [Place.amid, List.length_append]
      omega
    refine ⟨.found (Place.upTo ⟨before, d :: rest, []⟩ q) q.captured, q.before, q.after, hlen,
      fun n m => ⟨?_, ?_⟩⟩
    · rcases pieces_cons r m before d rest with ⟨q', hq', -, hpieces⟩ | ⟨hno, -⟩
      · rw [hq, Option.some.injEq] at hq'
        rw [hpieces, hq']
      · exact absurd hlen (hno q hq)
    · rcases pieces_cons r n (before ++ x) d (rest ++ y) with ⟨q', hq', -, hpieces⟩ | ⟨hno, -⟩
      · rw [hamid, Option.some.injEq] at hq'
        rw [hpieces, ← hq', ← amid_upTo x y (matchAt_reads hq)]
        rfl
      · exact absurd hlen' (hno _ hamid)
  · refine ⟨.plain d, d :: before, rest, le_rfl, fun n m => ⟨?_, ?_⟩⟩
    · rcases pieces_cons r m before d rest with ⟨q, hq, hlen, -⟩ | ⟨-, hpieces⟩
      · exact absurd ⟨q, hq, hlen⟩ hmatch
      · exact hpieces
    · rcases pieces_cons r n (before ++ x) d (rest ++ y) with ⟨q', hq', hlen', -⟩ | ⟨-, hpieces⟩
      · rw [hamid, Option.map_eq_some_iff] at hq'
        obtain ⟨q, hq, rfl⟩ := hq'
        simp only [Place.amid, List.length_append] at hlen'
        exact absurd ⟨q, hq, by omega⟩ hmatch
      · exact hpieces

/-- What lies before an avoided character makes no difference to the text behind it. -/
theorem pieces_behind {r : Regex} {x : List Char} (hx : ∀ c ∈ x.head?, Avoids c r) {n m : ℕ}
    {before t : List Char} (hn : t.length ≤ n) (hm : t.length ≤ m) :
    pieces r n (before ++ x) t = pieces r m before t := by
  induction n generalizing m before t with
  | zero =>
    rw [List.eq_nil_of_length_eq_zero (Nat.le_zero.mp hn)]
    cases m with
    | zero => rfl
    | succ m => rfl
  | succ n ih =>
    cases t with
    | nil =>
      cases m with
      | zero => rfl
      | succ m => rfl
    | cons d rest =>
      rw [List.length_cons] at hn hm
      obtain ⟨m, rfl⟩ : ∃ k, m = k + 1 := ⟨m - 1, by omega⟩
      obtain ⟨u, b, a, hlen, hcons⟩ := pieces_cons_amid (y := []) hx (by simp) before d rest
      obtain ⟨hfirst, hsecond⟩ := hcons n m
      rw [List.append_nil, List.append_nil] at hsecond
      rw [hfirst, hsecond, @ih m b a (by omega) (by omega)]

/-- A pattern sees nothing beyond a character that it avoids. -/
theorem pieces_amid {r : Regex} {y : List Char} {c : Char} (hc : Avoids c r) {n m k : ℕ}
    {before t : List Char} (hn : (t ++ c :: y).length ≤ n) (hm : t.length ≤ m) (hk : y.length ≤ k) :
    pieces r n before (t ++ c :: y) = pieces r m before t ++ .plain c :: pieces r k [] y := by
  have hy : ∀ d ∈ (c :: y).head?, Avoids d r := fun d hd => Option.some.inj hd ▸ hc
  -- no match reads the character, so the scan stops there and starts afresh behind it
  induction n generalizing m before t with
  | zero =>
    rw [List.length_append, List.length_cons] at hn
    omega
  | succ n ih =>
    rw [List.length_append, List.length_cons] at hn
    cases t with
    | nil =>
      have hnil : pieces r m before [] = [] := by
        cases m with
        | zero => rfl
        | succ m => rfl
      rw [hnil, List.nil_append, List.nil_append]
      rcases pieces_cons r n before c y with ⟨q, hq, hlen, -⟩ | ⟨-, hpieces⟩
      · -- a match that starts here reads nothing
        have hamid := matchAt_amid (x := []) (by simp) hy ⟨before, [], []⟩
        rw [Place.amid, List.append_nil, List.nil_append, hq, eq_comm,
          Option.map_eq_some_iff] at hamid
        obtain ⟨q', -, rfl⟩ := hamid
        simp only [Place.amid, List.length_append, List.length_cons] at hlen
        omega
      · have hbehind := @pieces_behind r (c :: before) hy n k [] y (by omega) hk
        rw [List.nil_append] at hbehind
        rw [hpieces, hbehind]
    | cons d rest =>
      rw [List.length_cons] at hn hm
      obtain ⟨m, rfl⟩ : ∃ k, m = k + 1 := ⟨m - 1, by omega⟩
      obtain ⟨u, b, a, hlen, hcons⟩ := pieces_cons_amid (x := []) (by simp) hy before d rest
      obtain ⟨hfirst, hsecond⟩ := hcons n m
      rw [List.append_nil, List.append_nil] at hsecond
      have hlen' : (a ++ c :: y).length ≤ n := by
        rw [List.length_append, List.length_cons]
        omega
      rw [List.cons_append, hfirst, hsecond, @ih m b a hlen' (by omega), List.cons_append]

/-- So it stops there. -/
theorem finder_stopsAt {r : Regex} {c : Char} (hc : Avoids c r) : r.finder.StopsAt c := by
  intro a b
  change (pieces r _ [] _).map Piece.cut = (pieces r _ [] _).map Piece.cut ++ .inl c ::
    (pieces r _ [] _).map Piece.cut
  rw [@pieces_amid r b c hc _ a.length b.length [] a le_rfl le_rfl le_rfl, List.map_append]
  rfl

end Regex
