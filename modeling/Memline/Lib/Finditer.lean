/-
All matches of a pattern, with the places where they stand.

After a match that reads nothing the next one, from the same place, has to read something. Where the
text behind a place alone tells whether the pattern matches there, and what it reads, the matches
are those of a scan from left to right; and a scan of two texts, one after the other, is a scan of
each, as long as no match crosses from the first into the second.
-/
import Memline.Lib.Matching

set_option autoImplicit false

namespace Regex

/-- A match: from where to where it reads, and its group. -/
structure Match where
  start : ℕ
  stop : ℕ
  group : List Char
  deriving DecidableEq

/-- The match at a place; it may have to read something. -/
def matchOn (r : Regex) (advance : Bool) (p : Place) : Option Place :=
  (run r p).find? fun q => !advance || decide (q.after.length < p.after.length)

/-- The next match; one at the very place may have to read something. -/
def searchOn (r : Regex) (advance : Bool) (before : List Char) : List Char → Option (Place × Place)
  | [] => (matchOn r advance ⟨before, [], []⟩).map fun q => (⟨before, [], []⟩, q)
  | c :: rest =>
    match matchOn r advance ⟨before, c :: rest, []⟩ with
    | some q => some (⟨before, c :: rest, []⟩, q)
    | none => searchOn r false (c :: before) rest

def matchesFrom (r : Regex) : ℕ → Bool → List Char → List Char → List Match
  | 0, _, _, _ => []
  | n + 1, advance, before, after =>
    match searchOn r advance before after with
    | none => []
    | some (p, q) =>
      ⟨p.before.length, q.before.length, q.captured⟩ ::
        matchesFrom r n (decide (q.before.length = p.before.length)) q.before q.after

/-- `r.finditer(text)`. -/
def finditer (r : Regex) (text : List Char) : List Match :=
  matchesFrom r (2 * text.length + 2) false [] text

/-- What the next match reads, the pattern reads. -/
theorem searchOn_reads {r : Regex} {advance : Bool} {before l : List Char} {e : Place × Place}
    (h : searchOn r advance before l = some e) : e.2 ∈ run r e.1 := by
  have hon : ∀ {advance : Bool} {p q : Place}, matchOn r advance p = some q → q ∈ run r p :=
    fun hq => List.mem_of_find?_eq_some hq
  induction l generalizing advance before with
  | nil =>
    obtain ⟨q, hq, rfl⟩ := Option.map_eq_some_iff.mp h
    exact hon hq
  | cons c l ih =>
    rw [searchOn] at h
    split at h
    · rename_i q hq
      obtain rfl := Option.some.inj h
      exact hon hq
    · exact ih h

/-- What is found holds what some run of the pattern has captured. -/
theorem matchesFrom_reads {r : Regex} {n : ℕ} {advance : Bool} {before l : List Char} {e : Match}
    (h : e ∈ matchesFrom r n advance before l) : ∃ p, ∃ q ∈ run r p, e.group = q.captured := by
  induction n generalizing advance before l with
  | zero => cases h
  | succ n ih =>
    rw [matchesFrom] at h
    split at h
    · cases h
    · rename_i p q hsearch
      rcases List.mem_cons.mp h with rfl | h
      · exact ⟨p, q, searchOn_reads hsearch, rfl⟩
      · exact ih h

/-! ## Readers -/

/-- What is read of a text from its start: how many characters, and the group. -/
abbrev Reader : Type := List Char → Option (ℕ × List Char)

/-- Something is read, and what is read tells that it is. -/
structure Closed (m : Reader) : Prop where
  length : ∀ {l k g}, m l = some (k, g) → 0 < k ∧ k ≤ l.length
  read : ∀ {l k g}, m l = some (k, g) → ∀ z, m (l.take k ++ z) = some (k, g)

/-- The place behind what is read. -/
def Place.behind (p : Place) (e : ℕ × List Char) : Place :=
  { p.skip (p.after.take e.1) with captured := e.2 }

/-- The pattern matches where the reader reads, and in no other way. -/
structure ReadsBy (r : Regex) (m : Reader) : Prop extends Closed m where
  sound : ∀ {p q}, q ∈ run r p → ∃ e, m p.after = some e ∧ q = p.behind e
  complete : ∀ {p e}, m p.after = some e → run r p ≠ []

/-- The matches a scan from left to right finds in a text that starts at a given position. -/
inductive Scan (m : Reader) : ℕ → List Char → List Match → Prop
  | nil (off : ℕ) : Scan m off [] []
  | skip {off : ℕ} {c : Char} {l : List Char} {ms : List Match} (hnone : m (c :: l) = none)
      (h : Scan m (off + 1) l ms) :
    Scan m off (c :: l) ms
  | found {off k : ℕ} {l g : List Char} {ms : List Match} (hsome : m l = some (k, g))
      (h : Scan m (off + k) (l.drop k) ms) :
    Scan m off l (⟨off, off + k, g⟩ :: ms)

section reader

variable {r : Regex} {m : Reader}

/-- A pattern that is read by a function matches where the function says. -/
theorem ReadsBy.matchOn (h : ReadsBy r m) (advance : Bool) (p : Place) :
    matchOn r advance p = (m p.after).map p.behind := by
  rw [Regex.matchOn]
  cases hm : m p.after with
  | none =>
    have hnil : run r p = [] := by
      apply List.eq_nil_iff_forall_not_mem.mpr
      intro q hq
      obtain ⟨e, he, -⟩ := h.sound hq
      rw [hm] at he
      cases he
    rw [hnil]
    rfl
  | some e =>
    obtain ⟨hpos, hle⟩ := h.length hm
    have hlt : (p.behind e).after.length < p.after.length := by
      simp only [Place.behind, Place.skip, List.length_drop, List.length_take]
      omega
    cases hrun : run r p with
    | nil => exact absurd hrun (h.complete hm)
    | cons q qs =>
      obtain ⟨e', he', rfl⟩ := h.sound (hrun ▸ List.mem_cons_self)
      rw [hm] at he'
      cases he'
      rw [List.find?_cons_of_pos]
      · rfl
      · simp [hlt]

/-- The next match is the first at which the reader reads. -/
theorem ReadsBy.searchOn (h : ReadsBy r m) (advance : Bool) (before l : List Char) :
    (searchOn r advance before l = none ∧ Scan m before.length l []) ∨
      ∃ s l' k g, l = s ++ l' ∧ m l' = some (k, g) ∧
        searchOn r advance before l = some (⟨s.reverse ++ before, l', []⟩,
          ⟨(s ++ l'.take k).reverse ++ before, l'.drop k, g⟩) ∧
        ∀ ms, Scan m (before.length + s.length + k) (l'.drop k) ms →
          Scan m before.length l (⟨before.length + s.length, before.length + s.length + k,
            g⟩ :: ms) := by
  have hskip : ∀ {p : Place} {k : ℕ}, p.after.drop (p.after.take k).length = p.after.drop k := by
    intro p k
    rw [List.length_take]
    by_cases hk : k ≤ p.after.length
    · rw [Nat.min_eq_left hk]
    · rw [Nat.min_eq_right (by omega), List.drop_of_length_le le_rfl,
        List.drop_of_length_le (by omega)]
  -- nothing is read here, or a match, or the search goes on one character later
  induction l generalizing advance before with
  | nil =>
    left
    have hnone : m [] = none := by
      cases hm : m [] with
      | none => rfl
      | some e =>
        obtain ⟨hpos, hle⟩ := h.length hm
        rw [List.length_nil] at hle
        omega
    rw [Regex.searchOn, h.matchOn]
    simp only [hnone]
    exact ⟨rfl, .nil _⟩
  | cons c l ih =>
    rw [Regex.searchOn, h.matchOn]
    cases hm : m (c :: l) with
    | some e =>
      refine .inr ⟨[], c :: l, e.1, e.2, rfl, hm, ?_, fun ms hms => .found hm hms⟩
      simp only [Option.map_some, Place.behind, Place.skip, List.reverse_nil, List.nil_append]
      rw [← @hskip ⟨before, c :: l, []⟩ e.1]
    | none =>
      simp only [Option.map_none]
      rcases ih false (c :: before) with ⟨hsearch, hscan⟩ | ⟨s, l', k, g, rfl, hm', hsearch, hscan⟩
      · exact .inl ⟨hsearch, .skip hm hscan⟩
      · refine .inr ⟨c :: s, l', k, g, rfl, hm', ?_, ?_⟩
        · rw [hsearch]
          simp
        · intro ms hms
          have hadd : before.length + (c :: s).length = (c :: before).length + s.length := by
            rw [List.length_cons, List.length_cons]
            omega
          rw [hadd] at hms ⊢
          exact .skip hm (hscan ms hms)

/-- All matches of such a pattern are those that scanning with the function finds. -/
theorem ReadsBy.matchesFrom (h : ReadsBy r m) {n : ℕ} (advance : Bool) (before : List Char)
    {l : List Char} (hn : l.length < n) :
    Scan m before.length l (matchesFrom r n advance before l) := by
  induction n generalizing advance before l with
  | zero => omega
  | succ n ih =>
    rw [Regex.matchesFrom]
    rcases h.searchOn advance before l with ⟨hsearch, hscan⟩ |
      ⟨s, l', k, g, rfl, hm, hsearch, hscan⟩
    · rw [hsearch]
      exact hscan
    · obtain ⟨hpos, hle⟩ := h.length hm
      rw [List.length_append] at hn
      rw [hsearch]
      dsimp only
      have hstart : (s.reverse ++ before).length = before.length + s.length := by
        rw [List.length_append, List.length_reverse]
        omega
      have hstop : ((s ++ l'.take k).reverse ++ before).length = before.length + s.length + k := by
        rw [List.length_append, List.length_reverse, List.length_append, List.length_take]
        omega
      have hrest :=
        @ih (decide (((s ++ l'.take k).reverse ++ before).length = (s.reverse ++ before).length))
        ((s ++ l'.take k).reverse ++ before) (l'.drop k) (by rw [List.length_drop]; omega)
      rw [hstop] at hrest ⊢
      rw [hstart] at hrest ⊢
      exact hscan _ hrest

/-- All matches of a pattern that is a reader are those of a scan. -/
theorem ReadsBy.scan (h : ReadsBy r m) (text : List Char) : Scan m 0 text (finditer r text) :=
  h.matchesFrom false [] (by omega)

/-! ## Scans -/

/-- What a match is, in the text that was scanned. -/
theorem Scan.mem (hm : Closed m) {off : ℕ} {l : List Char} {ms : List Match} (h : Scan m off l ms)
    {e : Match} (he : e ∈ ms) :
    ∃ s l' k, l = s ++ l' ∧ e.start = off + s.length ∧ e.stop = e.start + k ∧
      m l' = some (k, e.group) := by
  induction h with
  | nil => cases he
  | @skip off c l ms hnone h ih =>
    obtain ⟨s, l', k, rfl, hstart, hrest⟩ := ih he
    refine ⟨c :: s, l', k, rfl, ?_, hrest⟩
    rw [hstart, List.length_cons]
    omega
  | @found off k l g ms hsome h ih =>
    rcases List.mem_cons.mp he with rfl | he
    · exact ⟨[], l, k, rfl, rfl, rfl, hsome⟩
    · obtain ⟨s, l', k', hl, hstart, hrest⟩ := ih he
      have hle := (hm.length hsome).2
      refine ⟨l.take k ++ s, l', k', ?_, ?_, hrest⟩
      · rw [List.append_assoc, ← hl, List.take_append_drop]
      · rw [hstart, List.length_append, List.length_take]
        omega

/-- A scan of two texts is a scan of each when no match crosses over. -/
theorem Scan.split (hm : Closed m) {off : ℕ} {t z : List Char} {ms : List Match}
    (h : Scan m off (t ++ z) ms)
    (hcross : ∀ e ∈ ms, e.start < off + t.length → e.stop ≤ off + t.length) :
    ∃ ms₁ ms₂, ms = ms₁ ++ ms₂ ∧ Scan m off t ms₁ ∧ Scan m (off + t.length) z ms₂ := by
  generalize hl : t ++ z = l at h
  induction h generalizing t with
  | nil off =>
    obtain ⟨rfl, rfl⟩ := List.append_eq_nil_iff.mp hl
    exact ⟨[], [], rfl, .nil off, .nil _⟩
  | @skip off c l ms hnone h ih =>
    cases t with
    | nil =>
      rw [List.nil_append] at hl
      subst hl
      exact ⟨[], ms, rfl, .nil off, .skip hnone h⟩
    | cons d t =>
      rw [List.cons_append, List.cons.injEq] at hl
      obtain ⟨rfl, rfl⟩ := hl
      have hlen : off + (d :: t).length = off + 1 + t.length := by
        rw [List.length_cons]
        omega
      rw [hlen] at hcross ⊢
      obtain ⟨ms₁, ms₂, rfl, h₁, h₂⟩ := ih hcross rfl
      refine ⟨ms₁, ms₂, rfl, .skip ?_ h₁, h₂⟩
      -- a match in the first text alone would be one in both
      cases hd : m (d :: t) with
      | none => rfl
      | some e =>
        have hread := hm.read hd ((d :: t).drop e.1 ++ z)
        rw [← List.append_assoc, List.take_append_drop, List.cons_append, hnone] at hread
        cases hread
  | @found off k l g ms hsome h ih =>
    cases t with
    | nil =>
      rw [List.nil_append] at hl
      subst hl
      exact ⟨[], _, rfl, .nil off, .found hsome h⟩
    | cons d t =>
      obtain ⟨hfirst, hrest⟩ := List.forall_mem_cons.mp hcross
      have hk : k ≤ (d :: t).length := by
        have hstop := hfirst (by rw [List.length_cons]; dsimp only; omega)
        dsimp only at hstop
        omega
      subst hl
      have htake : ((d :: t) ++ z).take k = (d :: t).take k := List.take_append_of_le_length hk
      have hdrop : ((d :: t) ++ z).drop k = (d :: t).drop k ++ z := List.drop_append_of_le_length hk
      have hlen : off + (d :: t).length = off + k + ((d :: t).drop k).length := by
        rw [List.length_drop]
        omega
      rw [hlen] at hrest ⊢
      obtain ⟨ms₁, ms₂, rfl, h₁, h₂⟩ := ih hrest hdrop.symm
      have hhere := hm.read hsome ((d :: t).drop k)
      rw [htake, List.take_append_drop] at hhere
      exact ⟨_, ms₂, rfl, .found hhere h₁, h₂⟩

/-- A match that stands further on. -/
def Match.shift (d : ℕ) (e : Match) : Match := ⟨e.start + d, e.stop + d, e.group⟩

/-- The matches are found wherever the text starts. -/
theorem Scan.shift (d : ℕ) {off : ℕ} {l : List Char} {ms : List Match} (h : Scan m off l ms) :
    Scan m (off + d) l (ms.map (Match.shift d)) := by
  induction h with
  | nil off => exact .nil _
  | @skip off c l ms hnone h ih =>
    have hoff : off + 1 + d = off + d + 1 := by omega
    rw [hoff] at ih
    exact .skip hnone ih
  | @found off k l g ms hsome h ih =>
    have hoff : off + k + d = off + d + k := by omega
    rw [List.map_cons, Match.shift]
    dsimp only
    rw [hoff] at ih ⊢
    exact .found hsome ih

/-- There is one scan of a text. -/
theorem Scan.unique (hm : Closed m) {off : ℕ} {l : List Char} {ms ms' : List Match}
    (h : Scan m off l ms) (h' : Scan m off l ms') : ms = ms' := by
  induction h generalizing ms' with
  | nil off =>
    cases h' with
    | nil => rfl
    | found hsome h' =>
      have hle := hm.length hsome
      rw [List.length_nil] at hle
      omega
  | @skip off c l ms hnone h ih =>
    cases h' with
    | skip hnone' h' => exact ih h'
    | found hsome h' =>
      rw [hnone] at hsome
      cases hsome
  | @found off k l g ms hsome h ih =>
    cases h' with
    | nil =>
      have hle := hm.length hsome
      rw [List.length_nil] at hle
      omega
    | skip hnone h' =>
      rw [hnone] at hsome
      cases hsome
    | @found _ k' _ g' ms' hsome' h' =>
      rw [hsome, Option.some.injEq, Prod.mk.injEq] at hsome'
      obtain ⟨rfl, rfl⟩ := hsome'
      rw [ih h']

/-- A text of characters at none of which anything is read has no match. -/
theorem Scan.of_none {off : ℕ} {l : List Char} (h : ∀ s c t, l = s ++ c :: t → m (c :: t) = none) :
    Scan m off l [] := by
  induction l generalizing off with
  | nil => exact .nil off
  | cons c l ih => exact .skip (h [] c l rfl) (ih fun s d t hl =>
      h (c :: s) d t (by rw [hl, List.cons_append]))

/-- The first match of a scan: nothing is found before it, and the scan goes on behind it. -/
theorem Scan.first (hm : Closed m) {off : ℕ} {l : List Char} {e : Match} {ms : List Match}
    (h : Scan m off l (e :: ms)) :
    ∃ s l' k, l = s ++ l' ∧ e.start = off + s.length ∧ e.stop = e.start + k ∧
      m l' = some (k, e.group) ∧ Scan m off s [] ∧
      Scan m e.stop (l'.drop k) ms := by
  generalize hes : e :: ms = es at h
  induction h with
  | nil => cases hes
  | @skip off c l es hnone h ih =>
    obtain ⟨s, l', k, rfl, hstart, hstop, hread, hscan, hrest⟩ := ih hes
    refine ⟨c :: s, l', k, rfl, ?_, hstop, hread, .skip ?_ hscan, hrest⟩
    · rw [hstart, List.length_cons]
      omega
    · cases hd : m (c :: s) with
      | none => rfl
      | some d =>
        have hmore := hm.read hd ((c :: s).drop d.1 ++ l')
        rw [← List.append_assoc, List.take_append_drop, List.cons_append, hnone] at hmore
        cases hmore
  | @found off k l g es hsome h ih =>
    obtain ⟨rfl, rfl⟩ := List.cons.inj hes
    exact ⟨[], l, k, rfl, rfl, rfl, hsome, .nil off, h⟩

/-- What a scan finds in a text does not depend on where the text stands. -/
theorem ReadsBy.groups_of_scan (h : ReadsBy r m) {off : ℕ} {l : List Char} {ms : List Match}
    (hs : Scan m off l ms) : (finditer r l).map Match.group = ms.map Match.group := by
  have hshift := (h.scan l).shift off
  rw [Nat.zero_add] at hshift
  rw [hs.unique h.toClosed hshift, List.map_map]
  rfl

end reader

end Regex
