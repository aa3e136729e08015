/-
Writing JSON.

A style says how characters are escaped and where white space goes; whatever the style, the text
that is written says the value (`spells_write`), so that reading it gives the value back. The three
ways in which the language writes values are styles: with sorted keys and no white space, indented,
and in ASCII on one line.
-/
import Memline.Lib.JsonText
import Memline.Lib.Lists
import Mathlib.Data.List.TakeWhile
import Mathlib.Tactic.IntervalCases

set_option autoImplicit false

namespace Py.JsonText

open Json

variable {L : Language} {D : Decoder} {p : Printer}

/-! ## Tokens -/

theorem token_names {w : List Char} {v : Json} (h : (w, v) ∈ names) : Token L w v := by
  simp only [names, List.mem_cons, Prod.mk.injEq, List.not_mem_nil, or_false] at h
  rcases h with ⟨rfl, rfl⟩ | ⟨rfl, rfl⟩ | ⟨rfl, rfl⟩ | ⟨rfl, rfl⟩ | ⟨rfl, rfl⟩ | ⟨rfl, rfl⟩ <;>
    exact ⟨rfl, by decide, by decide, Nat.zero_le _⟩

/-- A positive number does not begin with a zero. -/
theorem toDigits_head {n : ℕ} (h : 0 < n) : ∃ c r, Nat.toDigits 10 n = c :: r ∧ c ≠ '0' := by
  induction n using Nat.strong_induction_on with
  | _ n ih =>
    rw [Nat.toDigits_eq_if (by decide)]
    by_cases hlt : n < 10
    · rw [if_pos hlt]
      refine ⟨_, _, rfl, ?_⟩
      interval_cases n <;> decide
    · rw [if_neg hlt]
      obtain ⟨c, r, hdigits, hc⟩ := ih (n / 10) (by omega) (by omega)
      exact ⟨c, r ++ [(n % 10).digitChar], by rw [hdigits, List.cons_append], hc⟩

theorem isDigit_toDigits {n : ℕ} {c : Char} (h : c ∈ Nat.toDigits 10 n) : c.isDigit = true :=
  Nat.isDigit_of_mem_toDigits (by decide) (by decide) h

/-- The digits of a number are all there is to it. -/
theorem munch_digits_nat (negative : Bool) (n : ℕ) :
    munch_digits negative (Nat.toDigits 10 n) = some ⟨negative, Nat.toDigits 10 n, false, []⟩ := by
  by_cases hn : n = 0
  · subst hn
    rfl
  · obtain ⟨c, r, hdigits, hc⟩ := toDigits_head (Nat.pos_of_ne_zero hn)
    have htake : (Nat.toDigits 10 n).takeWhile Char.isDigit = Nat.toDigits 10 n :=
      List.takeWhile_eq_self_iff.mpr fun d hd => isDigit_toDigits hd
    have hdrop : (Nat.toDigits 10 n).dropWhile Char.isDigit = [] :=
      List.dropWhile_eq_nil_iff.mpr fun d hd => isDigit_toDigits hd
    rw [hdigits] at htake hdrop ⊢
    unfold munch_digits
    split
    · rename_i heq
      exact absurd (List.cons.inj heq).1 hc
    · rw [htake, hdrop, if_neg (List.cons_ne_nil c r)]
      rfl

/-- What is written with digits and signs is no name. -/
theorem lookup_names {w : List Char} (h : ∀ c ∈ w, c.isDigit = true ∨ c = '-') :
    names.lookup w = none := by
  rw [List.lookup_eq_none_iff]
  intro e he
  have hletter : ∃ c ∈ e.1, c.isDigit = false ∧ c ≠ '-' := by
    simp only [names, List.mem_cons, List.not_mem_nil, or_false] at he
    rcases he with rfl | rfl | rfl | rfl | rfl | rfl <;> decide
  obtain ⟨c, hc, hdigit, hsign⟩ := hletter
  have hne : w ≠ e.1 := by
    rintro rfl
    rcases h c hc with hyes | rfl
    · rw [hyes] at hdigit
      cases hdigit
    · exact hsign rfl
  simpa using hne

theorem bare_of_digit {c : Char} (h : c.isDigit = true) : is_bare c = true := by
  simp [is_bare, Char.isAlphanum, h]

/-- The text of a number that the language converts has no more digits than it allows. -/
theorem countP_toDigits_le {k limit : ℕ} (hlimit : 0 < limit) (h : k < 10 ^ limit) :
    (Nat.toDigits 10 k).countP Char.isDigit ≤ limit :=
  List.countP_le_length.trans ((Nat.length_toDigits_le_iff (by decide) hlimit).mpr h)

/-- An integer the language can write is read as itself. -/
theorem token_int {n : ℤ} (h : n.natAbs < 10 ^ L.max_digits) :
    Token L (toString n).toList (.int n) := by
  have hread : ∀ (negative : Bool) (k : ℕ) (w : List Char), k < 10 ^ L.max_digits →
      (∀ c ∈ w, c.isDigit = true ∨ c = '-') → munch w = munch_digits negative (Nat.toDigits 10 k) →
      read_bare L w = .ok (.int (if negative then -k else k)) := by
    intro negative k w hk hchars hmunch
    have hlength : ¬ L.max_digits < (Nat.toDigits 10 k).length :=
      Nat.not_lt.mpr ((Nat.length_toDigits_le_iff (by decide) L.some_digits).mpr hk)
    rw [read_bare, lookup_names hchars, hmunch, munch_digits_nat]
    simp [hlength, int_of, Nat.ofDigitChars_ten_toDigits]
  -- the digits, with a sign in front of a negative number
  cases n with
  | ofNat k =>
    have htext : (toString (Int.ofNat k)).toList = Nat.toDigits 10 k := toList_toString_nat k
    have hmunch : munch (Nat.toDigits 10 k) = munch_digits false (Nat.toDigits 10 k) := by
      unfold munch
      split
      · rename_i w heq
        have hsign : '-' ∈ Nat.toDigits 10 k := heq ▸ List.mem_cons_self
        exact absurd (isDigit_toDigits hsign) (by decide)
      · rfl
    rw [htext]
    exact ⟨hread false k _ h (fun c hc => .inl (isDigit_toDigits hc)) hmunch,
      fun c hc => bare_of_digit (isDigit_toDigits hc), Nat.toDigits_ne_nil,
      countP_toDigits_le L.some_digits h⟩
  | negSucc k =>
    have htext : (toString (Int.negSucc k)).toList = '-' :: Nat.toDigits 10 (k + 1) := by
      change ("-" ++ toString (k + 1)).toList = _
      rw [String.toList_append, toList_toString_nat]
      rfl
    rw [htext]
    refine ⟨hread true (k + 1) _ h ?_ rfl, ?_, List.cons_ne_nil _ _, ?_⟩
    · exact List.forall_mem_cons.mpr ⟨.inr rfl, fun c hc => .inl (isDigit_toDigits hc)⟩
    · exact List.forall_mem_cons.mpr ⟨by decide, fun c hc => bare_of_digit (isDigit_toDigits hc)⟩
    · rw [List.countP_cons_of_neg (by decide)]
      exact countP_toDigits_le L.some_digits h

variable (L) in
mutual

/-- No integer of the value has more digits than the language converts. -/
def short_ints : Json → Bool
  | .int n => decide (n.natAbs < 10 ^ L.max_digits)
  | .list xs => short_intsList xs
  | .obj fields => short_intsFields fields
  | _ => true

def short_intsList : List Json → Bool
  | [] => true
  | x :: xs => short_ints x && short_intsList xs

def short_intsFields : List (String × Json) → Bool
  | [] => true
  | (_, x) :: fields => short_ints x && short_intsFields fields

end

variable (L p) in
mutual

/-- Every float of the value has a text that is read as that float. -/
def FloatsRead : Json → Prop
  | .float x => Token L (float_text p x).toList (.float x)
  | .list xs => FloatsReadList xs
  | .obj fields => FloatsReadFields fields
  | _ => True

def FloatsReadList : List Json → Prop
  | [] => True
  | x :: xs => FloatsRead x ∧ FloatsReadList xs

def FloatsReadFields : List (String × Json) → Prop
  | [] => True
  | (_, x) :: fields => FloatsRead x ∧ FloatsReadFields fields

end

/-! ## Escapes -/

/-- What is allowed where control characters are refused is allowed where they are not. -/
theorem Letter.weaken {u : List Char} {c : Char} (h : Letter true u c) (strict : Bool) :
    Letter strict u c := by
  cases h with
  | plain hquote hbackslash hstrict => exact .plain hquote hbackslash fun _ => hstrict rfl
  | simple h => exact .simple h
  | hex h => exact .hex h
  | pair hv hw hhigh hlow => exact .pair hv hw hhigh hlow

/-- An escaped text spells the text, character by character. -/
theorem spelled_flatMap {escape : Char → List Char} (hletter : ∀ c, Letter true (escape c) c)
    (strict : Bool) :
    ∀ s : List Char, Spelled strict (s.flatMap escape) s
  | [] => .nil
  | c :: s => .cons ((hletter c).weaken strict) (spelled_flatMap hletter strict s)

def hex_char (n : ℕ) : Char := if n < 10 then Char.ofNat (48 + n) else Char.ofNat (87 + n)

/-- A hexadecimal digit is worth what it was printed for. -/
theorem hex_value_hex_char {n : ℕ} (h : n < 16) : hex_value (hex_char n) = some n := by
  interval_cases n <;> rfl

/-- Four hexadecimal digits. -/
def hex4 (n : ℕ) : List Char :=
  [hex_char (n / 4096), hex_char (n / 256 % 16), hex_char (n / 16 % 16), hex_char (n % 16)]

theorem hex4_spells {n : ℕ} (h : n < 0x10000) : Hex4 (hex4 n) n := by
  refine ⟨_, _, _, _, n / 4096, n / 256 % 16, n / 16 % 16, n % 16, rfl,
    hex_value_hex_char (by omega), hex_value_hex_char (by omega), hex_value_hex_char (by omega),
    hex_value_hex_char (by omega), by omega⟩

/-- The letter of an escape that has one. -/
def short_escape : Char → Option Char
  | '"' => some '"'
  | '\\' => some '\\'
  | '\n' => some 'n'
  | '\r' => some 'r'
  | '\t' => some 't'
  | c => if c.toNat = 8 then some 'b' else if c.toNat = 12 then some 'f' else none

/-- A character of a string in ASCII: what cannot be printed is given by number, and what is beyond
sixteen bits in two halves. -/
def ascii_escape (c : Char) : List Char :=
  match short_escape c with
  | some d => ['\\', d]
  | none =>
    if 32 ≤ c.toNat ∧ c.toNat < 127 then [c]
    else if c.toNat < 0x10000 then '\\' :: 'u' :: hex4 c.toNat
    else
      let n := c.toNat - 0x10000
      '\\' :: 'u' :: hex4 (0xD800 + n / 0x400) ++ '\\' :: 'u' :: hex4 (0xDC00 + n % 0x400)

/-- A short escape is read as the character it was written for. -/
theorem simple_short_escape {c d : Char} (h : short_escape c = some d) : simple d = some c := by
  unfold short_escape at h
  split at h
  iterate 5
    · cases h
      rfl
  · split at h
    · rename_i h8
      cases h
      rw [simple, ← h8, Char.ofNat_toNat]
    · split at h
      · rename_i h12
        cases h
        rw [simple, ← h12, Char.ofNat_toNat]
      · cases h

/-- The code of a character is within the range of Unicode. -/
theorem toNat_lt (c : Char) : c.toNat < 0x110000 := by
  have hvalid : c.toNat < 0xD800 ∨ 0xDFFF < c.toNat ∧ c.toNat < 0x110000 := by
    simpa [UInt32.isValidChar, Nat.isValidChar] using c.valid
  omega

/-- Every character is read of its ASCII escape, beyond the basic plane of a pair. -/
theorem ascii_escape_letter (c : Char) : Letter true (ascii_escape c) c := by
  unfold ascii_escape
  split
  · rename_i d h
    exact .simple (simple_short_escape h)
  · rename_i h
    split
    · rename_i hprint
      refine .plain ?_ ?_ fun _ => hprint.1
      · rintro rfl
        cases h
      · rintro rfl
        cases h
    · split
      · exact .hex (hex4_spells ‹_›)
      · rename_i hbig
        have hmax := toNat_lt c
        have hjoined :
            joined (0xD800 + (c.toNat - 0x10000) / 0x400) (0xDC00 + (c.toNat - 0x10000) % 0x400) =
            c := by
          have hsum : 0x10000 + (0xD800 + (c.toNat - 0x10000) / 0x400 - 0xD800) * 0x400 +
              (0xDC00 + (c.toNat - 0x10000) % 0x400 - 0xDC00) = c.toNat := by omega
          rw [joined, hsum, Char.ofNat_toNat]
        have hpair := @Letter.pair true _ _ _ _
          (hex4_spells (n := 0xD800 + (c.toNat - 0x10000) / 0x400) (by omega))
          (hex4_spells (n := 0xDC00 + (c.toNat - 0x10000) % 0x400) (by omega))
          (by simp only [is_high, decide_eq_true_eq]; omega) (by
            simp only [is_low, decide_eq_true_eq]; omega)
        rwa [hjoined] at hpair

/-- The escapes of a text that is not confined to ASCII. -/
theorem escape_letter (c : Char) : Letter true (escape c).toList c := by
  have hnumber : ∀ {n : ℕ} {d : Char}, c.toNat = n → simple d = some (Char.ofNat n) →
      Letter true ['\\', d] c := by
    intro n d hn hd
    refine .simple ?_
    rw [hd, ← hn, Char.ofNat_toNat]
  unfold escape
  split
  iterate 7
    · exact hnumber ‹_› rfl
  · rename_i hquote hbackslash _ _ _ _ _
    split
    · rename_i hcontrol
      have htext : ("\\u00" ++ hex (c.toNat / 16) ++ hex (c.toNat % 16)).toList =
          '\\' :: 'u' :: hex4 c.toNat := by
        have hhigh : c.toNat / 4096 = 0 := by omega
        have hnext : c.toNat / 256 % 16 = 0 := by omega
        have hthird : c.toNat / 16 % 16 = c.toNat / 16 := by omega
        simp [hex, hex4, hex_char, hhigh, hnext, hthird]
      rw [htext]
      exact .hex (hex4_spells (by omega))
    · rename_i hprint
      rw [String.toList_singleton]
      refine .plain ?_ ?_ fun _ => by omega
      · rintro rfl
        exact hquote rfl
      · rintro rfl
        exact hbackslash rfl

/-! ## Styles -/

/-- How values are written: the escapes, the white space after an opening bracket, after a comma and
before a closing bracket at some level of nesting, and the white space after a colon. -/
structure Style where
  escape : Char → List Char
  opening : ℕ → List Char
  comma : ℕ → List Char
  closing : ℕ → List Char
  colon : List Char
  letter : ∀ c, Letter true (escape c) c
  blank_opening : ∀ n, Blank (opening n)
  blank_comma : ∀ n, Blank (comma n)
  blank_closing : ∀ n, Blank (closing n)
  blank_colon : Blank colon

theorem blank_nil : Blank [] := nofun

theorem blank_space : Blank [' '] := by simp [Blank, is_space]

/-- A new line and an indentation. -/
def indented (width level : ℕ) : List Char := '\n' :: List.replicate (width * level) ' '

theorem blank_indented (width level : ℕ) : Blank (indented width level) := by
  intro c hc
  rcases List.mem_cons.mp hc with rfl | hc
  · decide
  · rw [List.eq_of_mem_replicate hc]
    decide

/-- `ensure_ascii=False, separators=(",", ":")`. -/
def Style.compact : Style where
  escape c := (Json.escape c).toList
  opening _ := []
  comma _ := []
  closing _ := []
  colon := []
  letter := escape_letter
  blank_opening _ := blank_nil
  blank_comma _ := blank_nil
  blank_closing _ := blank_nil
  blank_colon := blank_nil

/-- `ensure_ascii=False, indent=width`. -/
def Style.indent (width : ℕ) : Style where
  escape c := (Json.escape c).toList
  opening level := indented width (level + 1)
  comma level := indented width (level + 1)
  closing level := indented width level
  colon := [' ']
  letter := escape_letter
  blank_opening level := blank_indented width (level + 1)
  blank_comma level := blank_indented width (level + 1)
  blank_closing level := blank_indented width level
  blank_colon := blank_space

/-- The default: on one line, and in ASCII. -/
def Style.line : Style where
  escape := ascii_escape
  opening _ := []
  comma _ := [' ']
  closing _ := []
  colon := [' ']
  letter := ascii_escape_letter
  blank_opening _ := blank_nil
  blank_comma _ := blank_space
  blank_closing _ := blank_nil
  blank_colon := blank_space

section writing

variable (st : Style) (p : Printer)

def quote (s : String) : List Char := '"' :: (s.toList.flatMap st.escape ++ ['"'])

mutual

/-- `json.dumps(x, …)`, at a level of nesting. -/
def write (level : ℕ) : Json → List Char
  | .null => "null".toList
  | .bool b => (if b then "true" else "false").toList
  | .int n => (toString n).toList
  | .float x => (float_text p x).toList
  | .str s => quote st s
  | .list [] => ['[', ']']
  | .list (x :: xs) => '[' :: (st.opening level ++ (write (level + 1) x ++ writeItems level xs))
  | .obj [] => ['\x7b', '\x7d']
  | .obj ((key, x) :: fields) =>
    '\x7b' :: (st.opening level ++
      (quote st key ++ ':' :: (st.colon ++ (write (level + 1) x ++ writeFields level fields))))

def writeItems (level : ℕ) : List Json → List Char
  | [] => st.closing level ++ [']']
  | x :: xs => ',' :: (st.comma level ++ (write (level + 1) x ++ writeItems level xs))

def writeFields (level : ℕ) : List (String × Json) → List Char
  | [] => st.closing level ++ ['\x7d']
  | (key, x) :: fields =>
    ',' :: (st.comma level ++
      (quote st key ++ ':' :: (st.colon ++ (write (level + 1) x ++ writeFields level fields))))

end

variable {st p}

mutual

/-- What is written says the value. -/
theorem spells_write (x : Json) (hints : short_ints D.toLanguage x = true)
    (h : FloatsRead D.toLanguage p x) (level : ℕ) : Spells D x (write st p level x) := by
  -- along the value; the style decides on nothing but the space between the parts
  match x with
  | .null =>
    unfold Spells write
    exact token_names (by simp [names])
  | .bool b =>
    unfold Spells write
    cases b <;> exact token_names (by simp [names])
  | .int n =>
    unfold Spells write
    unfold short_ints at hints
    exact token_int (of_decide_eq_true hints)
  | .float q =>
    unfold Spells write
    unfold FloatsRead at h
    exact h
  | .str s =>
    unfold Spells write
    exact ⟨_, spelled_flatMap st.letter D.strict s.toList, rfl⟩
  | .list [] =>
    unfold Spells write
    exact ⟨[], blank_nil, rfl⟩
  | .list (x :: xs) =>
    rw [short_ints, short_intsList, Bool.and_eq_true] at hints
    rw [FloatsRead, FloatsReadList] at h
    obtain ⟨b, rest, hb, hrest, htext⟩ := spells_writeItems xs hints.2 h.2 level
    unfold Spells write
    refine ⟨st.opening level, write st p (level + 1) x, b, rest, st.blank_opening level,
      spells_write x hints.1 h.1 (level + 1), hb, hrest, ?_⟩
    rw [htext]
  | .obj [] =>
    unfold Spells write
    exact ⟨[], blank_nil, rfl⟩
  | .obj ((key, x) :: fields) =>
    rw [short_ints, short_intsFields, Bool.and_eq_true] at hints
    rw [FloatsRead, FloatsReadFields] at h
    obtain ⟨b, rest, hb, hrest, htext⟩ := spells_writeFields fields hints.2 h.2 level
    unfold Spells write
    refine ⟨st.opening level, key.toList.flatMap st.escape, [], st.colon,
      write st p (level + 1) x, b, rest, st.blank_opening level,
      spelled_flatMap st.letter D.strict key.toList, blank_nil, st.blank_colon,
      spells_write x hints.1 h.1 (level + 1), hb, hrest, ?_⟩
    rw [htext, quote, List.nil_append]

/-- The items of a list that is written are spelled, behind the blanks of the style. -/
theorem spells_writeItems (xs : List Json) (hints : short_intsList D.toLanguage xs = true)
    (h : FloatsReadList D.toLanguage p xs) (level : ℕ) :
    ∃ b rest, Blank b ∧ SpellsItems D xs rest ∧ writeItems st p level xs = b ++ rest := by
  match xs with
  | [] =>
    unfold SpellsItems writeItems
    exact ⟨st.closing level, _, st.blank_closing level, rfl, rfl⟩
  | x :: xs =>
    rw [short_intsList, Bool.and_eq_true] at hints
    rw [FloatsReadList] at h
    obtain ⟨b, rest, hb, hrest, htext⟩ := spells_writeItems xs hints.2 h.2 level
    unfold SpellsItems writeItems
    refine ⟨[], _, blank_nil,
      ⟨st.comma level, write st p (level + 1) x, b, rest, st.blank_comma level,
        spells_write x hints.1 h.1 (level + 1), hb, hrest, rfl⟩, ?_⟩
    rw [htext, List.nil_append]

/-- The fields of an object that is written are spelled, behind the blanks of the style. -/
theorem spells_writeFields (fields : List (String × Json))
    (hints : short_intsFields D.toLanguage fields = true)
    (h : FloatsReadFields D.toLanguage p fields) (level : ℕ) :
    ∃ b rest, Blank b ∧ SpellsFields D fields rest ∧ writeFields st p level fields = b ++ rest := by
  match fields with
  | [] =>
    unfold SpellsFields writeFields
    exact ⟨st.closing level, _, st.blank_closing level, rfl, rfl⟩
  | (key, x) :: fields =>
    rw [short_intsFields, Bool.and_eq_true] at hints
    rw [FloatsReadFields] at h
    obtain ⟨b, rest, hb, hrest, htext⟩ := spells_writeFields fields hints.2 h.2 level
    unfold SpellsFields writeFields
    refine ⟨[], _, blank_nil, ⟨st.comma level, key.toList.flatMap st.escape, [], st.colon,
      write st p (level + 1) x, b, rest, st.blank_comma level,
      spelled_flatMap st.letter D.strict key.toList,
      blank_nil, st.blank_colon, spells_write x hints.1 h.1 (level + 1), hb, hrest, rfl⟩, ?_⟩
    rw [htext, quote, List.nil_append, List.nil_append]

end

/-! ### Characters -/

/-- The characters a style uses, beside the brackets and the quotes. -/
structure Style.Confined (st : Style) (P : Char → Prop) : Prop where
  escape : ∀ c, ∀ d ∈ st.escape c, P d
  opening : ∀ n, ∀ d ∈ st.opening n, P d
  comma : ∀ n, ∀ d ∈ st.comma n, P d
  closing : ∀ n, ∀ d ∈ st.closing n, P d
  colon : ∀ d ∈ st.colon, P d
  bare : ∀ d, is_bare d = true → P d
  mark : ∀ d ∈ ['"', '[', ']', '\x7b', '\x7d', ',', ':'], P d

section confined

variable {P : Char → Prop} (hst : st.Confined P)

include hst

/-- The characters of a quoted text are those the style confines itself to. -/
theorem quote_confined (s : String) : ∀ d ∈ quote st s, P d := by
  intro d hd
  simp only [quote, List.mem_cons, List.mem_append, List.mem_flatMap, List.not_mem_nil,
    or_false] at hd
  rcases hd with rfl | ⟨c, -, hd⟩ | rfl
  · exact hst.mark _ (by simp)
  · exact hst.escape c d hd
  · exact hst.mark _ (by simp)

mutual

/-- Nothing else is written, if the numbers are. -/
theorem write_confined (x : Json) (hints : short_ints L x = true) (h : FloatsRead L p x)
    (level : ℕ) : ∀ d ∈ write st p level x, P d := by
  intro d hd
  have hmark : ∀ d ∈ ['"', '[', ']', '\x7b', '\x7d', ',', ':'], P d := hst.mark
  -- along the value, with the marks between its parts
  match x with
  | .null =>
    unfold write at hd
    exact hst.bare d ((token_names (L := L) (v := .null) (by simp [names])).bare d hd)
  | .bool b =>
    unfold write at hd
    cases b
    · exact hst.bare d ((token_names (L := L) (v := .bool false) (by simp [names])).bare d hd)
    · exact hst.bare d ((token_names (L := L) (v := .bool true) (by simp [names])).bare d hd)
  | .int n =>
    unfold write at hd
    unfold short_ints at hints
    exact hst.bare d ((token_int (of_decide_eq_true hints)).bare d hd)
  | .float q =>
    unfold write at hd
    unfold FloatsRead at h
    exact hst.bare d (h.bare d hd)
  | .str s =>
    unfold write at hd
    exact quote_confined hst s d hd
  | .list [] =>
    unfold write at hd
    exact hmark d (by simp only [List.mem_cons] at hd ⊢; tauto)
  | .list (x :: xs) =>
    rw [short_ints, short_intsList, Bool.and_eq_true] at hints
    rw [FloatsRead, FloatsReadList] at h
    unfold write at hd
    simp only [List.mem_cons, List.mem_append] at hd
    rcases hd with rfl | hd | hd | hd
    · exact hmark _ (by simp)
    · exact hst.opening _ d hd
    · exact write_confined x hints.1 h.1 _ d hd
    · exact writeItems_confined xs hints.2 h.2 level d hd
  | .obj [] =>
    unfold write at hd
    exact hmark d (by simp only [List.mem_cons] at hd ⊢; tauto)
  | .obj ((key, x) :: fields) =>
    rw [short_ints, short_intsFields, Bool.and_eq_true] at hints
    rw [FloatsRead, FloatsReadFields] at h
    unfold write at hd
    simp only [List.mem_cons, List.mem_append] at hd
    rcases hd with rfl | hd | hd | rfl | hd | hd | hd
    · exact hmark _ (by simp)
    · exact hst.opening _ d hd
    · exact quote_confined hst key d hd
    · exact hmark _ (by simp)
    · exact hst.colon d hd
    · exact write_confined x hints.1 h.1 _ d hd
    · exact writeFields_confined fields hints.2 h.2 level d hd

theorem writeItems_confined (xs : List Json) (hints : short_intsList L xs = true)
    (h : FloatsReadList L p xs) (level : ℕ) : ∀ d ∈ writeItems st p level xs, P d := by
  intro d hd
  match xs with
  | [] =>
    unfold writeItems at hd
    rcases List.mem_append.mp hd with hd | hd
    · exact hst.closing _ d hd
    · exact hst.mark d (by simp only [List.mem_cons] at hd ⊢; tauto)
  | x :: xs =>
    rw [short_intsList, Bool.and_eq_true] at hints
    rw [FloatsReadList] at h
    unfold writeItems at hd
    simp only [List.mem_cons, List.mem_append] at hd
    rcases hd with rfl | hd | hd | hd
    · exact hst.mark _ (by simp)
    · exact hst.comma _ d hd
    · exact write_confined x hints.1 h.1 _ d hd
    · exact writeItems_confined xs hints.2 h.2 level d hd

theorem writeFields_confined (fields : List (String × Json))
    (hints : short_intsFields L fields = true) (h : FloatsReadFields L p fields) (level : ℕ) :
    ∀ d ∈ writeFields st p level fields, P d := by
  intro d hd
  match fields with
  | [] =>
    unfold writeFields at hd
    rcases List.mem_append.mp hd with hd | hd
    · exact hst.closing _ d hd
    · exact hst.mark d (by simp only [List.mem_cons] at hd ⊢; tauto)
  | (key, x) :: fields =>
    rw [short_intsFields, Bool.and_eq_true] at hints
    rw [FloatsReadFields] at h
    unfold writeFields at hd
    simp only [List.mem_cons, List.mem_append] at hd
    rcases hd with rfl | hd | hd | rfl | hd | hd | hd
    · exact hst.mark _ (by simp)
    · exact hst.comma _ d hd
    · exact quote_confined hst key d hd
    · exact hst.mark _ (by simp)
    · exact hst.colon d hd
    · exact write_confined x hints.1 h.1 _ d hd
    · exact writeFields_confined fields hints.2 h.2 level d hd

end

end confined

end writing

/-- A character that prints. -/
def Prints (c : Char) : Prop := 32 ≤ c.toNat ∧ c.toNat < 127

instance (c : Char) : Decidable (Prints c) := inferInstanceAs (Decidable (_ ∧ _))

theorem hex_char_prints {n : ℕ} (h : n < 16) : Prints (hex_char n) := by
  interval_cases n <;> decide

theorem hex4_prints {n : ℕ} (h : n < 0x10000) : ∀ d ∈ hex4 n, Prints d := by
  intro d hd
  simp only [hex4, List.mem_cons, List.not_mem_nil, or_false] at hd
  rcases hd with rfl | rfl | rfl | rfl
  · exact hex_char_prints (by omega)
  · exact hex_char_prints (by omega)
  · exact hex_char_prints (by omega)
  · exact hex_char_prints (by omega)

theorem short_escape_prints {c d : Char} (h : short_escape c = some d) : Prints d := by
  unfold short_escape at h
  split at h
  iterate 5
    · cases h
      decide
  · split at h
    · cases h
      decide
    · split at h
      · cases h
        decide
      · cases h

theorem ascii_escape_prints (c : Char) : ∀ d ∈ ascii_escape c, Prints d := by
  intro d hd
  have hbackslash : Prints '\\' := by decide
  have hletter : Prints 'u' := by decide
  have hmax : c.toNat < 0x110000 := toNat_lt c
  unfold ascii_escape at hd
  split at hd
  · simp only [List.mem_cons, List.not_mem_nil, or_false] at hd
    rcases hd with rfl | rfl
    · exact hbackslash
    · exact short_escape_prints ‹_›
  · split at hd
    · rw [List.mem_singleton.mp hd]
      assumption
    · split at hd
      · simp only [List.mem_cons] at hd
        rcases hd with rfl | rfl | hd
        · exact hbackslash
        · exact hletter
        · exact hex4_prints ‹_› d hd
      · simp only [List.mem_cons, List.mem_append, List.cons_append] at hd
        rcases hd with rfl | rfl | hd | rfl | rfl | hd
        · exact hbackslash
        · exact hletter
        · exact hex4_prints (by omega) d hd
        · exact hbackslash
        · exact hletter
        · exact hex4_prints (by omega) d hd

theorem bare_prints {d : Char} (h : is_bare d = true) : Prints d := by
  have hnat : 48 ≤ d.toNat ∧ d.toNat ≤ 57 ∨
      (65 ≤ d.toNat ∧ d.toNat ≤ 90 ∨ 97 ≤ d.toNat ∧ d.toNat ≤ 122) ∨
      d = '+' ∨ d = '-' ∨ d = '.' := by
    simp only [is_bare, Char.isAlphanum, Bool.or_eq_true, beq_iff_eq, isAlpha_iff, isDigit_iff] at h
    tauto
  rcases hnat with hdigit | halpha | rfl | rfl | rfl
  · exact ⟨by omega, by omega⟩
  · exact ⟨by omega, by omega⟩
  all_goals decide

/-- On one line, and in ASCII. -/
theorem line_confined : Style.line.Confined Prints where
  escape := ascii_escape_prints
  opening := by simp [Style.line]
  comma := by simp [Style.line, Prints]
  closing := by simp [Style.line]
  colon := by simp [Style.line, Prints]
  bare _ := bare_prints
  mark := by simp [Prints]

/-! ## Writing and reading -/

/-- `json.dumps`: it has the limits of the reader. -/
def json_dumps (L : Language) (st : Style) (p : Printer) (x : Json) : Except Fault (List Char) :=
  if L.max_depth < depth x then .error .depth
  else if short_ints L x then .ok (write st p 0 x)
  else .error .digits

/-- `json.loads`. -/
def json_loads (L : Language) (strict : Bool) (t : List Char) : Except Fault Json :=
  loads ⟨L, strict⟩ t

/-- What is written has been checked for its depth and its numbers. -/
theorem json_dumps_ok {st : Style} {x : Json} {t : List Char} (h : json_dumps L st p x = .ok t) :
    depth x ≤ L.max_depth ∧ short_ints L x = true ∧ t = write st p 0 x := by
  unfold json_dumps at h
  split at h
  · cases h
  · split at h
    · cases h
      exact ⟨by omega, ‹_›, rfl⟩
    · cases h

/-- What was written is read as it was. -/
theorem loads_dumps {st : Style} {x : Json} {t : List Char} (h : json_dumps L st p x = .ok t)
    (hfloats : FloatsRead L p x) (hx : Distinct x) (strict : Bool) :
    json_loads L strict t = .ok x := by
  obtain ⟨hdepth, hints, rfl⟩ := json_dumps_ok h
  exact loads_spelled (D := ⟨L, strict⟩) (spells_write x hints hfloats 0) hx hdepth

/-- What was written of a container is no text before it is whole. -/
theorem loads_torn {st : Style} {x : Json} {t u : List Char} (h : json_dumps L st p x = .ok t)
    (hfloats : FloatsRead L p x) (hx : Distinct x) (hbare : bare_value x = false) (hu : u <+: t)
    (hne : u ≠ t) (strict : Bool) : json_loads L strict u = .error .decode := by
  obtain ⟨hdepth, hints, rfl⟩ := json_dumps_ok h
  exact loads_unfinished (D := ⟨L, strict⟩) (spells_write x hints hfloats 0) hx hdepth hbare hu hne

end Py.JsonText
