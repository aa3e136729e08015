/-
JSON text, read character by character.

The decoder is a machine: what it has read so far is a stack of open arrays and objects and what it
is in the middle of. A text is a value if the machine comes to its end with nothing open. Three
things can go wrong, and they are different exceptions: the text is none, an integer has more digits
than the language converts, or the nesting is deeper than it allows.

A number ends where the next character cannot belong to it, so that the machine has read a value
either when it says so or with the last of its characters pending: `Holds` is both. `Reads` says
where the machine is after some text, and that it had read no whole value before: it composes, and
read for a whole object it says that no beginning of an object's text is a text.
-/
import Memline.Lib.Json

set_option autoImplicit false

namespace Py.JsonText

open Json

/-! ## The machine -/

inductive Fault where
  | decode
  | digits
  | depth
  deriving DecidableEq

/-- What the language adds to the format: the float of a text, what half of a surrogate pair
becomes, and the limits. -/
structure Language where
  float_of : List Char → Double
  lone : ℕ → Char
  max_digits : ℕ
  max_depth : ℕ
  some_digits : 0 < max_digits

/-- A language for texts without floats. -/
def Language.plain : Language where
  float_of _ := .nan
  lone _ := Char.ofNat 0xFFFD
  max_digits := 100
  max_depth := 1000
  some_digits := by decide

/-- A decoder may refuse control characters in strings. -/
structure Decoder extends Language where
  strict : Bool

/-- An open container: the items of an array so far, an object that waits for a key, or one that
waits for the value of a key. -/
inductive Frame where
  | items (xs : List Json)
  | object (d : Dict)
  | field (d : Dict) (key : String)

/-- Where in an escape a string is; the first half of a surrogate pair may be pending. -/
inductive Escape where
  | none
  | high (half : ℕ)
  | backslash (pending : Option ℕ)
  | hex (pending : Option ℕ) (count value : ℕ)

inductive Mode where
  | value
  | first_item
  | key_or_end
  | key
  | colon
  | after (v : Json)
  /-- A string, its characters so far backwards. -/
  | string (acc : List Char) (esc : Escape)
  /-- A number or a name, its characters so far. -/
  | bare (w : List Char)

structure State where
  stack : List Frame
  mode : Mode

def is_space (c : Char) : Bool := c == ' ' || c == '\t' || c == '\n' || c == '\r'

/-- A character that a number or a name goes on with. -/
def is_bare (c : Char) : Bool := c.isAlphanum || c == '+' || c == '-' || c == '.'

/-! ### Numbers and names -/

/-- What a number begins with: the sign, the digits before the point, whether there is a point or an
exponent, and what is left over. -/
structure Munched where
  negative : Bool
  digits : List Char
  is_float : Bool
  rest : List Char

/-- `(?:\.[0-9]+)?`. -/
def fraction : List Char → Option (List Char)
  | '.' :: w => if w.takeWhile Char.isDigit = [] then none else some (w.dropWhile Char.isDigit)
  | _ => none

def unsigned : List Char → List Char
  | '+' :: w | '-' :: w => w
  | w => w

/-- `(?:[eE][-+]?[0-9]+)?`. -/
def exponent : List Char → Option (List Char)
  | 'e' :: w | 'E' :: w =>
    let w := unsigned w
    if w.takeWhile Char.isDigit = [] then none else some (w.dropWhile Char.isDigit)
  | _ => none

/-- What follows the digits before the point. -/
def munch_rest (negative : Bool) (digits w : List Char) : Munched :=
  let fractioned := (fraction w).getD w
  let rest := (exponent fractioned).getD fractioned
  ⟨negative, digits, (fraction w).isSome || (exponent fractioned).isSome, rest⟩

def munch_digits (negative : Bool) : List Char → Option Munched
  | '0' :: w => some (munch_rest negative ['0'] w)
  | w => if w.takeWhile Char.isDigit = [] then none
    else some (munch_rest negative (w.takeWhile Char.isDigit) (w.dropWhile Char.isDigit))

/-- `-?(?:0|[1-9][0-9]*)(?:\.[0-9]+)?(?:[eE][-+]?[0-9]+)?`, as much as there is. -/
def munch : List Char → Option Munched
  | '-' :: w => munch_digits true w
  | w => munch_digits false w

def int_of (negative : Bool) (digits : List Char) : ℤ :=
  let n : ℤ := Nat.ofDigitChars 10 digits 0
  if negative then -n else n

def names : List (List Char × Json) :=
  [("null".toList, .null), ("true".toList, .bool true), ("false".toList, .bool false),
    ("NaN".toList, .float .nan), ("Infinity".toList, .float .inf),
    ("-Infinity".toList, .float .neg_inf)]

/-- A number or a name. -/
def read_bare (L : Language) (w : List Char) : Except Fault Json :=
  match names.lookup w with
  | some v => .ok v
  | none =>
    match munch w with
    | none => .error .decode
    | some m =>
      -- too many digits are an error before anything behind them is
      if !m.is_float && decide (L.max_digits < m.digits.length) then .error .digits
      else if m.rest ≠ [] then .error .decode
      else if m.is_float then .ok (.float (L.float_of w))
      else .ok (.int (int_of m.negative m.digits))

/-! ### Strings -/

variable (D : Decoder)

def hex_value (c : Char) : Option ℕ :=
  if c.isDigit then some (c.toNat - 48)
  else if 97 ≤ c.toNat ∧ c.toNat ≤ 102 then some (c.toNat - 87)
  else if 65 ≤ c.toNat ∧ c.toNat ≤ 70 then some (c.toNat - 55)
  else none

def is_high (n : ℕ) : Bool := decide (0xD800 ≤ n ∧ n ≤ 0xDBFF)

def is_low (n : ℕ) : Bool := decide (0xDC00 ≤ n ∧ n ≤ 0xDFFF)

/-- The character of a pair. -/
def joined (high low : ℕ) : Char := Char.ofNat (0x10000 + (high - 0xD800) * 0x400 + (low - 0xDC00))

/-- What an escape with a single letter stands for. -/
def simple : Char → Option Char
  | '"' => some '"'
  | '\\' => some '\\'
  | '/' => some '/'
  | 'b' => some (Char.ofNat 8)
  | 'f' => some (Char.ofNat 12)
  | 'n' => some '\n'
  | 'r' => some '\r'
  | 't' => some '\t'
  | _ => none

/-- A half that no other half follows stands alone. -/
def alone (acc : List Char) : Option ℕ → List Char
  | none => acc
  | some half => D.lone half :: acc

/-- The number of an escape, after what was pending. -/
def unescape (acc : List Char) (pending : Option ℕ) (n : ℕ) : Mode :=
  match pending with
  | some half =>
    if is_low n then .string (joined half n :: acc) .none
    else if is_high n then .string (D.lone half :: acc) (.high n)
    else .string (Char.ofNat n :: D.lone half :: acc) .none
  | none =>
    if is_high n then .string acc (.high n)
    else if is_low n then .string (D.lone n :: acc) .none
    else .string (Char.ofNat n :: acc) .none

/-- A string is over: it is a key where a key was to come, and a value elsewhere. -/
def close_string (stack : List Frame) (acc : List Char) : State :=
  match stack with
  | .object d :: rest => ⟨.field d (String.ofList acc.reverse) :: rest, .colon⟩
  | stack => ⟨stack, .after (.str (String.ofList acc.reverse))⟩

/-- A character of a string outside an escape. -/
def plain_step (stack : List Frame) (acc : List Char) (c : Char) : Except Fault State :=
  if c = '"' then .ok (close_string stack acc)
  else if c = '\\' then .ok ⟨stack, .string acc (.backslash none)⟩
  else if D.strict && decide (c.toNat < 32) then .error .decode
  else .ok ⟨stack, .string (c :: acc) .none⟩

def string_step (stack : List Frame) (acc : List Char) (esc : Escape)
    (c : Char) : Except Fault State :=
  match esc with
  | .none => plain_step D stack acc c
  -- a first half without a second stands for itself
  | .high half =>
    if c = '\\' then .ok ⟨stack, .string acc (.backslash (some half))⟩
    else plain_step D stack (D.lone half :: acc) c
  | .backslash pending =>
    if c = 'u' then .ok ⟨stack, .string acc (.hex pending 0 0)⟩
    else
      match simple c with
      | some d => .ok ⟨stack, .string (d :: alone D acc pending) .none⟩
      | none => .error .decode
  | .hex pending count value =>
    match hex_value c with
    | none => .error .decode
    | some digit =>
      if count = 3 then .ok ⟨stack, unescape D acc pending (value * 16 + digit)⟩
      else .ok ⟨stack, .string acc (.hex pending (count + 1) (value * 16 + digit))⟩

/-! ### Steps -/

/-- A container opens, if the nesting allows it. -/
def open_frame (stack : List Frame) (frame : Frame) (mode : Mode) : Except Fault State :=
  if D.max_depth ≤ stack.length then .error .depth else .ok ⟨frame :: stack, mode⟩

def value_step (stack : List Frame) (c : Char) : Except Fault State :=
  if c = '"' then .ok ⟨stack, .string [] .none⟩
  else if c = '[' then open_frame D stack (.items []) .first_item
  else if c = '\x7b' then open_frame D stack (.object []) .key_or_end
  else if is_bare c then .ok ⟨stack, .bare [c]⟩
  else .error .decode

def after_step (stack : List Frame) (v : Json) (c : Char) : Except Fault State :=
  if is_space c then .ok ⟨stack, .after v⟩
  else
    match stack with
    | .items xs :: rest =>
      if c = ',' then .ok ⟨.items (xs ++ [v]) :: rest, .value⟩
      else if c = ']' then .ok ⟨rest, .after (.list (xs ++ [v]))⟩
      else .error .decode
    | .field d key :: rest =>
      if c = ',' then .ok ⟨.object (d.set key v) :: rest, .key⟩
      else if c = '\x7d' then .ok ⟨rest, .after (.obj (d.set key v))⟩
      else .error .decode
    | _ => .error .decode

def step (s : State) (c : Char) : Except Fault State :=
  match s.mode with
  | .value => if is_space c then .ok s else value_step D s.stack c
  | .first_item =>
    if is_space c then .ok s
    else if c = ']' then .ok ⟨s.stack.tail, .after (.list [])⟩
    else value_step D s.stack c
  | .key_or_end =>
    if is_space c then .ok s
    else if c = '\x7d' then .ok ⟨s.stack.tail, .after (.obj [])⟩
    else if c = '"' then .ok ⟨s.stack, .string [] .none⟩
    else .error .decode
  | .key =>
    if is_space c then .ok s
    else if c = '"' then .ok ⟨s.stack, .string [] .none⟩
    else .error .decode
  | .colon =>
    if is_space c then .ok s else if c = ':' then .ok ⟨s.stack, .value⟩ else .error .decode
  | .after v => after_step s.stack v c
  | .string acc esc => string_step D s.stack acc esc c
  | .bare w =>
    if is_bare c then .ok ⟨s.stack, .bare (w ++ [c])⟩
    else
      match read_bare D.toLanguage w with
      | .error e => .error e
      | .ok v => after_step s.stack v c

/-- The text is over. -/
def finish (s : State) : Except Fault Json :=
  match s.mode with
  | .after v => if s.stack.isEmpty then .ok v else .error .decode
  | .bare w =>
    match read_bare D.toLanguage w with
    | .error e => .error e
    | .ok v => if s.stack.isEmpty then .ok v else .error .decode
  | _ => .error .decode

def run (s : State) (t : List Char) : Except Fault State := t.foldlM (step D) s

/-- `json.loads(t)`. -/
def loads (t : List Char) : Except Fault Json := do
  let s ← run D ⟨[], .value⟩ t
  finish D s

/-! ## Reading on -/

theorem run_append (s : State) (t u : List Char) :
    run D s (t ++ u) = run D s t >>= fun m => run D m u :=
  List.foldlM_append

theorem run_cons (s : State) (c : Char) (t : List Char) :
    run D s (c :: t) = step D s c >>= fun m => run D m t := rfl

variable {D}

/-- Where the machine is after some text, with no whole value read before. -/
structure Reads (D : Decoder) (s : State) (t : List Char) (s' : State) : Prop where
  run : run D s t = .ok s'
  unfinished : ∀ u, u <+: t → u ≠ t → ∃ m, JsonText.run D s u = .ok m ∧ finish D m = .error .decode

theorem Reads.nil (s : State) : Reads D s [] s where
  run := rfl
  unfinished := fun _ hu hne => absurd (List.prefix_nil.mp hu) hne

/-- What is read of two texts, one after the other, is read of both. -/
theorem Reads.append {s m s' : State} {t u : List Char} (h : Reads D s t m) (h' : Reads D m u s') :
    Reads D s (t ++ u) s' where
  run := by
    rw [run_append, h.run]
    exact h'.run
  unfinished := by
    intro v hv hne
    rcases List.prefix_or_prefix_of_prefix hv (List.prefix_append t u) with hv | ⟨w, rfl⟩
    · by_cases hvt : v = t
      · subst hvt
        have hu : [] ≠ u := by
          rintro rfl
          exact hne (List.append_nil v).symm
        obtain ⟨m', hm', hfinish⟩ := h'.unfinished [] List.nil_prefix hu
        exact ⟨m', by rw [h.run]; exact hm', hfinish⟩
      · exact h.unfinished v hv hvt
    · have hw : w <+: u := (List.prefix_append_right_inj t).mp hv
      have hwu : w ≠ u := fun hwu => hne (by rw [hwu])
      obtain ⟨m', hm', hfinish⟩ := h'.unfinished w hw hwu
      exact ⟨m', by rw [run_append, h.run]; exact hm', hfinish⟩

/-- One character, from where no value can end. -/
theorem Reads.one {s s' : State} {c : Char} (hfinish : finish D s = .error .decode)
    (hstep : step D s c = .ok s') :
    Reads D s [c] s' where
  run := by
    rw [run_cons, hstep]
    rfl
  unfinished := by
    intro u hu hne
    have hnil : u = [] := by
      rcases List.prefix_cons_iff.mp hu with h | ⟨v, rfl, hv⟩
      · exact h
      · exact absurd (by rw [List.prefix_nil.mp hv]) hne
    exact ⟨s, by rw [hnil]; rfl, hfinish⟩

/-- A character that does not end the value, and what is read behind it. -/
theorem Reads.cons {s m s' : State} {c : Char} {t : List Char}
    (hfinish : finish D s = .error .decode) (hstep : step D s c = .ok m) (h : Reads D m t s') :
    Reads D s (c :: t) s' :=
  (Reads.one hfinish hstep).append h

/-- White space where it makes no difference. -/
theorem Reads.space {s : State} (hfinish : finish D s = .error .decode)
    (hstay : ∀ c, is_space c = true → step D s c = .ok s) {w : List Char}
    (hw : ∀ c ∈ w, is_space c = true) : Reads D s w s := by
  induction w with
  | nil => exact .nil s
  | cons c w ih =>
    obtain ⟨hc, hw⟩ := List.forall_mem_cons.mp hw
    exact .cons hfinish (hstay c hc) (ih hw)

/-! ## Strings -/

/-- A number in four hexadecimal digits. -/
def Hex4 (w : List Char) (n : ℕ) : Prop :=
  ∃ a b c d i j k l, w = [a, b, c, d] ∧ hex_value a = some i ∧ hex_value b = some j ∧
    hex_value c = some k ∧
    hex_value d = some l ∧ n = ((i * 16 + j) * 16 + k) * 16 + l

/-- How one character may be written in a string. -/
inductive Letter (strict : Bool) : List Char → Char → Prop
  | plain {c : Char} (hquote : c ≠ '"') (hbackslash : c ≠ '\\')
      (hstrict : strict = true → 32 ≤ c.toNat) :
    Letter strict [c] c
  | simple {c d : Char} (h : JsonText.simple c = some d) : Letter strict ['\\', c] d
  | hex {w : List Char} {c : Char} (h : Hex4 w c.toNat) : Letter strict ('\\' :: 'u' :: w) c
  | pair {v w : List Char} {high low : ℕ} (hv : Hex4 v high) (hw : Hex4 w low)
    (hhigh : is_high high = true) (hlow : is_low low = true) :
    Letter strict ('\\' :: 'u' :: v ++ '\\' :: 'u' :: w) (joined high low)

/-- What stands between the quotes of a string. -/
inductive Spelled (strict : Bool) : List Char → List Char → Prop
  | nil : Spelled strict [] []
  | cons {u t : List Char} {c : Char} {s : List Char} (hletter : Letter strict u c)
      (h : Spelled strict t s) :
    Spelled strict (u ++ t) (c :: s)

theorem Hex4.notMem {w : List Char} {n : ℕ} (h : Hex4 w n) {c : Char} (hc : hex_value c = none) :
    c ∉ w := by
  obtain ⟨a, b, d, e, i, j, k, l, rfl, ha, hb, hd, he, -⟩ := h
  have hne : ∀ {x : Char} {m : ℕ}, hex_value x = some m → c ≠ x := by
    rintro x m hx rfl
    rw [hc] at hx
    cases hx
  simp [hne ha, hne hb, hne hd, hne he]

/-- A character that is neither of the letters of escapes nor a digit stands for itself, or is what
a backslash stands before. -/
theorem Letter.at_char {strict : Bool} {u : List Char} {c d : Char} (h : Letter strict u c)
    (hhex : hex_value d = none) (hd : d ≠ '\\') (hu : d ≠ 'u') {a b : List Char}
    (hsplit : u = a ++ d :: b) :
    (a = [] ∧ b = [] ∧ c = d ∧ d ≠ '"') ∨ (a = ['\\'] ∧ b = [] ∧ JsonText.simple d = some c) := by
  have hmem : d ∈ u := by
    rw [hsplit]
    simp
  cases h with
  | plain hquote _ _ =>
    cases a with
    | nil =>
      obtain ⟨rfl, rfl⟩ := List.cons.inj hsplit
      exact .inl ⟨rfl, rfl, rfl, hquote⟩
    | cons x a => exact absurd (List.cons.inj hsplit).2 (by simp)
  | simple h =>
    match a with
    | [] => exact absurd (List.cons.inj hsplit).1.symm hd
    | [x] =>
      obtain ⟨rfl, hrest⟩ := List.cons.inj hsplit
      obtain ⟨rfl, rfl⟩ := List.cons.inj hrest
      exact .inr ⟨rfl, rfl, h⟩
    | x :: y :: a => exact absurd (List.cons.inj (List.cons.inj hsplit).2).2 (by simp)
  | hex hw =>
    simp only [List.mem_cons, hd, hu, false_or] at hmem
    exact absurd hmem (hw.notMem hhex)
  | pair hv hw _ _ =>
    simp only [List.mem_cons, List.mem_append, hd, hu, false_or] at hmem
    exact (hmem.elim (hv.notMem hhex) (hw.notMem hhex)).elim

/-- A quote stands behind a backslash. -/
theorem Spelled.quote_escaped {strict : Bool} {raw s : List Char} (h : Spelled strict raw s)
    {a b : List Char} (hsplit : raw = a ++ '"' :: b) : ∃ a', a = a' ++ ['\\'] := by
  induction h generalizing a with
  | nil => exact absurd hsplit.symm (by simp)
  | @cons u t c s hletter _ ih =>
    rcases List.append_eq_append_iff.mp hsplit with ⟨a', rfl, hrest⟩ | ⟨a', rfl, hrest⟩
    · obtain ⟨a'', rfl⟩ := ih hrest
      exact ⟨u ++ a'', by simp⟩
    · cases a' with
      | nil =>
        obtain ⟨a'', hnil⟩ := @ih [] hrest.symm
        exact absurd hnil.symm (by simp)
      | cons d a' =>
        obtain ⟨rfl, -⟩ := List.cons.inj hrest
        rcases hletter.at_char (by decide) (by decide) (by decide) rfl
          with ⟨-, -, -, hne⟩ | ⟨rfl, -, -⟩
        · exact absurd rfl hne
        · exact ⟨[], rfl⟩

/-- A character that needs no escape and has none stands for itself, and a string goes on behind
it. -/
theorem Spelled.behind {strict : Bool} {raw s : List Char} (h : Spelled strict raw s) {d : Char}
    (hhex : hex_value d = none) (hd : d ≠ '\\') (hu : d ≠ 'u') (hsimple : simple d = none)
    {a b : List Char} (hsplit : raw = a ++ d :: b) : d ∈ s ∧ ∃ s', Spelled strict b s' := by
  induction h generalizing a with
  | nil => exact absurd hsplit.symm (by simp)
  | @cons u t c s hletter hrest' ih =>
    rcases List.append_eq_append_iff.mp hsplit with ⟨a', rfl, hrest⟩ | ⟨a', rfl, hrest⟩
    · obtain ⟨hmem, hs⟩ := ih hrest
      exact ⟨List.mem_cons_of_mem c hmem, hs⟩
    · cases a' with
      | nil =>
        obtain ⟨hmem, hs⟩ := @ih [] hrest.symm
        exact ⟨List.mem_cons_of_mem c hmem, hs⟩
      | cons e a' =>
        obtain ⟨rfl, rfl⟩ := List.cons.inj hrest
        rcases hletter.at_char hhex hd hu rfl with ⟨-, rfl, rfl, -⟩ | ⟨-, -, hescape⟩
        · exact ⟨List.mem_cons_self, _, hrest'⟩
        · rw [hsimple] at hescape
          cases hescape

/-- Text without quotes and backslashes says itself. -/
theorem spelled_plain {s : List Char} (h : ∀ c ∈ s, c ≠ '"' ∧ c ≠ '\\') : Spelled false s s := by
  induction s with
  | nil => exact .nil
  | cons c s ih =>
    obtain ⟨hc, hs⟩ := List.forall_mem_cons.mp h
    exact .cons (u := [c]) (.plain hc.1 hc.2 nofun) (ih hs)

section strings

variable {stack : List Frame} {acc : List Char}

theorem finish_string (esc : Escape) : finish D ⟨stack, .string acc esc⟩ = .error .decode := rfl

variable (D stack acc) in
/-- Four hexadecimal digits are read as the code they spell. -/
theorem reads_hex4 {w : List Char} {n : ℕ} (h : Hex4 w n) (pending : Option ℕ) :
    Reads D ⟨stack, .string acc (.hex pending 0 0)⟩ w ⟨stack, unescape D acc pending n⟩ := by
  obtain ⟨a, b, c, d, i, j, k, l, rfl, ha, hb, hc, hd, rfl⟩ := h
  refine .cons (m := ⟨stack, .string acc (.hex pending 1 i)⟩) (finish_string _) ?_
    (.cons (m := ⟨stack, .string acc (.hex pending 2 (i * 16 + j))⟩) (finish_string _) ?_
      (.cons (m := ⟨stack, .string acc (.hex pending 3 ((i * 16 + j) * 16 + k))⟩)
        (finish_string _) ?_
        (.one (finish_string _) ?_)))
  all_goals simp [step, string_step, ha, hb, hc, hd]

/-- A character is no half of a pair. -/
theorem not_half (c : Char) : is_high c.toNat = false ∧ is_low c.toNat = false := by
  have hvalid := c.valid
  have hnat : c.toNat < 0xD800 ∨ 0xDFFF < c.toNat ∧ c.toNat < 0x110000 := by
    simpa [UInt32.isValidChar, Nat.isValidChar] using hvalid
  simp only [is_high, is_low, decide_eq_false_iff_not]
  omega

/-- One character is read of each way to write it. -/
theorem reads_letter {u : List Char} {c : Char} (h : Letter D.strict u c) :
    Reads D ⟨stack, .string acc .none⟩ u ⟨stack, .string (c :: acc) .none⟩ := by
  cases h with
  | plain hquote hbackslash hstrict =>
    refine .one (finish_string _) ?_
    have hprint : (D.strict && decide (c.toNat < 32)) = false := by
      cases hs : D.strict with
      | false => rfl
      | true => simpa using hstrict hs
    simp [step, string_step, plain_step, hquote, hbackslash, hprint]
  | @simple e _ h =>
    have hu : e ≠ 'u' := by
      rintro rfl
      cases h
    refine .cons (m := ⟨stack, .string acc (.backslash none)⟩) (finish_string _) ?_
      (.one (finish_string _) ?_)
    · simp [step, string_step, plain_step]
    · simp [step, string_step, hu, h, alone]
  | @hex w _ h =>
    refine .cons (m := ⟨stack, .string acc (.backslash none)⟩) (finish_string _) ?_
      (.cons (m := ⟨stack, .string acc (.hex none 0 0)⟩) (finish_string _) ?_ ?_)
    · simp [step, string_step, plain_step]
    · simp [step, string_step]
    · have hread := reads_hex4 D stack acc h none
      have hmode : unescape D acc none c.toNat = .string (c :: acc) .none := by
        simp [unescape, not_half c, Char.ofNat_toNat]
      rwa [hmode] at hread
  | @pair v w high low hv hw hhigh hlow =>
    have hfirst := reads_hex4 D stack acc hv none
    have hsecond := reads_hex4 D stack acc hw (some high)
    -- the first half waits for the second, which completes the character
    have hmode : unescape D acc none high = .string acc (.high high) := by simp [unescape, hhigh]
    have hmode' : unescape D acc (some high) low = .string (joined high low :: acc) .none := by
      simp [unescape, hlow]
    rw [hmode] at hfirst
    rw [hmode'] at hsecond
    refine Reads.append (m := ⟨stack, .string acc (.high high)⟩) ?_ ?_
    · refine .cons (m := ⟨stack, .string acc (.backslash none)⟩) (finish_string _) ?_
        (.cons (m := ⟨stack, .string acc (.hex none 0 0)⟩) (finish_string _) ?_ hfirst)
      · simp [step, string_step, plain_step]
      · simp [step, string_step]
    · refine .cons (m := ⟨stack, .string acc (.backslash (some high))⟩) (finish_string _) ?_
        (.cons (m := ⟨stack, .string acc (.hex (some high) 0 0)⟩) (finish_string _) ?_ hsecond)
      · simp [step, string_step]
      · simp [step, string_step]

/-- What is spelled in a string is read between its quotes, whichever escapes were used. -/
theorem reads_spelled {raw s : List Char} (h : Spelled D.strict raw s) :
    Reads D ⟨stack, .string acc .none⟩ raw ⟨stack, .string (s.reverse ++ acc) .none⟩ := by
  induction h generalizing acc with
  | nil => exact .nil _
  | cons hletter _ ih =>
    refine (reads_letter hletter).append ?_
    simpa using ih

variable (stack) in
/-- The rest of a string, with its closing quote. -/
theorem reads_string {raw : List Char} {s : String} (h : Spelled D.strict raw s.toList) :
    Reads D ⟨stack, .string [] .none⟩ (raw ++ ['"']) (close_string stack s.toList.reverse) := by
  have hraw : Reads D ⟨stack, .string [] .none⟩ raw ⟨stack, .string s.toList.reverse .none⟩ := by
    have hread := @reads_spelled D stack [] _ _ h
    rwa [List.append_nil] at hread
  exact hraw.append (.one (finish_string _) (by simp [step, string_step, plain_step]))

/-- The closing quote ends a value where no key is due. -/
theorem close_string_value (hstack : ∀ d rest, stack ≠ .object d :: rest) (s : String) :
    close_string stack s.toList.reverse = ⟨stack, .after (.str s)⟩ := by
  unfold close_string
  split
  · exact absurd rfl (hstack _ _)
  · rw [List.reverse_reverse, String.ofList_toList]

/-- The closing quote ends a key where one is due. -/
theorem close_string_key (d : Dict) (rest : List Frame) (s : String) :
    close_string (.object d :: rest) s.toList.reverse = ⟨.field d s :: rest, .colon⟩ := by
  rw [close_string, List.reverse_reverse, String.ofList_toList]

end strings

/-! ## Numbers and names -/

/-- A number or a name, with no more digits than the language converts. -/
structure Token (L : Language) (w : List Char) (v : Json) : Prop where
  read : read_bare L w = .ok v
  bare : ∀ c ∈ w, is_bare c = true
  ne_nil : w ≠ []
  short : w.countP Char.isDigit ≤ L.max_digits

/-- What stands in front is no longer than what is counted in all. -/
theorem length_takeWhile_le (p : Char → Bool) (w : List Char) :
    (w.takeWhile p).length ≤ w.countP p := by
  have hall : (w.takeWhile p).countP p = (w.takeWhile p).length :=
    List.countP_eq_length.mpr (List.all_eq_true.mp List.all_takeWhile)
  rw [← hall]
  exact (List.takeWhile_sublist p).countP_le

/-- The digits that are taken up are among those of the text. -/
theorem munch_digits_le {negative : Bool} {w : List Char} {m : Munched}
    (h : munch_digits negative w = some m) : m.digits.length ≤ w.countP Char.isDigit := by
  unfold munch_digits at h
  split at h
  · obtain rfl := Option.some.inj h
    simp [munch_rest]
  · split at h
    · cases h
    · obtain rfl := Option.some.inj h
      exact length_takeWhile_le Char.isDigit _

theorem munched_le {w : List Char} {m : Munched} (h : munch w = some m) :
    m.digits.length ≤ w.countP Char.isDigit := by
  unfold munch at h
  split at h
  · exact (munch_digits_le h).trans ((List.sublist_cons_self _ _).countP_le)
  · exact munch_digits_le h

/-- A short text has no integer that is too long. -/
theorem read_short {w : List Char} (h : w.countP Char.isDigit ≤ D.max_digits) :
    (∃ v, read_bare D.toLanguage w = .ok v) ∨ read_bare D.toLanguage w = .error .decode := by
  unfold read_bare
  split
  · exact .inl ⟨_, rfl⟩
  · split
    · exact .inr rfl
    · rename_i m hm
      have hlength := (munched_le hm).trans h
      have hfits : (!m.is_float && decide (D.max_digits < m.digits.length)) = false := by
        rw [decide_eq_false (by omega), Bool.and_false]
      rw [hfits, if_neg Bool.false_ne_true]
      split
      · exact .inr rfl
      · split
        · exact .inl ⟨_, rfl⟩
        · exact .inl ⟨_, rfl⟩

section values

variable {stack : List Frame}

/-- A bare word that is within the limit on digits does not end a value inside a list or an
object. -/
theorem finish_bare (hstack : stack ≠ []) {w : List Char}
    (h : w.countP Char.isDigit ≤ D.max_digits) : finish D ⟨stack, .bare w⟩ = .error .decode := by
  have hempty : stack.isEmpty = false := by simpa using hstack
  unfold finish
  rcases read_short h with ⟨v, hv⟩ | herror
  · simp [hv, hempty]
  · simp [herror]

/-- No character of a bare word is one that cannot be. -/
theorem ne_of_bare {c d : Char} (hc : is_bare c = true) (hd : is_bare d = false) : c ≠ d := by
  rintro rfl
  rw [hc] at hd
  cases hd

theorem space_of_bare {c : Char} (hc : is_bare c = true) : is_space c = false := by
  simp [is_space, ne_of_bare hc (d := ' ') (by decide), ne_of_bare hc (d := '\t') (by decide),
    ne_of_bare hc (d := '\n') (by decide), ne_of_bare hc (d := '\r') (by decide)]

/-- More of a number or a name. -/
theorem reads_bare (hstack : stack ≠ []) {w r : List Char} (hr : ∀ c ∈ r, is_bare c = true)
    (hshort : (w ++ r).countP Char.isDigit ≤ D.max_digits) :
    Reads D ⟨stack, .bare w⟩ r ⟨stack, .bare (w ++ r)⟩ := by
  induction r generalizing w with
  | nil =>
    rw [List.append_nil]
    exact .nil _
  | cons c r ih =>
    obtain ⟨hc, hr⟩ := List.forall_mem_cons.mp hr
    have hw : w.countP Char.isDigit ≤ D.max_digits :=
      ((List.sublist_append_left w (c :: r)).countP_le).trans hshort
    have hsplit : w ++ c :: r = (w ++ [c]) ++ r := by simp
    rw [hsplit] at hshort ⊢
    exact .cons (finish_bare hstack hw) (by simp [step, hc]) (ih hr hshort)

theorem Token.reads {w : List Char} {v : Json} (h : Token D.toLanguage w v) (hstack : stack ≠ []) :
    Reads D ⟨stack, .value⟩ w ⟨stack, .bare w⟩ := by
  obtain ⟨c, r, rfl⟩ := List.exists_cons_of_ne_nil h.ne_nil
  obtain ⟨hc, hr⟩ := List.forall_mem_cons.mp h.bare
  refine .cons rfl ?_ (reads_bare (w := [c]) hstack hr h.short)
  simp [step, value_step, space_of_bare hc, hc, ne_of_bare hc (d := '"') (by decide),
    ne_of_bare hc (d := '[') (by decide), ne_of_bare hc (d := '\x7b') (by decide)]

/-! ## What follows a value -/

/-- A value whose text has no closing mark of its own. -/
def bare_value : Json → Bool
  | .null | .bool _ | .int _ | .float _ => true
  | _ => false

/-- A value has been read, if need be with its last character pending. -/
inductive Holds (D : Decoder) (stack : List Frame) (v : Json) : State → Prop
  | after : Holds D stack v ⟨stack, .after v⟩
  | bare {w : List Char} (h : Token D.toLanguage w v) (hv : bare_value v = true) :
      Holds D stack v ⟨stack, .bare w⟩

/-- A value that is held has not ended the text while lists or objects are open. -/
theorem Holds.finish {v : Json} {s : State} (h : Holds D stack v s) (hstack : stack ≠ []) :
    JsonText.finish D s = .error .decode := by
  cases h with
  | after =>
    have hempty : stack.isEmpty = false := by simpa using hstack
    simp [JsonText.finish, hempty]
  | bare h _ => exact finish_bare hstack h.short

/-- Behind a value that is held comes what may follow a value. -/
theorem Holds.step {v : Json} {s : State} (h : Holds D stack v s) {c : Char}
    (hc : is_bare c = false) : JsonText.step D s c = after_step stack v c := by
  cases h with
  | after => rfl
  | bare h _ => simp [JsonText.step, hc, h.read]

/-- White space, and then what decides how it goes on. -/
theorem Holds.goes_on {v : Json} {s m : State} (h : Holds D stack v s) (hstack : stack ≠ [])
    {b : List Char} (hb : ∀ c ∈ b, is_space c = true) {c : Char} (hc : is_bare c = false)
    (hstep : after_step stack v c = .ok m) : Reads D s (b ++ [c]) m := by
  have hspace : ∀ d, is_space d = true → is_bare d = false := by
    intro d hd
    cases hbare : is_bare d with
    | false => rfl
    | true =>
      rw [space_of_bare hbare] at hd
      cases hd
  induction b generalizing s with
  | nil => exact .one (h.finish hstack) ((h.step hc).trans hstep)
  | cons d b ih =>
    obtain ⟨hd, hb⟩ := List.forall_mem_cons.mp hb
    refine .cons (m := ⟨stack, .after v⟩) (h.finish hstack) ?_ (ih .after hb)
    rw [h.step (hspace d hd)]
    simp [after_step, hd]

end values

/-! ## The text of a value -/

/-- White space. -/
def Blank (w : List Char) : Prop := ∀ c ∈ w, is_space c = true

section spelling

variable (D : Decoder)

mutual

/-- The text says the value: with white space between its parts, and with whatever escapes its
strings may have. -/
def Spells : Json → List Char → Prop
  | .str s, t => ∃ raw, Spelled D.strict raw s.toList ∧ t = '"' :: (raw ++ ['"'])
  | .list [], t => ∃ a, Blank a ∧ t = '[' :: (a ++ [']'])
  | .list (x :: xs), t => ∃ a u b rest, Blank a ∧ Spells x u ∧ Blank b ∧ SpellsItems xs rest ∧
    t = '[' :: (a ++ (u ++ (b ++ rest)))
  | .obj [], t => ∃ a, Blank a ∧ t = '\x7b' :: (a ++ ['\x7d'])
  | .obj ((key, x) :: fields), t => ∃ a raw b c u d rest, Blank a ∧
      Spelled D.strict raw key.toList ∧ Blank b ∧
    Blank c ∧ Spells x u ∧ Blank d ∧ SpellsFields fields rest ∧
    t = '\x7b' :: (a ++ ('"' :: (raw ++ ['"']) ++ (b ++ (':' :: (c ++ (u ++ (d ++ rest)))))))
  | .null, t => Token D.toLanguage t .null
  | .bool v, t => Token D.toLanguage t (.bool v)
  | .int n, t => Token D.toLanguage t (.int n)
  | .float x, t => Token D.toLanguage t (.float x)

/-- The items that follow, and the end of the array. -/
def SpellsItems : List Json → List Char → Prop
  | [], t => t = [']']
  | x :: xs, t => ∃ a u b rest, Blank a ∧ Spells x u ∧ Blank b ∧ SpellsItems xs rest ∧
    t = ',' :: (a ++ (u ++ (b ++ rest)))

/-- The fields that follow, and the end of the object. -/
def SpellsFields : List (String × Json) → List Char → Prop
  | [], t => t = ['\x7d']
  | (key, x) :: fields, t => ∃ a raw b c u d rest, Blank a ∧ Spelled D.strict raw key.toList ∧
      Blank b ∧ Blank c ∧
    Spells x u ∧ Blank d ∧ SpellsFields fields rest ∧
    t = ',' :: (a ++ ('"' :: (raw ++ ['"']) ++ (b ++ (':' :: (c ++ (u ++ (d ++ rest)))))))

end

end spelling

mutual

/-- How deep containers are nested. -/
def depth : Json → ℕ
  | .list xs => depthList xs + 1
  | .obj fields => depthFields fields + 1
  | _ => 0

def depthList : List Json → ℕ
  | [] => 0
  | x :: xs => max (depth x) (depthList xs)

def depthFields : List (String × Json) → ℕ
  | [] => 0
  | (_, x) :: fields => max (depth x) (depthFields fields)

end

mutual

/-- No object has a key twice. -/
def Distinct : Json → Prop
  | .list xs => DistinctList xs
  | .obj fields => (fields.map Prod.fst).Nodup ∧ DistinctFields fields
  | _ => True

def DistinctList : List Json → Prop
  | [] => True
  | x :: xs => Distinct x ∧ DistinctList xs

def DistinctFields : List (String × Json) → Prop
  | [] => True
  | (_, x) :: fields => Distinct x ∧ DistinctFields fields

end

section reading

variable {stack : List Frame}

/-- A text that says a value begins neither with white space nor with the end of an array. -/
theorem Spells.head {x : Json} {t : List Char} (h : Spells D x t) :
    ∃ c r, t = c :: r ∧ is_space c = false ∧ c ≠ ']' := by
  -- a token is made of characters that are neither space nor a mark
  have htoken : ∀ {v}, Token D.toLanguage t v →
      ∃ c r, t = c :: r ∧ is_space c = false ∧ c ≠ ']' := by
    intro v h
    obtain ⟨c, r, rfl⟩ := List.exists_cons_of_ne_nil h.ne_nil
    have hc := h.bare c List.mem_cons_self
    exact ⟨c, r, rfl, space_of_bare hc, ne_of_bare hc (by decide)⟩
  cases x with
  | null | bool _ | int _ | float _ =>
    unfold Spells at h
    exact htoken h
  | str s =>
    unfold Spells at h
    obtain ⟨raw, -, rfl⟩ := h
    exact ⟨_, _, rfl, by decide, by decide⟩
  | list xs =>
    cases xs with
    | nil =>
      unfold Spells at h
      obtain ⟨a, -, rfl⟩ := h
      exact ⟨_, _, rfl, by decide, by decide⟩
    | cons x xs =>
      unfold Spells at h
      obtain ⟨a, u, b, rest, -, -, -, -, rfl⟩ := h
      exact ⟨_, _, rfl, by decide, by decide⟩
  | obj fields =>
    cases fields with
    | nil =>
      unfold Spells at h
      obtain ⟨a, -, rfl⟩ := h
      exact ⟨_, _, rfl, by decide, by decide⟩
    | cons e fields =>
      obtain ⟨key, x⟩ := e
      unfold Spells at h
      obtain ⟨a, raw, b, c, u, d, rest, -, -, -, -, -, -, -, rfl⟩ := h
      exact ⟨_, _, rfl, by decide, by decide⟩

/-- At the start of an array the first item is read like any other. -/
theorem Reads.first {t : List Char} {s : State} {c : Char} {r : List Char} (ht : t = c :: r)
    (hspace : is_space c = false) (hc : c ≠ ']') (h : Reads D ⟨stack, .value⟩ t s) :
    Reads D ⟨stack, .first_item⟩ t s := by
  subst ht
  have hstep : JsonText.step D ⟨stack, .first_item⟩ c = JsonText.step D ⟨stack, .value⟩ c := by
    simp [step, hspace, hc]
  refine ⟨?_, fun u hu hne => ?_⟩
  · rw [run_cons, hstep]
    exact h.run
  · cases u with
    | nil => exact ⟨_, rfl, rfl⟩
    | cons d u =>
      obtain ⟨m, hm, hfinish⟩ := h.unfinished (d :: u) hu hne
      obtain rfl := (List.cons_prefix_cons.mp hu).1
      exact ⟨m, by rw [run_cons, hstep]; exact hm, hfinish⟩

/-- A list or an object may be opened while there is room. -/
theorem open_ok {frame : Frame} {mode : Mode} (h : stack.length + 1 ≤ D.max_depth) :
    open_frame D stack frame mode = .ok ⟨frame :: stack, mode⟩ := if_neg (by omega)

theorem reads_space {mode : Mode} (hfinish : finish D ⟨stack, mode⟩ = .error .decode)
    (hstay : ∀ c, is_space c = true → step D ⟨stack, mode⟩ c = .ok ⟨stack, mode⟩) {a : List Char}
    (ha : Blank a) :
    Reads D ⟨stack, mode⟩ a ⟨stack, mode⟩ := .space hfinish hstay ha

theorem reads_value_space {a : List Char} (ha : Blank a) :
    Reads D ⟨stack, .value⟩ a ⟨stack, .value⟩ :=
  reads_space rfl (fun c hc => by simp [step, hc]) ha

variable (stack) in
/-- The key of an object and its colon, from where a key is to come. -/
theorem reads_key (d : Dict) {mode : Mode} (hmode : mode = .key ∨ mode = .key_or_end)
    {a raw b c : List Char} {key : String} (ha : Blank a) (hraw : Spelled D.strict raw key.toList)
    (hb : Blank b) (hc : Blank c) :
    Reads D ⟨.object d :: stack, mode⟩ (a ++ ('"' :: (raw ++ ['"']) ++ (b ++ (':' :: c))))
      ⟨.field d key :: stack, .value⟩ := by
  have hspace : Reads D ⟨.object d :: stack, mode⟩ a ⟨.object d :: stack, mode⟩ := by
    rcases hmode with rfl | rfl
    · exact reads_space rfl (fun c hc => by simp [step, hc]) ha
    · exact reads_space rfl (fun c hc => by simp [step, hc]) ha
  have hquote : Reads D ⟨.object d :: stack, mode⟩ ['"'] ⟨.object d :: stack,
      .string [] .none⟩ := by
    rcases hmode with rfl | rfl
    · exact .one rfl (by simp [step, is_space])
    · exact .one rfl (by simp [step, is_space])
  have hstring := reads_string (.object d :: stack) hraw
  rw [close_string_key] at hstring
  have hcolon : Reads D ⟨.field d key :: stack, .colon⟩ b ⟨.field d key :: stack, .colon⟩ :=
    reads_space rfl (fun c hc => by simp [step, hc]) hb
  have hvalue : Reads D ⟨.field d key :: stack,
      .colon⟩ (':' :: c) ⟨.field d key :: stack, .value⟩ :=
    .cons rfl (by simp [step, is_space]) (reads_value_space hc)
  exact hspace.append ((hquote.append hstring).append (hcolon.append hvalue))

mutual

/-- The text of a value is read, wherever a value is to come. -/
theorem reads_value (x : Json) {t : List Char} (h : Spells D x t) (hx : Distinct x)
    (stack : List Frame) (hdepth : stack.length + depth x ≤ D.max_depth)
    (hstack : stack ≠ [] ∨ bare_value x = false) (hvalue : ∀ d rest, stack ≠ .object d :: rest) :
    ∃ s, Reads D ⟨stack, .value⟩ t s ∧ Holds D stack x s := by
  have htoken : ∀ {v}, Token D.toLanguage t v → bare_value v = true →
      stack ≠ [] ∨ bare_value v = false →
      ∃ s, Reads D ⟨stack, .value⟩ t s ∧ Holds D stack v s :=
    fun htoken hv hne => ⟨_, htoken.reads (hne.resolve_right (by rw [hv]; exact nofun)),
      .bare htoken hv⟩
  -- along the value; the stack below is left alone, and each bracket takes one of the
  -- levels that are left
  match x with
  | .null =>
    unfold Spells at h
    exact htoken h rfl hstack
  | .bool b =>
    unfold Spells at h
    exact htoken h rfl hstack
  | .int n =>
    unfold Spells at h
    exact htoken h rfl hstack
  | .float q =>
    unfold Spells at h
    exact htoken h rfl hstack
  | .str s =>
    unfold Spells at h
    obtain ⟨raw, hraw, rfl⟩ := h
    have hstring := reads_string stack hraw
    rw [close_string_value hvalue] at hstring
    exact ⟨_, .cons rfl (by simp [step, value_step, is_space]) hstring, .after⟩
  | .list [] =>
    unfold Spells at h
    obtain ⟨a, ha, rfl⟩ := h
    have hopen : step D ⟨stack, .value⟩ '[' = .ok ⟨.items [] :: stack, .first_item⟩ := by
      rw [depth] at hdepth
      simp only [step, value_step, is_space]
      exact open_ok (by omega)
    refine ⟨_,
      .cons rfl hopen (Reads.append (m := ⟨.items [] :: stack, .first_item⟩) ?_ (.one rfl ?_)),
      .after⟩
    · exact reads_space rfl (fun c hc => by simp [step, hc]) ha
    · simp [step, is_space]
  | .list (y :: ys) =>
    unfold Spells at h
    obtain ⟨a, u, b, rest, ha, hu, hb, hrest, rfl⟩ := h
    rw [depth, depthList] at hdepth
    rw [Distinct, DistinctList] at hx
    have hopen : step D ⟨stack, .value⟩ '[' = .ok ⟨.items [] :: stack, .first_item⟩ := by
      simp only [step, value_step, is_space]
      exact open_ok (by omega)
    -- the first item stands alone, the others behind their commas
    obtain ⟨s, hread, hholds⟩ := reads_value y hu hx.1 (.items [] :: stack)
      (by rw [List.length_cons]; omega) (.inl (List.cons_ne_nil _ _)) nofun
    obtain ⟨c, r, hhead, hspace, hc⟩ := Spells.head hu
    have hitems := reads_items ys hrest hx.2 stack (by omega) hholds hb
    refine ⟨_, .cons rfl hopen (Reads.append (m := ⟨.items [] :: stack, .first_item⟩) ?_
      ((hread.first hhead hspace hc).append hitems)), .after⟩
    exact reads_space rfl (fun c hc => by simp [step, hc]) ha
  | .obj [] =>
    unfold Spells at h
    obtain ⟨a, ha, rfl⟩ := h
    have hopen : step D ⟨stack, .value⟩ '\x7b' = .ok ⟨.object [] :: stack, .key_or_end⟩ := by
      rw [depth] at hdepth
      simp only [step, value_step, is_space]
      exact open_ok (by omega)
    refine ⟨_,
      .cons rfl hopen (Reads.append (m := ⟨.object [] :: stack, .key_or_end⟩) ?_ (.one rfl ?_)),
      .after⟩
    · exact reads_space rfl (fun c hc => by simp [step, hc]) ha
    · simp [step, is_space]
  | .obj ((key, y) :: fields) =>
    unfold Spells at h
    obtain ⟨a, raw, b, c, u, d, rest, ha, hraw, hb, hc, hu, hd, hrest, rfl⟩ := h
    rw [depth, depthFields] at hdepth
    rw [Distinct, DistinctFields] at hx
    have hopen : step D ⟨stack, .value⟩ '\x7b' = .ok ⟨.object [] :: stack, .key_or_end⟩ := by
      simp only [step, value_step, is_space]
      exact open_ok (by omega)
    obtain ⟨s, hread, hholds⟩ := reads_value y hu hx.2.1 (.field [] key :: stack)
      (by rw [List.length_cons]; omega) (.inl (List.cons_ne_nil _ _)) nofun
    have hfields := reads_fields fields hrest hx.2.2 stack (by omega) hholds hd hx.1
    refine ⟨_, .cons rfl hopen ?_, .after⟩
    have hkey := reads_key stack [] (.inr rfl) ha hraw hb hc
    simpa using hkey.append (hread.append hfields)

/-- The rest of a list is read to its closing bracket, whatever was read before. -/
theorem reads_items (xs : List Json) {t : List Char} (h : SpellsItems D xs t)
    (hxs : DistinctList xs) (stack : List Frame)
    (hdepth : stack.length + 1 + depthList xs ≤ D.max_depth) {done : List Json} {v : Json}
    {s : State} (hs : Holds D (.items done :: stack) v s) {b : List Char} (hb : Blank b) :
    Reads D s (b ++ t) ⟨stack, .after (.list (done ++ v :: xs))⟩ := by
  match xs with
  | [] =>
    unfold SpellsItems at h
    subst h
    exact hs.goes_on (List.cons_ne_nil _ _) hb (by decide) (by simp [after_step, is_space])
  | y :: ys =>
    unfold SpellsItems at h
    obtain ⟨a, u, b', rest, ha, hu, hb', hrest, rfl⟩ := h
    rw [depthList] at hdepth
    rw [DistinctList] at hxs
    have hcomma : Reads D s (b ++ [',']) ⟨.items (done ++ [v]) :: stack, .value⟩ :=
      hs.goes_on (List.cons_ne_nil _ _) hb (by decide) (by simp [after_step, is_space])
    obtain ⟨s', hread, hholds⟩ := reads_value y hu hxs.1 (.items (done ++ [v]) :: stack)
      (by rw [List.length_cons]; omega) (.inl (List.cons_ne_nil _ _)) nofun
    have hitems := reads_items ys hrest hxs.2 stack (by omega) hholds hb'
    simpa using hcomma.append ((reads_value_space ha).append (hread.append hitems))

/-- The rest of an object is read to its closing brace, whatever was read before. -/
theorem reads_fields (fields : List (String × Json)) {t : List Char} (h : SpellsFields D fields t)
    (hfields : DistinctFields fields) (stack : List Frame)
    (hdepth : stack.length + 1 + depthFields fields ≤ D.max_depth) {d : Dict} {key : String}
    {v : Json} {s : State} (hs : Holds D (.field d key :: stack) v s) {b : List Char} (hb : Blank b)
    (hkeys : (d.map Prod.fst ++ key :: fields.map Prod.fst).Nodup) :
    Reads D s (b ++ t) ⟨stack, .after (.obj (d ++ (key, v) :: fields))⟩ := by
  have hset : d.set key v = d ++ [(key, v)] :=
    Dict.set_of_notMem (fun hin =>
      (List.nodup_append.mp hkeys).2.2 key hin key List.mem_cons_self rfl) v
  match fields with
  | [] =>
    unfold SpellsFields at h
    subst h
    refine hs.goes_on (List.cons_ne_nil _ _) hb (by decide) ?_
    simp [after_step, is_space, hset]
  | (key', y) :: more =>
    unfold SpellsFields at h
    obtain ⟨a, raw, b', c, u, e, rest, ha, hraw, hb', hc, hu, he, hrest, rfl⟩ := h
    rw [depthFields] at hdepth
    rw [DistinctFields] at hfields
    have hcomma : Reads D s (b ++ [',']) ⟨.object (d ++ [(key, v)]) :: stack, .key⟩ :=
      hs.goes_on (List.cons_ne_nil _ _) hb (by decide) (by simp [after_step, is_space, hset])
    obtain ⟨s', hread, hholds⟩ :=
      reads_value y hu hfields.1 (.field (d ++ [(key, v)]) key' :: stack)
      (by rw [List.length_cons]; omega) (.inl (List.cons_ne_nil _ _)) nofun
    have hmore :=
      reads_fields more hrest hfields.2 stack (by omega) hholds he (by simpa using hkeys)
    have hkey := reads_key stack (d ++ [(key, v)]) (.inl rfl) ha hraw hb' hc
    simpa using hcomma.append (hkey.append (hread.append hmore))

end

end reading

/-! ## Whole texts -/

/-- A bare word goes on as long as its characters do. -/
theorem run_bare {stack : List Frame} {w r : List Char} (hr : ∀ c ∈ r, is_bare c = true) :
    run D ⟨stack, .bare w⟩ r = .ok ⟨stack, .bare (w ++ r)⟩ := by
  induction r generalizing w with
  | nil =>
    rw [List.append_nil]
    rfl
  | cons c r ih =>
    obtain ⟨hc, hr⟩ := List.forall_mem_cons.mp hr
    have hstep : step D ⟨stack, .bare w⟩ c = .ok ⟨stack, .bare (w ++ [c])⟩ := by simp [step, hc]
    rw [run_cons, hstep]
    have hrest := ih (w := w ++ [c]) hr
    rw [List.append_assoc] at hrest
    exact hrest

theorem Token.loads {w : List Char} {v : Json} (h : Token D.toLanguage w v) :
    JsonText.loads D w = .ok v := by
  obtain ⟨c, r, rfl⟩ := List.exists_cons_of_ne_nil h.ne_nil
  obtain ⟨hc, hr⟩ := List.forall_mem_cons.mp h.bare
  have hstep : step D ⟨[], .value⟩ c = .ok ⟨[], .bare [c]⟩ := by
    simp [step, value_step, space_of_bare hc, hc, ne_of_bare hc (d := '"') (by decide),
      ne_of_bare hc (d := '[') (by decide), ne_of_bare hc (d := '\x7b') (by decide)]
  have hrun : run D ⟨[], .value⟩ (c :: r) = .ok ⟨[], .bare (c :: r)⟩ := by
    rw [run_cons, hstep]
    exact run_bare hr
  rw [JsonText.loads, hrun]
  show finish D ⟨[], .bare (c :: r)⟩ = _
  simp [finish, h.read]

/-- What is not a number or a name is over with its last character. -/
theorem reads_whole {x : Json} {t : List Char} (h : Spells D x t) (hx : Distinct x)
    (hdepth : depth x ≤ D.max_depth) (hbare : bare_value x = false) :
    Reads D ⟨[], .value⟩ t ⟨[], .after x⟩ := by
  obtain ⟨s, hread, hholds⟩ := reads_value x h hx [] (by simpa using hdepth) (.inr hbare) nofun
  cases hholds with
  | after => exact hread
  | bare _ hv =>
    rw [hv] at hbare
    cases hbare

/-- The text of a value is read as that value. -/
theorem loads_spelled {x : Json} {t : List Char} (h : Spells D x t) (hx : Distinct x)
    (hdepth : depth x ≤ D.max_depth) : loads D t = .ok x := by
  cases hbare : bare_value x with
  | false =>
    rw [loads, (reads_whole h hx hdepth hbare).run]
    rfl
  | true =>
    cases x with
    | null | bool _ | int _ | float _ =>
      unfold Spells at h
      exact h.loads
    | _ => cases hbare

/-- What a text begins with is no text, as long as something is missing. -/
theorem loads_unfinished {x : Json} {t u : List Char} (h : Spells D x t) (hx : Distinct x)
    (hdepth : depth x ≤ D.max_depth) (hbare : bare_value x = false) (hu : u <+: t) (hne : u ≠ t) :
    loads D u = .error .decode := by
  obtain ⟨m, hm, hfinish⟩ := (reads_whole h hx hdepth hbare).unfinished u hu hne
  rw [loads, hm]
  exact hfinish

end Py.JsonText
