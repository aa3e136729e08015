/-
JSON values as a dynamic language handles them.

A `Json` is what a parser makes of a text: objects are dictionaries in insertion order,
numbers are integers or floats. The operations are those of Python on such values: truth,
`==` (numbers compare across their types, objects up to the order of their fields),
hashing, `str`, iteration, subscription. One that does not apply raises. How strings are
quoted and how floats print is left to a `Printer`.
-/
import Mathlib.Data.Rat.Defs
import Mathlib.Data.Rat.Encodable
import Mathlib.Data.List.Infix
import Mathlib.Data.List.Sort
import Mathlib.Data.String.Basic
import Mathlib.Algebra.Order.Ring.Unbundled.Rat

set_option autoImplicit false

namespace Py

inductive Error where
  | type_error
  | attribute_error
  | key_error
  | value_error
  | overflow_error
  deriving DecidableEq, Repr

/-- A float: the rational it stands for, or one of the values that stand for none. -/
inductive Double where
  | finite (q : ℚ)
  | neg_zero
  | inf
  | neg_inf
  | nan
  deriving DecidableEq

/-- How strings are shown inside a container and how floats print: never alike, and never
like an integer or a truth value. -/
structure Printer where
  quote : String → String
  float : Double → String
  float_injective : Function.Injective float
  float_ne_int : ∀ x (n : ℤ), float x ≠ toString n
  float_ne_true : ∀ x, float x ≠ "True"

/-- The digits of a number. -/
theorem toList_toString_nat (n : ℕ) : (toString n).toList = Nat.toDigits 10 n := by
  simp [Nat.toString_eq_repr]

theorem toString_nat_inj {m n : ℕ} (h : toString m = toString n) : m = n := by
  have hlist := congrArg String.toList h
  rw [toList_toString_nat, toList_toString_nat] at hlist
  rw [← Nat.ofDigitChars_ten_toDigits (n := m), hlist, Nat.ofDigitChars_ten_toDigits]

/-! ### Kinds of characters -/

theorem isDigit_iff {c : Char} : c.isDigit = true ↔ 48 ≤ c.toNat ∧ c.toNat ≤ 57 := by
  simp [Char.isDigit, UInt32.le_iff_toNat_le]

theorem isUpper_iff {c : Char} : c.isUpper = true ↔ 65 ≤ c.toNat ∧ c.toNat ≤ 90 := by
  change decide (c.val ≥ 'A'.val ∧ c.val ≤ 'Z'.val) = true ↔ _
  simp [UInt32.le_iff_toNat_le]

theorem isAlpha_iff {c : Char} :
    c.isAlpha = true ↔ 65 ≤ c.toNat ∧ c.toNat ≤ 90 ∨ 97 ≤ c.toNat ∧ c.toNat ≤ 122 := by
  change (c.isUpper || (decide (c.val ≥ 'a'.val) && decide (c.val ≤ 'z'.val))) = true ↔ _
  rw [Bool.or_eq_true, isUpper_iff]
  simp [UInt32.le_iff_toNat_le]

theorem isDigit_of_mem_toString_nat {c : Char} {n : ℕ} (h : c ∈ (toString n).toList) :
    c.isDigit = true := by
  rw [toList_toString_nat] at h
  exact Nat.isDigit_of_mem_toDigits (by decide) (by decide) h

theorem notMem_toString_nat {c : Char} (hc : c.isDigit = false) (n : ℕ) :
    c ∉ (toString n).toList := by
  intro h
  rw [isDigit_of_mem_toString_nat h] at hc
  cases hc

/-- A plain way of printing, for floats by number. -/
def Printer.plain : Printer where
  quote s := "'" ++ s ++ "'"
  float
    | .finite q => "f" ++ toString (Encodable.encode q)
    | .neg_zero => "-0.0"
    | .inf => "inf"
    | .neg_inf => "-inf"
    | .nan => "nan"
  float_injective := by
    intro x y h
    cases x with
    | finite q =>
      cases y with
      | finite q' =>
        rw [String.append_right_inj] at h
        rw [Encodable.encode_injective (toString_nat_inj h)]
      | _ => exact absurd (congrArg (fun s => s.toList.head?) h) (by simp)
    | _ =>
      cases y with
      | finite q' => exact absurd (congrArg (fun s => s.toList.head?) h) (by simp)
      | _ => first | rfl | exact absurd h (by decide)
  float_ne_int := by
    intro x n h
    have hdigit : ∀ c ∈ (toString n).toList, c = '-' ∨ c.isDigit = true := by
      intro c hc
      cases n with
      | ofNat k => exact .inr (isDigit_of_mem_toString_nat hc)
      | negSucc k =>
        change c ∈ ("-" ++ toString (k + 1)).toList at hc
        rw [String.toList_append] at hc
        rcases List.mem_append.mp hc with hc | hc
        · exact .inl (List.mem_singleton.mp hc)
        · exact .inr (isDigit_of_mem_toString_nat hc)
    rw [← h] at hdigit
    cases x with
    | finite q => simpa using hdigit 'f' (by simp)
    | neg_zero => simpa using hdigit '.' (by decide)
    | _ => simpa using hdigit 'n' (by decide)
  float_ne_true := by
    intro x h
    have hhead := congrArg (fun s => s.toList.head?) h
    cases x with
    | finite q => simp at hhead
    | _ => exact absurd hhead (by decide)

inductive Json where
  | null
  | bool (b : Bool)
  | int (n : ℤ)
  | float (x : Double)
  | str (s : String)
  | list (xs : List Json)
  | obj (fields : List (String × Json))
  deriving Inhabited

/-- A `dict` with string keys, in insertion order. -/
abbrev Dict : Type := List (String × Json)

/-- What may raise. -/
abbrev Result (α : Type) : Type := Except Error α

/-! ## Dictionaries -/

namespace Dict

/-- `d.get(key)`. -/
def get (d : Dict) (key : String) : Json := (d.lookup key).getD .null

/-- `key in d`. -/
def contains (d : Dict) (key : String) : Bool := (d.lookup key).isSome

/-- `d[key] = v`, also `{**d, key: v}`. -/
def set : Dict → String → Json → Dict
  | [], key, v => [(key, v)]
  | (k, u) :: d, key, v => if k = key then (k, v) :: d else (k, u) :: set d key v

/-- `{**d, **e}`. -/
def update (d e : Dict) : Dict := e.foldl (fun d f => set d f.1 f.2) d

/-- `d.pop(key, None)`. -/
def without (d : Dict) (key : String) : Dict := d.filter fun e => decide (e.1 ≠ key)

/-- A new key comes last. -/
theorem set_of_notMem {d : Dict} {key : String} (h : key ∉ d.map Prod.fst) (v : Json) :
    set d key v = d ++ [(key, v)] := by
  induction d with
  | nil => rfl
  | cons e d ih =>
    obtain ⟨k, u⟩ := e
    rw [List.map_cons, List.mem_cons, not_or] at h
    rw [set, if_neg (Ne.symm h.1), ih h.2, List.cons_append]

/-- A key that was set is found with the value it was set to. -/
theorem lookup_set_self (d : Dict) (key : String) (v : Json) :
    List.lookup key (set d key v) = some v := by
  induction d with
  | nil => simp [set]
  | cons e d ih =>
    obtain ⟨k, u⟩ := e
    unfold set
    split
    · rename_i h
      subst h
      simp
    · rename_i h
      have hne : (key == k) = false := by simpa using Ne.symm h
      simp only [List.lookup_cons, hne, ih]

theorem lookup_set_ne (d : Dict) {key key' : String} (v : Json) (h : key' ≠ key) :
    List.lookup key' (set d key v) = List.lookup key' d := by
  induction d with
  | nil =>
    have hne : (key' == key) = false := by simpa using h
    simp only [set, List.lookup_cons, List.lookup_nil, hne]
  | cons e d ih =>
    obtain ⟨k, u⟩ := e
    unfold set
    split
    · rename_i hk
      subst hk
      have hne : (key' == k) = false := by simpa using h
      simp only [List.lookup_cons, hne]
    · simp only [List.lookup_cons, ih]

/-- Reading the key that was set gives its value. -/
@[simp] theorem get_set_self (d : Dict) (key : String) (v : Json) : get (set d key v) key = v := by
  rw [get, lookup_set_self]
  rfl

theorem get_set_ne (d : Dict) {key key' : String} (v : Json) (h : key' ≠ key) :
    get (set d key v) key' = get d key' := by
  rw [get, lookup_set_ne d v h, get]

/-- What an update says of a key replaces what was there. -/
theorem get_update {e : Dict} (he : (e.map Prod.fst).Nodup) (d : Dict) (key : String) :
    get (update d e) key = (List.lookup key e).getD (get d key) := by
  induction e generalizing d with
  | nil => rfl
  | cons f e ih =>
    obtain ⟨k, v⟩ := f
    rw [List.map_cons, List.nodup_cons] at he
    change get (update (set d k v) e) key = _
    rw [ih he.2, List.lookup_cons]
    by_cases hk : key = k
    · subst hk
      have hnone : List.lookup key e = none := by
        rw [List.lookup_eq_none_iff]
        intro p hp
        have hne : p.1 ≠ key := fun heq => he.1 (List.mem_map.mpr ⟨p, hp, heq⟩)
        simpa using Ne.symm hne
      rw [hnone, get_set_self, beq_self_eq_true]
      rfl
    · have hne : (key == k) = false := by simpa using hk
      rw [hne, get_set_ne d v hk]

end Dict

/-! ## Values -/

namespace Json

/-- `bool(x)`. -/
def truthy : Json → Bool
  | null => false
  | bool b => b
  | int n => decide (n ≠ 0)
  | float x => decide (x ≠ .finite 0 ∧ x ≠ .neg_zero)
  | str s => decide (s ≠ "")
  | list xs => !xs.isEmpty
  | obj fields => !fields.isEmpty

/-- `x or y`. -/
def or_else (x y : Json) : Json := if x.truthy then x else y

/-- `hash(x)` does not raise. -/
def hashable : Json → Bool
  | list _ | obj _ => false
  | _ => true

/-- The rational a number stands for; booleans are numbers. -/
def num : Json → Option ℚ
  | bool b => some (if b then 1 else 0)
  | int n => some n
  | float (.finite q) => some q
  | float .neg_zero => some 0
  | _ => none

mutual

/-- `x == y`. -/
def eq : Json → Json → Bool
  | null, null => true
  | str s, str t => decide (s = t)
  | list xs, list ys => eqList xs ys
  | obj fields, obj fields' =>
    decide (fields.length = fields'.length) && eqFields fields fields'
  | float .inf, float .inf | float .neg_inf, float .neg_inf => true
  -- numbers are equal by value, a bool is one of them, and nan equals nothing
  | x, y =>
    match x.num, y.num with
    | some p, some q => decide (p = q)
    | _, _ => false

def eqList : List Json → List Json → Bool
  | [], [] => true
  | x :: xs, y :: ys => eq x y && eqList xs ys
  | _, _ => false

/-- Each field has an equal one in the other object. -/
def eqFields : List (String × Json) → List (String × Json) → Bool
  | [], _ => true
  | (k, v) :: fields, others =>
    (match others.lookup k with
      | some v' => eq v v'
      | none => false) && eqFields fields others

end

/-- `x in [y, …]`, also in a set of them. -/
def elem (x : Json) (ys : List Json) : Bool := ys.any fun y => eq x y

theorem eq_str {x : Json} {s : String} : eq x (.str s) = true ↔ x = .str s := by
  cases x with
  | str t => simp [eq]
  | float y => cases y <;> simp [eq, num]
  | _ => simp [eq, num]

theorem str_eq {s : String} {x : Json} : eq (.str s) x = true ↔ x = .str s := by
  cases x with
  | str t =>
    simp only [eq, decide_eq_true_eq, str.injEq]
    exact eq_comm
  | float y => cases y <;> simp [eq, num]
  | _ => simp [eq, num]

@[simp] theorem eq_int_int (m n : ℤ) : eq (.int m) (.int n) = decide (m = n) := by
  simp [eq, num]

@[simp] theorem eq_str_str (s t : String) : eq (.str s) (.str t) = decide (s = t) := by
  simp [eq]

/-! ### Identity -/

mutual

/-- The same value, to the order of fields and the type of numbers. -/
def same : Json → Json → Bool
  | null, null => true
  | bool a, bool b => a == b
  | int m, int n => decide (m = n)
  | float x, float y => decide (x = y)
  | str s, str t => decide (s = t)
  | list xs, list ys => sameList xs ys
  | obj d, obj e => sameFields d e
  | _, _ => false

def sameList : List Json → List Json → Bool
  | [], [] => true
  | x :: xs, y :: ys => same x y && sameList xs ys
  | _, _ => false

def sameFields : List (String × Json) → List (String × Json) → Bool
  | [], [] => true
  | (k, x) :: d, (l, y) :: e => decide (k = l) && same x y && sameFields d e
  | _, _ => false

end

mutual

/-- The structural comparison decides equality of values. -/
theorem same_iff : ∀ x y : Json, same x y = true ↔ x = y
  | null, y => by cases y <;> simp [same]
  | bool a, y => by cases y <;> simp [same]
  | int m, y => by cases y <;> simp [same]
  | float a, y => by cases y <;> simp [same]
  | str s, y => by cases y <;> simp [same]
  | list xs, y => by
    cases y with
    | list ys => rw [same, sameList_iff xs ys, list.injEq]
    | _ => simp [same]
  | obj d, y => by
    cases y with
    | obj e => rw [same, sameFields_iff d e, obj.injEq]
    | _ => simp [same]

theorem sameList_iff : ∀ xs ys : List Json, sameList xs ys = true ↔ xs = ys
  | [], ys => by cases ys <;> simp [sameList]
  | x :: xs, ys => by
    cases ys with
    | nil => simp [sameList]
    | cons y ys =>
      rw [sameList, Bool.and_eq_true, same_iff x y, sameList_iff xs ys, List.cons.injEq]

theorem sameFields_iff : ∀ d e : List (String × Json), sameFields d e = true ↔ d = e
  | [], e => by cases e <;> simp [sameFields]
  | (k, x) :: d, e => by
    cases e with
    | nil => simp [sameFields]
    | cons p e =>
      obtain ⟨l, y⟩ := p
      rw [sameFields, Bool.and_eq_true, Bool.and_eq_true, decide_eq_true_eq, same_iff x y,
        sameFields_iff d e, List.cons.injEq, Prod.mk.injEq]

end

instance : DecidableEq Json := fun x y => decidable_of_iff _ (same_iff x y)

/-! ### Printing -/

mutual

/-- `repr(x)`. -/
def repr (p : Printer) : Json → String
  | null => "None"
  | bool b => if b then "True" else "False"
  | int n => toString n
  | float x => p.float x
  | str s => p.quote s
  | list xs => "[" ++ ", ".intercalate (reprs p xs) ++ "]"
  | obj fields => "\x7b" ++ ", ".intercalate (reprFields p fields) ++ "\x7d"

def reprs (p : Printer) : List Json → List String
  | [] => []
  | x :: xs => repr p x :: reprs p xs

def reprFields (p : Printer) : List (String × Json) → List String
  | [] => []
  | (k, v) :: fields => (p.quote k ++ ": " ++ repr p v) :: reprFields p fields

end

/-- `str(x)`. -/
def toStr (p : Printer) : Json → String
  | str s => s
  | x => repr p x

/-- One hexadecimal digit. -/
def hex (n : ℕ) : String :=
  String.singleton (if n < 10 then Char.ofNat (48 + n) else Char.ofNat (87 + n))

/-- A character of a JSON string, escaped where the format requires it. -/
def escape (c : Char) : String :=
  match c.toNat with
  | 34 => "\\\""
  | 92 => "\\\\"
  | 8 => "\\b"
  | 12 => "\\f"
  | 10 => "\\n"
  | 13 => "\\r"
  | 9 => "\\t"
  | n => if n < 32 then "\\u00" ++ hex (n / 16) ++ hex (n % 16) else String.singleton c

def quoted (s : String) : String := "\"" ++ String.join (s.toList.map escape) ++ "\""

/-- How JSON writes a float: the ones without a value have names of their own. -/
def float_text (p : Printer) : Double → String
  | .inf => "Infinity"
  | .neg_inf => "-Infinity"
  | .nan => "NaN"
  | x => p.float x

mutual

/-- `json.dumps(x, ensure_ascii=False, sort_keys=True, separators=(",", ":"))`. -/
def dumps (p : Printer) : Json → String
  | null => "null"
  | bool b => if b then "true" else "false"
  | int n => toString n
  | float x => float_text p x
  | str s => quoted s
  | list xs => "[" ++ ",".intercalate (dumpsList p xs) ++ "]"
  | obj fields =>
    let sorted := (dumpsFields p fields).insertionSort fun a b => a.1 ≤ b.1
    "\x7b" ++ ",".intercalate (sorted.map fun e => quoted e.1 ++ ":" ++ e.2) ++ "\x7d"

def dumpsList (p : Printer) : List Json → List String
  | [] => []
  | x :: xs => dumps p x :: dumpsList p xs

def dumpsFields (p : Printer) : List (String × Json) → List (String × String)
  | [] => []
  | (k, v) :: fields => (k, dumps p v) :: dumpsFields p fields

end

/-- A new line at a level of indentation. -/
def line_at (level : ℕ) : String := "\n" ++ String.ofList (List.replicate level ' ')

/-- The lines between two brackets. -/
def lines_between (opening closing : String) (level : ℕ) (lines : List String) : String :=
  if lines = [] then opening ++ closing
  else opening ++ line_at (level + 1) ++ (("," ++ line_at (level + 1)).intercalate lines) ++
    line_at level ++ closing

mutual

/-- `json.dumps(x, ensure_ascii=False, indent=1)`, at a level. -/
def pretty (p : Printer) (level : ℕ) : Json → String
  | null => "null"
  | bool b => if b then "true" else "false"
  | int n => toString n
  | float x => float_text p x
  | str s => quoted s
  | list xs => lines_between "[" "]" level (prettyList p (level + 1) xs)
  | obj fields => lines_between "\x7b" "\x7d" level (prettyFields p (level + 1) fields)

def prettyList (p : Printer) (level : ℕ) : List Json → List String
  | [] => []
  | x :: xs => pretty p level x :: prettyList p level xs

def prettyFields (p : Printer) (level : ℕ) : List (String × Json) → List String
  | [] => []
  | (k, v) :: fields => (quoted k ++ ": " ++ pretty p level v) :: prettyFields p level fields

end

/-! ### Operations that may raise -/

/-- `x.get(key)`. -/
def get (x : Json) (key : String) : Result Json :=
  match x with
  | obj fields => .ok (Dict.get fields key)
  | _ => .error .attribute_error

/-- `x[key]`. -/
def item (x : Json) (key : String) : Result Json :=
  match x with
  | obj fields =>
    match fields.lookup key with
    | some v => .ok v
    | none => .error .key_error
  | _ => .error .type_error

/-- What `for … in x` runs through. -/
def iter : Json → Result (List Json)
  | list xs => .ok xs
  | str s => .ok (s.toList.map fun c => .str (String.singleton c))
  | obj fields => .ok (fields.map fun e => .str e.1)
  | _ => .error .type_error

/-- `x in s` for a set `s`. -/
def in_set (x : Json) (s : List Json) : Result Bool :=
  if x.hashable then .ok (elem x s) else .error .type_error

/-- `x in s` for a set of strings. -/
def in_strings (x : Json) (s : List String) : Result Bool := x.in_set (s.map .str)

/-- `isinstance(x, str)`. -/
def is_str : Json → Bool
  | str _ => true
  | _ => false

/-- `isinstance(x, (int, float))`. -/
def is_num : Json → Bool
  | bool _ | int _ | float _ => true
  | _ => false

/-- Where a number stands among the numbers: infinities at the ends, `nan` nowhere. -/
def place (x : Json) : Option (ℤ × ℚ) :=
  match x with
  | float .inf => some (1, 0)
  | float .neg_inf => some (-1, 0)
  | x => x.num.map fun q => (0, q)

/-- `x < y` for two numbers. -/
def num_lt (x y : Json) : Bool :=
  match x.place, y.place with
  | some p, some q => decide (p.1 < q.1 ∨ (p.1 = q.1 ∧ p.2 < q.2))
  | _, _ => false

mutual

/-- `x < y`. -/
def lt : Json → Json → Result Bool
  | str s, str t => .ok (decide (s < t))
  | list xs, list ys => ltList xs ys
  | x, y => if x.is_num && y.is_num then .ok (num_lt x y) else .error .type_error

def ltList : List Json → List Json → Result Bool
  | _, [] => .ok false
  | [], _ :: _ => .ok true
  | x :: xs, y :: ys => if eq x y then ltList xs ys else lt x y

end

/-- What equality tells of a hashable value: the place of a number, or the string. -/
def hash_key : Json → Option (Option (ℤ × ℚ) × Option String)
  | null => some (none, none)
  | str s => some (none, some s)
  | list _ | obj _ => none
  | x => x.place.map fun p => (some p, none)

/-- Hashable values are equal when they have one key; `nan` has none. -/
theorem eq_iff_hash_key {x y : Json} (hx : x.hashable = true) (hy : y.hashable = true) :
    eq x y = true ↔ ∃ k, x.hash_key = some k ∧ y.hash_key = some k := by
  cases x with
  | list _ => cases hx
  | obj _ => cases hx
  | float a =>
    cases y with
    | list _ => cases hy
    | obj _ => cases hy
    | float b => cases a <;> cases b <;> simp [eq, hash_key, place, num] <;> exact eq_comm
    | _ => cases a <;> simp [eq, hash_key, place, num] <;> exact_mod_cast eq_comm
  | _ =>
    cases y with
    | list _ => cases hy
    | obj _ => cases hy
    | float b => cases b <;> simp [eq, hash_key, place, num] <;> exact_mod_cast eq_comm
    | _ => simp [eq, hash_key, place, num] <;> exact eq_comm

/-- The text of a string. -/
def text : Json → String
  | str s => s
  | _ => ""

/-- `sorted(xs, key=key)` for keys that are no containers: strings or numbers, not both. -/
def sorted_on {α : Type} (key : α → Json) (xs : List α) : Result (List α) :=
  if xs.length ≤ 1 then .ok xs
  else if xs.all fun x => (key x).is_str then
    .ok (xs.insertionSort fun a b => (key a).text ≤ (key b).text)
  else if xs.all fun x => (key x).is_num then
    .ok (xs.insertionSort fun a b => num_lt (key b) (key a) = false)
  else .error .type_error

/-- `x is b` for a boolean `b`. -/
def is_bool (b : Bool) : Json → Bool
  | bool c => c == b
  | _ => false

/-- `set.add`. -/
def add (s : List Json) (x : Json) : Result (List Json) :=
  if x.hashable then .ok (x :: s) else .error .type_error

/-- `s in x` for a string `s`. -/
def contains_str (x : Json) (s : String) : Result Bool :=
  match x with
  | str t => .ok (decide (s.toList <:+: t.toList))
  | list xs => .ok (elem (.str s) xs)
  | obj fields => .ok (Dict.contains fields s)
  | _ => .error .type_error

end Json

/-! ## Dictionaries with any keys -/

/-- A `dict` whose keys are hashable values. -/
abbrev Map (α : Type) : Type := List (Json × α)

namespace Map

variable {α : Type}

/-- `m.get(key)`, for a hashable key. -/
def find : Map α → Json → Option α
  | [], _ => none
  | (k, v) :: m, key => if Json.eq k key then some v else find m key

/-- `m[key] = v`, for a hashable key. -/
def put : Map α → Json → α → Map α
  | [], key, v => [(key, v)]
  | (k, u) :: m, key, v => if Json.eq k key then (k, v) :: m else (k, u) :: put m key v

/-- `m[key] = v`. -/
def set (m : Map α) (key : Json) (v : α) : Result (Map α) :=
  if key.hashable then .ok (m.put key v) else .error .type_error

def keys (m : Map α) : List Json := m.map Prod.fst

/-- A key of a map into which one was put was there, or is that one. -/
theorem mem_keys_put {m : Map α} {key k : Json} {v : α} (h : k ∈ (m.put key v).keys) :
    k ∈ m.keys ∨ k = key := by
  induction m with
  | nil => exact .inr (List.mem_singleton.mp h)
  | cons e m ih =>
    obtain ⟨l, u⟩ := e
    unfold put at h
    split at h
    · exact .inl h
    · rcases List.mem_cons.mp h with rfl | h
      · exact .inl List.mem_cons_self
      · exact (ih h).imp_left (List.mem_cons_of_mem l)

/-- What is found stands in the map under an equal key. -/
theorem find_mem {m : Map α} {key : Json} {v : α} (h : m.find key = some v) :
    ∃ k, (k, v) ∈ m ∧ Json.eq k key = true := by
  induction m with
  | nil => cases h
  | cons e m ih =>
    obtain ⟨l, u⟩ := e
    unfold find at h
    split at h
    · cases h
      exact ⟨l, List.mem_cons_self, ‹_›⟩
    · obtain ⟨k, hk, heq⟩ := ih h
      exact ⟨k, List.mem_cons_of_mem _ hk, heq⟩

/-- A key is new, or its value is replaced in place. -/
theorem put_cases (m : Map α) (key : Json) (v : α) :
    (m.find key = none ∧ m.put key v = m ++ [(key, v)] ∧ ∀ e ∈ m, Json.eq e.1 key = false) ∨
      ∃ before k u after, m = before ++ (k, u) :: after ∧ Json.eq k key = true ∧
        m.find key = some u ∧
        m.put key v = before ++ (k, v) :: after := by
  induction m with
  | nil => exact .inl ⟨rfl, rfl, by simp⟩
  | cons e m ih =>
    obtain ⟨l, w⟩ := e
    unfold find put
    by_cases heq : Json.eq l key = true
    · rw [if_pos heq, if_pos heq]
      exact .inr ⟨[], l, w, m, rfl, heq, rfl, rfl⟩
    · rw [if_neg heq, if_neg heq]
      rcases ih with ⟨hfind, hput, hall⟩ | ⟨before, k, u, after, rfl, hk, hfind, hput⟩
      · refine .inl ⟨hfind, by rw [hput, List.cons_append], ?_⟩
        exact List.forall_mem_cons.mpr ⟨Bool.not_eq_true _ ▸ heq, hall⟩
      · exact .inr ⟨(l, w) :: before, k, u, after, rfl, hk, hfind, by rw [hput, List.cons_append]⟩

end Map

end Py
