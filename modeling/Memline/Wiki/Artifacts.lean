/-
Hashes of wiki artifacts, and what the wiki modules take from the language.
-/
import Memline.Mem0
import Memline.Lib.Json

set_option autoImplicit false

namespace Memline.wiki

open Py

/-- What the code does not decide: how values print, the hash, what `int` reads in a
string, and the sum of a float and one. -/
structure Runtime extends Printer where
  sha256 : String → String
  /-- A digest is not empty. -/
  sha256_ne : ∀ text, sha256 text ≠ ""
  parse_int : String → Option ℤ
  float_succ : Double → Double

/-- A runtime to try the definitions in: its digest of a text is the text, marked. -/
def Runtime.plain : Runtime where
  toPrinter := .plain
  sha256 text := "#" ++ text
  sha256_ne text h := absurd (congrArg (fun s => s.toList.head?) h) (by simp)
  parse_int text := text.toInt?
  float_succ
    | .finite q => .finite (q + 1)
    | .neg_zero => .finite 1
    | x => x

theorem Runtime.plain_injective : Function.Injective Runtime.plain.sha256 := by
  intro s t h
  exact (String.append_right_inj "#").mp h

variable (rt : Runtime)

def sha256_text (text : String) : String := rt.sha256 text

/-- Serialize a JSON-compatible value with stable ordering and spacing. -/
def canonical_json (value : Json) : String := value.dumps rt.toPrinter

/-- Hash a complete JSON-compatible artifact. -/
def artifact_sha256 (value : Json) : String := sha256_text rt (canonical_json rt value)

/-- Hash an artifact while omitting the field that stores its own hash. -/
def content_hash (value : Dict) (excluded_field : String) : String :=
  artifact_sha256 rt (.obj (Dict.without value excluded_field))

/-- An f-string's text of a value. -/
def fmt (value : Json) : String := value.toStr rt.toPrinter

/-- `not isinstance(value, str) or not value.strip()`. -/
def blank (value : Json) : Bool :=
  match value with
  | .str s => decide (Mem0.strip s = "")
  | _ => true

/-- One entry of a list of findings. -/
def finding (kind : String) (fields : Dict := []) : Json := .obj (("kind", .str kind) :: fields)

/-- What `for … in value or []` runs through. -/
def entries (value : Json) : Result (List Json) := (value.or_else (.list [])).iter

end Memline.wiki
