/-
Paths with slashes, as texts.

A path has a name, a parent and a stem, and one path can be written relative to another. No
part of a path is empty, a dot or two dots.
-/
import Mathlib.Data.List.DropRight

set_option autoImplicit false

namespace Paths

/-- What comes after the last slash. -/
def name (path : String) : String := String.ofList (path.toList.rtakeWhile (· ≠ '/'))

/-- What comes before the last slash; nothing where there is none. -/
def parent (path : String) : String := String.ofList (path.toList.rdropWhile (· ≠ '/')).dropLast

/-- A name up to its last dot, when there is something on both sides of it. -/
def stem (name : String) : String :=
  let cs := name.toList
  let suffix := cs.rtakeWhile (· ≠ '.')
  let before := (cs.rdropWhile (· ≠ '.')).dropLast
  if '.' ∈ cs ∧ before ≠ [] ∧ suffix ≠ [] then String.ofList before else name

def parts (path : String) : List String :=
  ((path.toList.splitOn '/').filter (· ≠ [])).map String.ofList

/-- How many parts two paths begin with in common. -/
def common : List String → List String → ℕ
  | a :: as, b :: bs => if a = b then common as bs + 1 else 0
  | _, _ => 0

/-- `relpath(target, start)`. -/
def relpath (target start : String) : String :=
  let i := common (parts start) (parts target)
  let rel := List.replicate ((parts start).length - i) ".." ++ (parts target).drop i
  if rel = [] then "." else "/".intercalate rel

end Paths
