import DesignTokens.Fault
import DesignTokens.Json.Value
import DesignTokens.Number.Integer
import DesignTokens.Text.Digit

/-!
# Key paths

A key path such as `card.items.0` leads from a value through members of objects and positions in lists. A
negative position counts from the end. A path is walked as the list of its segments, and the walk along two
paths one after the other is the walk along both (`walk_append`).

* `walk_append` — walking `p ++ q` is walking `p` and then `q`.
* `join_nil`, `join_singleton` — empty parts leave no trace in a joined path.
-/

namespace DesignTokens.KeyPath

/-- The segments of a path; the empty path has none. -/
def split (path : String) : List String :=
  if path.isEmpty then [] else path.splitOn "."

/-- The path through all parts that are not empty. -/
def join (parts : List String) : String :=
  ".".intercalate (parts.filter fun part => !part.isEmpty)

/-- The value of a run of decimal digits. -/
def decimalRun? : List Char → Option Nat
  | [] => none
  | digits =>
    digits.foldl (fun total c => do
      let t ← total
      let v ← Text.decimalValue? c
      return t * 10 + v) (some 0)

/-- A segment made of hyphens and then digits of any sort is meant as a position. -/
def isPosition (segment : String) : Bool :=
  let digits := segment.toList.dropWhile (· == '-')
  !digits.isEmpty && digits.all Text.isAnyDigit

/-- The integer a position is written as: one hyphen at most, and decimal digits only. -/
def position? (segment : String) : Option Int :=
  let magnitude (cs : List Char) : Option Nat :=
    if cs.length ≤ Number.maximalDigits then decimalRun? cs else none
  match segment.toList with
  | '-' :: digits => (magnitude digits).map fun n => -(n : Int)
  | digits => (magnitude digits).map fun n => (n : Int)

/-- The item at a position, from the end if it is negative. -/
def item? (items : List Json) (index : Int) : Option Json :=
  if 0 ≤ index then items[index.toNat]?
  else if index.natAbs ≤ items.length then items[items.length - index.natAbs]?
  else none

/-- One step into a value; `none` if the segment does not match it. -/
def step (value : Json) (segment : String) : Except Fault (Option Json) :=
  match value with
  | .object members => .ok (members.lookup segment)
  | .list items =>
    if isPosition segment then
      match position? segment with
      | some index => .ok (item? items index)
      | none => .error (.indexNotInteger segment)
    else .ok none
  | _ => .ok none

/-- The walk along the segments; it ends as soon as one does not match. -/
def walk (value : Json) : List String → Except Fault (Option Json)
  | [] => .ok (some value)
  | segment :: rest =>
    match step value segment with
    | .error fault => .error fault
    | .ok none => .ok none
    | .ok (some inner) => walk inner rest

/-- The value at a key path. -/
def valueAt (value : Json) (path : String) : Except Fault (Option Json) :=
  walk value (split path)

theorem walk_append (value : Json) (p q : List String) :
    walk value (p ++ q) =
      match walk value p with
      | .error fault => .error fault
      | .ok none => .ok none
      | .ok (some inner) => walk inner q := by
  induction p generalizing value with
  | nil => simp [walk]
  | cons segment rest ih =>
    simp only [List.cons_append, walk]
    split <;> simp_all

theorem join_nil : join [] = "" := rfl

theorem join_singleton (part : String) : join [part] = part := by
  unfold join
  by_cases h : part.isEmpty = true
  · have : part = "" := by simpa using h
    subst this; rfl
  · simp [h]

end DesignTokens.KeyPath
