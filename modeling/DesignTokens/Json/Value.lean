import DesignTokens.Number.Double

/-!
# Free-form values

The values of custom parameters and of font attributes: JSON with integers of any size kept apart from
doubles. The members of an object are in the order they were written, each name once.

`Json.equal` compares values as data: a number equals a number of the same value whatever its type, truth
values count as 0 and 1, and the order of an object's members does not matter. A double that is no number
equals itself alone: one that several places of a document share has an origin to tell it by.

* `equalItems_length`, `Json.member?_object` — small facts of comparison and lookup.
-/

namespace DesignTokens

inductive Json where
  | null
  | bool (value : Bool)
  | int (value : Int)
  /-- A double; with the number of its source if it is no number and may be in several places. -/
  | float (value : Float) (origin : Option Nat := none)
  | string (value : String)
  | list (items : List Json)
  | object (members : List (String × Json))
  deriving Inhabited

namespace Json

/-- The number that a truth value or an integer stands for. -/
def integer? : Json → Option Int
  | .bool b => some (if b then 1 else 0)
  | .int n => some n
  | _ => none

/-- Equality of numbers and truth values, exact between integers and doubles. -/
def equalNumbers (a b : Json) : Bool :=
  match a, b with
  | .float x source, .float y other => x == y || (source.isSome && source == other)
  | .float x _, other => (integer? other).any (Number.equalsInt x)
  | other, .float y _ => (integer? other).any (Number.equalsInt y)
  | a, b =>
    match integer? a, integer? b with
    | some m, some n => m == n
    | _, _ => false

mutual

/-- Equality as data. -/
def equal : Json → Json → Bool
  | .null, .null => true
  | .string s, .string t => s == t
  | .list xs, .list ys => equalItems xs ys
  | .object fields, .object others =>
    fields.length == others.length && coveredBy fields others
  | .null, _ => false
  | .string _, _ => false
  | .list _, _ => false
  | .object _, _ => false
  | a, b => equalNumbers a b

/-- Equality item by item. -/
def equalItems : List Json → List Json → Bool
  | [], [] => true
  | x :: xs, y :: ys => equal x y && equalItems xs ys
  | _, _ => false

/-- Whether each member has an equal member of the same name among the others. -/
def coveredBy : List (String × Json) → List (String × Json) → Bool
  | [], _ => true
  | (name, value) :: rest, others =>
    (match others.lookup name with
      | some other => equal value other
      | none => false) && coveredBy rest others

end

/-- The member of an object with the given name. -/
def member? (name : String) : Json → Option Json
  | .object members => members.lookup name
  | _ => none

def isNull : Json → Bool
  | .null => true
  | _ => false

/-- Whether a value counts as given: null, false, zero and what is empty do not. -/
def isTruthy : Json → Bool
  | .null => false
  | .bool b => b
  | .int n => n != 0
  | .float x _ => !(x == 0.0)
  | .string s => !s.isEmpty
  | .list items => !items.isEmpty
  | .object members => !members.isEmpty

theorem equalItems_length {xs ys : List Json} (h : equalItems xs ys = true) :
    xs.length = ys.length := by
  induction xs generalizing ys with
  | nil => cases ys <;> simp_all [equalItems]
  | cons x xs ih =>
    cases ys with
    | nil => simp [equalItems] at h
    | cons y ys =>
      simp only [equalItems, Bool.and_eq_true] at h
      simp [ih h.2]

theorem member?_object (name : String) (members : List (String × Json)) :
    (Json.object members).member? name = members.lookup name := rfl

end Json

end DesignTokens
