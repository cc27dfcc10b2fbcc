import DesignTokens.Json.Value
import DesignTokens.Timestamp

/-!
# Undecoded data

What a reader of JSON or YAML text makes of it, before anything is known about its meaning. Names may
repeat, may be no texts at all (YAML), and some YAML values have no counterpart in JSON; all this is for
the decoder to judge.

The lists and mappings of a YAML text may be named in several places, and even inside themselves. They are
kept as parts, and data refers to a part by its number.

* `DataGraph.whole_ofDatum` — data without parts is what it is.
-/

namespace DesignTokens

inductive Datum where
  | null
  | bool (value : Bool)
  | int (value : Int)
  /-- A double; with the number of its source if it is no number and may be in several places. -/
  | float (value : Float) (origin : Option Nat := none)
  | string (value : String)
  | bytes (value : List UInt8)
  | timestamp (value : Timestamp)
  | list (items : List Datum)
  | map (members : List (Datum × Datum))
  | set (items : List Datum)
  /-- An item of a list of pairs. -/
  | pair (first second : Datum)
  /-- The part of a number. -/
  | part (number : Nat)
  deriving Inhabited

/-- Data with the parts that it refers to. -/
structure DataGraph where
  root : Datum
  parts : Array Datum := #[]
  deriving Inhabited

/-- Data, or the part that it refers to. -/
def Datum.whole (parts : Array Datum) : Datum → Datum
  | .part number => parts[number]?.getD .null
  | d => d

namespace Datum

mutual

/-- A free-form value as undecoded data. -/
def ofJson : Json → Datum
  | .null => .null
  | .bool b => .bool b
  | .int n => .int n
  | .float x origin => .float x origin
  | .string s => .string s
  | .list items => .list (ofItems items)
  | .object members => .map (ofMembers members)

def ofItems : List Json → List Datum
  | [] => []
  | item :: rest => ofJson item :: ofItems rest

def ofMembers : List (String × Json) → List (Datum × Datum)
  | [] => []
  | (name, value) :: rest => (.string name, ofJson value) :: ofMembers rest

end

/-- Data that counts as an absent document. -/
def isBlank : Datum → Bool
  | .null => true
  | .bool b => !b
  | .int n => n == 0
  | .float x _ => x == 0.0
  | .string s => s.isEmpty
  | .bytes content => content.isEmpty
  | .list items => items.isEmpty
  | .map members => members.isEmpty
  | .set items => items.isEmpty
  | .timestamp _ => false
  | .pair .. => false
  | .part _ => false

end Datum

namespace DataGraph

/-- Data that has no parts. -/
def ofDatum (data : Datum) : DataGraph := ⟨data, #[]⟩

/-- The data at the top. -/
def whole (g : DataGraph) : Datum := g.root.whole g.parts

/-- Whether there is nothing but data that counts as an absent document. -/
def isBlank (g : DataGraph) : Bool := g.whole.isBlank

theorem whole_ofDatum {data : Datum} (h : ∀ number, data ≠ .part number) : (ofDatum data).whole = data := by
  cases data <;> simp_all [ofDatum, whole, Datum.whole]

end DataGraph

end DesignTokens
