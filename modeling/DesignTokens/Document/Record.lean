import DesignTokens.Datum
import DesignTokens.Document.Scalar
import DesignTokens.Json.Display
import DesignTokens.Mapping

/-!
# Decoding records, mappings and lists

A record is read field by field. A field has two spellings, its words run together (`lineWidth`) or joined
by underscores (`line_width`); the first one wins. Of a field given twice the last one counts, and unknown
fields are ignored.

Data may lie inside itself. Records, mappings and lists that do are read all the same, since what they are
made of ends somewhere; a document or a free-form value that does is endless.

* `Datum.json_endless` — a free-form value inside itself is a problem.
-/

namespace DesignTokens

/-- The name of a record's field, word by word. -/
structure FieldName where
  first : String
  others : List String := []

namespace FieldName

/-- A word with its first letter in upper case. -/
def capitalized (word : String) : String :=
  match word.toList with
  | c :: rest => String.ofList (c.toUpper :: rest)
  | [] => ""

/-- The words run together, each but the first with a capital. -/
def joined (f : FieldName) : String := f.others.foldl (fun name word => name ++ capitalized word) f.first

/-- The words with underscores between them. -/
def underscored (f : FieldName) : String := "_".intercalate (f.first :: f.others)

end FieldName

/-- The members of a record, as undecoded data. -/
abbrev Record := List (Datum × Datum)

namespace Record

/-- The last member under a name. -/
def lastNamed? (name : String) : Record → Option Datum
  | [] => none
  | (key, value) :: rest =>
    match lastNamed? name rest with
    | some found => some found
    | none =>
      match key with
      | .string s => if s = name then some value else none
      | _ => none

/-- A field under either of its spellings, with the spelling it has. -/
def field? (record : Record) (name : FieldName) : Option (String × Datum) :=
  match record.lastNamed? name.joined with
  | some value => some (name.joined, value)
  | none => (record.lastNamed? name.underscored).map (name.underscored, ·)

/-- A field, or a default if the record does not have it. -/
def getD {α : Type} (record : Record) (name : FieldName) (decode : Datum → Checked α) (default : α) :
    Checked α :=
  match record.field? name with
  | some (spelling, value) => (decode value).below (.name spelling)
  | none => .ok default

/-- A field that may be null or missing. -/
def optional {α : Type} (record : Record) (name : FieldName) (decode : Datum → Checked α) :
    Checked (Option α) :=
  record.getD name (fun | .null => .ok none | value => (decode value).map some) none

/-- A field that the record must have. -/
def required {α : Type} (record : Record) (name : FieldName) (decode : Datum → Checked α) : Checked α :=
  match record.field? name with
  | some (spelling, value) => (decode value).below (.name spelling)
  | none => (Checked.fail .missing).below (.name name.joined)

end Record

namespace Datum

/-- Where data is decoded. -/
structure Context where
  /-- The parts that data refers to. -/
  parts : Array Datum := #[]
  /-- Whether an integer beyond the range of doubles is infinite where a number is wanted. -/
  saturates : Bool := true
  /-- How many documents and free-form values may lie inside one another. -/
  depth : Nat := 254
  /-- The parts that are being decoded as documents. -/
  documents : List Nat := []
  /-- The parts that are being decoded as free-form values. -/
  values : List Nat := []

namespace Context

/-- The context inside a document; none if it is inside itself. -/
def insideDocument? (c : Context) : Datum → Option Context
  | .part number =>
    if c.documents.contains number then none else some { c with documents := number :: c.documents }
  | _ => some c

/-- The context inside a free-form value; none if it is inside itself. -/
def insideValue? (c : Context) : Datum → Option Context
  | .part number =>
    if c.values.contains number then none else some { c with values := number :: c.values }
  | _ => some c

end Context

/-- The members of data that must be a record. -/
def record (c : Context) (data : Datum) : Checked Record :=
  match data.whole c.parts with
  | .map members => .ok members
  | _ => .fail .notRecord

/-- The step that a key is in the place of a problem. -/
def keyStep : Datum → Step
  | .string s => .name (Text.lossy s)
  | .bool b => .index (if b then 1 else 0)
  | .int n => if -(Nat.pow 2 63 : Int) ≤ n ∧ n < Nat.pow 2 63 then .index n else .name (toString n)
  | .null => .name (Json.quoted .null)
  | .float x _ => .name (Json.quoted (.float x))
  | .bytes content => .name (Text.quotedBytes content)
  | .timestamp t => .name t.text
  | .list _ | .map _ | .set _ | .pair .. | .part _ => .name "()"

/-- A key that must be a text. -/
def keyText (key : Datum) : Checked String := (Scalar.text key).below (.name "[key]")

/-- The values under their names, each decoded; a later value under a name replaces the earlier one. -/
def namedValues {α : Type} (decode : Datum → Checked α) (members : List (Datum × Datum)) :
    Checked (Mapping α) :=
  (Checked.all (members.map fun (key, value) =>
    ((keyText key).pair (decode value)).below (keyStep key))).map Mapping.ofList

/-- The values at their positions, each decoded. -/
def listedValues {α : Type} (decode : Datum → Checked α) (values : List Datum) : Checked (List α) :=
  Checked.all (values.mapIdx fun i value => (decode value).below (.index i))

/-- The values of a mapping under their names. -/
def mapping {α : Type} (c : Context) (decode : Datum → Checked α) (data : Datum) : Checked (Mapping α) :=
  match data.whole c.parts with
  | .map members => namedValues decode members
  | _ => .fail .notMapping

/-- The values in a list or a set. -/
def items {α : Type} (c : Context) (decode : Datum → Checked α) (data : Datum) : Checked (List α) :=
  match data.whole c.parts with
  | .list values => listedValues decode values
  | .set values => listedValues decode values
  | .pair first second => listedValues decode [first, second]
  | _ => .fail .notList

/-- A free-form value at most so deep, if it is one that JSON knows. -/
def jsonWithin : (depth : Nat) → Context → Datum → Checked Json
  | 0, _, _ => .fail .endless
  | depth + 1, c, data =>
    match c.insideValue? data with
    | none => .fail .endless
    | some c =>
      match data.whole c.parts with
      | .null => .ok .null
      | .bool b => .ok (.bool b)
      | .int n => .ok (.int n)
      | .float x origin => .ok (.float x origin)
      | .string s => .ok (.string s)
      | .list values => ((listedValues (jsonWithin depth c) values).map Json.list).below (.name "list")
      | .map members =>
        ((namedValues (jsonWithin depth c) members).map (Json.object ·.toList)).below (.name "dict")
      | .bytes _ | .timestamp _ | .set _ | .pair .. | .part _ => .fail .notJsonValue

/-- A free-form value, if it is one that JSON knows. -/
def json (c : Context) (data : Datum) : Checked Json := jsonWithin c.depth c data

theorem json_endless {c : Context} {number : Nat} (h : number ∈ c.values) :
    json c (.part number) = .fail .endless := by
  unfold json
  cases c.depth <;> simp [jsonWithin, Context.insideValue?, h]

end Datum

end DesignTokens
