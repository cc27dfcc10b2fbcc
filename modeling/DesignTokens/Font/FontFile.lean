import DesignTokens.Bytes

/-!
# Font files

A font file starts with a directory of tables. Of its tables only `name` is read, which holds texts under
numbers, among them the names of the family and of the style. The tables that every font needs must be there.

* `names?_of_headless` — a file without the tables that every font needs is no font.
-/

namespace DesignTokens

/-- A table: where it starts in the file, and its length. -/
structure FontTable where
  tag : String
  offset : Nat
  length : Nat
  deriving DecidableEq, Repr

namespace FontFile

/-- The four letters at an offset. -/
def tag? (content : ByteArray) (offset : Nat) : Option String :=
  if offset + 4 ≤ content.size then
    some (String.ofList ((content.extract offset (offset + 4)).toList.map fun b => Char.ofNat b.toNat))
  else none

/-- The table that an entry of the directory describes, if it lies within the file. -/
def table? (content : ByteArray) (index : Nat) : Option FontTable := do
  let entry := 12 + 16 * index
  let tag ← tag? content entry
  let offset ← Bytes.number? content (entry + 8) 4
  let length ← Bytes.number? content (entry + 12) 4
  if offset + length ≤ content.size then some ⟨tag, offset, length⟩ else none

/-- How a file with TrueType outlines starts. -/
def versions : List Nat := [0x00010000, 0x74727565]

/-- The tables of a file, none if it does not start as a font. -/
def tables (content : ByteArray) : List FontTable :=
  match Bytes.number? content 0 4, Bytes.number? content 4 2 with
  | some version, some count =>
    if versions.contains version then (List.range count).filterMap (table? content) else []
  | _, _ => []

/-- The tables that every font needs, with their least lengths. -/
def needed : List (String × Nat) := [("head", 54), ("hhea", 36), ("hmtx", 0)]

def hasNeeded (tables : List FontTable) : Bool :=
  needed.all fun (tag, length) => tables.any fun table => table.tag == tag && length ≤ table.length

/-- A text of a name table: which text it is, in which language, and where. -/
structure NameRecord where
  nameId : Nat
  isEnglish : Bool
  offset : Nat
  length : Nat
  deriving DecidableEq, Repr

/-- The language numbers of English in all countries are equal in these bits. -/
def languageBits : Nat := 0x3ff

def english : Nat := 9

/-- A record of a name table, if it is a text in 16-bit units that lies within the table. -/
def record? (content : ByteArray) (table : FontTable) (texts index : Nat) : Option NameRecord := do
  let entry := table.offset + 6 + 12 * index
  let platform ← Bytes.number? content entry 2
  let encoding ← Bytes.number? content (entry + 2) 2
  let language ← Bytes.number? content (entry + 4) 2
  let nameId ← Bytes.number? content (entry + 6) 2
  let length ← Bytes.number? content (entry + 8) 2
  let start ← Bytes.number? content (entry + 10) 2
  let offset := texts + start
  if platform = 3 ∧ encoding = 1 ∧ 0 < length ∧ offset + length ≤ table.offset + table.length then
    some { nameId, isEnglish := language % (languageBits + 1) = english, offset, length }
  else none

def records (content : ByteArray) (table : FontTable) : List NameRecord :=
  match Bytes.number? content (table.offset + 2) 2, Bytes.number? content (table.offset + 4) 2 with
  | some count, some texts =>
    (List.range count).filterMap (record? content table (table.offset + texts))
  | _, _ => []

/-- The 16-bit units in bytes. -/
def units : List UInt8 → List Nat
  | high :: low :: rest => (high.toNat * 256 + low.toNat) :: units rest
  | _ => []

/-- The text of a record up to its first zero. Characters beyond ASCII, and controls, read as question
marks. -/
def text (content : ByteArray) (r : NameRecord) : String :=
  let codes := (units (content.extract r.offset (r.offset + r.length)).toList).takeWhile (· ≠ 0)
  String.ofList (codes.map fun code => if code < 32 ∨ 127 < code then '?' else Char.ofNat code)

/-- The record of a name: the last English one, else the first. -/
def select? (nameId : Nat) (records : List NameRecord) : Option NameRecord :=
  let named := records.filter (·.nameId == nameId)
  (named.filter (·.isEnglish)).getLast? <|> named.head?

/-- The text under a number. -/
def name? (content : ByteArray) (records : List NameRecord) (nameId : Nat) : Option String :=
  (select? nameId records).map (text content)

/-- The names of the family and of the style in a font file; nothing if the file is no font. -/
def names? (content : ByteArray) : Option (Option String × Option String) :=
  let tables := tables content
  if hasNeeded tables then
    let found := (tables.find? (·.tag == "name")).elim [] (records content)
    some (name? content found 1, name? content found 2)
  else none

theorem names?_of_headless {content : ByteArray} (h : hasNeeded (tables content) = false) :
    names? content = none := by
  simp [names?, h]

end FontFile

end DesignTokens
