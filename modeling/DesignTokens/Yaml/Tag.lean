import DesignTokens.Timestamp

/-!
# YAML tags

The tag of a node says of what sort its value is. A plain scalar without a tag of its own has the tag that
its text suggests: a word for a truth value, digits of a number, a date. Everything else is text. A line end
behind the text of a scalar in quotes does not change what the text suggests.

* `ofPlain_nil` — a plain scalar without text is null.
-/

namespace DesignTokens.Yaml

inductive Tag where
  | null
  | bool
  | int
  | float
  | string
  | timestamp
  | binary
  | sequence
  | mapping
  | set
  /-- A sequence of pairs. -/
  | pairs
  /-- The key that merges other mappings into its own. -/
  | merge
  /-- The key that marks a default value. -/
  | default
  /-- A tag without meaning here. -/
  | unknown
  deriving DecidableEq, Repr

namespace Tag

/-- What the tags of the standard sorts start with. -/
def standard : String := "tag:yaml.org,2002:"

def ofText (text : String) : Tag :=
  ([("null", null), ("bool", bool), ("int", int), ("float", float), ("str", string), ("timestamp", timestamp),
    ("binary", binary), ("seq", sequence), ("map", mapping), ("set", set), ("omap", pairs),
    ("pairs", pairs), ("merge", merge), ("value", default)].find? fun known => standard ++ known.1 == text).elim unknown (·.2)

/-! ### What plain text suggests -/

def isDigitOrLow (c : Char) : Bool := c.isDigit || c == '_'

/-- A digit and then digits and underscores. -/
def isDigits : List Char → Bool
  | c :: rest => c.isDigit && rest.all isDigitOrLow
  | [] => false

/-- Two sexagesimal digits, of which the first may be missing. -/
def isSixty : List Char → Bool
  | [c] => c.isDigit
  | [a, b] => '0' ≤ a && a ≤ '5' && b.isDigit
  | _ => false

/-- The parts of a text between colons. -/
def colonParts (cs : List Char) : List (List Char) := cs.splitOn ':'

/-- An integer without its sign. -/
def isUnsignedInt : List Char → Bool
  | ['0'] => true
  | '0' :: 'b' :: rest => !rest.isEmpty && rest.all fun c => c == '0' || c == '1' || c == '_'
  | '0' :: 'x' :: rest => !rest.isEmpty && rest.all fun c => (Number.Literal.hexValue? c).isSome || c == '_'
  | '0' :: rest => !rest.isEmpty && rest.all fun c => ('0' ≤ c && c ≤ '7') || c == '_'
  | cs =>
    match colonParts cs with
    | first :: rest => isDigits first && rest.all isSixty
    | [] => false

def isInt (cs : List Char) : Bool := isUnsignedInt (Number.Literal.signAndRest cs).2

/-- An exponent, whose sign must be there, or nothing. -/
def isExponent : List Char → Bool
  | [] => true
  | mark :: sign :: digits =>
    (mark == 'e' || mark == 'E') && (sign == '+' || sign == '-') && !digits.isEmpty && digits.all Char.isDigit
  | _ => false

/-- A number with a point, without its sign. -/
def isUnsignedFloat (cs : List Char) : Bool :=
  match cs.span (· ≠ '.') with
  | (whole, '.' :: rest) =>
    let tail := rest.dropWhile isDigitOrLow
    match colonParts whole with
    | [digits] => isDigits digits && isExponent tail
    | first :: sixties => isDigits first && sixties.all isSixty && tail.isEmpty
    | [] => false
  | _ => false

def isFloat (cs : List Char) : Bool :=
  let unsigned := (Number.Literal.signAndRest cs).2
  isUnsignedFloat unsigned ||
    [".inf", ".Inf", ".INF"].contains (String.ofList unsigned) ||
    [".nan", ".NaN", ".NAN"].contains (String.ofList cs) ||
    match cs with
    | '.' :: rest => isDigits (rest.takeWhile isDigitOrLow) && isExponent (rest.dropWhile isDigitOrLow)
    | _ => false

/-- The words for truth values. -/
def truthWords : List String :=
  ["yes", "Yes", "YES", "no", "No", "NO", "true", "True", "TRUE", "false", "False", "FALSE",
   "on", "On", "ON", "off", "Off", "OFF"]

/-- The tag that a text suggests. -/
def ofWord (text : String) : Tag :=
  let cs := text.toList
  if truthWords.contains text then bool
  else if isFloat cs then float
  else if isInt cs then int
  else if text = "<<" then merge
  else if ["~", "null", "Null", "NULL", ""].contains text then null
  else if Timestamp.isPlain cs then timestamp
  else if text = "=" then default
  else if ["!", "&", "*"].contains text then unknown
  else string

/-- A text without the line end behind it. -/
def withoutLineEnd (cs : List Char) : List Char := if cs.getLast? = some '\n' then cs.dropLast else cs

/-- The tag of a scalar that is taken for plain. -/
def ofPlain (text : String) : Tag := if text = "\n" then string else ofWord (String.ofList (withoutLineEnd text.toList))

theorem ofPlain_nil : ofPlain "" = null := by
  rfl

end Tag

end DesignTokens.Yaml
