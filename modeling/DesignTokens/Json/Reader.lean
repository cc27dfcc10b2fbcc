import DesignTokens.Datum
import DesignTokens.Number.Integer
import DesignTokens.Text.Half

/-!
# Reading JSON text

The grammar is JSON's with three more numbers, `NaN`, `Infinity` and `-Infinity`. The digits of an integer
are limited in number, and so is the nesting of lists and objects, in which empty ones do not count. Whether
a half of a surrogate pair may stand alone and whether the limit of digits holds for all numbers depends on
the dialect. Every reader takes the rest of the text and returns what it read with what is left; `none` is a
text that is not JSON.

The readers of values and of string bodies count down a bound on their steps. Each step uses up a character,
so the length of the text is a bound that no text exhausts.
-/

namespace DesignTokens.Json

/-- What a text may hold besides the grammar. -/
structure Dialect where
  /-- The deepest nesting of lists and objects that are not empty. -/
  depth : Nat
  /-- Whether half a surrogate pair is a character. -/
  allowsHalves : Bool
  /-- Whether the digits of all numbers are limited in number, or those of integers alone. -/
  limitsAllDigits : Bool

/-- The dialect of documents. -/
def Dialect.document : Dialect := ⟨200, false, true⟩

/-- The dialect of a value inside other text. -/
def Dialect.embedded : Dialect := ⟨900, true, false⟩

namespace Reader

def isSpace (c : Char) : Bool := c == ' ' || c == '\n' || c == '\t' || c == '\r'

def skipSpaces (cs : List Char) : List Char := cs.dropWhile isSpace

/-- The text behind a given word. -/
def after? (word : String) (cs : List Char) : Option (List Char) :=
  if word.toList.isPrefixOf cs then some (cs.drop word.length) else none

/-- Four hexadecimal digits. -/
def unit? : List Char → Option (Nat × List Char)
  | a :: b :: c :: d :: rest => do
    let digits ← [a, b, c, d].mapM Number.Literal.hexValue?
    return (Number.Literal.ofDigits 16 digits, rest)
  | _ => none

/-- The second half of a surrogate pair, as a further escape. -/
def lowHalf? (cs : List Char) : Option (Nat × List Char) := do
  let (low, rest) ← unit? (← after? "\\u" cs)
  if 0xdc00 ≤ low ∧ low < 0xe000 then some (low, rest) else none

/-- The character of a UTF-16 unit, or of a surrogate pair if the second half of one is behind it. -/
def unitCharacter? (code : Nat) (rest : List Char) : Option (Char × List Char) :=
  match if 0xd800 ≤ code ∧ code < 0xdc00 then lowHalf? rest else none with
  | some (low, rest) => some (Char.ofNat (0x10000 + (code - 0xd800) * 0x400 + (low - 0xdc00)), rest)
  | none => (Text.ofCode? code).map (·, rest)

/-- The character written `\u` and a UTF-16 unit, or two such units that form a surrogate pair. Where halves are
no characters, those that stand for them cannot be written either. -/
def unicodeEscape? (dialect : Dialect) (cs : List Char) : Option (Char × List Char) := do
  let (code, rest) ← unit? cs
  let (c, rest) ← unitCharacter? code rest
  if (Text.half? c).isSome && !dialect.allowsHalves then none else some (c, rest)

/-- The character that a letter behind a backslash stands for. -/
def escape? (c : Char) : Option Char :=
  [('"', '"'), ('\\', '\\'), ('/', '/'), ('b', '\x08'), ('f', '\x0c'), ('n', '\n'), ('r', '\r'),
    ('t', '\t')].lookup c

/-- One character of a string, escaped or not. -/
def character? (dialect : Dialect) : List Char → Option (Char × List Char)
  | '\\' :: 'u' :: rest => unicodeEscape? dialect rest
  | '\\' :: c :: rest => (escape? c).map (·, rest)
  | c :: rest => if c.toNat < 32 ∨ c = '\\' then none else some (c, rest)
  | [] => none

/-- The characters up to the closing quote, put behind those read before (in reverse). -/
def stringBody (dialect : Dialect) : (steps : Nat) → (before : List Char) → List Char →
    Option (String × List Char)
  | _, before, '"' :: rest => some (String.ofList before.reverse, rest)
  | 0, _, _ => none
  | steps + 1, before, cs => do
    let (c, rest) ← character? dialect cs
    stringBody dialect steps (c :: before) rest

/-- The longest start of decimal digits, as written. -/
def digits (cs : List Char) : List Char × List Char := cs.span Char.isDigit

/-- The digits behind a point; at least one if there is a point. -/
def fraction? : List Char → Option (List Char × List Char)
  | '.' :: rest =>
    match digits rest with
    | ([], _) => none
    | result => some result
  | cs => some ([], cs)

/-- The exponent behind its mark; at least one digit if there is a mark. -/
def exponent? : List Char → Option (Option Int × List Char)
  | mark :: rest =>
    if mark = 'e' ∨ mark = 'E' then
      let (negative, rest) := Number.Literal.signAndRest rest
      match digits rest with
      | ([], _) => none
      | (ds, rest) => some (some (Number.negateIf negative (Number.Literal.ofDigits 10
          (Number.Literal.decimalValues ds))), rest)
    else some (none, mark :: rest)
  | [] => some (none, [])

/-- A number behind its sign: without leading zeros, and an integer unless it has a fraction or an
exponent. -/
def number? (dialect : Dialect) (negative : Bool) (cs : List Char) : Option (Datum × List Char) := do
  let value (ds : List Char) := Number.Literal.ofDigits 10 (Number.Literal.decimalValues ds)
  let (whole, rest) := digits cs
  if whole.isEmpty || (whole.length != 1 && whole.head? == some '0') then none
  else
    let (fraction, rest) ← fraction? rest
    let (exponent, rest) ← exponent? rest
    let isInteger := fraction.isEmpty && exponent.isNone
    if (isInteger || dialect.limitsAllDigits) && Number.maximalDigits < whole.length then none
    else if isInteger then some (.int (Number.negateIf negative (value whole)), rest)
    else
      some (.float (Number.ofDecimal negative (value (whole ++ fraction))
        (exponent.getD 0 - fraction.length)), rest)

/-- A value that is no string, list or object. -/
def scalar? (dialect : Dialect) (cs : List Char) : Option (Datum × List Char) :=
  match cs with
  | 'n' :: _ => (after? "null" cs).map (Datum.null, ·)
  | 't' :: _ => (after? "true" cs).map (Datum.bool true, ·)
  | 'f' :: _ => (after? "false" cs).map (Datum.bool false, ·)
  | 'N' :: _ => (after? "NaN" cs).map (Datum.float Number.notANumber, ·)
  | 'I' :: _ => (after? "Infinity" cs).map (Datum.float Number.positiveInfinity, ·)
  | '-' :: 'I' :: rest => (after? "Infinity" ('I' :: rest)).map (Datum.float (-Number.positiveInfinity), ·)
  | '-' :: rest => number? dialect true rest
  | _ => number? dialect false cs

/-- What is behind an item: whether another one follows. -/
def separator? (closing : Char) (cs : List Char) : Option (Bool × List Char) :=
  match skipSpaces cs with
  | ',' :: rest => some (true, rest)
  | c :: rest => if c = closing then some (false, rest) else none
  | [] => none

mutual

/-- A value with at most `depth` lists and objects around one another. -/
def value? (dialect : Dialect) : (steps depth : Nat) → List Char → Option (Datum × List Char)
  | 0, _, _ => none
  | steps + 1, depth, cs =>
    match skipSpaces cs with
    | '"' :: rest => (stringBody dialect steps [] rest).map fun (s, rest) => (.string s, rest)
    | '[' :: rest =>
      match depth, skipSpaces rest with
      | _, ']' :: rest => some (.list [], rest)
      | 0, _ => none
      | depth + 1, rest => (items? dialect steps depth rest).map fun (items, rest) => (.list items, rest)
    | '\x7b' :: rest =>
      match depth, skipSpaces rest with
      | _, '\x7d' :: rest => some (.map [], rest)
      | 0, _ => none
      | depth + 1, rest => (members? dialect steps depth rest).map fun (members, rest) => (.map members, rest)
    | cs => scalar? dialect cs

/-- The items of a list up to its closing bracket. -/
def items? (dialect : Dialect) : (steps depth : Nat) → List Char → Option (List Datum × List Char)
  | 0, _, _ => none
  | steps + 1, depth, cs => do
    let (item, rest) ← value? dialect steps depth cs
    let (more, rest) ← separator? ']' rest
    if more then
      let (items, rest) ← items? dialect steps depth rest
      return (item :: items, rest)
    else return ([item], rest)

/-- The members of an object up to its closing bracket. -/
def members? (dialect : Dialect) : (steps depth : Nat) → List Char →
    Option (List (Datum × Datum) × List Char)
  | 0, _, _ => none
  | steps + 1, depth, cs =>
    match skipSpaces cs with
    | '"' :: rest => do
      let (name, rest) ← stringBody dialect steps [] rest
      match skipSpaces rest with
      | ':' :: rest => do
        let (value, rest) ← value? dialect steps depth rest
        let (more, rest) ← separator? '\x7d' rest
        if more then
          let (members, rest) ← members? dialect steps depth rest
          return ((.string name, value) :: members, rest)
        else return ([(.string name, value)], rest)
      | _ => none
    | _ => none

end

end Reader

/-- The value that a whole text is. -/
def read? (dialect : Dialect) (text : String) : Option Datum := do
  let cs := text.toList
  let (value, rest) ← Reader.value? dialect (2 * cs.length + 2) dialect.depth cs
  if (Reader.skipSpaces rest).isEmpty then some value else none

end DesignTokens.Json
