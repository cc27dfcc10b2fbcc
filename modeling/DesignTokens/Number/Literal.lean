import DesignTokens.Fault
import DesignTokens.Number.Double
import DesignTokens.Text.Digit

/-!
# Number literals

A literal is decimal (`-3`, `.5`, `1e-3`) or hexadecimal (`0x7f`, `0x.8p2`). Decimal digits may come from
any script; hexadecimal digits are ASCII, and their exponent counts powers of two. A literal is first read
into its parts and then valued: reading fails on what is no literal, valuing only beyond the range of
doubles (hexadecimal literals alone; decimal ones become infinite).

* `Literal.read?_of_decimal?` — a text that is a decimal literal is read as one.
* `Literal.number?_of_read?_eq_none` — what is no literal has no number and does no harm.
-/

namespace DesignTokens.Number

/-- A literal in parts. The digits of the exponent of a hexadecimal literal are kept as written. -/
inductive Literal where
  | decimal (negative : Bool) (whole fraction : List Nat) (exponent : Int)
  | hexadecimal (negative : Bool) (whole fraction : List Nat) (exponentNegative : Bool)
      (exponentDigits : List Char)
  deriving DecidableEq

namespace Literal

/-- The longest start of a text whose characters are digits, as their values, and the rest. -/
def digitRun (digit? : Char → Option Nat) : List Char → List Nat × List Char
  | [] => ([], [])
  | c :: rest =>
    match digit? c with
    | some value => let (values, rest) := digitRun digit? rest; (value :: values, rest)
    | none => ([], c :: rest)

/-- The value of an ASCII hexadecimal digit. -/
def hexValue? (c : Char) : Option Nat :=
  if '0' ≤ c && c ≤ '9' then some (c.toNat - '0'.toNat)
  else if 'a' ≤ c && c ≤ 'f' then some (c.toNat - 'a'.toNat + 10)
  else if 'A' ≤ c && c ≤ 'F' then some (c.toNat - 'A'.toNat + 10)
  else none

/-- A sign in front, whether it is a minus, and the rest. -/
def signAndRest : List Char → Bool × List Char
  | '-' :: rest => (true, rest)
  | '+' :: rest => (false, rest)
  | cs => (false, cs)

/-- Digits with a point among them, at least one on either side of it. -/
def mantissa? (digit? : Char → Option Nat) (cs : List Char) : Option (List Nat × List Nat × List Char) :=
  match digitRun digit? cs with
  | ([], '.' :: rest) =>
    match digitRun digit? rest with
    | ([], _) => none
    | (fraction, rest) => some ([], fraction, rest)
  | ([], _) => none
  | (whole, '.' :: rest) => let (fraction, rest) := digitRun digit? rest; some (whole, fraction, rest)
  | (whole, rest) => some (whole, [], rest)

/-- The exponent mark, a sign and digits up to the end of the text, or the end of the text alone. -/
def exponent? (isMark : Char → Bool) : List Char → Option (Bool × List Char)
  | [] => some (false, [])
  | mark :: rest =>
    let (negative, digits) := signAndRest rest
    if isMark mark && !digits.isEmpty && digits.all Text.isDecimal then some (negative, digits) else none

/-- The number that digits stand for. -/
def ofDigits (base : Nat) (digits : List Nat) : Nat :=
  digits.foldl (fun total digit => total * base + digit) 0

/-- The values of decimal digits of any script. -/
def decimalValues (digits : List Char) : List Nat := digits.filterMap Text.decimalValue?

def decimal? (negative : Bool) (cs : List Char) : Option Literal := do
  let (whole, fraction, rest) ← mantissa? Text.decimalValue? cs
  let (exponentNegative, digits) ← exponent? (fun c => c == 'e' || c == 'E') rest
  return .decimal negative whole fraction
    (negateIf exponentNegative (ofDigits 10 (decimalValues digits)))

def hexadecimal? (negative : Bool) (cs : List Char) : Option Literal :=
  match cs with
  | '0' :: x :: rest =>
    if x = 'x' ∨ x = 'X' then do
      let (whole, fraction, rest) ← mantissa? hexValue? rest
      let (exponentNegative, digits) ← exponent? (fun c => c == 'p' || c == 'P') rest
      return .hexadecimal negative whole fraction exponentNegative digits
    else none
  | _ => none

/-- The literal that a text is, if it is one. -/
def read? (text : String) : Option Literal :=
  let (negative, cs) := signAndRest text.toList
  decimal? negative cs <|> hexadecimal? negative cs

/-- The double nearest to a hexadecimal literal, if it is within the range of doubles. -/
def binaryValue? (negative : Bool) (mantissa : Nat) (exponent : Int) : Option Float :=
  let x := ofBinary negative mantissa exponent
  if x.isFinite then some x else none

/-- The value of a literal. Of a hexadecimal exponent only the ASCII digits in front count; a literal in
range must have no others. -/
def value? (token : String) : Literal → Except Fault (Option Float)
  | .decimal negative whole fraction exponent =>
    .ok (some (ofDecimal negative (ofDigits 10 (whole ++ fraction)) (exponent - fraction.length)))
  | .hexadecimal negative whole fraction exponentNegative digits =>
    let ascii := digits.takeWhile Char.isDigit
    let exponent := negateIf exponentNegative (ofDigits 10 (decimalValues ascii))
    if ascii.isEmpty && !digits.isEmpty then .error (.exponentNotAscii token)
    else
      match binaryValue? negative (ofDigits 16 (whole ++ fraction)) (exponent - 4 * fraction.length) with
      | none => .ok none
      | some x => if ascii.length = digits.length then .ok (some x) else .error (.exponentNotAscii token)

/-- The number that a token is, if it is a literal in range. -/
def number? (token : String) : Except Fault (Option Float) :=
  match read? token with
  | some literal => literal.value? token
  | none => .ok none

theorem read?_of_decimal? {text : String} {literal : Literal}
    (h : decimal? (signAndRest text.toList).1 (signAndRest text.toList).2 = some literal) :
    read? text = some literal := by
  simp [read?, h]

theorem number?_of_read?_eq_none {token : String} (h : read? token = none) : number? token = .ok none := by
  simp [number?, h]

end Literal

end DesignTokens.Number
