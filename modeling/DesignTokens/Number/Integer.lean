import DesignTokens.Number.Literal
import DesignTokens.Text.Blank

/-!
# Integers as text

An integer is written in digits of a base, with white space around it, a sign and, in the bases 2, 8 and 16,
a mark in front of the digits. Decimal digits may come from any script. The time to read decimal digits grows
faster than their number, so that number is limited.

* `ofDecimalText?_nil` — no text is no integer.
-/

namespace DesignTokens.Number

/-- The most decimal digits an integer may be written with. -/
def maximalDigits : Nat := 4300

/-- The letter behind a zero that marks the digits of a base. -/
def baseMark? (base : Nat) : Option Char := [(2, 'b'), (8, 'o'), (16, 'x')].lookup base

/-- The digits behind the mark of a base, if it is there. -/
def withoutBaseMark (base : Nat) : List Char → List Char
  | '0' :: mark :: rest => if baseMark? base = some mark.toLower then rest else '0' :: mark :: rest
  | cs => cs

/-- A decimal digit of any script as the ASCII digit of that value. -/
def asciiDigit (c : Char) : Char :=
  match Text.decimalValue? c with
  | some value => Char.ofNat ('0'.toNat + value)
  | none => c

/-- The number that digits of a base stand for, in bases up to sixteen. -/
def ofBaseDigits? (base : Nat) (cs : List Char) : Option Nat :=
  match cs.mapM Literal.hexValue? with
  | some values =>
    if values.isEmpty || values.any (base ≤ ·) then none else some (Literal.ofDigits base values)
  | none => none

/-- The integer that a text is in a base. -/
def ofBaseText? (base : Nat) (cs : List Char) : Option Int :=
  let (negative, body) := Literal.signAndRest ((Text.dropEnds Text.isWhite cs).map asciiDigit)
  (ofBaseDigits? base (withoutBaseMark base body)).map (negateIf negative)

/-- The integer that a text is in decimal digits. -/
def ofDecimalText? (cs : List Char) : Option Int :=
  if maximalDigits < cs.countP Text.isDecimal then none else ofBaseText? 10 cs

theorem ofDecimalText?_nil : ofDecimalText? [] = none := by
  decide

end DesignTokens.Number
