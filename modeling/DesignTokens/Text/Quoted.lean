import DesignTokens.Text.Half
import DesignTokens.Text.Printable

/-!
# Quoted text

Text inside a notice stands in quotes, single ones unless it holds a single quote and no double one. The
quote in use and the backslash are written with a backslash, the common controls by a letter, and other
unprintable characters by their code point in two, four or eight hexadecimal digits. Bytes are quoted with
a letter in front, those that are no printable ASCII by their number.
-/

namespace DesignTokens.Text

/-- `n` in lower-case hexadecimal, padded with zeros to `width`. -/
def hexText (width n : Nat) : List Char :=
  let digits := Nat.toDigits 16 n
  List.replicate (width - digits.length) '0' ++ digits

/-- A character inside quotes. -/
def quotedChar (quote c : Char) : List Char :=
  if c = quote ∨ c = '\\' then ['\\', c]
  else if c = '\n' then ['\\', 'n']
  else if c = '\r' then ['\\', 'r']
  else if c = '\t' then ['\\', 't']
  else if let some half := half? c then '\\' :: 'u' :: hexText 4 half
  else if isPrintable c then [c]
  else if c.toNat < 0x100 then '\\' :: 'x' :: hexText 2 c.toNat
  else if c.toNat < 0x10000 then '\\' :: 'u' :: hexText 4 c.toNat
  else '\\' :: 'U' :: hexText 8 c.toNat

/-- The quote that surrounds a text. -/
def quoteFor (cs : List Char) : Char :=
  if cs.contains '\'' && !cs.contains '"' then '"' else '\''

/-- A text in quotes. -/
def quoted (s : String) : String :=
  let quote := quoteFor s.toList
  String.ofList (quote :: s.toList.flatMap (quotedChar quote) ++ [quote])

/-- A byte inside quotes. -/
def quotedByte (quote : Char) (byte : UInt8) : List Char :=
  if byte.toNat < 128 then quotedChar quote (Char.ofNat byte.toNat) else '\\' :: 'x' :: hexText 2 byte.toNat

/-- Bytes in quotes. -/
def quotedBytes (bytes : List UInt8) : String :=
  let quote := quoteFor (bytes.map fun byte => Char.ofNat byte.toNat)
  String.ofList ('b' :: quote :: bytes.flatMap (quotedByte quote) ++ [quote])

end DesignTokens.Text
