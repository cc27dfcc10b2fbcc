/-!
# Base64

Four digits of six bits each are three bytes. Characters that are no digits do not count, and nothing does
behind the padding that completes a group. Digits that fill no group need that padding.

* `decode?_nil` — no text is no bytes.
-/

namespace DesignTokens.Bytes.Base64

/-- The value of a digit. -/
def value? (c : Char) : Option Nat :=
  if 'A' ≤ c && c ≤ 'Z' then some (c.toNat - 'A'.toNat)
  else if 'a' ≤ c && c ≤ 'z' then some (c.toNat - 'a'.toNat + 26)
  else if '0' ≤ c && c ≤ '9' then some (c.toNat - '0'.toNat + 52)
  else if c = '+' then some 62
  else if c = '/' then some 63
  else none

/-- The digits of a text behind those read before (last digit first); `pads` counts the padding since the last
digit. None if the last group is incomplete. -/
def digits? (read : List Nat) (pads : Nat) : List Char → Option (List Nat)
  | [] => if read.length % 4 = 0 then some read.reverse else none
  | c :: rest =>
    if c = '=' then
      if read.length % 4 < 2 then digits? read pads rest
      else if 4 ≤ read.length % 4 + pads + 1 then some read.reverse
      else digits? read (pads + 1) rest
    else
      match value? c with
      | some value => digits? (value :: read) 0 rest
      | none => digits? read pads rest

/-- The bytes of digits. Of an incomplete group the bytes count that are complete. -/
def bytesOf : List Nat → List UInt8
  | a :: b :: c :: d :: rest =>
    (a * 4 + b / 16).toUInt8 :: (b * 16 + c / 4).toUInt8 :: (c * 64 + d).toUInt8 :: bytesOf rest
  | [a, b, c] => [(a * 4 + b / 16).toUInt8, (b * 16 + c / 4).toUInt8]
  | [a, b] => [(a * 4 + b / 16).toUInt8]
  | _ => []

/-- The bytes that a text stands for. -/
def decode? (cs : List Char) : Option (List UInt8) := (digits? [] 0 cs).map bytesOf

theorem decode?_nil : decode? [] = some [] := rfl

end DesignTokens.Bytes.Base64
