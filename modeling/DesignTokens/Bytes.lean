/-!
# Numbers in bytes

* `bigEndian_append` — a number goes on with the bytes that follow it.
-/

namespace DesignTokens.Bytes

/-- The number that bytes stand for, most significant first. -/
def bigEndian (bytes : List UInt8) : Nat :=
  bytes.foldl (fun total byte => total * 256 + byte.toNat) 0

theorem bigEndian_append (bytes : List UInt8) (last : UInt8) :
    bigEndian (bytes ++ [last]) = bigEndian bytes * 256 + last.toNat := by
  simp [bigEndian]

/-- The number in `length` bytes from an offset on, if all of them are there. -/
def number? (content : ByteArray) (offset length : Nat) : Option Nat :=
  if offset + length ≤ content.size then
    some (bigEndian (content.extract offset (offset + length)).toList)
  else none

end DesignTokens.Bytes
