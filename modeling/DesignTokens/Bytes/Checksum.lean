/-!
# Checksums

Two sums that tell whether bytes have been damaged: a cyclic redundancy check of 32 bits, and Adler's sum of
two running sums modulo 65521.

* `crcUpdate_append`, `Adler.update_append` — a sum goes on with the bytes that follow.
-/

namespace DesignTokens.Bytes

/-! ### The cyclic redundancy check -/

/-- One bit of a division by the polynomial of the check. -/
def crcBit (sum : UInt32) : UInt32 :=
  if sum &&& 1 = 1 then (sum >>> 1) ^^^ 0xedb88320 else sum >>> 1

/-- A sum after a byte. -/
def crcByte (sum : UInt32) (byte : UInt8) : UInt32 :=
  (List.range 8).foldl (fun sum _ => crcBit sum) (sum ^^^ byte.toUInt32)

/-- A sum after bytes. -/
def crcUpdate (sum : UInt32) (bytes : List UInt8) : UInt32 := bytes.foldl crcByte sum

/-- The check of bytes. -/
def crc32 (bytes : List UInt8) : UInt32 := crcUpdate 0xffffffff bytes ^^^ 0xffffffff

theorem crcUpdate_append (sum : UInt32) (bytes others : List UInt8) :
    crcUpdate sum (bytes ++ others) = crcUpdate (crcUpdate sum bytes) others := by
  simp [crcUpdate]

/-! ### Adler's sum -/

/-- The running sums: of the bytes and of these sums. -/
structure Adler where
  low : Nat := 1
  high : Nat := 0
  deriving DecidableEq, Repr

namespace Adler

def modulus : Nat := 65521

/-- The sums after a byte. -/
def push (sums : Adler) (byte : UInt8) : Adler :=
  let low := (sums.low + byte.toNat) % modulus
  ⟨low, (sums.high + low) % modulus⟩

/-- The sums after bytes. -/
def update (sums : Adler) (bytes : List UInt8) : Adler := bytes.foldl push sums

/-- The number that is written for the sums. -/
def value (sums : Adler) : Nat := sums.high * 65536 + sums.low

theorem update_append (sums : Adler) (bytes others : List UInt8) :
    sums.update (bytes ++ others) = (sums.update bytes).update others := by
  simp [update]

end Adler

end DesignTokens.Bytes
