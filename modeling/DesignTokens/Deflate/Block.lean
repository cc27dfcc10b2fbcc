import DesignTokens.Deflate.Bits

/-!
# Blocks of compressed data

Compressed data is made of blocks. A block holds its bytes as they are, or its elements in two prefix codes:
one for bytes, lengths of copies and the end of the block, the other for the distances of copies. The codes
are agreed on, or they stand in front of the elements as lengths, which are in a code themselves.

* `copyLength_le` — no copy is longer than 258 bytes.
-/

namespace DesignTokens.Deflate

/-- The codes of a block. -/
structure Codes where
  literals : CodeTree
  distances : CodeTree

/-- How a block holds its bytes. -/
inductive Layout where
  | stored (length : Nat)
  | coded (codes : Codes)

/-- One thing that is said in the codes of a block. -/
inductive Element where
  | literal (byte : UInt8)
  /-- Bytes that came out before, some distance back. -/
  | copy (length distance : Nat)
  | endOfBlock

/-! ### Copies -/

/-- The least length of a copy for a symbol after the one that ends a block, and how many bits are added. -/
def copyLength (symbol : Nat) : Nat × Nat :=
  if symbol < 8 then (3 + symbol, 0)
  else if symbol < 28 then (3 + (4 + symbol % 4) * Nat.pow 2 ((symbol - 4) / 4), (symbol - 4) / 4)
  else (258, 0)

/-- The least distance for a symbol, and how many bits are added. -/
def copyDistance (symbol : Nat) : Nat × Nat :=
  if symbol < 4 then (1 + symbol, 0)
  else (1 + (2 + symbol % 2) * Nat.pow 2 ((symbol - 2) / 2), (symbol - 2) / 2)

theorem copyLength_le (symbol : Nat) : (copyLength symbol).1 + (Nat.pow 2 (copyLength symbol).2 - 1) ≤ 258 := by
  by_cases h : symbol < 28
  · revert symbol; decide
  · have : ¬ symbol < 8 := by omega
    simp [copyLength, h, this]

/-! ### Codes -/

/-- The codes that need not be said. -/
def fixedCodes : Codes where
  literals := PrefixCode.tree
    (List.replicate 144 8 ++ List.replicate 112 9 ++ List.replicate 24 7 ++ List.replicate 8 8)
  distances := PrefixCode.tree (List.replicate 32 5)

/-- The symbol that ends a block. -/
def endSymbol : Nat := 256

/-- The lengths that a code of lengths is said with, in the order in which they are said. -/
def lengthOrder : List Nat := [16, 17, 18, 0, 8, 7, 9, 6, 10, 5, 11, 4, 12, 3, 13, 2, 14, 1, 15]

/-- The tree of a code, if lengths are those of one. -/
def codeTree (mayBeSingle : Bool) (lengths : List Nat) : Reader CodeTree :=
  if PrefixCode.isCode mayBeSingle lengths then pure (PrefixCode.tree lengths) else Reader.reject

/-- Lengths of codes up to a total, after those that have been read, the last one first. A symbol above 15
repeats the length before it, or zero. -/
def codeLengths (code : CodeTree) (total : Nat) : Nat → List Nat → Reader (List Nat)
  | 0, reversed => pure reversed.reverse
  | fuel + 1, reversed => do
    if total ≤ reversed.length then return reversed.reverse
    let symbol ← Reader.symbol code
    if symbol < 16 then codeLengths code total fuel (symbol :: reversed)
    else
      let repeated ← match symbol, reversed with
        | 16, [] => Reader.reject
        | 16, last :: _ => pure last
        | _, _ => pure 0
      let count ← match symbol with
        | 16 => (3 + ·) <$> Reader.number 2
        | 17 => (3 + ·) <$> Reader.number 3
        | _ => (11 + ·) <$> Reader.number 7
      if total < reversed.length + count then Reader.reject
      else codeLengths code total fuel (List.replicate count repeated ++ reversed)

/-- The codes that are said in front of a block. -/
def saidCodes : Reader Codes := do
  let literals := (← Reader.number 5) + 257
  let distances := (← Reader.number 5) + 1
  let said := (← Reader.number 4) + 4
  if 286 < literals ∨ 30 < distances then Reader.reject
  let ordered ← (lengthOrder.take said).mapM fun symbol => do return (symbol, ← Reader.number 3)
  let code ← codeTree false ((List.range 19).map fun symbol => (ordered.lookup symbol).getD 0)
  let total := literals + distances
  let lengths ← codeLengths code total total []
  if lengths[endSymbol]? = some 0 then Reader.reject
  return { literals := ← codeTree true (lengths.take literals)
           distances := ← codeTree true (lengths.drop literals) }

/-- The start of a block: whether it is the last one, and its layout. -/
def blockStart : Reader (Bool × Layout) := do
  let isLast ← Reader.bit
  match ← Reader.number 2 with
  | 0 =>
    Reader.align
    let length ← Reader.number 16
    let complement ← Reader.number 16
    if length + complement = 65535 then return (isLast, .stored length) else Reader.reject
  | 1 => return (isLast, .coded fixedCodes)
  | 2 => return (isLast, .coded (← saidCodes))
  | _ => Reader.reject

/-- The next element in given codes. -/
def element (codes : Codes) : Reader Element := do
  let symbol ← Reader.symbol codes.literals
  if symbol < endSymbol then return .literal symbol.toUInt8
  else if symbol = endSymbol then return .endOfBlock
  else if 285 < symbol then Reader.reject
  else
    let (length, lengthBits) := copyLength (symbol - 257)
    let length := length + (← Reader.number lengthBits)
    let symbol ← Reader.symbol codes.distances
    if 29 < symbol then Reader.reject
    else
      let (distance, distanceBits) := copyDistance symbol
      return .copy length (distance + (← Reader.number distanceBits))

end DesignTokens.Deflate
