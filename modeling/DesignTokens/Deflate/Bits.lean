import DesignTokens.Deflate.PrefixCode

/-!
# Bits of compressed data

Compressed data is read bit by bit; of a byte the lowest bit comes first. Numbers also start with their lowest
bit. Reading stops where the data ends, and where it can mean nothing.

* `number_lt` — a number of `n` bits is below 2ⁿ.
-/

namespace DesignTokens.Deflate

/-- Why reading stops. -/
inductive Stop where
  /-- The data has no more bits. -/
  | short
  /-- The bits before a position have no meaning. -/
  | malformed (position : Nat)
  deriving DecidableEq, Repr

/-- Reading from data, from the position of a bit on. -/
abbrev Reader := ReaderT ByteArray (StateT Nat (Except Stop))

/-- The bytes that hold the bits before a position. -/
def bytesBefore (position : Nat) : Nat := (position + 7) / 8

namespace Reader

/-- What has been read means nothing. -/
def reject {α : Type} : Reader α := do throw (.malformed (← get))

/-- One bit. -/
def bit : Reader Bool := fun content position =>
  if h : position / 8 < content.size then
    .ok (content[position / 8].toNat.testBit (position % 8), position + 1)
  else .error .short

/-- A number of some bits. -/
def number : Nat → Reader Nat
  | 0 => pure 0
  | n + 1 => do
    let lowest ← bit
    let rest ← number n
    return lowest.toNat + 2 * rest

/-- Goes on to the next byte, unless one starts here. -/
def align : Reader Unit := modify fun position => 8 * bytesBefore position

/-- The symbol whose code comes next. -/
def symbol : CodeTree → Reader Nat
  | .vacant => reject
  | .symbol symbol => pure symbol
  | .branch zero one => do if ← bit then symbol one else symbol zero

theorem number_lt {n : Nat} {content : ByteArray} {position value after : Nat}
    (h : number n content position = .ok (value, after)) : value < Nat.pow 2 n := by
  induction n generalizing position value after with
  | zero =>
    cases h
    exact Nat.one_pos
  | succ n ih =>
    simp only [number, bind, ReaderT.bind, StateT.bind, Except.bind] at h
    split at h
    · cases h
    · next lowest _ =>
      split at h
      · cases h
      · next rest hrest =>
        have hlt := ih hrest
        cases h
        have := Bool.toNat_lt lowest.1
        have hpow : Nat.pow 2 (n + 1) = Nat.pow 2 n * 2 := rfl
        omega

end Reader

end DesignTokens.Deflate
