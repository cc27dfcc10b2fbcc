/-!
# Shortest decimals

The shortest decimal of a double is the one with the fewest digits among those that read back as the same
double; of several such decimals the nearest is taken, and a tie goes to the even last digit.

A double owns the interval of reals that round to it. It reaches half way to either neighbour, includes its
ends when the mantissa is even, and is narrower on the lower side of a power of two. On each decimal grid,
coarse to fine, only the two grid points around the value need to be tested.
-/

namespace DesignTokens.Number

/-- A decimal: `digits * 10 ^ exponent`. -/
structure Decimal where
  digits : Nat
  exponent : Int
  deriving DecidableEq, Repr

/-- The reals that round to a double, as multiples of a quarter of its last place `2 ^ exponent`. -/
structure RoundingInterval where
  low : Nat
  value : Nat
  high : Nat
  closed : Bool
  exponent : Int

/-- The interval of `mantissa * 2 ^ exponent`, a double in normal form. -/
def RoundingInterval.of (mantissa : Nat) (exponent : Int) : RoundingInterval where
  low := if mantissa = Nat.pow 2 52 ∧ -1074 < exponent then 4 * mantissa - 1 else 4 * mantissa - 2
  value := 4 * mantissa
  high := 4 * mantissa + 2
  closed := mantissa % 2 = 0
  exponent := exponent - 2

namespace RoundingInterval

/-- The factors that bring the interval and the grid of step `10 ^ step` to one unit: a bound `b` and a
grid point `d` are compared as `b * factor.1` and `d * factor.2`. -/
def factors (i : RoundingInterval) (step : Int) : Nat × Nat :=
  (Nat.pow 2 i.exponent.toNat * Nat.pow 10 (-step).toNat,
    Nat.pow 10 step.toNat * Nat.pow 2 (-i.exponent).toNat)

/-- Whether the grid point `d * 10 ^ step` rounds to the double. -/
def contains (i : RoundingInterval) (step : Int) (d : Nat) : Bool :=
  let (a, b) := i.factors step
  if i.closed then i.low * a ≤ d * b && d * b ≤ i.high * a
  else i.low * a < d * b && d * b < i.high * a

/-- The grid point of step `10 ^ step` that rounds to the double, if there is one: of the two around the
value the nearer, of two equally near the even one. -/
def gridPoint? (i : RoundingInterval) (step : Int) : Option Nat :=
  let (a, b) := i.factors step
  let below := i.value * a / b
  let twiceRest := 2 * (i.value * a % b)
  let belowIsNearer := decide (twiceRest < b) || (twiceRest == b && below % 2 == 0)
  match i.contains step below, i.contains step (below + 1) with
  | true, true => some (if belowIsNearer then below else below + 1)
  | true, false => some below
  | false, true => some (below + 1)
  | false, false => none

/-- The least `e` with `value < 10 ^ e`, searched upward from a start that is at most two too low. -/
def decimalExponent (i : RoundingInterval) : Int :=
  let start := ((i.value.log2 + i.exponent) * 30103) / 100000
  let isBelow (e : Int) : Bool :=
    let (a, b) := i.factors e
    i.value * a < b
  if isBelow start then start else if isBelow (start + 1) then start + 1 else start + 2

/-- The first hit among the grids `10 ^ step, 10 ^ (step - 1), …`. -/
def searchGrids (i : RoundingInterval) (step : Int) : (grids : Nat) → Option Decimal
  | 0 => none
  | grids + 1 =>
    match i.gridPoint? step with
    | some d => some ⟨d, step⟩
    | none => i.searchGrids (step - 1) grids

end RoundingInterval

/-- The shortest decimal that reads back as `mantissa * 2 ^ exponent`. Seventeen digits always do. -/
def shortestDecimal (mantissa : Nat) (exponent : Int) : Decimal :=
  let i := RoundingInterval.of mantissa exponent
  let top := i.decimalExponent
  (i.searchGrids (top - 1) 17).getD ⟨0, 0⟩

end DesignTokens.Number
