/-!
# Doubles as exact numbers

Every finite double is an integer times a power of two. Rounding to integers, comparing with integers of
any size and reading hexadecimal literals are done on that exact value, so that no step rounds twice.

* `truncate?_eq_none_iff`, `ceiling?_eq_none_iff` — only the non-finite doubles have no integer part.
-/

namespace DesignTokens.Number

/-- A number as data gives it; with the number of its source if it is no number and may be in several
places. -/
structure Figure where
  value : Float
  origin : Option Nat := none

/-- What a double stands for; a finite one is `mantissa * 2 ^ exponent`, negated if `negative`. -/
inductive Exact where
  | nan
  | infinite (negative : Bool)
  | finite (negative : Bool) (mantissa : Nat) (exponent : Int)
  deriving DecidableEq

/-- The exact value of a double. -/
def exact (x : Float) : Exact :=
  match x.toModel.unpack with
  | .notANumber => .nan
  | .infinity sign => .infinite (sign matches .negative)
  | .zero sign => .finite (sign matches .negative) 0 0
  | .finite sign mantissa exponent _ => .finite (sign matches .negative) mantissa exponent

def positiveInfinity : Float := 1.0 / 0.0

def notANumber : Float := 0.0 / 0.0

/-- The double with the sign given by `negative`. -/
def signed (negative : Bool) (x : Float) : Float :=
  if negative then -x else x

/-- The double nearest to `mantissa * 2 ^ exponent`, ties to even, negated if `negative`. Values beyond
the largest double give an infinity. -/
def ofBinary (negative : Bool) (mantissa : Nat) (exponent : Int) : Float :=
  let top := exponent + mantissa.log2
  if mantissa = 0 then signed negative 0.0
  else if 1100 < top then signed negative positiveInfinity
  else if top < -1200 then signed negative 0.0
  else
    let sign := if negative then Float.Model.UnpackedFloat.Sign.negative else .positive
    Float.ofModel (Float.Model.pack (Float.Model.UnpackedFloat.round Float.Model.Format.binary64 sign mantissa exponent))

/-- The double nearest to `mantissa * 10 ^ exponent`. -/
def ofDecimal (negative : Bool) (mantissa : Nat) (exponent : Int) : Float :=
  signed negative <|
    if mantissa = 0 then 0.0
    else if exponent < 0 then Float.ofScientific mantissa true exponent.natAbs
    else Float.ofScientific mantissa false exponent.natAbs

/-- The double nearest to an integer, if it is within the range of doubles. -/
def ofInt? (n : Int) : Option Float :=
  let x := ofBinary (n < 0) n.natAbs 0
  if x.isFinite then some x else none

/-- `mantissa * 2 ^ exponent` without its fraction. -/
def wholePart (mantissa : Nat) (exponent : Int) : Nat :=
  if 0 ≤ exponent then mantissa <<< exponent.toNat else mantissa >>> exponent.natAbs

/-- Whether `mantissa * 2 ^ exponent` has a fraction. -/
def hasFraction (mantissa : Nat) (exponent : Int) : Bool :=
  exponent < 0 && mantissa % Nat.pow 2 exponent.natAbs != 0

def negateIf (negative : Bool) (n : Nat) : Int :=
  if negative then -(n : Int) else n

/-- The integer part of a finite double: rounding toward zero. -/
def truncate? (x : Float) : Option Int :=
  match exact x with
  | .finite negative mantissa exponent => some (negateIf negative (wholePart mantissa exponent))
  | _ => none

/-- The least integer not below a finite double. -/
def ceiling? (x : Float) : Option Int :=
  match exact x with
  | .finite negative mantissa exponent =>
    let whole := negateIf negative (wholePart mantissa exponent)
    some (if !negative && hasFraction mantissa exponent then whole + 1 else whole)
  | _ => none

/-- The integer nearest to a finite double; a half goes to the even neighbour. -/
def nearest? (x : Float) : Option Int :=
  match exact x with
  | .finite negative mantissa exponent =>
    let whole := wholePart mantissa exponent
    let unit := Nat.pow 2 exponent.natAbs
    let twiceRest := if exponent < 0 then 2 * (mantissa % unit) else 0
    let up := decide (unit < twiceRest) || (twiceRest == unit && exponent < 0 && whole % 2 == 1)
    some (negateIf negative (if up then whole + 1 else whole))
  | _ => none

/-- A finite double without a fraction. -/
def isInteger (x : Float) : Bool :=
  match exact x with
  | .finite _ mantissa exponent => !hasFraction mantissa exponent
  | _ => false

/-- The smaller of two numbers, the first unless the second is smaller. -/
def lesser (a b : Float) : Float := if b < a then b else a

/-- The greater of two numbers, the first unless the second is greater. -/
def greater (a b : Float) : Float := if a < b then b else a

/-- Whether a double is exactly the integer `n`. -/
def equalsInt (x : Float) (n : Int) : Bool :=
  isInteger x && truncate? x == some n

theorem truncate?_eq_none_iff (x : Float) :
    truncate? x = none ↔ ∀ s m e, exact x ≠ .finite s m e := by
  unfold truncate?; split <;> simp_all

theorem ceiling?_eq_none_iff (x : Float) :
    ceiling? x = none ↔ ∀ s m e, exact x ≠ .finite s m e := by
  unfold ceiling?; split <;> simp_all

end DesignTokens.Number
