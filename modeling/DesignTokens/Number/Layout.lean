import DesignTokens.Number.Double
import DesignTokens.Number.Shortest

/-!
# Number layouts

Which digits a double is written with is settled by `shortestDecimal`. A `Layout` says how they are laid
out: which magnitudes are written positionally, how wide an exponent is, and what stands for the doubles
that are no numbers.
-/

namespace DesignTokens.Number

/-- The decisions of a number format. The magnitude of a number is the power of ten of its first digit. -/
structure Layout where
  /-- The least magnitude written positionally. -/
  leastPositional : Int
  /-- The least magnitude above those written positionally. -/
  leastExponential : Int
  /-- Exponents are padded with zeros to this width. -/
  exponentWidth : Nat
  infinity : String
  nan : String

namespace Layout

/-- In notices: positional from `0.0001` up to below `1e+16`, exponents of two digits. -/
def notice : Layout := ⟨-4, 16, 2, "inf", "nan"⟩

/-- In dumped documents: positional from `0.00001` up to below `1e+16`, exponents without padding; a
document has no spelling for the other doubles. -/
def dump : Layout := ⟨-5, 16, 1, "null", "null"⟩

/-- The decimal digits of `n`, most significant first. -/
def digitText (n : Nat) : List Char := Nat.toDigits 10 n

/-- `whole.fraction` with a zero in place of an empty part. -/
def pointed (whole fraction : List Char) : List Char :=
  let part (cs : List Char) := if cs.isEmpty then ['0'] else cs
  part whole ++ '.' :: part fraction

/-- The digits with the point put after the first `magnitude + 1` of them. -/
def positional (digits : List Char) (magnitude : Int) : List Char :=
  if magnitude < 0 then
    pointed [] (List.replicate (magnitude.natAbs - 1) '0' ++ digits)
  else
    let width := magnitude.toNat + 1
    let padded := digits ++ List.replicate (width - digits.length) '0'
    pointed (padded.take width) (padded.drop width)

/-- One digit, the point and the rest if there is a rest, and the exponent with its sign. -/
def exponential (layout : Layout) (digits : List Char) (magnitude : Int) : List Char :=
  let exponent := digitText magnitude.natAbs
  let lead := match digits with
    | [] => ['0']
    | [d] => [d]
    | d :: rest => d :: '.' :: rest
  lead ++ ['e', if magnitude < 0 then '-' else '+'] ++
    List.replicate (layout.exponentWidth - exponent.length) '0' ++ exponent

/-- A positive decimal in this layout. -/
def decimal (layout : Layout) (d : Decimal) : List Char :=
  let all := digitText d.digits
  let magnitude := d.exponent + all.length - 1
  let digits := (all.reverse.dropWhile (· == '0')).reverse
  if layout.leastPositional ≤ magnitude ∧ magnitude < layout.leastExponential then
    positional digits magnitude
  else layout.exponential digits magnitude

/-- A double in this layout. -/
def text (layout : Layout) (x : Float) : String :=
  let sign (negative : Bool) := if negative then "-" else ""
  match exact x with
  | .nan => layout.nan
  | .infinite negative => sign negative ++ layout.infinity
  | .finite negative 0 _ => sign negative ++ "0.0"
  | .finite negative mantissa exponent =>
    sign negative ++ String.ofList (layout.decimal (shortestDecimal mantissa exponent))

end Layout

end DesignTokens.Number
