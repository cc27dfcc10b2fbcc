import DesignTokens.Bytes.Base64
import DesignTokens.Document.Scalar
import DesignTokens.Yaml.Error
import DesignTokens.Yaml.Tag

/-!
# Values of YAML scalars

A scalar is read as its tag says. The text of a number is read more freely than plain text suggests: it may
have white space around it and digits of any script. A number behind a sign of its own may have another one.

* `intValue_zero`, `boolValue_word` — plain words have their values.
-/

namespace DesignTokens.Yaml

open Number (Literal)

def withoutUnderscores (text : String) : List Char := text.toList.filter (· != '_')

/-! ### Integers -/

def ofInteger? (n? : Option Int) : Except Error Int := n?.elim (.error (.scalar .number)) .ok

/-- A number whose parts count sixty of the next one each. -/
def ofSixties (parts : List Int) : Int := parts.foldl (fun total part => total * 60 + part) 0

/-- An integer without its sign: binary, hexadecimal, octal, sexagesimal or decimal. -/
def unsignedInt : List Char → Except Error Int
  | [] => .error (.scalar .empty)
  | ['0'] => .ok 0
  | '0' :: 'b' :: digits => ofInteger? (Number.ofBaseText? 2 digits)
  | '0' :: 'x' :: digits => ofInteger? (Number.ofBaseText? 16 digits)
  | '0' :: digits => ofInteger? (Number.ofBaseText? 8 ('0' :: digits))
  | cs =>
    ofSixties <$> (Tag.colonParts cs).mapM fun part => ofInteger? (Number.ofDecimalText? part)

def intValue (text : String) : Except Error Int :=
  let (negative, body) := Literal.signAndRest (withoutUnderscores text)
  (fun n => if negative then -n else n) <$> unsignedInt body

theorem intValue_zero : intValue "0" = .ok 0 := rfl

/-! ### Doubles -/

/-- A decimal, or a word for an infinity or for no number, in small letters. -/
def ofFloatText (cs : List Char) : Except Error Float :=
  let (negative, body) := Literal.signAndRest (Text.dropEnds Text.isWhite cs)
  if ["inf", "infinity"].contains (String.ofList body) then
    .ok (Number.signed negative Number.positiveInfinity)
  else if body = ['n', 'a', 'n'] then .ok Number.notANumber
  else
    match Literal.decimal? negative body with
    | some (.decimal negative whole fraction exponent) =>
      .ok (Number.ofDecimal negative (Literal.ofDigits 10 (whole ++ fraction)) (exponent - fraction.length))
    | _ => .error (.scalar .number)

/-- The sum of parts that count sixty times as much each, from the last one on. The unit of each must be in
the range of doubles. -/
def sumOfSixties (parts : List Float) : Except Error Float :=
  Prod.fst <$> parts.reverse.foldlM (fun (total, unit) part =>
    match Number.ofInt? unit with
    | some factor => Except.ok (total + part * factor, unit * 60)
    | none => .error (.scalar .range)) ((0.0 : Float), (1 : Int))

/-- A double. The one word for no number means the same piece of data wherever it stands, source 0; any other
text that means no number means a piece of its own. -/
def floatValue (source : Nat) (text : String) : Except Error Datum :=
  let cs := (withoutUnderscores text).map Char.toLower
  if cs.isEmpty then .error (.scalar .empty)
  else
    let (negative, body) := Literal.signAndRest cs
    if body = ".inf".toList then .ok (.float (Number.signed negative Number.positiveInfinity))
    else if body = ".nan".toList then .ok (.float Number.notANumber (some 0))
    else do
      let unsigned ←
        if body.contains ':' then (Tag.colonParts body).mapM ofFloatText >>= sumOfSixties
        else ofFloatText body
      let x := if negative then -unsigned else unsigned
      return .float x (if x.isNaN then some (source + 1) else none)

/-! ### Other scalars -/

def boolValue (text : String) : Except Error Bool :=
  let word := Scalar.lowered text.toList
  if ["yes", "true", "on"].contains word then .ok true
  else if ["no", "false", "off"].contains word then .ok false
  else .error (.scalar .truthValue)

theorem boolValue_word : boolValue "Yes" = .ok true ∧ boolValue "off" = .ok false :=
  ⟨rfl, rfl⟩

def dateValue (text : String) : Except Error Datum :=
  match Timestamp.read? (Tag.withoutLineEnd text.toList) with
  | none => .error (.scalar .date)
  | some date => if date.isValid then .ok (.timestamp date) else .error (.scalar .number)

/-- Bytes in Base64, whose characters must all be ASCII. -/
def binaryValue (text : String) : Except Error Datum :=
  let cs := text.toList
  match if cs.all (·.toNat < 128) then Bytes.Base64.decode? cs else none with
  | some bytes => .ok (.bytes bytes)
  | none => .error .value

/-- The value of a scalar. `source` tells it from other scalars. -/
def scalarValue (source : Nat) (tag : Tag) (text : String) : Except Error Datum :=
  match tag with
  | .null => .ok .null
  | .bool => .bool <$> boolValue text
  | .int => .int <$> intValue text
  | .float => floatValue source text
  | .string => .ok (.string text)
  | .timestamp => dateValue text
  | .binary => binaryValue text
  | .sequence | .mapping | .set | .pairs | .merge | .default | .unknown => .error .value

end DesignTokens.Yaml
