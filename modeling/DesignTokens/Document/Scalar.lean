import DesignTokens.Datum
import DesignTokens.Document.Problem
import DesignTokens.Number.Integer
import DesignTokens.Text.Half
import DesignTokens.Text.Blank

/-!
# Decoding single values

A value is accepted where it can be read as the wanted type without loss: whole numbers in any notation are
integers, texts that spell a number are numbers, and some numbers and words are truth values. Bytes are the
text that they encode. Nothing but text and bytes is text.

* `flag_bool`, `text_string`, `integer_int` — a value of the wanted type is taken as it is.
-/

namespace DesignTokens.Scalar

open Number (Figure Literal)

/-- Whether two underscores stand side by side. -/
def hasAdjacentUnderscores : List Char → Bool
  | '_' :: '_' :: _ => true
  | _ :: rest => hasAdjacentUnderscores rest
  | [] => false

/-- The text without its underscores, each of which must stand between two other characters. -/
def withoutUnderscores? (cs : List Char) : Option (List Char) :=
  if cs.head? == some '_' || cs.getLast? == some '_' || hasAdjacentUnderscores cs then none
  else some (cs.filter (· ≠ '_'))

/-! ### Integers -/

/-- A text of an integer in digits without leading zeros, behind at most a minus: the integer, or a problem
if there are too many digits, whatever follows them. None if the text is not of that form. -/
def wholeNumber? (cs : List Char) : Option (Checked Int) :=
  let (negative, body) := match cs with
    | '-' :: rest => (true, rest)
    | _ => (false, cs)
  match body with
  | '0' :: rest => if rest.isEmpty then some (.ok 0) else none
  | _ =>
    let (digits, rest) := body.span Char.isDigit
    if Number.maximalDigits < digits.length then some (.fail .integerRange)
    else if digits.isEmpty || !rest.isEmpty then none
    else some (.ok (Number.negateIf negative (Literal.ofDigits 10 (Literal.decimalValues digits))))

/-- What follows the leading zeros of a text, among which underscores may stand. A zero before a point stays,
and the last character if there are no others. -/
def behindZeros? : List Char → Option (List Char)
  | [] => none
  | c :: rest =>
    match rest with
    | [] => some [c]
    | '.' :: _ => some (c :: rest)
    | next :: _ =>
      if next = '0' ∨ next = '_' then behindZeros? rest
      else if next.isDigit || next = '-' then some rest
      else none

/-- A text without leading zeros. It must start with a digit or a minus. -/
def withoutLeadingZeros? : List Char → Option (List Char)
  | '0' :: rest => behindZeros? ('0' :: rest)
  | c :: rest => if c.isDigit || c = '-' then some (c :: rest) else none
  | [] => none

/-- The text without a point that only zeros follow, at least one. -/
def withoutZeroFraction (cs : List Char) : List Char :=
  match cs.span (· ≠ '.') with
  | (whole, '.' :: zeros) => if !zeros.isEmpty && zeros.all (· == '0') then whole else cs
  | _ => cs

/-- The text of an integer without a plus, leading zeros, a fraction of zeros and underscores. -/
def tidied? (cs : List Char) : Option (List Char) :=
  let signless? := match cs with
    | '+' :: rest => if rest.head? = some '-' then none else some rest
    | _ => some cs
  (signless?.bind withoutLeadingZeros?).map fun cs =>
    let whole := withoutZeroFraction cs
    (withoutUnderscores? whole).getD whole

/-- An integer written as text, with white space around it. -/
def integerOfText (text : String) : Checked Int :=
  let cs := text.toList
  let tidy? := tidied? (Text.dropEnds Text.isWhite cs)
  ((wholeNumber? cs).or (tidy?.bind wholeNumber?)).getD (.fail .integerText)

/-- Whether an integer is one of those that a word of 64 bits holds. -/
def fitsWord (n : Int) : Bool := -(Nat.pow 2 63 : Int) ≤ n && n < Nat.pow 2 63

/-- The integer that a double is. It must be smaller in size than the least integer of 64 bits. -/
def integerOfFloat (x : Float) : Checked Int :=
  if !x.isFinite then .fail .notFinite
  else if !Number.isInteger x then .fail .integerFraction
  else
    match Number.truncate? x with
    | some n => if n.natAbs < Nat.pow 2 63 then .ok n else .fail .integerRange
    | none => .fail .notFinite

/-- A value read from text, which must be Unicode. -/
def ofText {α : Type} (read : String → Checked α) (text : String) : Checked α :=
  if Text.hasHalf text then .fail .notUnicode else read text

/-- A value read from the text that bytes encode. -/
def ofBytes {α : Type} (read : String → Checked α) (unreadable : Mismatch) (bytes : List UInt8) : Checked α :=
  match String.fromUTF8? ⟨bytes.toArray⟩ with
  | some text => read text
  | none => .fail unreadable

def integer : Datum → Checked Int
  | .bool b => .ok (if b then 1 else 0)
  | .int n => .ok n
  | .float x _ => integerOfFloat x
  | .string s => ofText integerOfText s
  | .bytes bytes => ofBytes integerOfText .integerText bytes
  | _ => .fail .notInteger

/-! ### Numbers -/

/-- A lower-case ASCII word, whatever the case it is given in. -/
def lowered (cs : List Char) : String := String.ofList (cs.map Char.toLower)

/-- A decimal without sign, or a word for an infinity or for no number. -/
def unsignedNumber? (negative : Bool) (cs : List Char) : Option Float :=
  let word := lowered cs
  if word = "inf" ∨ word = "infinity" then some (Number.signed negative Number.positiveInfinity)
  else if word = "nan" then some Number.notANumber
  else if cs.all fun c => c.toNat < 128 then
    match Literal.decimal? negative cs with
    | some (.decimal negative whole fraction exponent) =>
      some (Number.ofDecimal negative (Literal.ofDigits 10 (whole ++ fraction)) (exponent - fraction.length))
    | _ => none
  else none

/-- A number written as text, with white space around it or underscores inside it. -/
def numberOfText? (text : String) : Option Float :=
  let signed (cs : List Char) : Option Float :=
    let (negative, body) := Literal.signAndRest cs
    unsignedNumber? negative body
  let cs := text.toList
  signed (Text.dropEnds Text.isWhite cs) <|> (withoutUnderscores? cs).bind signed

def numberOfText (text : String) : Checked Figure :=
  match numberOfText? text with
  | some x => .ok ⟨x, none⟩
  | none => .fail .numberText

/-- The double nearest to an integer; one beyond the range is infinite. -/
def numberOfInteger (n : Int) : Float :=
  (Number.ofInt? n).getD (Number.signed (n < 0) Number.positiveInfinity)

/-- A number. An integer beyond the range of doubles is infinite if the data `saturates`, and no number
otherwise. -/
def number (saturates : Bool) : Datum → Checked Figure
  | .bool b => .ok ⟨if b then 1.0 else 0.0, none⟩
  | .int n =>
    let x := numberOfInteger n
    if x.isFinite || saturates then .ok ⟨x, none⟩ else .fail .notNumber
  | .float x origin => .ok ⟨x, origin⟩
  | .string s => ofText numberOfText s
  | .bytes bytes => ofBytes numberOfText .numberText bytes
  | _ => .fail .notNumber

/-! ### Truth values -/

/-- The truth value that a word means. -/
def flagOfWord? (word : String) : Option Bool :=
  if ["1", "on", "t", "true", "y", "yes"].contains word then some true
  else if ["0", "off", "f", "false", "n", "no"].contains word then some false
  else none

/-- The truth value that a number means. One that is no word of 64 bits is of the wrong sort. -/
def flagOfInteger (n : Int) : Checked Bool :=
  if n = 0 then .ok false
  else if n = 1 then .ok true
  else if fitsWord n then .fail .flagValue
  else .fail .notFlag

def flagOfText (text : String) : Checked Bool :=
  match flagOfWord? (lowered text.toList) with
  | some b => .ok b
  | none => .fail .flagValue

def flag : Datum → Checked Bool
  | .bool b => .ok b
  | .int n => flagOfInteger n
  | .float x _ =>
    match integerOfFloat x with
    | .ok n => flagOfInteger n
    | .failed _ => .fail .notFlag
  | .string s => ofText flagOfText s
  | .bytes bytes => ofBytes flagOfText .flagValue bytes
  | _ => .fail .notFlag

/-! ### Texts -/

def text : Datum → Checked String
  | .string s => .ok s
  | .bytes bytes => ofBytes .ok .notUnicode bytes
  | _ => .fail .notString

/-- A value that may be null. -/
def optional {α : Type} (decode : Datum → Checked α) : Datum → Checked (Option α)
  | .null => .ok none
  | d => (decode d).map some

theorem flag_bool (b : Bool) : flag (.bool b) = .ok b := rfl

theorem text_string (s : String) : text (.string s) = .ok s := rfl

theorem integer_int (n : Int) : integer (.int n) = .ok n := rfl

end DesignTokens.Scalar
