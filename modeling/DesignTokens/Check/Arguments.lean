import DesignTokens.Text.Digit

/-!
# Arguments of a check

A check takes two options, each with a value: the folder of the brand and the name of the document in it. A
value follows its option, or an equals sign in the same word. The name of an option may be cut short as long
as no other one starts like it. A word that starts with a hyphen is no value, unless it is a hyphen alone,
looks like a negative number or holds a space; after two hyphens every word is a value. Words that belong to
no option are an error, and so is an option without a value.

* `parse_nil` — without words nothing is asked for but a check.
-/

namespace DesignTokens.Check

inductive Flag where
  | help | brandDir | file
  deriving DecidableEq, Repr

/-- The names of the options with two hyphens. -/
def longNames : List (String × Flag) :=
  [("--help", .help), ("--brand-dir", .brandDir), ("--file", .file)]

/-- What a word is by its form. -/
inductive Word where
  | value
  /-- An option, with a value of its own in the same word if it has one. -/
  | flag (flag : Flag) (own : Option String)
  /-- The form of an option, but there is none of that name. -/
  | unknown
  /-- An option that may be any of several, or letters behind a hyphen that do not make sense. -/
  | bad (early : Bool)
  deriving DecidableEq, Repr

/-- Nothing, or the end of a line. -/
def isLineEnd (rest : List Char) : Bool := rest = [] || rest = ['\n']

/-- A hyphen and digits, with a point among or before them. A line may end behind the last digit. -/
def isNegativeNumber : List Char → Bool
  | '-' :: digits =>
    match digits.span Text.isDecimal with
    | (_, '.' :: fraction) =>
      let (places, rest) := fraction.span Text.isDecimal
      !places.isEmpty && isLineEnd rest
    | (whole, rest) => !whole.isEmpty && isLineEnd rest
  | _ => false

/-- A word that is no option: a value in certain forms. -/
def withoutFlag (word : String) : Word :=
  if isNegativeNumber word.toList || word.toList.contains ' ' then .value else .unknown

/-- The letters of help, one or more. -/
def asksHelp (letters : List Char) : Bool := !letters.isEmpty && letters.all (· = 'h')

/-- A word with one hyphen in front. Letters may follow the letter of help, and an equals sign may stand
between; but there is no option with another letter. -/
def shortWord (word : String) : List Char → Word
  | ['h'] => .flag .help none
  | 'h' :: '=' :: rest => if asksHelp rest then .flag .help none else .bad false
  | 'h' :: rest => if asksHelp rest then .flag .help none else .bad false
  | _ => withoutFlag word

/-- A word with two hyphens in front. -/
def longWord (word : String) : Word :=
  let (name, rest) := word.toList.span (· ≠ '=')
  let own := if rest.isEmpty then none else some (String.ofList (rest.drop 1))
  match longNames.filter fun known => name.isPrefixOf known.1.toList with
  | [(_, .help)] => if own.isSome then .bad false else .flag .help none
  | [(_, flag)] => .flag flag own
  | [] => withoutFlag word
  | _ => .bad true

/-- What a word in front of two hyphens is. -/
def Word.of (word : String) : Word :=
  match word.toList with
  | ['-'] => .value
  | '-' :: '-' :: _ => longWord word
  | '-' :: rest => shortWord word rest
  | _ => .value

/-- What a caller wants. -/
inductive Request where
  | help
  | misuse
  /-- A check, with what was given for it. -/
  | check (brandDir file : Option String)
  deriving DecidableEq, Repr

/-- Reads words with their forms, from left to right. `left` tells whether a word was left over. -/
def readWords (brandDir file : Option String) (left : Bool) : List (String × Word) → Request
  | [] => if left then .misuse else .check brandDir file
  | (_, .value) :: rest => readWords brandDir file true rest
  | (_, .unknown) :: rest => readWords brandDir file true rest
  | (_, .bad _) :: _ => .misuse
  | (_, .flag .help _) :: _ => .help
  | (_, .flag .brandDir (some own)) :: rest => readWords (some own) file left rest
  | (_, .flag .file (some own)) :: rest => readWords brandDir (some own) left rest
  | (_, .flag .brandDir none) :: (value, .value) :: rest => readWords (some value) file left rest
  | (_, .flag .file none) :: (value, .value) :: rest => readWords brandDir (some value) left rest
  | (_, .flag _ none) :: _ => .misuse

/-- What the words of a command line ask for. Two hyphens are left over themselves. -/
def Request.parse (words : List String) : Request :=
  let (before, after) := words.span (· ≠ "--")
  let forms := before.map fun word => (word, Word.of word)
  if forms.any fun form => form.2 == .bad true then .misuse
  else
    readWords none none false
      (forms ++ (after.take 1).map (·, Word.unknown) ++ (after.drop 1).map (·, Word.value))

theorem parse_nil : Request.parse [] = .check none none := rfl

end DesignTokens.Check
