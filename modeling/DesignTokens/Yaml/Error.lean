/-!
# YAML errors

Why text is not the YAML of a value. Reading has stages: characters make tokens, tokens make nodes, and
nodes have values; an error tells the first stage that fails. A scalar may also fail on its own: it is well
formed and yet has no value of the sort that it claims to be.
-/

namespace DesignTokens.Yaml

inductive ScalarError where
  /-- An escape that names no character. -/
  | escape
  /-- A number beyond what its use allows. -/
  | range
  /-- Text that is no number, or digits that make up no date. -/
  | number
  /-- No text where a number should stand. -/
  | empty
  /-- A word that is no truth value. -/
  | truthValue
  /-- Text that has not the form of a date. -/
  | date
  /-- A date whose text is the default value of a mapping. -/
  | dateOfMapping
  /-- A scalar whose text is the default value of a mapping that lies inside itself. -/
  | endless
  deriving DecidableEq, Repr

/-- The name of the sort of an error. -/
def ScalarError.name : ScalarError → String
  | .escape => "ValueError"
  | .range => "OverflowError"
  | .number => "ValueError"
  | .empty => "IndexError"
  | .truthValue => "KeyError"
  | .date => "AttributeError"
  | .dateOfMapping => "TypeError"
  | .endless => "RecursionError"

inductive Error where
  /-- A character that YAML does not allow. -/
  | character
  /-- Text that is no token. -/
  | token
  /-- Tokens that form no node. -/
  | arrangement
  /-- Collections nested too deep. -/
  | depth
  /-- An alias without anchor, an anchor that is taken, or several documents. -/
  | reference
  /-- A node that has no value. -/
  | value
  /-- A scalar that is not of the sort it claims to be. -/
  | scalar (error : ScalarError)
  deriving DecidableEq, Repr

/-- The name of the sort of an error. -/
def Error.name : Error → String
  | .character => "ReaderError"
  | .token => "ScannerError"
  | .arrangement => "ParserError"
  | .depth => "RecursionError"
  | .reference => "ComposerError"
  | .value => "ConstructorError"
  | .scalar error => error.name

end DesignTokens.Yaml
