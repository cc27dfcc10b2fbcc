import DesignTokens.Document.Load
import DesignTokens.Mapping
import DesignTokens.Text.Blank

/-!
# Environment files

An environment file gives variables, one on a line: a name, an equals sign and a value. A name may have the
word `export` in front, and may stand in single quotes. A value may stand in quotes, inside which lines may
end; without quotes it ends with the line, or before a blank and a number sign. A line that is not of this
form is passed over.

In a value, a name between `${` and `}` stands for the value of that variable, which may come from the
environment or from a line before; a default may follow the name after `:-`.

* `assignments_nil` — no text gives no variables.
-/

namespace DesignTokens.EnvFile

/-- A blank that does not end the line. -/
def isGap (c : Char) : Bool := Text.isBlank c && c != '\n' && c != '\r'

def dropGap (cs : List Char) : List Char := cs.dropWhile isGap

/-- What follows the word `export` and a blank, or the text as it is. -/
def dropExport (cs : List Char) : List Char :=
  if "export".toList.isPrefixOf cs then
    let rest := cs.drop "export".length
    if rest.head?.any isGap then dropGap rest else cs
  else cs

/-- The name at the start of a line, none before a comment, and what follows. As with all readers of part
of a line, the error is what follows where the line is not of the form. -/
def name (cs : List Char) : Except (List Char) (Option String × List Char) :=
  match cs with
  | '#' :: _ => .ok (none, cs)
  | '\'' :: rest =>
    match rest.span (· ≠ '\'') with
    | (_ :: _, '\'' :: after) => .ok (some (String.ofList (rest.takeWhile (· ≠ '\''))), after)
    | _ => .error cs
  | _ =>
    match cs.span fun c => c ≠ '=' && c ≠ '#' && !Text.isBlank c with
    | ([], _) => .error cs
    | (name, rest) => .ok (some (String.ofList name), rest)

/-- The text up to the next quote, and what follows; `read` is what comes before, last character first. A
backslash takes the character behind it along, which must not end the line. -/
def quotedBody (quote : Char) (read : List Char) : List Char → Option (List Char × List Char)
  | [] => none
  | '\\' :: c :: rest => if c = '\n' then none else quotedBody quote (c :: '\\' :: read) rest
  | c :: rest => if c = quote then some (read, rest) else quotedBody quote (c :: read) rest

/-- The characters that letters behind a backslash stand for. -/
def escapes (quote : Char) : List (Char × Char) :=
  if quote = '"' then
    [('\\', '\\'), ('\'', '\''), ('"', '"'), ('a', '\x07'), ('b', '\x08'), ('f', '\x0c'), ('n', '\n'),
     ('r', '\r'), ('t', '\t'), ('v', '\x0b')]
  else [('\\', '\\'), ('\'', '\'')]

/-- A text with its escapes replaced; a backslash in front of another letter stays. -/
def unescaped (known : List (Char × Char)) : List Char → List Char
  | '\\' :: c :: rest =>
    match known.lookup c with
    | some meant => meant :: unescaped known rest
    | none => '\\' :: unescaped known (c :: rest)
  | c :: rest => c :: unescaped known rest
  | [] => []

/-- The text before the first blanks with a number sign behind them. -/
def beforeComment : List Char → List Char
  | [] => []
  | c :: rest =>
    if Text.isBlank c && (rest.dropWhile Text.isBlank).head? == some '#' then []
    else c :: beforeComment rest

/-- A value, from behind the equals sign. -/
def value (cs : List Char) : Except (List Char) (String × List Char) :=
  match dropGap cs with
  | [] => .ok ("", [])
  | c :: inner =>
    if c = '\'' ∨ c = '"' then
      match quotedBody c [] inner with
      | some (read, rest) => .ok (String.ofList (unescaped (escapes c) read.reverse), rest)
      | none => .error (c :: inner)
    else
      let (line, rest) := cs.span (· ≠ '\n')
      .ok (String.ofList (Text.dropEnds Text.isBlank (beforeComment line)), rest)

/-- The value after an equals sign, if there is one. -/
def optionalValue (cs : List Char) : Except (List Char) (Option String × List Char) :=
  match cs with
  | '=' :: rest => do
    let (value, rest) ← value rest
    return (some value, rest)
  | _ => .ok (none, cs)

/-- What follows the end of the line, before which only a comment may stand. -/
def endOfLine (cs : List Char) : Except (List Char) (List Char) :=
  let afterGap := dropGap cs
  let rest := if afterGap.head? == some '#' then afterGap.dropWhile (· ≠ '\n') else cs
  match dropGap rest with
  | [] => .ok []
  | '\n' :: next => .ok next
  | _ => .error rest

/-- The variable of a line, and what follows the line. -/
def line (cs : List Char) : Except (List Char) (Option (String × Option String) × List Char) := do
  let (name, rest) ← name (dropExport cs)
  let (value, rest) ← optionalValue (dropGap rest)
  return (name.map (·, value), ← endOfLine rest)

/-- The variables in a text as they are written; `left` bounds the lines. -/
def lines : (left : Nat) → List Char → List (String × Option String)
  | 0, _ => []
  | left + 1, cs =>
    match cs.dropWhile Text.isBlank with
    | [] => []
    | cs =>
      match line cs with
      | .ok (found, rest) => found.toList ++ lines left rest
      | .error rest => lines left ((rest.dropWhile (· ≠ '\n')).drop 1)

/-! ### References to other variables -/

/-- A name and a default between `${` and `}`, from behind the opening brace. -/
def reference? (cs : List Char) : Option ((String × String) × List Char) :=
  match cs.span fun c => c ≠ '\x7d' && c ≠ ':' with
  | (name, '\x7d' :: rest) => some ((String.ofList name, ""), rest)
  | (name, ':' :: '-' :: rest) =>
    match rest.span (· ≠ '\x7d') with
    | (fallback, '\x7d' :: rest) => some ((String.ofList name, String.ofList fallback), rest)
    | _ => none
  | _ => none

/-- The names that a text refers to. -/
def mentioned : List Char → List String
  | '$' :: '\x7b' :: rest => ((reference? rest).map fun found => found.1.1).toList ++ mentioned rest
  | _ :: rest => mentioned rest
  | [] => []

/-- A text with its references replaced by what `find` gives for a name and a default. -/
def replaced (find : String → String → String) : (left : Nat) → List Char → List Char
  | left + 1, '$' :: '\x7b' :: rest =>
    match reference? rest with
    | some ((name, fallback), rest) => (find name fallback).toList ++ replaced find left rest
    | none => '$' :: replaced find left ('\x7b' :: rest)
  | left + 1, c :: rest => c :: replaced find left rest
  | _, cs => cs

/-- The variables with their references resolved, in order. One without value has none. -/
def resolved (environment : List (String × String)) (assignments : List (String × Option String)) :
    Mapping (Option String) :=
  assignments.foldl (fun done (name, value) =>
    let find (name fallback : String) : String :=
      match done.find? name with
      | some known => known.getD ""
      | none => (environment.lookup name).getD fallback
    done.insert name (value.map fun text =>
      String.ofList (replaced find (text.length + 1) text.toList))) ∅

/-- The variables that a text gives. -/
def assignments (environment : List (String × String)) (text : String) : Mapping (Option String) :=
  let cs := Document.withLineFeeds text.toList
  resolved environment (lines (cs.length + 1) cs)

theorem assignments_nil (environment : List (String × String)) :
    assignments environment "" = (∅ : Mapping (Option String)) := rfl

end DesignTokens.EnvFile
