import DesignTokens.Number.Literal
import DesignTokens.Text.Half
import DesignTokens.Yaml.Cursor
import DesignTokens.Yaml.Error

/-!
# YAML tokens

The tokens of YAML text, and the readers of those tokens that have a text of their own: directives, names of
anchors, tags and the four styles of scalars. A reader starts at the first character of its token and ends
behind the last one.

The loops count down the characters that are left; each round takes at least one.
-/

namespace DesignTokens.Yaml

inductive Token where
  | streamEnd
  /-- `%YAML` with its major version. -/
  | versionDirective (major : Nat)
  /-- `%TAG` with a handle and what it stands for. -/
  | tagDirective (handle expansion : String)
  | otherDirective
  | documentStart
  | documentEnd
  | blockSequenceStart
  | blockMappingStart
  | blockEnd
  | flowSequenceStart
  | flowSequenceEnd
  | flowMappingStart
  | flowMappingEnd
  | key
  | value
  | blockEntry
  | flowEntry
  | alias (name : String)
  | anchor (name : String)
  | tag (handle : Option String) (suffix : String)
  | scalar (text : String) (plain : Bool)
  deriving DecidableEq, Repr

namespace Token

/-- The text at the cursor is no token. -/
def bad {α : Type} : Except Error α := .error .token

def isWordChar (c : Char) : Bool := c.isAlphanum || c == '-' || c == '_'

/-- A cursor that must stand where a word may end. -/
def atWordEnd (c : Cursor) : Except Error Cursor :=
  if c.isSpaceOrEnd then .ok c else bad

/-- The rest of a line on which only a comment may stand, with its end. -/
def restOfLine (c : Cursor) : Except Error Cursor :=
  let c := c.skipSpaces
  let c := if c.at? '#' then c.skipWhile (!isBreak ·) else c
  if c.isLineEnd then .ok c.lineBreak.2 else bad

/-- A number of at least one digit. -/
def natural (c : Cursor) : Except Error (Nat × Cursor) :=
  match c.span Char.isDigit with
  | ([], _) => bad
  | (digits, c) => .ok (Number.Literal.ofDigits 10 (Number.Literal.decimalValues digits), c)

/-- A byte written as a percent sign and two hexadecimal digits. -/
def escapedByte? : List Char → Option UInt8
  | '%' :: a :: b :: _ => do
    let high ← Number.Literal.hexValue? a
    let low ← Number.Literal.hexValue? b
    return (high * 16 + low).toUInt8
  | _ => none

/-- A run of escaped bytes, which together must be text. -/
def escapedBytes : (left : Nat) → Cursor → ByteArray → Except Error (ByteArray × Cursor)
  | left + 1, c, bytes =>
    if c.at? '%' then
      match escapedByte? c.rest with
      | some byte => escapedBytes left (c.skip 3) (bytes.push byte)
      | none => bad
    else .ok (bytes, c)
  | 0, c, bytes => .ok (bytes, c)

def isUriChar (c : Char) : Bool := c.isAlphanum || "-;/?:@&=+$,_.!~*'()[]".toList.contains c

/-- The characters of a URI, escapes resolved. -/
def uriBody : (left : Nat) → Cursor → List Char → Except Error (List Char × Cursor)
  | left + 1, c, read =>
    if c.at? '%' then do
      let (bytes, c) ← escapedBytes left c .empty
      match String.fromUTF8? bytes with
      | some text => uriBody left c (read ++ text.toList)
      | none => bad
    else
      match c.span isUriChar with
      | ([], c) => .ok (read, c)
      | (run, c) => uriBody left c (read ++ run)
  | 0, c, read => .ok (read, c)

/-- A URI of at least one character. -/
def uri (c : Cursor) : Except Error (String × Cursor) := do
  let (body, c) ← uriBody (c.rest.length + 1) c []
  if body.isEmpty then bad else return (String.ofList body, c)

/-- The handle of a tag: an exclamation mark, or a word between two of them. -/
def tagHandle (c : Cursor) : Except Error (String × Cursor) :=
  if !c.at? '!' then bad
  else
    let c := c.advance
    if c.at? ' ' then .ok ("!", c)
    else
      let (word, c) := c.span isWordChar
      if c.at? '!' then .ok (String.ofList ('!' :: word ++ ['!']), c.advance) else bad

/-- A character that must come next, and the cursor behind it. -/
def expect (ch : Char) (c : Cursor) : Except Error Cursor :=
  if c.at? ch then .ok c.advance else bad

/-- The version of YAML that a directive asks for, from behind the name of the directive. -/
def versionBody (c : Cursor) : Except Error (Token × Cursor) := do
  let (major, c) ← natural c.skipSpaces
  let (_, c) ← natural (← expect '.' c)
  return (.versionDirective major, ← atWordEnd c)

/-- The handle that a directive defines, from behind the name of the directive. -/
def handleBody (c : Cursor) : Except Error (Token × Cursor) := do
  let (handle, c) ← tagHandle c.skipSpaces
  let (expansion, c) ← uri (← expect ' ' c).skipSpaces
  return (.tagDirective handle expansion, ← atWordEnd c)

/-- A directive, from its percent sign. -/
def directive (c : Cursor) : Except Error (Token × Cursor) := do
  let (name, c) := c.advance.span isWordChar
  let c ← if name.isEmpty then bad else atWordEnd c
  let (token, c) ←
    if name = ['Y', 'A', 'M', 'L'] then versionBody c
    else if name = ['T', 'A', 'G'] then handleBody c
    else .ok (.otherDirective, c.skipWhile (!isBreak ·))
  return (token, ← restOfLine c)

/-- The name of an anchor or of an alias, from its mark. -/
def anchorName (c : Cursor) : Except Error (String × Cursor) :=
  let (name, c) := c.advance.span isWordChar
  let ends := c.isBlankOrEnd || (c.peek).any "?:,]\x7d%@`".toList.contains
  if name.isEmpty || !ends then bad else .ok (String.ofList name, c)

/-- A tag, from its exclamation mark: verbatim between angle brackets, the mark alone, or a handle and a
suffix. -/
def tagBody (c : Cursor) : Except Error (Token × Cursor) :=
  if c.peek 1 == some '<' then do
    let (suffix, c) ← uri (c.skip 2)
    return (.tag none suffix, ← expect '>' c)
  else if c.isBlankOrEnd 1 then .ok (.tag none "!", c.advance)
  else do
    let word := c.rest.tail.takeWhile fun ch => !(ch == ' ' || isBreak ch)
    let (handle, c) ← if word.contains '!' then tagHandle c else .ok ("!", c.advance)
    let (suffix, c) ← uri c
    return (.tag (some handle) suffix, c)

/-- A tag, which ends where a word may end. -/
def tagOf (c : Cursor) : Except Error (Token × Cursor) := do
  let (token, c) ← tagBody c
  return (token, ← atWordEnd c)

/-! ### Scalars in quotes -/

/-- The character that a letter behind a backslash stands for. -/
def escape? (c : Char) : Option Char :=
  [('0', '\x00'), ('a', '\x07'), ('b', '\x08'), ('t', '\t'), ('\t', '\t'), ('n', '\n'), ('v', '\x0b'),
   ('f', '\x0c'), ('r', '\r'), ('e', '\x1b'), (' ', ' '), ('"', '"'), ('\\', '\\'), ('/', '/'),
   ('N', '\u0085'), ('_', '\u00a0'), ('L', '\u2028'), ('P', '\u2029')].lookup c

/-- How many hexadecimal digits follow a letter behind a backslash. -/
def escapeLength? (c : Char) : Option Nat := [('x', 2), ('u', 4), ('U', 8)].lookup c

/-- The empty lines inside a scalar in quotes, which no document separator may interrupt. -/
def quotedBreaks : (left : Nat) → Cursor → List Char → Except Error (List Char × Cursor)
  | left + 1, c, read =>
    if c.isSeparator then bad
    else
      let c := c.skipWhile fun ch => ch == ' ' || ch == '\t'
      match c.lineBreak with
      | ([], c) => .ok (read, c)
      | (lineEnd, c) => quotedBreaks left c (read ++ lineEnd)
  | 0, c, read => .ok (read, c)

/-- One escape of a scalar in double quotes, from behind its backslash. -/
def escaped (left : Nat) (c : Cursor) : Except Error (List Char × Cursor) :=
  match c.peek with
  | none => bad
  | some ch =>
    match escape? ch, escapeLength? ch with
    | some meant, _ => .ok ([meant], c.advance)
    | none, some length =>
      let digits := c.advance.rest.take length
      match digits.mapM Number.Literal.hexValue? with
      | some values =>
        let code := Number.Literal.ofDigits 16 values
        if digits.length ≠ length then bad
        else
          match Text.ofCode? code with
          | some meant => .ok ([meant], c.skip (length + 1))
          | none => .error (.scalar (if code < Nat.pow 2 31 then .escape else .range))
      | none => bad
    | none, none => if isBreak ch then quotedBreaks left c.lineBreak.2 [] else bad

/-- The spaces or line ends at the cursor as they read: a single line end is a space, and of several the
first one does not count. -/
def quotedSpaces (left : Nat) (c : Cursor) : Except Error (List Char × Cursor) :=
  let (spaces, c) := c.span fun ch => ch == ' ' || ch == '\t'
  if c.rest.isEmpty then bad
  else
    match c.lineBreak with
    | ([], c) => .ok (spaces, c)
    | (lineEnd, c) => do
      let (breaks, c) ← quotedBreaks left c []
      let lead := if lineEnd ≠ ['\n'] then lineEnd else if breaks.isEmpty then [' '] else []
      return (lead ++ breaks, c)

/-- A scalar in quotes, from behind its opening quote. -/
def quotedBody (double : Bool) : (left : Nat) → Cursor → List Char → Except Error (Token × Cursor)
  | 0, _, _ => bad
  | left + 1, c, read =>
    match c.peek with
    | none => bad
    | some ch =>
      if double && ch == '"' then .ok (.scalar (String.ofList read) false, c.advance)
      else if !double && ch == '\'' then
        if c.peek 1 == some '\'' then quotedBody double left (c.skip 2) (read ++ ['\''])
        else .ok (.scalar (String.ofList read) false, c.advance)
      else if double && ch == '\\' then do
        let (meant, c) ← escaped left c.advance
        quotedBody double left c (read ++ meant)
      else if ch == ' ' || ch == '\t' || isBreak ch then do
        let (spaces, c) ← quotedSpaces left c
        quotedBody double left c (read ++ spaces)
      else
        let (run, c) := c.advance.span fun ch => !("'\"\\ \t".toList.contains ch || isBreak ch)
        quotedBody double left c (read ++ ch :: run)

/-- A scalar in quotes, from its opening quote. -/
def quoted (double : Bool) (c : Cursor) : Except Error (Token × Cursor) :=
  quotedBody double (c.rest.length + 1) c.advance []

/-! ### Block scalars -/

/-- What the head of a block scalar says about the line ends after its text. -/
inductive Chomping where
  | strip | clip | keep
  deriving DecidableEq, Repr

/-- An indentation digit, which may not be zero. -/
def increment? (c : Cursor) : Except Error (Option Nat × Cursor) :=
  match c.peek with
  | some ch =>
    if ch = '0' then bad
    else if ch.isDigit then .ok (some (ch.toNat - '0'.toNat), c.advance)
    else .ok (none, c)
  | none => .ok (none, c)

def chomping? (c : Cursor) : Option Chomping × Cursor :=
  match c.peek with
  | some '+' => (some .keep, c.advance)
  | some '-' => (some .strip, c.advance)
  | _ => (none, c)

/-- The head of a block scalar behind its mark: chomping and indentation in either order. -/
def blockHead (c : Cursor) : Except Error ((Chomping × Option Nat) × Cursor) := do
  let (first, c) := chomping? c
  let (increment, c) ← increment? c
  let (second, c) := if first.isNone && increment.isSome then chomping? c else (none, c)
  let c ← atWordEnd c
  return (((first <|> second).getD .clip, increment), ← restOfLine c)

/-- The line ends before the first text of a block scalar, and the deepest indentation among them. -/
def blockIndentation : (left : Nat) → Cursor → List Char → Nat → List Char × Nat × Cursor
  | left + 1, c, breaks, deepest =>
    if c.at? ' ' then blockIndentation left c.advance breaks (max deepest (c.column + 1))
    else
      match c.lineBreak with
      | ([], c) => (breaks, deepest, c)
      | (lineEnd, c) => blockIndentation left c (breaks ++ lineEnd) deepest
  | 0, c, breaks, deepest => (breaks, deepest, c)

/-- The cursor behind the spaces up to a column. -/
def toColumn (indent : Nat) : (left : Nat) → Cursor → Cursor
  | left + 1, c => if c.column < indent && c.at? ' ' then toColumn indent left c.advance else c
  | 0, c => c

/-- The line ends between two lines of a block scalar. -/
def blockBreaks (indent : Nat) : (left : Nat) → Cursor → List Char → List Char × Cursor
  | left + 1, c, breaks =>
    let c := toColumn indent (left + 1) c
    match c.lineBreak with
    | ([], c) => (breaks, c)
    | (lineEnd, c) => blockBreaks indent left c (breaks ++ lineEnd)
  | 0, c, breaks => (breaks, c)

/-- The lines of a block scalar: the text so far, the end of its last line and the line ends after it. -/
def blockLines (folded : Bool) (indent : Nat) : (left : Nat) → Cursor → (read breaks : List Char) →
    (List Char × List Char × List Char) × Cursor
  | left + 1, c, read, breaks =>
    let startsWithText := !(c.at? ' ' || c.at? '\t')
    let (line, c) := c.span (!isBreak ·)
    let read := read ++ breaks ++ line
    let (lineEnd, c) := c.lineBreak
    let (breaks, c) := blockBreaks indent (left + 1) c []
    if c.column = indent ∧ !c.rest.isEmpty then
      let joins := folded && lineEnd == ['\n'] && startsWithText && !(c.at? ' ' || c.at? '\t')
      let between := if joins then (if breaks.isEmpty then [' '] else []) else lineEnd
      blockLines folded indent left c (read ++ between) breaks
    else ((read, lineEnd, breaks), c)
  | 0, c, read, breaks => ((read, [], breaks), c)

/-- A block scalar inside an indentation, from its mark. -/
def block (folded : Bool) (indent : Int) (c : Cursor) : Except Error (Token × Cursor) := do
  let ((chomping, increment), c) ← blockHead c.advance
  let least := max 1 (indent + 1).toNat
  let left := c.rest.length + 1
  let (indent, breaks, c) := match increment with
    | some increment =>
      let indent := least + increment - 1
      let (breaks, c) := blockBreaks indent left c []
      (indent, breaks, c)
    | none =>
      let (breaks, deepest, c) := blockIndentation left c [] 0
      (max least deepest, breaks, c)
  let ((read, lineEnd, breaks), c) :=
    if c.column = indent ∧ !c.rest.isEmpty then blockLines folded indent left c [] breaks
    else (([], [], breaks), c)
  let ending := match chomping with
    | .strip => []
    | .clip => lineEnd
    | .keep => lineEnd ++ breaks
  return (.scalar (String.ofList (read ++ ending)) false, c)

/-! ### Plain scalars -/

/-- Whether a plain scalar may start here. -/
def startsPlain (inFlow : Bool) (c : Cursor) : Bool :=
  match c.peek with
  | none => false
  | some ch =>
    if ch == ' ' || ch == '\t' || isBreak ch then false
    else if "-?:,[]\x7b\x7d#&*!|>'\"%@`".toList.contains ch then
      !c.isBlankOrEnd 1 && (ch == '-' || (!inFlow && (ch == '?' || ch == ':')))
    else true

/-- How many of the characters ahead belong to a plain scalar without spaces. -/
def plainLength (inFlow : Bool) : List Char → Nat
  | [] => 0
  | ch :: rest =>
    let next := rest.head?
    let blankNext := next.all fun n => n == ' ' || n == '\t' || isBreak n
    let flowNext := inFlow && next.any ",[]\x7b\x7d".toList.contains
    if ch == ' ' || ch == '\t' || isBreak ch || (ch == ':' && (blankNext || flowNext)) ||
        (inFlow && ",?[]\x7b\x7d".toList.contains ch) then 0
    else plainLength inFlow rest + 1

/-- The empty lines inside a plain scalar; none if a document separator ends it. -/
def plainBreaks : (left : Nat) → Cursor → List Char → Option (List Char) × Cursor
  | left + 1, c, breaks =>
    if c.at? ' ' then plainBreaks left c.advance breaks
    else
      match c.lineBreak with
      | ([], c) => (some breaks, c)
      | (lineEnd, c) => if c.isSeparator then (none, c) else plainBreaks left c (breaks ++ lineEnd)
  | 0, c, breaks => (some breaks, c)

/-- The spaces or line ends at the cursor as they read inside a plain scalar, and whether a line ended. No
spaces mean that the scalar ends. -/
def plainSpaces (left : Nat) (c : Cursor) : List Char × Bool × Cursor :=
  let (spaces, c) := c.span (· == ' ')
  match c.lineBreak with
  | ([], c) => (spaces, false, c)
  | (lineEnd, c) =>
    if c.isSeparator then ([], true, c)
    else
      match plainBreaks left c [] with
      | (none, c) => ([], true, c)
      | (some breaks, c) =>
        let lead := if lineEnd ≠ ['\n'] then lineEnd else if breaks.isEmpty then [' '] else []
        (lead ++ breaks, true, c)

/-- A plain scalar whose lines are indented at least to a column, and whether a line ended after its text. -/
def plainBody (inFlow : Bool) (indent : Int) : (left : Nat) → Cursor → (read spaces : List Char) →
    (ended : Bool) → String × Bool × Cursor
  | left + 1, c, read, spaces, ended =>
    let length := if c.at? '#' then 0 else plainLength inFlow c.rest
    if length = 0 then (String.ofList read, ended, c)
    else
      let read := read ++ spaces ++ c.rest.take length
      let (spaces, lineEnded, c) := plainSpaces (left + 1) (c.skip length)
      if spaces.isEmpty || c.at? '#' || (!inFlow && (c.column : Int) < indent) then
        (String.ofList read, lineEnded, c)
      else plainBody inFlow indent left c read spaces lineEnded
  | 0, c, read, _, ended => (String.ofList read, ended, c)

/-- A plain scalar inside an indentation, and whether a line ended after its text. -/
def plain (inFlow : Bool) (indent : Int) (c : Cursor) : String × Bool × Cursor :=
  plainBody inFlow (indent + 1) (c.rest.length + 1) c [] [] false

end Token

end DesignTokens.Yaml
