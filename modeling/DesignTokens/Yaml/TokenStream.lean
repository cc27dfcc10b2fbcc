import DesignTokens.Yaml.Token

/-!
# Token streams

The tokens of a text, read one by one as they are asked for. What a token means may depend on what follows:
a scalar turns out to be a key once its colon comes. So the stream remembers where keys may have started and
holds back a token as long as it may be the start of a key; the marks of the key and of the block that it
opens are then put in front of it.

A block is opened where a column is deeper than the indentation so far, and closed where one is not as deep.
Brackets and braces open flows, inside which columns do not count.

* `closeTo_nil` — without open blocks nothing is closed.
-/

namespace DesignTokens.Yaml

/-- A place where a key without a mark of its own may have started. -/
structure KeyStart where
  /-- The number of its first token. -/
  token : Nat
  /-- Whether the place must turn out to be a key, as the first word of a line in a mapping must. -/
  required : Bool
  offset : Nat
  line : Nat
  column : Nat

structure TokenStream where
  cursor : Cursor
  /-- Tokens that are read and not yet taken. -/
  queue : List Token := []
  /-- How many tokens have been taken. -/
  taken : Nat := 0
  ended : Bool := false
  flowLevel : Nat := 0
  /-- The column of the innermost block, and of those around it. -/
  indent : Int := -1
  indents : List Int := []
  /-- Whether a key may start here. -/
  allowsKey : Bool := true
  /-- The possible starts of keys by flow level. -/
  keyStarts : List (Nat × KeyStart) := []

namespace TokenStream

/-- The stream of a text, whose first character may be a byte order mark. -/
def ofText (text : String) : TokenStream where
  cursor := ⟨match text.toList with
    | '\ufeff' :: rest => rest
    | cs => cs, 0, 0, 0⟩

/-- The greatest number of characters between the start of a key and its colon. -/
def maximalKeyLength : Nat := 1024

/-- Whether a start of a key is too far behind: on another line, or too many characters. -/
def isStale (s : TokenStream) (k : KeyStart) : Bool :=
  k.line ≠ s.cursor.line || k.offset + maximalKeyLength < s.cursor.offset

/-- The stream without the starts that are too far behind, none of which may be required. -/
def dropStale (s : TokenStream) : Except Error TokenStream :=
  if s.keyStarts.any fun k => s.isStale k.2 && k.2.required then .error .token
  else .ok { s with keyStarts := s.keyStarts.filter fun k => !s.isStale k.2 }

/-- The start of a key on this flow level. -/
def keyStart? (s : TokenStream) : Option KeyStart := s.keyStarts.lookup s.flowLevel

/-- The stream without a start on this flow level. -/
def withoutKeyStart (s : TokenStream) : TokenStream :=
  { s with keyStarts := s.keyStarts.filter (·.1 ≠ s.flowLevel) }

/-- The stream without a start on this flow level, which may not be required. -/
def dropKeyStart (s : TokenStream) : Except Error TokenStream :=
  if s.keyStart?.any (·.required) then .error .token else .ok s.withoutKeyStart

/-- The stream with the next token as the start of a key, if a key may start here. -/
def noteKeyStart (s : TokenStream) : Except Error TokenStream :=
  if s.allowsKey then do
    let start : KeyStart := {
      token := s.taken + s.queue.length
      required := s.flowLevel == 0 && s.indent == s.cursor.column
      offset := s.cursor.offset
      line := s.cursor.line
      column := s.cursor.column }
    let s ← s.dropKeyStart
    return { s with keyStarts := (s.flowLevel, start) :: s.keyStarts }
  else .ok s

/-- The ends of the blocks deeper than a column, with the indentation that is left. -/
def blockEnds (column indent : Int) : List Int → List Token × Int × List Int
  | [] => ([], indent, [])
  | outer :: rest =>
    if column < indent then
      let (ends, left) := blockEnds column outer rest
      (.blockEnd :: ends, left)
    else ([], indent, outer :: rest)

/-- The stream with the blocks deeper than a column closed. Inside a flow no block ends. -/
def closeTo (s : TokenStream) (column : Int) : TokenStream :=
  if s.flowLevel ≠ 0 then s
  else
    let (ends, indent, indents) := blockEnds column s.indent s.indents
    { s with queue := s.queue ++ ends, indent, indents }

theorem closeTo_nil {s : TokenStream} (column : Int) (h : s.indents = []) :
    (s.closeTo column).queue = s.queue := by
  unfold closeTo
  split <;> simp [h, blockEnds]

/-- The stream with a block opened at a column, if that is deeper than the blocks so far. -/
def openAt (s : TokenStream) (column : Nat) : Bool × TokenStream :=
  if s.indent < column then (true, { s with indents := s.indent :: s.indents, indent := column })
  else (false, s)

/-- The stream with a token read, and the cursor behind it. -/
def push (s : TokenStream) (token : Token) (cursor : Cursor) : TokenStream :=
  { s with queue := s.queue ++ [token], cursor }

/-- The cursor at the next token, and whether a line ended on the way. -/
def nextToken : (left : Nat) → Cursor → Bool → Cursor × Bool
  | 0, c, ended => (c, ended)
  | left + 1, c, ended =>
    let c := c.skipSpaces
    let c := if c.at? '#' then c.skipWhile (!isBreak ·) else c
    match c.lineBreak with
    | ([], c) => (c, ended)
    | (_, c) => nextToken left c true

/-- The stream at its next token. Outside flows a key may start on each new line. -/
def toNextToken (s : TokenStream) : TokenStream :=
  let (cursor, ended) := nextToken (s.cursor.rest.length + 1) s.cursor false
  { s with cursor, allowsKey := s.allowsKey || (ended && s.flowLevel == 0) }

/-! ### The tokens one by one -/

def fetchEnd (s : TokenStream) : Except Error TokenStream := do
  let s ← (s.closeTo (-1)).dropKeyStart
  return { s with
    queue := s.queue ++ [.streamEnd], ended := true, allowsKey := false, keyStarts := [] }

def fetchDirective (s : TokenStream) : Except Error TokenStream := do
  let s ← (s.closeTo (-1)).dropKeyStart
  let (token, cursor) ← Token.directive s.cursor
  return { s with allowsKey := false }.push token cursor

def fetchSeparator (s : TokenStream) (token : Token) : Except Error TokenStream := do
  let s ← (s.closeTo (-1)).dropKeyStart
  return { s with allowsKey := false }.push token (s.cursor.skip 3)

def fetchFlowStart (s : TokenStream) (token : Token) : Except Error TokenStream := do
  let s ← s.noteKeyStart
  return { s with flowLevel := s.flowLevel + 1, allowsKey := true }.push token s.cursor.advance

def fetchFlowEnd (s : TokenStream) (token : Token) : Except Error TokenStream := do
  let s ← s.dropKeyStart
  return { s with flowLevel := s.flowLevel - 1, allowsKey := false }.push token s.cursor.advance

def fetchFlowEntry (s : TokenStream) : Except Error TokenStream := do
  let s ← s.dropKeyStart
  return { s with allowsKey := true }.push .flowEntry s.cursor.advance

/-- A mark that outside flows may only stand where a key may start, with the block that it opens. -/
def openBlock (s : TokenStream) (start : Token) : Except Error TokenStream :=
  if s.flowLevel ≠ 0 then .ok s
  else if !s.allowsKey then .error .token
  else
    let (opens, s) := s.openAt s.cursor.column
    .ok (if opens then s.push start s.cursor else s)

def fetchBlockEntry (s : TokenStream) : Except Error TokenStream := do
  let s ← (← s.openBlock .blockSequenceStart).dropKeyStart
  return { s with allowsKey := true }.push .blockEntry s.cursor.advance

def fetchKey (s : TokenStream) : Except Error TokenStream := do
  let s ← (← s.openBlock .blockMappingStart).dropKeyStart
  return { s with allowsKey := s.flowLevel == 0 }.push .key s.cursor.advance

/-- A colon: it makes a key of what started on this level, or stands for itself. -/
def fetchValue (s : TokenStream) : Except Error TokenStream :=
  match s.keyStart? with
  | some start =>
    let s := s.withoutKeyStart
    let (opens, s) := if s.flowLevel == 0 then s.openAt start.column else (false, s)
    let marks := if opens then [.blockMappingStart, .key] else [.key]
    let place := start.token - s.taken
    let queue := s.queue.take place ++ marks ++ s.queue.drop place
    .ok ({ s with queue, allowsKey := false }.push .value s.cursor.advance)
  | none => do
    let s ← (← s.openBlock .blockMappingStart).dropKeyStart
    return { s with allowsKey := s.flowLevel == 0 }.push .value s.cursor.advance

/-- A token that may start a key and after which none may. -/
def fetchWord (s : TokenStream) (read : Cursor → Except Error (Token × Cursor)) :
    Except Error TokenStream := do
  let s ← s.noteKeyStart
  let (token, cursor) ← read s.cursor
  return { s with allowsKey := false }.push token cursor

def fetchBlockScalar (s : TokenStream) (folded : Bool) : Except Error TokenStream := do
  let s ← s.dropKeyStart
  let (token, cursor) ← Token.block folded s.indent s.cursor
  return { s with allowsKey := true }.push token cursor

def fetchPlain (s : TokenStream) : Except Error TokenStream := do
  let s ← s.noteKeyStart
  let (text, lineEnded, cursor) := Token.plain (s.flowLevel ≠ 0) s.indent s.cursor
  return { s with allowsKey := lineEnded }.push (.scalar text true) cursor

def anchorToken (make : String → Token) (c : Cursor) : Except Error (Token × Cursor) := do
  let (name, c) ← Token.anchorName c
  return (make name, c)

/-- The token that starts with a character at the cursor. -/
def fetchAt (s : TokenStream) (ch : Char) : Except Error TokenStream :=
  let c := s.cursor
  let inFlow := s.flowLevel ≠ 0
  if ch == '%' && c.column == 0 then s.fetchDirective
  else if c.column == 0 && c.isSeparator then
    s.fetchSeparator (if ch == '-' then .documentStart else .documentEnd)
  else if ch == '[' then s.fetchFlowStart .flowSequenceStart
  else if ch == '\x7b' then s.fetchFlowStart .flowMappingStart
  else if ch == ']' then s.fetchFlowEnd .flowSequenceEnd
  else if ch == '\x7d' then s.fetchFlowEnd .flowMappingEnd
  else if ch == ',' then s.fetchFlowEntry
  else if ch == '-' && c.isBlankOrEnd 1 then s.fetchBlockEntry
  else if ch == '?' && (inFlow || c.isBlankOrEnd 1) then s.fetchKey
  else if ch == ':' && (inFlow || c.isBlankOrEnd 1) then s.fetchValue
  else if ch == '*' then s.fetchWord (anchorToken .alias)
  else if ch == '&' then s.fetchWord (anchorToken .anchor)
  else if ch == '!' then s.fetchWord Token.tagOf
  else if (ch == '|' || ch == '>') && !inFlow then s.fetchBlockScalar (ch == '>')
  else if ch == '\'' then s.fetchWord (Token.quoted false)
  else if ch == '"' then s.fetchWord (Token.quoted true)
  else if Token.startsPlain inFlow c then s.fetchPlain
  else .error .token

/-- The stream with at least one more token read. -/
def fetch (s : TokenStream) : Except Error TokenStream := do
  let s ← s.toNextToken.dropStale
  let s := s.closeTo s.cursor.column
  match s.cursor.peek with
  | none => s.fetchEnd
  | some ch => s.fetchAt ch

/-- Reads tokens until the next one is known: there is one, and it is no possible start of a key. -/
def fill : (left : Nat) → TokenStream → Except Error TokenStream
  | 0, s => .ok s
  | left + 1, s =>
    if s.ended then .ok s
    else if s.queue.isEmpty then do fill left (← s.fetch)
    else do
      let s ← s.dropStale
      if s.keyStarts.any (·.2.token == s.taken) then fill left (← s.fetch) else return s

/-- Whether the next token is known already. -/
def isReady (s : TokenStream) : Bool :=
  s.ended || (!s.queue.isEmpty && !s.keyStarts.any (·.2.token == s.taken))

/-- The next token, which stays in the stream. -/
def peek (s : TokenStream) : Except Error (Token × TokenStream) := do
  let s ← if s.isReady then pure s else fill (s.cursor.rest.length + 2) s
  return (s.queue.head?.getD .streamEnd, s)

/-- The stream without the token that was looked at last. -/
def drop (s : TokenStream) : TokenStream := { s with queue := s.queue.tail, taken := s.taken + 1 }

end TokenStream

end DesignTokens.Yaml
