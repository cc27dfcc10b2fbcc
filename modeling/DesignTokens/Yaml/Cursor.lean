/-!
# A place in YAML text

A cursor is the rest of a text with its line, its column and its offset. A line ends at a carriage return, a
line feed, both together, or one of three separators beyond ASCII; the first four read as a line feed.

* `advance_rest` — advancing drops one character.
-/

namespace DesignTokens.Yaml

structure Cursor where
  rest : List Char
  offset : Nat := 0
  line : Nat := 0
  column : Nat := 0

/-- A character that ends a line. -/
def isBreak (c : Char) : Bool :=
  c == '\r' || c == '\n' || c.toNat == 0x85 || c.toNat == 0x2028 || c.toNat == 0x2029

/-- A character that YAML text may hold. -/
def isAllowed (c : Char) : Bool :=
  let n := c.toNat
  n == 9 || n == 10 || n == 13 || (0x20 ≤ n && n ≤ 0x7e) || n == 0x85 || (0xa0 ≤ n && n ≤ 0xd7ff) ||
    (0xe000 ≤ n && n ≤ 0xfffd) || 0x10000 ≤ n

namespace Cursor

/-- The character `n` places ahead; none at the end of the text. -/
def peek (c : Cursor) (n : Nat := 0) : Option Char := c.rest[n]?

/-- Whether a character is `c` itself. -/
def at? (c : Cursor) (ch : Char) : Bool := c.peek == some ch

/-- Whether the character `n` places ahead ends a line, or the text ends there. -/
def isLineEnd (c : Cursor) (n : Nat := 0) : Bool := (c.peek n).all isBreak

/-- Whether the character `n` places ahead ends a line or is a space, or the text ends there. -/
def isSpaceOrEnd (c : Cursor) (n : Nat := 0) : Bool := (c.peek n).all fun ch => ch == ' ' || isBreak ch

/-- Whether the character `n` places ahead is blank, or the text ends there. -/
def isBlankOrEnd (c : Cursor) (n : Nat := 0) : Bool :=
  (c.peek n).all fun ch => ch == ' ' || ch == '\t' || isBreak ch

/-- The cursor behind the next character. -/
def advance (c : Cursor) : Cursor :=
  match c.rest with
  | [] => c
  | ch :: rest =>
    if isBreak ch && !(ch == '\r' && rest.head? == some '\n') then ⟨rest, c.offset + 1, c.line + 1, 0⟩
    else ⟨rest, c.offset + 1, c.line, if ch.toNat = 0xfeff then c.column else c.column + 1⟩

theorem advance_rest (c : Cursor) : c.advance.rest = c.rest.tail := by
  unfold advance
  split
  · next h => simp [h]
  · next h => split <;> simp [h]

/-- The cursor behind the next `n` characters. -/
def skip (c : Cursor) : Nat → Cursor
  | 0 => c
  | n + 1 => c.advance.skip n

/-- The longest run of characters of a class, and the cursor behind it. -/
def span (c : Cursor) (p : Char → Bool) : List Char × Cursor :=
  let run := c.rest.takeWhile p
  (run, c.skip run.length)

/-- The cursor behind the longest run of characters of a class. -/
def skipWhile (c : Cursor) (p : Char → Bool) : Cursor := (c.span p).2

def skipSpaces (c : Cursor) : Cursor := c.skipWhile (· == ' ')

/-- The end of a line as it reads, and the cursor behind it; nothing elsewhere. -/
def lineBreak (c : Cursor) : List Char × Cursor :=
  match c.rest with
  | '\r' :: '\n' :: _ => (['\n'], c.skip 2)
  | ch :: _ =>
    if isBreak ch then
      (if ch.toNat = 0x2028 ∨ ch.toNat = 0x2029 then [ch] else ['\n'], c.advance)
    else ([], c)
  | [] => ([], c)

/-- Whether a document starts or ends here: three hyphens or points and a blank. -/
def isSeparator (c : Cursor) : Bool :=
  let lead := c.rest.take 3
  (lead == ['-', '-', '-'] || lead == ['.', '.', '.']) && c.isBlankOrEnd 3

end Cursor

end DesignTokens.Yaml
