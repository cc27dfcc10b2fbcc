import DesignTokens.Json.Value
import DesignTokens.Number.Layout
import DesignTokens.Text.Quoted

/-!
# Writing JSON text

Text is written compactly or with an indentation per level. Quotes, backslashes and control characters are
escaped and nothing else is; a double with no spelling in JSON is written as null.
-/

namespace DesignTokens.Json

/-- A character inside a JSON string. -/
def escapedChar (c : Char) : List Char :=
  if c = '"' then ['\\', '"']
  else if c = '\\' then ['\\', '\\']
  else if c = '\n' then ['\\', 'n']
  else if c = '\r' then ['\\', 'r']
  else if c = '\t' then ['\\', 't']
  else if c.toNat = 8 then ['\\', 'b']
  else if c.toNat = 12 then ['\\', 'f']
  else if c.toNat < 32 then '\\' :: 'u' :: Text.hexText 4 c.toNat
  else [c]

/-- A string in JSON text. -/
def stringText (s : String) : String :=
  String.ofList ('"' :: s.toList.flatMap escapedChar ++ ['"'])

/-- The arrangement of JSON text: on one line, or one member a line at a given indentation a level. -/
inductive Arrangement where
  | compact
  | indented (width level : Nat)

namespace Arrangement

/-- The arrangement inside brackets. -/
def inner : Arrangement → Arrangement
  | .compact => .compact
  | .indented width level => .indented width (level + 1)

/-- What stands before a member or a closing bracket. -/
def lineStart : Arrangement → String
  | .compact => ""
  | .indented width level => String.ofList ('\n' :: List.replicate (width * level) ' ')

/-- What stands between a name and its value. -/
def colon : Arrangement → String
  | .compact => ":"
  | .indented .. => ": "

/-- Members between brackets; without members the brackets touch. -/
def bracketed (arrangement : Arrangement) (opening closing : String) (members : List String) : String :=
  if members.isEmpty then opening ++ closing
  else
    let start := arrangement.inner.lineStart
    opening ++ ",".intercalate (members.map (start ++ ·)) ++ arrangement.lineStart ++ closing

end Arrangement

mutual

/-- A value as JSON text. -/
def write (arrangement : Arrangement) : Json → String
  | .null => "null"
  | .bool true => "true"
  | .bool false => "false"
  | .int n => toString n
  | .float x _ => if x.isFinite then Number.Layout.dump.text x else "null"
  | .string s => stringText s
  | .list items => arrangement.bracketed "[" "]" (writeItems arrangement.inner items)
  | .object members => arrangement.bracketed "\x7b" "\x7d" (writeMembers arrangement.inner members)

def writeItems (arrangement : Arrangement) : List Json → List String
  | [] => []
  | item :: rest => write arrangement item :: writeItems arrangement rest

def writeMembers (arrangement : Arrangement) : List (String × Json) → List String
  | [] => []
  | (name, value) :: rest =>
    (stringText name ++ arrangement.colon ++ write arrangement value) :: writeMembers arrangement rest

end

end DesignTokens.Json
