import DesignTokens.Json.Value
import DesignTokens.Number.Layout
import DesignTokens.Text.Quoted

/-!
# Values inside notices

A notice that names a value writes it as data: `None`, `True` and `False` for the constants, numbers in the
notice layout, text in quotes, lists and objects in brackets with their members in order.
-/

namespace DesignTokens.Json

mutual

/-- The data form of a value. -/
def quoted : Json → String
  | .null => "None"
  | .bool true => "True"
  | .bool false => "False"
  | .int n => toString n
  | .float x _ => Number.Layout.notice.text x
  | .string s => Text.quoted s
  | .list items => "[" ++ ", ".intercalate (quotedItems items) ++ "]"
  | .object members => "\x7b" ++ ", ".intercalate (quotedMembers members) ++ "\x7d"

def quotedItems : List Json → List String
  | [] => []
  | item :: rest => quoted item :: quotedItems rest

def quotedMembers : List (String × Json) → List String
  | [] => []
  | (name, value) :: rest => (Text.quoted name ++ ": " ++ quoted value) :: quotedMembers rest

end

/-- A value in running text: a text stands for itself, any other value in its data form. -/
def display : Json → String
  | .string s => s
  | value => value.quoted

end DesignTokens.Json
