import DesignTokens.Text.Blank
import DesignTokens.Text.Half

/-!
# Paths

A path is absolute or relative and has parts; empty parts and single points leave no trace in it. A path
that starts with exactly two slashes keeps both.

* `join_absolute` — joining an absolute path replaces what was there.
-/

namespace DesignTokens

structure Path where
  /-- The slashes in front: none for a relative path. -/
  root : String
  parts : List String
  deriving DecidableEq, Repr

/-- Why no file can have a path. -/
inductive Path.Defect where
  /-- A character cannot be written in a file name. -/
  | unwritable
  /-- There is a NUL character. -/
  | nul
  deriving DecidableEq, Repr

/-- The name of a defect in reports. -/
def Path.Defect.name : Defect → String
  | .unwritable => "UnicodeEncodeError"
  | .nul => "ValueError"

namespace Path

/-- The path that a text means. -/
def ofText (text : String) : Path :=
  let slashes := (text.toList.takeWhile (· == '/')).length
  let root := if slashes = 0 then "" else if slashes = 2 then "//" else "/"
  ⟨root, (text.splitOn "/").filter fun part => part ≠ "" ∧ part ≠ "."⟩

def isAbsolute (p : Path) : Bool := p.root ≠ ""

/-- The text of a path; the empty path is a point. -/
def text (p : Path) : String :=
  let body := "/".intercalate p.parts
  if p.root = "" ∧ p.parts = [] then "." else p.root ++ body

/-- The path that leads on from `p`. -/
def join (p q : Path) : Path :=
  if q.isAbsolute then q else ⟨p.root, p.parts ++ q.parts⟩

/-- The last part. -/
def name (p : Path) : String := p.parts.getLast?.getD ""

/-- The folder that a path lies in. -/
def parent (p : Path) : Path := ⟨p.root, p.parts.dropLast⟩

/-- What follows the last point of the name with the point, if there is something on both sides of it. -/
def suffix (p : Path) : String :=
  let reversed := p.name.toList.reverse
  let ending := reversed.takeWhile (· ≠ '.')
  match reversed.dropWhile (· ≠ '.') with
  | _ :: _ :: _ => if ending.isEmpty then "" else String.ofList ('.' :: ending.reverse)
  | _ => ""

/-- Whether a character cannot be written in a file name. Of the halves of surrogate pairs 128 can: they
stand for bytes above 127 of a name that is no Unicode text. -/
def isUnwritable (c : Char) : Bool := (Text.half? c).any fun code => code < 0xdc80 || 0xdcff < code

/-- Why no file can have a path, if that shows in its text. -/
def defect? (p : Path) : Option Defect :=
  if p.parts.any (·.toList.any isUnwritable) then some .unwritable
  else if p.parts.any (·.toList.contains '\x00') then some .nul
  else none

/-- Whether a path names a YAML file. -/
def isYaml (p : Path) : Bool :=
  let suffix := String.ofList (p.suffix.toList.map Char.toLower)
  suffix = ".yaml" ∨ suffix = ".yml"

theorem join_absolute {p q : Path} (h : q.isAbsolute = true) : p.join q = q := by
  simp [join, h]

end Path

end DesignTokens
