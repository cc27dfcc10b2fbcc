/-!
# Blank characters

Two sets of blank characters are in use, and they differ in the four information separators. `isBlank`
is the wide set: it decides whether a name is blank and where an unquoted setting ends. `isWhite` is
Unicode's `White_Space`, which surrounds numbers given as text.

* `isBlank_of_isWhitespace` — both sets hold the ASCII whitespace of the core library.
-/

namespace DesignTokens.Text

/-- Unicode's `White_Space` property. -/
def isWhite (c : Char) : Bool :=
  let n := c.toNat
  (9 ≤ n && n ≤ 13) || n == 0x20 || n == 0x85 || n == 0xa0 || n == 0x1680 ||
  (0x2000 ≤ n && n ≤ 0x200a) || n == 0x2028 || n == 0x2029 || n == 0x202f || n == 0x205f || n == 0x3000

/-- `White_Space` and the four information separators U+001C to U+001F. -/
def isBlank (c : Char) : Bool :=
  isWhite c || (0x1c ≤ c.toNat && c.toNat ≤ 0x1f)

theorem isWhite_of_isWhitespace {c : Char} (h : c.isWhitespace = true) : isWhite c = true := by
  simp only [Char.isWhitespace, Bool.or_eq_true, decide_eq_true_eq] at h
  rcases h with ((h | h) | h) | h <;> subst h <;> decide

theorem isBlank_of_isWhitespace {c : Char} (h : c.isWhitespace = true) : isBlank c = true := by
  simp [isBlank, isWhite_of_isWhitespace h]

/-- The text without the characters of a class at its end. -/
def dropEnd (p : Char → Bool) (cs : List Char) : List Char :=
  (cs.reverse.dropWhile p).reverse

/-- The text without the characters of a class at either end. -/
def dropEnds (p : Char → Bool) (cs : List Char) : List Char :=
  dropEnd p (cs.dropWhile p)

/-- The text without its spaces (U+0020 alone). -/
def withoutSpaces (s : String) : String :=
  String.ofList (s.toList.filter (· ≠ ' '))

end DesignTokens.Text
