/-!
# Padding

* `length_padEnd` — padding gives the wanted length, unless the text is longer.
-/

namespace DesignTokens.Text

/-- A text with spaces behind it, up to a length. -/
def padEnd (length : Nat) (s : String) : String :=
  s ++ String.ofList (List.replicate (length - s.length) ' ')

/-- A text with spaces in front of it, up to a length. -/
def padStart (length : Nat) (s : String) : String :=
  String.ofList (List.replicate (length - s.length) ' ') ++ s

theorem length_padEnd (length : Nat) (s : String) : (padEnd length s).length = max length s.length := by
  simp [padEnd]; omega

end DesignTokens.Text
