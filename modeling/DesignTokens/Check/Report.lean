import DesignTokens.Asset
import DesignTokens.Text.Padded

/-!
# Reports of a check

A report counts, for each asset, the entries that are valid and those that are not, and names the latter in
order.

* `lines_length` — each asset has one line, and one more for each of its invalid entries.
-/

namespace DesignTokens.Check

/-- The outcome for the entries of one asset. -/
structure Tally where
  asset : Asset
  valid : Nat
  invalid : List String
  deriving DecidableEq, Repr

namespace Tally

/-- The tally of names with their validity. -/
def ofNames (asset : Asset) (names : List (String × Bool)) : Tally where
  asset
  valid := (names.filter (·.2)).length
  invalid := ((names.filter fun name => !name.2).map (·.1)).mergeSort (· ≤ ·)

/-- A line of counts, and below it a line for each invalid entry. -/
def lines (t : Tally) : List String :=
  (Text.padEnd 16 t.asset.kind.name ++ " " ++ Text.padStart 4 (toString t.valid) ++ " valid  " ++
    Text.padStart 4 (toString t.invalid.length) ++ " invalid") :: t.invalid.map ("    " ++ ·)

theorem lines_length (t : Tally) : t.lines.length = 1 + t.invalid.length := by
  simp [lines]; omega

end Tally

/-- The tallies of a whole document. -/
abbrev Report := List Tally

namespace Report

def ofCheck (check : List (Asset × List (String × Bool))) : Report :=
  check.map fun (asset, names) => Tally.ofNames asset names

/-- How many entries are invalid. -/
def failures (r : Report) : Nat := r.foldl (fun count tally => count + tally.invalid.length) 0

/-- The report as text. -/
def text (r : Report) : String := String.join ((r.flatMap Tally.lines).map (· ++ "\n"))

end Report

end DesignTokens.Check
