import DesignTokens.Document.Entry
import DesignTokens.Mapping

/-!
# Documents

A document holds, for each kind, entries under names in the order of declaration.

* `Sections.entries_tabulate` — sections are a mapping for every kind, and nothing else.
-/

namespace DesignTokens

/-- The entries of every kind. -/
structure Sections where
  metrics : Mapping String := ∅
  colors : Mapping String := ∅
  fonts : Mapping FontEntry := ∅
  textAttributes : Mapping TextAttributesEntry := ∅
  placements : Mapping PlacementEntry := ∅
  images : Mapping ImageEntry := ∅
  buttonStyles : Mapping ButtonStyleEntry := ∅
  parameters : Mapping Json := ∅

namespace Sections

/-- The entries of one kind. -/
def entries (s : Sections) : (k : Kind) → Mapping k.Entry
  | .metric => s.metrics
  | .color => s.colors
  | .font => s.fonts
  | .textAttributes => s.textAttributes
  | .placement => s.placements
  | .image => s.images
  | .buttonStyle => s.buttonStyles
  | .customParameters => s.parameters

/-- The sections with given entries of each kind. -/
def tabulate (f : (k : Kind) → Mapping k.Entry) : Sections where
  metrics := f .metric
  colors := f .color
  fonts := f .font
  textAttributes := f .textAttributes
  placements := f .placement
  images := f .image
  buttonStyles := f .buttonStyle
  parameters := f .customParameters

@[simp]
theorem entries_tabulate (f : (k : Kind) → Mapping k.Entry) (k : Kind) : (tabulate f).entries k = f k := by
  cases k <;> rfl

theorem tabulate_entries (s : Sections) : tabulate s.entries = s := rfl

end Sections

structure Document where
  version : Option Int
  sections : Sections
  /-- Whether groups were declared and there were none in the declaration. -/
  hasEmptyGroups : Bool

namespace Document

/-- The entries of one kind. -/
def entries (d : Document) (k : Kind) : Mapping k.Entry := d.sections.entries k

/-- The entry of a kind under a name. -/
def entry? (d : Document) (k : Kind) (name : String) : Option k.Entry := (d.entries k).find? name

/-- The names of the entries of a kind, in order. -/
def names (d : Document) (k : Kind) : List String := (d.entries k).keys

/-- The paths of the files that images come from, in order. -/
def imageFiles (d : Document) : List String :=
  d.sections.images.values.filterMap fun entry =>
    match entry.source with
    | .file path => some path
    | _ => none

end Document

end DesignTokens
