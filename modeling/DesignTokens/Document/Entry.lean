import DesignTokens.Image
import DesignTokens.Json.Value
import DesignTokens.Kind

/-!
# Entries

What a document declares, as declared: texts that name other entries or hold an expression, and free-form
values. An image has exactly one source, so the source is one field with three cases.
-/

namespace DesignTokens

/-- A font: attributes and overrides on top of another font. -/
structure FontEntry where
  basedOn : Option String
  family : Option String
  face : Option String
  /-- A metric expression. -/
  size : Option String
  attributes : Option Json

structure TextAttributesEntry where
  basedOn : Option String
  attributes : Option Json

inductive Dimension where
  | width | height
  deriving DecidableEq, Repr

def Dimension.name : Dimension → String
  | .width => "width"
  | .height => "height"

inductive Relation where
  | lessThanOrEqual | equal | greaterThanOrEqual
  deriving DecidableEq, Repr

def Relation.name : Relation → String
  | .lessThanOrEqual => "lessThanOrEqual"
  | .equal => "equal"
  | .greaterThanOrEqual => "greaterThanOrEqual"

/-- The relation that a text means: its name, a two-letter abbreviation or the comparison sign. -/
def Relation.ofText? (text : String) : Option Relation :=
  [("<=", Relation.lessThanOrEqual), ("LE", .lessThanOrEqual), ("le", .lessThanOrEqual),
   ("lessThanOrEqual", .lessThanOrEqual),
   ("==", .equal), ("EQ", .equal), ("eq", .equal), ("equal", .equal),
   (">=", .greaterThanOrEqual), ("GE", .greaterThanOrEqual), ("ge", .greaterThanOrEqual),
   ("greaterThanOrEqual", .greaterThanOrEqual)].lookup text

/-- The render mode that a text means. -/
def RenderMode.ofText? (text : String) : Option RenderMode :=
  [("automatic", RenderMode.automatic), ("original", .original), ("alwaysOriginal", .original),
   ("template", .template), ("alwaysTemplate", .template)].lookup text

/-- A dimension of a view in relation to that of another one. -/
structure RelativeDimension where
  dimension : Dimension
  relation : Relation
  relativeTo : String
  multiplier : Number.Figure
  constant : Number.Figure

/-- Layout rules for a view that shows an image. -/
structure PlacementEntry where
  placementRules : Option String
  auxiliaryViews : Option String
  metricNames : Option String
  relativeDimensions : Option (List RelativeDimension)
  contentMode : Option ContentMode

/-- A drawn background: names of colors, and metric expressions. -/
structure Background where
  fillColor : Option String
  strokeColor : Option String
  lineWidth : Option String
  cornerRadius : Option String
  minimumWidth : Option String
  minimumHeight : Option String

/-- Where the pixels of an image come from. -/
inductive ImageSource where
  /-- Another image. -/
  | basedOn (name : String)
  /-- A file below the storage root. -/
  | file (path : String)
  | background (background : Background)

structure ImageEntry where
  source : ImageSource
  /-- Four metric expressions between slashes. -/
  alignmentInsets : Option String
  contentMode : Option ContentMode
  renderMode : Option RenderMode
  placement : Option String

/-- The names of the elements of a button in one state. -/
structure ElementNames where
  titleAttributes : Option String
  titleImage : Option String
  backgroundImage : Option String

structure ButtonStyleEntry where
  normalStyle : Option ElementNames
  highlightedStyle : Option ElementNames
  disabledStyle : Option ElementNames
  selectedStyle : Option ElementNames
  contentInsets : Option String
  tintColor : Option String
  reverseIconSide : Option Bool

/-- The entries of a kind. Metrics and colors are expressions, parameters free-form values. -/
abbrev Kind.Entry : Kind → Type
  | .metric => String
  | .color => String
  | .font => FontEntry
  | .textAttributes => TextAttributesEntry
  | .placement => PlacementEntry
  | .image => ImageEntry
  | .buttonStyle => ButtonStyleEntry
  | .customParameters => Json

/-- An entry that is only a comment, so that its name may be any text: a metric without text, or a
parameter that is null. -/
def Kind.isComment : (k : Kind) → k.Entry → Bool
  | .metric, (expression : String) => expression.isEmpty
  | .customParameters, (value : Json) => value.isNull
  | _, _ => false

end DesignTokens
