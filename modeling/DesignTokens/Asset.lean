import DesignTokens.ButtonStyle
import DesignTokens.Kind

/-!
# Values of assets

The type of the values of each asset, and the value that stands for an entry of it that cannot be resolved.
-/

namespace DesignTokens.Asset

/-- The type of the values of an asset. -/
abbrev Value : Asset → Type
  | .metric => Float
  | .color => Color
  | .font => Font
  | .textAttributes => TextAttributes
  | .image => Image
  | .buttonStyle => ButtonStyle

/-- The metric that stands for a metric that cannot be resolved. -/
def invalidMetric : Float := 3.141592653589793

/-- The value that stands for an invalid entry. -/
def invalid : (a : Asset) → a.Value
  | .metric => invalidMetric
  | .color => Color.invalid
  | .font => Font.invalid
  | .textAttributes => TextAttributes.invalid
  | .image => Image.invalid
  | .buttonStyle => ButtonStyle.invalid

/-- Whether a value equals the one that stands for an invalid entry. -/
def isInvalid : (a : Asset) → a.Value → Bool
  | .metric, x => x == invalidMetric
  | .color, c => c == Color.invalid
  | .font, f => f.equal Font.invalid
  | .textAttributes, t => t.equal TextAttributes.invalid
  | .image, i => i.isInvalid
  | .buttonStyle, s => s.declaresNothing

end DesignTokens.Asset
