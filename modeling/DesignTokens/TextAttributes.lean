import DesignTokens.Color
import DesignTokens.Font.Descriptor

/-!
# Text attributes

The attributes of styled text with the relative tracking they were built with. Tracking is in thousandths
of an em and stands beside the attributes; its absolute counterpart for the point size of the font stands
among them under `kern`.
-/

namespace DesignTokens

/-- The value of a text attribute. -/
inductive TextValue where
  | font (font : Font)
  | color (color : Color)
  | number (value : Float)
  | text (value : String)

/-- Equality as data. -/
def TextValue.equal : TextValue → TextValue → Bool
  | .font a, .font b => a.equal b
  | .color a, .color b => a == b
  | .number a, .number b => a == b
  | .text a, .text b => a == b
  | _, _ => false

structure TextAttributes where
  attributes : Mapping TextValue
  tracking : Option Float

namespace TextAttributes

def font? (t : TextAttributes) : Option Font :=
  match t.attributes.find? "font" with
  | some (.font f) => some f
  | _ => none

def kern? (t : TextAttributes) : Option Float :=
  match t.attributes.find? "kern" with
  | some (.number x) => some x
  | _ => none

/-- The absolute spacing, in points, of a tracking at a point size. -/
def kern (tracking pointSize : Float) : Float := pointSize / 1000.0 * tracking

/-- Equality of attributes in any order, and of tracking. -/
def equal (a b : TextAttributes) : Bool :=
  a.attributes.toList.length == b.attributes.toList.length &&
  (a.attributes.toList.all fun (name, value) => (b.attributes.find? name).any value.equal) &&
  (match a.tracking, b.tracking with
    | none, none => true
    | some x, some y => x == y
    | _, _ => false)

/-- What stands for text attributes that cannot be resolved. -/
def invalid : TextAttributes := ⟨Mapping.ofList [("invalid", .text "invalid")], none⟩

end TextAttributes

end DesignTokens
