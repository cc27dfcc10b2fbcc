import DesignTokens.Fault
import DesignTokens.Number.Double

/-!
# Colors

A color is four components, usually between 0 and 1. Colors compare by the numeric value of their
components. The standard palette names the colors that a document need not declare.
-/

namespace DesignTokens

structure Color where
  red : Float
  green : Float
  blue : Float
  alpha : Float

namespace Color

instance : BEq Color where
  beq a b := a.red == b.red && a.green == b.green && a.blue == b.blue && a.alpha == b.alpha

/-- The shade of gray of a given whiteness. -/
def white (whiteness alpha : Float) : Color := ⟨whiteness, whiteness, whiteness, alpha⟩

/-- The components of a color without alpha, from the sextant of the hue circle it lies in. -/
def ofSextant (sextant : Int) (brightness p q t : Float) : Float × Float × Float :=
  match sextant with
  | 0 => (brightness, t, p)
  | 1 => (q, brightness, p)
  | 2 => (p, brightness, t)
  | 3 => (p, q, brightness)
  | 4 => (t, p, brightness)
  | _ => (brightness, p, q)

/-- The whole part of a number, where there must be one. -/
def wholePart (x : Float) : Except Fault Int :=
  match Number.truncate? x with
  | some n => .ok n
  | none => .error (if x.isNaN then .undefinedPixels else .infinitePixels)

/-- The color of a given hue, saturation and brightness; a hue beyond 1 goes round the circle again. -/
def hsb (hue saturation brightness alpha : Float) : Except Fault Color := do
  if saturation == 0.0 then return white brightness alpha
  else
    let turned := hue * 6.0
    let sextant ← wholePart turned
    let fraction := turned - (Number.ofInt? sextant).getD 0.0
    let p := brightness * (1.0 - saturation)
    let q := brightness * (1.0 - saturation * fraction)
    let t := brightness * (1.0 - saturation * (1.0 - fraction))
    let (red, green, blue) := ofSextant (sextant.emod 6) brightness p q t
    return ⟨red, green, blue, alpha⟩

/-- A number rounded to the nearest integer, where there must be one. -/
def rounded (x : Float) : Except Fault Int :=
  match Number.nearest? x with
  | some n => .ok n
  | none => .error (if x.isNaN then .undefinedPixels else .infinitePixels)

/-- The components scaled to the range from 0 to 255: red, green, blue, alpha. -/
def bytes (c : Color) : Except Fault (List Int) :=
  [c.red, c.green, c.blue, c.alpha].mapM fun component => rounded (component * 255.0)

/-- The color that stands for a color that cannot be resolved. -/
def invalid : Color := ⟨1.0, 0.0, 0.0, 0.8⟩

/-- The palette of colors that are known by name. -/
def standard : List (String × Color) :=
  [("black", white 0.0 1.0),
   ("darkGray", white (1.0 / 3.0) 1.0),
   ("lightGray", white (2.0 / 3.0) 1.0),
   ("white", white 1.0 1.0),
   ("gray", white 0.5 1.0),
   ("red", ⟨1.0, 0.0, 0.0, 1.0⟩),
   ("green", ⟨0.0, 1.0, 0.0, 1.0⟩),
   ("blue", ⟨0.0, 0.0, 1.0, 1.0⟩),
   ("cyan", ⟨0.0, 1.0, 1.0, 1.0⟩),
   ("yellow", ⟨1.0, 1.0, 0.0, 1.0⟩),
   ("magenta", ⟨1.0, 0.0, 1.0, 1.0⟩),
   ("orange", ⟨1.0, 0.5, 0.0, 1.0⟩),
   ("purple", ⟨0.5, 0.0, 0.5, 1.0⟩),
   ("brown", ⟨0.6, 0.4, 0.2, 1.0⟩),
   ("clear", white 0.0 0.0)]

end Color

end DesignTokens
