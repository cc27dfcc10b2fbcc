import DesignTokens.Image

/-!
# Drawn backgrounds

A background is a rectangle with rounded corners that can be stretched to any larger size: the corners, or
the border if it is wider, are fixed caps on every side, and a small centre between them is stretched. With
nothing to draw the image is empty.

* `BackgroundStyle.draw_nothing` — without fill and border there is nothing to draw.
-/

namespace DesignTokens

/-- What a background is drawn with. -/
structure BackgroundStyle where
  fill : Option Color := none
  stroke : Option Color := none
  lineWidth : Float := 0.0
  cornerRadius : Float := 0.0
  minimumWidth : Float := 0.0
  minimumHeight : Float := 0.0

namespace BackgroundStyle

open Number (greater)

/-- The width of the centre that is stretched. -/
def flexibleCentre : Float := 4.0

/-- The radius of the corners; it is never negative. -/
def radius (s : BackgroundStyle) : Float := greater s.cornerRadius 0.0

/-- The width of the fixed caps. -/
def caps (s : BackgroundStyle) : Float := greater s.lineWidth s.radius

/-- The least length of a side. -/
def leastSide (s : BackgroundStyle) : Float := 2.0 * s.caps + flexibleCentre

/-- The color of the border, if one is drawn. -/
def border? (s : BackgroundStyle) : Option Color :=
  if s.lineWidth ≤ 0.0 then none else s.stroke

/-- A length rounded up to whole pixels. -/
def pixels (length : Float) : Except Fault Nat :=
  match Number.ceiling? length with
  | some n => .ok n.toNat
  | none => .error (if length.isNaN then .undefinedPixels else .infinitePixels)

/-- The bits beside the sign of the numbers that the components of a color are painted with: red, green, blue
and alpha. -/
def componentBits : List Nat := [63, 31, 31, 31]

/-- Whether a number fits in some bits and a sign. -/
def fits (bits : Nat) (n : Int) : Bool := -(Nat.pow 2 bits : Int) ≤ n && n < Nat.pow 2 bits

/-- The color of a pixel. -/
def paint (c : Color) : Except Fault Pixel := do
  let components ← c.bytes
  if (componentBits.zipWith fits components).all id then return Pixel.clipped components
  else throw .componentRange

/-- The image of a background. -/
def draw (s : BackgroundStyle) : Except Fault Image := do
  if s.fill.isNone && s.border?.isNone then
    return { raster := ⟨0, 0, "RGBA", .blank⟩ }
  else
    let width ← pixels (greater s.minimumWidth s.leastSide)
    let height ← pixels (greater s.minimumHeight s.leastSide)
    let radius ← Color.rounded s.radius
    let fill ← s.fill.mapM paint
    let border ← s.border?.mapM fun color => do
      return ((← paint color), max 1 (← Color.rounded s.lineWidth))
    return { raster := ⟨width, height, "RGBA", .rectangle radius fill border⟩
             capInsets := some (.all s.caps) }

theorem draw_nothing {s : BackgroundStyle} (hfill : s.fill = none) (hborder : s.border? = none) :
    s.draw = .ok { raster := ⟨0, 0, "RGBA", .blank⟩ } := by
  simp [draw, hfill, hborder, pure, Except.pure]

end BackgroundStyle

end DesignTokens
