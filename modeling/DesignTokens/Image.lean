import DesignTokens.Color
import DesignTokens.Geometry

/-!
# Images

An image is a raster with the facts that its users need: how it may be stretched and aligned, how it is
rendered and placed. Of the pixels of a raster the library keeps how they came about; a drawn raster is
known at the points that tell its fill from its border.
-/

namespace DesignTokens

/-- Whether an image keeps its colors or takes those of its surroundings. -/
inductive RenderMode where
  | automatic | original | template
  deriving DecidableEq, Repr

def RenderMode.name : RenderMode → String
  | .automatic => "automatic"
  | .original => "original"
  | .template => "template"

/-- How an image fills the area of its view. -/
inductive ContentMode where
  | center | top | bottom | left | right
  | topLeft | topRight | bottomLeft | bottomRight
  | resize | scaleToFill
  | resizeAspect | scaleAspectFit
  | resizeAspectFill | scaleAspectFill
  | exactFit
  deriving DecidableEq, Repr

namespace ContentMode

def all : List ContentMode :=
  [.center, .top, .bottom, .left, .right, .topLeft, .topRight, .bottomLeft, .bottomRight, .resize,
   .scaleToFill, .resizeAspect, .scaleAspectFit, .resizeAspectFill, .scaleAspectFill, .exactFit]

def name : ContentMode → String
  | .center => "center"
  | .top => "top"
  | .bottom => "bottom"
  | .left => "left"
  | .right => "right"
  | .topLeft => "topLeft"
  | .topRight => "topRight"
  | .bottomLeft => "bottomLeft"
  | .bottomRight => "bottomRight"
  | .resize => "resize"
  | .scaleToFill => "scaleToFill"
  | .resizeAspect => "resizeAspect"
  | .scaleAspectFit => "scaleAspectFit"
  | .resizeAspectFill => "resizeAspectFill"
  | .scaleAspectFill => "scaleAspectFill"
  | .exactFit => "exactFit"

def ofName? (name : String) : Option ContentMode := all.find? (·.name == name)

end ContentMode

/-- Red, green, blue and alpha from 0 to 255. -/
structure Pixel where
  red : Nat
  green : Nat
  blue : Nat
  alpha : Nat
  deriving DecidableEq, Repr

namespace Pixel

def transparent : Pixel := ⟨0, 0, 0, 0⟩

/-- The pixel painted for given components; one out of range takes the nearest in range. -/
def clipped (components : List Int) : Pixel :=
  let channel (i : Nat) : Nat := (min 255 (max 0 (components[i]?.getD 0))).toNat
  ⟨channel 0, channel 1, channel 2, channel 3⟩

end Pixel

/-- How the pixels of a raster came about. -/
inductive Drawing where
  /-- Nothing was drawn. -/
  | blank
  /-- The pixels were read from a file. -/
  | stored
  /-- A rectangle with rounded corners, a fill and a border of some width around it. The fill or the
  border may be missing. -/
  | rectangle (cornerRadius : Int) (fill : Option Pixel) (border : Option (Pixel × Int))
  /-- Quarters in two colors: the first on the diagonal, the second beside it. -/
  | quarters (diagonal beside : Pixel)
  deriving DecidableEq, Repr

structure Raster where
  width : Nat
  height : Nat
  /-- The color bands of a pixel. -/
  mode : String
  drawing : Drawing
  deriving DecidableEq, Repr

/-- The pixels in the centre, in the middle of the top edge and in the middle of the left edge, where
they are known. -/
def Raster.samples? (r : Raster) : Option (Pixel × Pixel × Pixel) :=
  if r.width = 0 ∨ r.height = 0 then none
  else
    match r.drawing with
    | .blank => some (.transparent, .transparent, .transparent)
    | .stored => none
    | .rectangle _ fill border =>
      let inside := fill.getD .transparent
      let edge := (border.map Prod.fst).getD inside
      some (inside, edge, edge)
    | .quarters diagonal beside => some (diagonal, beside, beside)

structure Image where
  raster : Raster
  alignmentInsets : Option Insets := none
  /-- The margins of a drawn background that are not stretched. -/
  capInsets : Option Insets := none
  renderMode : Option RenderMode := none
  contentMode : Option ContentMode := none
  placement : Option String := none

namespace Image

/-- The image that stands for an image that cannot be resolved: a translucent checkerboard. -/
def invalid : Image where
  raster := ⟨16, 16, "RGBA", .quarters ⟨255, 128, 0, 128⟩ ⟨255, 255, 0, 128⟩⟩
  capInsets := some (.all 0.0)

/-- Only the image that stands for an invalid one is drawn in quarters. -/
def isInvalid (i : Image) : Bool := i.raster == invalid.raster

end Image

end DesignTokens
