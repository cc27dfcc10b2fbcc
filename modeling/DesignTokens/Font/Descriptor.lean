import DesignTokens.Fault
import DesignTokens.Json.Display
import DesignTokens.Mapping

/-!
# Font descriptors and fonts

A descriptor is a request for a font: attributes under short names such as `family`, `face`, `name` and
`size`, with free-form values. A font is what the request was granted.

* `FontDescriptor.find?_withFamily_name`, `FontDescriptor.find?_withFace_name` — a new family or face
  invalidates an explicit name.
-/

namespace DesignTokens

/-- The attributes of a requested font. -/
structure FontDescriptor where
  attributes : Mapping Json

namespace FontDescriptor

def empty : FontDescriptor := ⟨∅⟩

/-- The value of an attribute; an attribute that is null counts as absent. -/
def attribute? (d : FontDescriptor) (name : String) : Option Json :=
  match d.attributes.find? name with
  | some .null => none
  | found => found

def family? (d : FontDescriptor) : Option Json := d.attribute? "family"

def face? (d : FontDescriptor) : Option Json := d.attribute? "face"

def name? (d : FontDescriptor) : Option Json := d.attribute? "name"

/-- The point size, if the attribute is a number. -/
def size? (d : FontDescriptor) : Except Fault (Option Float) :=
  match d.attribute? "size" with
  | some (.float x _) => .ok (some x)
  | some (.int n) =>
    match Number.ofInt? n with
    | some x => .ok (some x)
    | none => .error .pointSizeRange
  | _ => .ok none

/-- The descriptor with attributes set over those it has. -/
def adding (d : FontDescriptor) (attributes : Mapping Json) : FontDescriptor :=
  ⟨d.attributes.union attributes⟩

def withFamily (d : FontDescriptor) (family : Json) : FontDescriptor :=
  ⟨(d.attributes.erase "name").insert "family" family⟩

def withFace (d : FontDescriptor) (face : Json) : FontDescriptor :=
  ⟨(d.attributes.erase "name").insert "face" face⟩

def withSize (d : FontDescriptor) (size : Float) : FontDescriptor :=
  ⟨d.attributes.insert "size" (.float size)⟩

/-- Equality of the attributes as data, in whatever order. -/
def equal (a b : FontDescriptor) : Bool :=
  Json.equal (.object a.attributes.toList) (.object b.attributes.toList)

theorem find?_withFamily_name (d : FontDescriptor) (family : Json) :
    (d.withFamily family).attributes.find? "name" = none := by
  simp [withFamily, Mapping.find?_insert, Mapping.find?_eq_none_iff, Mapping.erase, Mapping.keys]

theorem find?_withFace_name (d : FontDescriptor) (face : Json) :
    (d.withFace face).attributes.find? "name" = none := by
  simp [withFace, Mapping.find?_insert, Mapping.find?_eq_none_iff, Mapping.erase, Mapping.keys]

end FontDescriptor

/-- A font at a point size; `name` is its PostScript name. -/
structure Font where
  name : String
  family : String
  face : String
  pointSize : Float
  descriptor : FontDescriptor

namespace Font

/-- The name and the point size. -/
def text (f : Font) : String := f.name ++ ":" ++ Number.Layout.notice.text f.pointSize

/-- Equality of all parts as data. -/
def equal (a b : Font) : Bool :=
  a.name == b.name && a.family == b.family && a.face == b.face && a.pointSize == b.pointSize &&
    a.descriptor.equal b.descriptor

/-- The font that stands for a font that cannot be resolved. -/
def invalid : Font where
  name := "Courier-BoldOblique"
  family := "Courier"
  face := "Bold Oblique"
  pointSize := 21.0
  descriptor := ⟨Mapping.ofList [("name", .string "Courier-BoldOblique"), ("size", .float 21.0)]⟩

end Font

end DesignTokens
