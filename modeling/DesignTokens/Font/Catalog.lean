import DesignTokens.Font.Descriptor

/-!
# Font catalogs

A catalog knows families, their faces and the PostScript name of each face. Asked for a font that it does
not have, it answers with a substitute. Two questions are kept apart: which name a descriptor asks for
(`expectedName`), and which font it gets (`realize`).

* `realize_withoutName_unknown` — an unknown family gets the substitute.
-/

namespace DesignTokens

/-- A face of a family, and its PostScript name. -/
structure RealizedFont where
  name : String
  family : String
  face : String
  deriving DecidableEq, Repr

structure Catalog where
  families : Mapping (Mapping String)
  substitute : RealizedFont

namespace Catalog

/-- The face meant where none is given. -/
def defaultFace : String := "Regular"

/-- The name that a face has by rule: family and face without spaces, with a hyphen between them. -/
def ruledName (family face : String) : String :=
  let packed (s : String) := String.ofList (s.toList.filter (· ≠ ' '))
  packed family ++ "-" ++ packed face

/-- The faces of a family under their ruled names, except that a regular face may have its own. -/
def facesOf (family : String) (faces : List String) (regularName : Option String) : String × Mapping String :=
  let ruled := Mapping.ofList (faces.map fun face => (face, ruledName family face))
  (family, match regularName with
    | some name => ruled.insert defaultFace name
    | none => ruled)

/-- The families that every catalog starts from unless it is given its own. -/
def builtInFamilies : Mapping (Mapping String) := Mapping.ofList
  [facesOf "Avenir Next"
    ["Regular", "Italic", "Ultra Light", "Ultra Light Italic", "Medium", "Medium Italic",
     "Demi Bold", "Demi Bold Italic", "Bold", "Bold Italic", "Heavy", "Heavy Italic"] none,
   facesOf "Avenir" ["Roman", "Light", "Book", "Medium", "Heavy", "Black", "Oblique"] none,
   facesOf "Baskerville"
    ["Regular", "Italic", "Semi Bold", "Semi Bold Italic", "Bold", "Bold Italic"] (some "Baskerville"),
   facesOf "Helvetica"
    ["Regular", "Oblique", "Light", "Light Oblique", "Bold", "Bold Oblique"] (some "Helvetica"),
   facesOf "Helvetica Neue"
    ["Regular", "Italic", "Light", "Light Italic", "Medium", "Medium Italic", "Thin", "Thin Italic",
     "Bold", "Bold Italic"] (some "HelveticaNeue"),
   facesOf "Courier" ["Regular", "Oblique", "Bold", "Bold Oblique"] (some "Courier"),
   facesOf "Georgia" ["Regular", "Italic", "Bold", "Bold Italic"] (some "Georgia"),
   facesOf "Menlo" ["Regular", "Italic", "Bold", "Bold Italic"] none,
   facesOf "DejaVu Sans" ["Book", "Oblique", "Bold", "Bold Oblique"] (some "DejaVuSans")]

def builtInSubstitute : RealizedFont := ⟨"Helvetica", "Helvetica", defaultFace⟩

/-- The built-in catalog. -/
def builtIn : Catalog := ⟨builtInFamilies, builtInSubstitute⟩

/-- Adds a face to a family, the family too if it is new. Without a name the face gets its ruled one. -/
def addFace (c : Catalog) (family face : String) (name : Option String) : Catalog :=
  let given := (name.filter fun n => !n.isEmpty).getD (ruledName family face)
  { c with families := c.families.insert family (((c.families.find? family).getD ∅).insert face given) }

/-- A key of a look-up: a list or an object is none, and only a text is ever found. -/
def lookupText (key : Json) : Except Fault (Option String) :=
  match key with
  | .list _ => .error .fontLookupKey
  | .object _ => .error .fontLookupKey
  | .string s => .ok (some s)
  | _ => .ok none

/-- A value that a name is put together from. -/
def namePart (part : Json) : Except Fault String :=
  match part with
  | .string s => .ok s
  | _ => .error .fontNamePart

/-- The face that a descriptor asks for, the default one if it gives none. -/
def requestedFace (d : FontDescriptor) : Json :=
  match d.face? with
  | some face => if face.isTruthy then face else .string defaultFace
  | none => .string defaultFace

/-- The PostScript name that a descriptor asks for; none if it names no font. -/
def expectedName (c : Catalog) (d : FontDescriptor) : Except Fault (Option Json) := do
  match d.name?.filter Json.isTruthy with
  | some name => return some name
  | none =>
    match d.family?.filter Json.isTruthy with
    | none => return none
    | some family =>
      let face := requestedFace d
      let faces := ((← lookupText family).bind c.families.find?).getD ∅
      match ((← lookupText face).bind faces.find?).filter (!·.isEmpty) with
      | some known => return some (.string known)
      | none =>
        let family ← namePart family
        let face ← namePart face
        return some (.string (ruledName family face))

/-- The first face with a given name, families and faces in order. -/
def faceNamed? (c : Catalog) (name : Json) : Option RealizedFont :=
  c.families.toList.findSome? fun (family, faces) =>
    faces.toList.findSome? fun (face, known) =>
      if Json.equal (.string known) name then some ⟨known, family, face⟩ else none

/-- The font that a descriptor gets. -/
def realize (c : Catalog) (d : FontDescriptor) : Except Fault RealizedFont := do
  match d.name?.filter Json.isTruthy with
  | some name => return (c.faceNamed? name).getD c.substitute
  | none =>
    match d.family? with
    | none => return c.substitute
    | some family =>
      match ← lookupText family with
      | none => return c.substitute
      | some family =>
        match c.families.find? family with
        | none => return c.substitute
        | some faces =>
          match ← lookupText (requestedFace d) with
          | none => return c.substitute
          | some face =>
            match faces.find? face with
            | some name => return ⟨name, family, face⟩
            | none => return c.substitute

theorem realize_withoutName_unknown {c : Catalog} {d : FontDescriptor} {family : String}
    (hname : d.name? = none) (hfamily : d.family? = some (.string family))
    (hunknown : c.families.find? family = none) : c.realize d = .ok c.substitute := by
  simp [realize, hname, hfamily, lookupText, hunknown, bind, Except.bind, pure, Except.pure]

end Catalog

end DesignTokens
