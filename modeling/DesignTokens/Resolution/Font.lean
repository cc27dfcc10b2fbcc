import DesignTokens.Resolution.Metric

/-!
# Fonts of a document

A font entry puts a descriptor together, each layer over the one before: the descriptor of the font it is
based on, its attributes, its family and face, and its size. The catalog then says which name the descriptor
asks for and which font it gets; a font that is not the one asked for is invalid.

* `resolveFont_missing` — a name without entry has no value.
-/

namespace DesignTokens

namespace FontLayers

open Resolve

/-- The attributes that a descriptor may have; names marked with `!` pass through besides. -/
def descriptorKeys : List String :=
  ["family", "face", "name", "size", "visibleName", "matrix", "characterSet", "traits", "fixedAdvance",
   "featureSettings", "textStyle", "symbolic"]

/-- The attributes whose values are texts. -/
def stringKeys : List String := ["family", "face", "name", "visibleName", "textStyle"]

/-- The point size of a font that declares none. -/
def defaultPointSize : Float := 17.0

/-- The name behind a mark, if the name is marked. -/
def marked? (key : String) : Option String :=
  match key.toList with
  | '!' :: rest => some (String.ofList rest)
  | _ => none

/-- The descriptor attributes that declared attributes mean, over those `read` before. -/
def attributes (metric : Metric.Lookup) (owner : String) : (declared : List (String × Json)) →
    (read : Mapping Json) → Resolve (Option (Mapping Json))
  | [], read => return some read
  | (key, value) :: rest, read =>
    match marked? key with
    | some name => attributes metric owner rest (read.insert name value)
    | none =>
      if !descriptorKeys.contains key then reject (.unknownFontAttribute key)
      else if key = "size" then do
        match ← Metric.extractOneJson metric "resolving font attribute size" value with
        | none => reject (.fontAttributeSize value)
        | some (size, dependencies) =>
          dependOn .font owner dependencies
          attributes metric owner rest (read.insert "size" (.float size))
      else
        match value with
        | .string _ => attributes metric owner rest (read.insert key value)
        | _ =>
          if stringKeys.contains key then reject (.fontAttributeNotString key value)
          else attributes metric owner rest (read.insert key value)

/-- The font that a descriptor gets, if it is the one that the descriptor asks for. -/
def realize (catalog : Catalog) (d : FontDescriptor) : Resolve (Option Font) := do
  match ← lift (catalog.expectedName d) with
  | none => reject (.namelessFont (.object d.attributes.toList))
  | some expected =>
    let realized ← lift (catalog.realize d)
    if !Json.equal (.string realized.name) expected then
      reject (.substitutedFont expected realized.name)
    else
      let pointSize := (← lift d.size?).getD defaultPointSize
      return some ⟨realized.name, realized.family, realized.face, pointSize, d.withSize pointSize⟩

/-- The descriptor that an entry starts from. -/
def baseDescriptor (fonts : String → Resolve (Option Font)) (owner : String) (entry : FontEntry) :
    Resolve (Option FontDescriptor) :=
  match entry.basedOn.filter (!·.isEmpty) with
  | none => return some .empty
  | some base => do
    dependOn .font owner [⟨.font, base⟩]
    return (← fetch .font fonts base "basedOn" .font).map Font.descriptor

/-- A descriptor with the attributes of an entry. -/
def addAttributes (metric : Metric.Lookup) (owner : String) (entry : FontEntry) (d : FontDescriptor) :
    Resolve (Option FontDescriptor) :=
  match entry.attributes with
  | none => return some d
  | some (.object declared) => do
    return (← attributes metric owner declared ∅).map d.adding
  | some value => reject (.fontAttributesNotObject value)

/-- A descriptor with the family and the face of an entry. -/
def addNames (entry : FontEntry) (d : FontDescriptor) : FontDescriptor :=
  let withFamily := match entry.family.filter (!·.isEmpty) with
    | some family => d.withFamily (.string family)
    | none => d
  match entry.face.filter (!·.isEmpty) with
  | some face => withFamily.withFace (.string face)
  | none => withFamily

/-- A descriptor with the size of an entry. -/
def addSize (metric : Metric.Lookup) (owner : String) (entry : FontEntry) (d : FontDescriptor) :
    Resolve (Option FontDescriptor) :=
  match entry.size.filter (!·.isEmpty) with
  | none => return some d
  | some size => do
    match ← Metric.extractOne metric ("resolving size of font \"" ++ size ++ "\"") size with
    | none => reject (.fontSize size)
    | some (value, dependencies) =>
      dependOn .font owner dependencies
      return some (d.withSize value)

/-- The font that an entry stands for. -/
def compute (metric : Metric.Lookup) (catalog : Catalog) (fonts : String → Resolve (Option Font))
    (owner : String) (entry : FontEntry) : Resolve (Option Font) := do
  match ← baseDescriptor fonts owner entry with
  | none => return none
  | some base =>
    match ← addAttributes metric owner entry base with
    | none => return none
    | some declared =>
      match ← addSize metric owner entry (addNames entry declared) with
      | none => return none
      | some d => realize catalog d

end FontLayers

/-- The value of a font while others are under way; none if there is no such font. -/
def resolveFont (metric : Metric.Lookup) (catalog : Catalog) (fonts : Mapping FontEntry)
    (underWay : List String) (name : String) : Resolve (Option Font) :=
  match _hfound : fonts.find? name with
  | none => return none
  | some entry =>
    if _hidle : name ∈ underWay then
      some <$> memoized .font name entry true (return none)
    else
      some <$> memoized .font name entry false
        (FontLayers.compute metric catalog
          (fun other => resolveFont metric catalog fonts (name :: underWay) other) name entry)
termination_by fonts.idle underWay
decreasing_by exact Mapping.idle_cons_lt _hfound _hidle

theorem resolveFont_missing {metric : Metric.Lookup} {catalog : Catalog} {fonts : Mapping FontEntry}
    {underWay : List String} {name : String} (h : fonts.find? name = none) :
    resolveFont metric catalog fonts underWay name = pure none := by
  rw [resolveFont]
  split
  · rfl
  · simp_all

end DesignTokens
