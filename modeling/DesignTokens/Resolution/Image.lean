import DesignTokens.Image.Background
import DesignTokens.Image.Png
import DesignTokens.Resolution.Metric

/-!
# Images of a document

An image takes its pixels from one source: another image, a file below the storage root or a drawn
background. Over it the entry lays what it declares itself: alignment insets, render mode, content mode and
placement.

An image file without a storage root is a fault, and so is a path that no file can have. Nearly any other
trouble with a file makes the image invalid.

* `resolveImage_missing` — a name without entry has no value.
-/

namespace DesignTokens

namespace ImageLayers

open Resolve

/-- How the entries that images name are resolved. -/
structure References where
  metric : Metric.Lookup
  color : String → Resolve (Option Color)
  hasPlacement : String → Bool

/-- The image in a file below the storage root. -/
def ofFile (surroundings : Surroundings) (path : String) : Resolve (Option Image) :=
  match surroundings.storage with
  | none => throw (.storageNotConfigured path)
  | some storage => do
    let location := storage.join (Path.ofText path)
    if let some defect := location.defect? then throw (.path defect)
    match surroundings.files.read location with
    | .error e => reject (.imageUnreadable path e)
    | .ok content =>
      if content.isEmpty then reject (.imageEmpty path)
      else
        match Png.read content with
        | .ok raster => return some { raster }
        | .error .unidentified => reject (.imageUndecodable path)
        | .error .damaged => reject (.imageDamaged path)
        | .error .chunkLength => throw .imageChunkLength
        | .error .chunkName => throw .imageChunkName

/-- The color that a background names, or the absence of one; nothing if the name is no use. -/
def backgroundColor (refs : References) (owner key : String) (name : Option String) :
    Resolve (Option (Option Color)) :=
  match name with
  | none => return some none
  | some name => do
    match ← fetch .color refs.color name key .image with
    | none => return none
    | some color =>
      dependOn .image owner [⟨.color, name⟩]
      return some (some color)

/-- The length that a background gives as an expression, zero if it gives none. -/
def backgroundLength (refs : References) (owner key : String) (expression : Option String) :
    Resolve (Option Float) :=
  match expression with
  | none => return some 0.0
  | some expression => do
    match ← Metric.extractOne refs.metric ("simple background image." ++ key) expression with
    | none => return none
    | some (value, dependencies) =>
      dependOn .image owner dependencies
      return some value

/-- The lengths of a background, in the order line width, corner radius, minimum width and height. -/
def backgroundLengths (refs : References) (owner : String) : List (String × Option String) →
    Resolve (Option (List Float))
  | [] => return some []
  | (key, expression) :: rest => do
    match ← backgroundLength refs owner key expression with
    | none => return none
    | some value => return (← backgroundLengths refs owner rest).map (value :: ·)

/-- The image that a background describes. -/
def ofBackground (refs : References) (owner : String) (b : Background) : Resolve (Option Image) := do
  match ← backgroundColor refs owner "fillColor" b.fillColor with
  | none => return none
  | some fill =>
    match ← backgroundColor refs owner "strokeColor" b.strokeColor with
    | none => return none
    | some stroke =>
      let lengths ← backgroundLengths refs owner
        [("lineWidth", b.lineWidth), ("cornerRadius", b.cornerRadius),
         ("minimumWidth", b.minimumWidth), ("minimumHeight", b.minimumHeight)]
      match lengths with
      | some [lineWidth, cornerRadius, minimumWidth, minimumHeight] =>
        let style : BackgroundStyle :=
          { fill, stroke, lineWidth, cornerRadius, minimumWidth, minimumHeight }
        return some (← lift style.draw)
      | _ => return none

/-- The image that an entry starts from. -/
def base (refs : References) (surroundings : Surroundings) (images : String → Resolve (Option Image))
    (owner : String) (entry : ImageEntry) : Resolve (Option Image) :=
  match entry.source with
  | .basedOn name => do
    dependOn .image owner [⟨.image, name⟩]
    fetch .image images name "basedOn" .image
  | .file path => ofFile surroundings path
  | .background b => ofBackground refs owner b

/-- An image with the alignment insets of an entry. -/
def addInsets (refs : References) (owner : String) (entry : ImageEntry) (image : Image) :
    Resolve (Option Image) :=
  match entry.alignmentInsets with
  | none => return some image
  | some raw => do
    match ← Metric.extractInsets refs.metric "image alignmentInsets" raw with
    | none => return none
    | some read =>
      dependOn .image owner read.dependencies
      return some { image with alignmentInsets := Insets.ofList? read.values }

/-- An image with the modes of an entry. -/
def addModes (entry : ImageEntry) (image : Image) : Image :=
  { image with
    renderMode := entry.renderMode <|> image.renderMode
    contentMode := entry.contentMode <|> image.contentMode }

/-- An image with the placement of an entry, which must exist. -/
def addPlacement (refs : References) (owner : String) (entry : ImageEntry) (image : Image) :
    Resolve (Option Image) :=
  match entry.placement with
  | none => return some image
  | some name =>
    if refs.hasPlacement name then do
      dependOn .image owner [⟨.placement, name⟩]
      return some { image with placement := some name }
    else reject (.missingPlacement name)

/-- The image that an entry stands for. -/
def compute (refs : References) (surroundings : Surroundings) (images : String → Resolve (Option Image))
    (owner : String) (entry : ImageEntry) : Resolve (Option Image) := do
  match ← base refs surroundings images owner entry with
  | none => return none
  | some image =>
    match ← addInsets refs owner entry image with
    | none => return none
    | some image => addPlacement refs owner entry (addModes entry image)

end ImageLayers

/-- The value of an image while others are under way; none if there is no such image. -/
def resolveImage (refs : ImageLayers.References) (surroundings : Surroundings)
    (images : Mapping ImageEntry) (underWay : List String) (name : String) : Resolve (Option Image) :=
  match _hfound : images.find? name with
  | none => return none
  | some entry =>
    if _hidle : name ∈ underWay then
      some <$> memoized .image name entry true (return none)
    else
      some <$> memoized .image name entry false
        (ImageLayers.compute refs surroundings
          (fun other => resolveImage refs surroundings images (name :: underWay) other) name entry)
termination_by images.idle underWay
decreasing_by exact Mapping.idle_cons_lt _hfound _hidle

theorem resolveImage_missing {refs : ImageLayers.References} {surroundings : Surroundings}
    {images : Mapping ImageEntry} {underWay : List String} {name : String}
    (h : images.find? name = none) : resolveImage refs surroundings images underWay name = pure none := by
  rw [resolveImage]
  split
  · rfl
  · simp_all

end DesignTokens
