import DesignTokens.Document.Basic
import DesignTokens.Document.Record

/-!
# Decoding documents

Data is decoded into entries field by field, and every problem is reported at its place. A name may not
hold a space, except where the entry is only a comment: a metric without text or a parameter that is null.

A document may have groups, which are documents again, up to a given depth. Once all its fields decode, the
entries of each group are moved into the document under the name of the group, a point and their own name; a
name that is already taken is a problem.

* `Document.merge_nil` — without groups a document keeps its sections as they are.
-/

namespace DesignTokens

open Datum (Context)
open Scalar (text)

def FontEntry.decode (c : Context) (data : Datum) : Checked FontEntry :=
  (data.record c).andThen fun r =>
    FontEntry.mk
      <$> r.optional ⟨"based", ["on"]⟩ text
      <*> r.optional ⟨"family", []⟩ text
      <*> r.optional ⟨"face", []⟩ text
      <*> r.optional ⟨"size", []⟩ text
      <*> r.optional ⟨"attributes", []⟩ (Datum.json c)

def TextAttributesEntry.decode (c : Context) (data : Datum) : Checked TextAttributesEntry :=
  (data.record c).andThen fun r =>
    TextAttributesEntry.mk
      <$> r.optional ⟨"based", ["on"]⟩ text
      <*> r.optional ⟨"attributes", []⟩ (Datum.json c)

/-- A text among those that a function knows. -/
def Datum.choice {α : Type} (ofText? : String → Option α) : Datum → Checked α
  | .string s => Scalar.ofText (fun s => (ofText? s).elim (.fail .notChoice) .ok) s
  | _ => .fail .notChoice

/-- A text that one of several spellings must match, with a rule of its own for those that do not. -/
def Datum.spelling {α : Type} (ofText? : String → Option α) (rule : String → Rule) : Datum → Checked α
  | .string s =>
    match ofText? s with
    | some value => .ok value
    | none => .fail (.broken (rule s))
  | _ => .fail .notChoice

def Dimension.ofText? (text : String) : Option Dimension :=
  [("width", Dimension.width), ("height", .height)].lookup text

def RelativeDimension.decode (c : Context) (data : Datum) : Checked RelativeDimension :=
  (data.record c).andThen fun r =>
    RelativeDimension.mk
      <$> r.required ⟨"dimension", []⟩ (Datum.choice Dimension.ofText?)
      <*> r.getD ⟨"relation", []⟩ (Datum.spelling Relation.ofText? .unknownRelation) .equal
      <*> r.required ⟨"relative", ["to"]⟩ text
      <*> r.getD ⟨"multiplier", []⟩ (Scalar.number c.saturates) ⟨1.0, none⟩
      <*> r.getD ⟨"constant", []⟩ (Scalar.number c.saturates) ⟨0.0, none⟩

def PlacementEntry.decode (c : Context) (data : Datum) : Checked PlacementEntry :=
  (data.record c).andThen fun r =>
    PlacementEntry.mk
      <$> r.optional ⟨"placement", ["rules"]⟩ text
      <*> r.optional ⟨"auxiliary", ["views"]⟩ text
      <*> r.optional ⟨"metric", ["names"]⟩ text
      <*> r.optional ⟨"relative", ["dimensions"]⟩ (Datum.items c (RelativeDimension.decode c))
      <*> r.optional ⟨"content", ["mode"]⟩ (Datum.choice ContentMode.ofName?)

def Background.decode (c : Context) (data : Datum) : Checked Background :=
  (data.record c).andThen fun r =>
    Background.mk
      <$> r.optional ⟨"fill", ["color"]⟩ text
      <*> r.optional ⟨"stroke", ["color"]⟩ text
      <*> r.optional ⟨"line", ["width"]⟩ text
      <*> r.optional ⟨"corner", ["radius"]⟩ text
      <*> r.optional ⟨"minimum", ["width"]⟩ text
      <*> r.optional ⟨"minimum", ["height"]⟩ text

/-- The source of an image, of which exactly one must be given. -/
def ImageSource.select (basedOn file : Option String) (background : Option Background) : Checked ImageSource :=
  match basedOn, file, background with
  | some name, none, none => .ok (.basedOn name)
  | none, some path, none => .ok (.file path)
  | none, none, some background => .ok (.background background)
  | _, _, _ => .fail (.broken .imageSource)

def ImageEntry.decode (c : Context) (data : Datum) : Checked ImageEntry :=
  (data.record c).andThen fun r =>
    let fields :=
      (fun basedOn file background insets contentMode renderMode placement =>
        (ImageSource.select basedOn file background).map fun source =>
          ImageEntry.mk source insets contentMode renderMode placement)
        <$> r.optional ⟨"based", ["on"]⟩ text
        <*> r.optional ⟨"file", ["path"]⟩ text
        <*> r.optional ⟨"make", ["background"]⟩ (Background.decode c)
        <*> r.optional ⟨"alignment", ["insets"]⟩ text
        <*> r.optional ⟨"content", ["mode"]⟩ (Datum.choice ContentMode.ofName?)
        <*> r.optional ⟨"render", ["mode"]⟩ (Datum.spelling RenderMode.ofText? .unknownRenderMode)
        <*> r.optional ⟨"placement", []⟩ text
    fields.andThen id

def ElementNames.decode (c : Context) (data : Datum) : Checked ElementNames :=
  (data.record c).andThen fun r =>
    ElementNames.mk
      <$> r.optional ⟨"title", ["attributes"]⟩ text
      <*> r.optional ⟨"title", ["image"]⟩ text
      <*> r.optional ⟨"background", ["image"]⟩ text

def ButtonStyleEntry.decode (c : Context) (data : Datum) : Checked ButtonStyleEntry :=
  (data.record c).andThen fun r =>
    ButtonStyleEntry.mk
      <$> r.optional ⟨"normal", ["style"]⟩ (ElementNames.decode c)
      <*> r.optional ⟨"highlighted", ["style"]⟩ (ElementNames.decode c)
      <*> r.optional ⟨"disabled", ["style"]⟩ (ElementNames.decode c)
      <*> r.optional ⟨"selected", ["style"]⟩ (ElementNames.decode c)
      <*> r.optional ⟨"content", ["insets"]⟩ text
      <*> r.optional ⟨"tint", ["color"]⟩ text
      <*> r.optional ⟨"reverse", ["icon", "side"]⟩ Scalar.flag

namespace Kind

/-- An entry of a kind. -/
def decodeEntry (c : Context) : (k : Kind) → Datum → Checked k.Entry
  | .metric => text
  | .color => text
  | .font => FontEntry.decode c
  | .textAttributes => TextAttributesEntry.decode c
  | .placement => PlacementEntry.decode c
  | .image => ImageEntry.decode c
  | .buttonStyle => ButtonStyleEntry.decode c
  | .customParameters => Datum.json c

/-- The field of a document that holds the entries of a kind. -/
def fieldName : Kind → FieldName
  | .metric => ⟨"metrics", []⟩
  | .color => ⟨"colors", []⟩
  | .font => ⟨"fonts", []⟩
  | .textAttributes => ⟨"text", ["attributes"]⟩
  | .placement => ⟨"placements", []⟩
  | .image => ⟨"images", []⟩
  | .buttonStyle => ⟨"button", ["styles"]⟩
  | .customParameters => ⟨"other", ["parameters"]⟩

/-- Whether a text holds a space. -/
def hasSpace (name : String) : Bool := name.toList.contains ' '

/-- The first name with a space in it, comments apart. -/
def spacedName? (k : Kind) (entries : Mapping k.Entry) : Option String :=
  (entries.toList.find? fun (name, entry) => hasSpace name && !k.isComment entry).map (·.1)

/-- The entries of a kind, under names without spaces. -/
def decodeEntries (c : Context) (k : Kind) (data : Datum) : Checked (Mapping k.Entry) :=
  (data.mapping c (k.decodeEntry c)).andThen fun entries =>
    match k.spacedName? entries with
    | some name => .fail (.broken (.spaceInName k name))
    | none => .ok entries

end Kind

/-- The sections of a record. -/
def Sections.decode (c : Context) (r : Record) : Checked Sections :=
  let field (k : Kind) : Checked (Mapping k.Entry) := r.getD k.fieldName (k.decodeEntries c) ∅
  Sections.mk
    <$> field .metric
    <*> field .color
    <*> field .font
    <*> field .textAttributes
    <*> field .placement
    <*> field .image
    <*> field .buttonStyle
    <*> field .customParameters

/-- The entries with those of a group added under the name of the group. -/
def Mapping.addGroup {α : Type} (group : String) (into : Mapping α) (entries : List (String × α)) :
    Except String (Mapping α) :=
  match entries with
  | [] => .ok into
  | (name, entry) :: rest =>
    let merged := group ++ "." ++ name
    if into.contains merged then .error merged
    else Mapping.addGroup group (into.insert merged entry) rest

namespace Document

/-- The entries of one kind with those of a group added. -/
def mergeKind (group : String) (into other : Sections) (k : Kind) : Checked (Mapping k.Entry) :=
  match Mapping.addGroup group (into.entries k) (other.entries k).toList with
  | .ok entries => .ok entries
  | .error name => .fail (.broken (.duplicateName k name group))

/-- The sections with those of a group added. The first name that is taken ends the merge. -/
def mergeGroup (group : String) (into other : Sections) : Checked Sections :=
  let merged := mergeKind group into other
  (merged .metric).andThen fun metrics =>
  (merged .color).andThen fun colors =>
  (merged .font).andThen fun fonts =>
  (merged .textAttributes).andThen fun textAttributes =>
  (merged .placement).andThen fun placements =>
  (merged .image).andThen fun images =>
  (merged .buttonStyle).andThen fun buttonStyles =>
  (merged .customParameters).map fun parameters =>
    { metrics, colors, fonts, textAttributes, placements, images, buttonStyles, parameters }

/-- The sections with those of all groups added, group by group. -/
def merge (into : Sections) : List (String × Document) → Checked Sections
  | [] => .ok into
  | (group, document) :: rest => (mergeGroup group into document.sections).andThen fun s => merge s rest

/-- The version of a record. -/
def decodeVersion (r : Record) : Checked (Option Int) :=
  r.getD ⟨"version", []⟩ (Scalar.optional Scalar.integer) (some 0)

/-- A document of given sections and groups. -/
def assemble (version : Option Int) (sections : Sections) (groups : Option (Mapping Document)) :
    Checked Document :=
  match groups with
  | none => .ok ⟨version, sections, false⟩
  | some groups =>
    (merge sections groups.toList).map fun merged => ⟨version, merged, groups.isEmpty⟩

/-- The name of the field that holds the groups of a document. -/
def groupsField : FieldName := ⟨"groups", []⟩

/-- A document with its groups merged into it, if it is at most so deep. -/
def decodeWithin : (depth : Nat) → Context → Datum → Checked Document
  | 0, _, _ => .fail .endless
  | depth + 1, c, data =>
    match { c with depth }.insideDocument? data with
    | none => .fail .endless
    | some c =>
      (data.record c).andThen fun r =>
        let fields :=
          (fun version sections groups => (version, sections, groups))
            <$> decodeVersion r
            <*> Sections.decode c r
            <*> r.optional groupsField (Datum.mapping c (decodeWithin depth c))
        fields.andThen fun (version, sections, groups) => assemble version sections groups

/-- A document with its groups merged into it. -/
def decode (c : Context) (data : Datum) : Checked Document := decodeWithin c.depth c data

theorem merge_nil (into : Sections) : merge into [] = .ok into := rfl

end Document

end DesignTokens
