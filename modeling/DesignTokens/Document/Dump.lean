import DesignTokens.Document.Basic
import DesignTokens.Fault
import DesignTokens.Json.Writer
import DesignTokens.Text.Half

/-!
# Writing documents

A document is written with all its fields under their joined names, unset ones as null, and without groups:
a merged document has none. Resolution leaves no trace in what is written. What is written is Unicode text,
so a document with half a surrogate pair in a value cannot be written; in a name it is replaced.

* `unicode?_string` — a text can be written exactly if it has no half in it.
-/

namespace DesignTokens

namespace Json

mutual

/-- A value with names in Unicode text; none if another text in it is none. -/
def unicode? : Json → Option Json
  | .string s => if Text.hasHalf s then none else some (.string s)
  | .list items => (unicodeItems? items).map .list
  | .object members => (unicodeMembers? members).map .object
  | value => some value

def unicodeItems? : List Json → Option (List Json)
  | [] => some []
  | item :: rest => do return (← unicode? item) :: (← unicodeItems? rest)

def unicodeMembers? : List (String × Json) → Option (List (String × Json))
  | [] => some []
  | (name, value) :: rest => do return (Text.lossy name, ← unicode? value) :: (← unicodeMembers? rest)

end

theorem unicode?_string (s : String) : unicode? (.string s) = some (.string s) ↔ Text.hasHalf s = false := by
  cases h : Text.hasHalf s <;> simp [unicode?, h]

end Json

/-- A record as JSON, with its unset fields or without them. -/
def Json.record (withUnset : Bool) (fields : List (String × Json)) : Json :=
  .object (if withUnset then fields else fields.filter fun field => !field.2.isNull)

/-- A value that may be unset, as JSON. -/
def Json.orNull {α : Type} (f : α → Json) (value : Option α) : Json := (value.map f).getD .null

def FontEntry.toJson (withUnset : Bool) (e : FontEntry) : Json :=
  .record withUnset
    [("basedOn", .orNull .string e.basedOn),
     ("family", .orNull .string e.family),
     ("face", .orNull .string e.face),
     ("size", .orNull .string e.size),
     ("attributes", .orNull id e.attributes)]

def TextAttributesEntry.toJson (withUnset : Bool) (e : TextAttributesEntry) : Json :=
  .record withUnset
    [("basedOn", .orNull .string e.basedOn),
     ("attributes", .orNull id e.attributes)]

def RelativeDimension.toJson (d : RelativeDimension) : Json :=
  .object
    [("dimension", .string d.dimension.name),
     ("relation", .string d.relation.name),
     ("relativeTo", .string d.relativeTo),
     ("multiplier", .float d.multiplier.value d.multiplier.origin),
     ("constant", .float d.constant.value d.constant.origin)]

def PlacementEntry.toJson (withUnset : Bool) (e : PlacementEntry) : Json :=
  .record withUnset
    [("placementRules", .orNull .string e.placementRules),
     ("auxiliaryViews", .orNull .string e.auxiliaryViews),
     ("metricNames", .orNull .string e.metricNames),
     ("relativeDimensions", .orNull (fun ds => .list (ds.map RelativeDimension.toJson)) e.relativeDimensions),
     ("contentMode", .orNull (fun m => .string m.name) e.contentMode)]

def Background.toJson (withUnset : Bool) (b : Background) : Json :=
  .record withUnset
    [("fillColor", .orNull .string b.fillColor),
     ("strokeColor", .orNull .string b.strokeColor),
     ("lineWidth", .orNull .string b.lineWidth),
     ("cornerRadius", .orNull .string b.cornerRadius),
     ("minimumWidth", .orNull .string b.minimumWidth),
     ("minimumHeight", .orNull .string b.minimumHeight)]

namespace ImageSource

def basedOn? : ImageSource → Option String
  | .basedOn name => some name
  | _ => none

def file? : ImageSource → Option String
  | .file path => some path
  | _ => none

def background? : ImageSource → Option Background
  | .background b => some b
  | _ => none

end ImageSource

def ImageEntry.toJson (withUnset : Bool) (e : ImageEntry) : Json :=
  .record withUnset
    [("basedOn", .orNull .string e.source.basedOn?),
     ("filePath", .orNull .string e.source.file?),
     ("makeBackground", .orNull (Background.toJson withUnset) e.source.background?),
     ("alignmentInsets", .orNull .string e.alignmentInsets),
     ("contentMode", .orNull (fun m => .string m.name) e.contentMode),
     ("renderMode", .orNull (fun m => .string m.name) e.renderMode),
     ("placement", .orNull .string e.placement)]

def ElementNames.toJson (withUnset : Bool) (n : ElementNames) : Json :=
  .record withUnset
    [("titleAttributes", .orNull .string n.titleAttributes),
     ("titleImage", .orNull .string n.titleImage),
     ("backgroundImage", .orNull .string n.backgroundImage)]

def ButtonStyleEntry.toJson (withUnset : Bool) (e : ButtonStyleEntry) : Json :=
  .record withUnset
    [("normalStyle", .orNull (ElementNames.toJson withUnset) e.normalStyle),
     ("highlightedStyle", .orNull (ElementNames.toJson withUnset) e.highlightedStyle),
     ("disabledStyle", .orNull (ElementNames.toJson withUnset) e.disabledStyle),
     ("selectedStyle", .orNull (ElementNames.toJson withUnset) e.selectedStyle),
     ("contentInsets", .orNull .string e.contentInsets),
     ("tintColor", .orNull .string e.tintColor),
     ("reverseIconSide", .orNull .bool e.reverseIconSide)]

/-- An entry as JSON. -/
def Kind.entryJson (withUnset : Bool) : (k : Kind) → k.Entry → Json
  | .metric => Json.string
  | .color => Json.string
  | .font => FontEntry.toJson withUnset
  | .textAttributes => TextAttributesEntry.toJson withUnset
  | .placement => PlacementEntry.toJson withUnset
  | .image => ImageEntry.toJson withUnset
  | .buttonStyle => ButtonStyleEntry.toJson withUnset
  | .customParameters => id

/-- Equality of entries as data. -/
def Kind.equalEntries (k : Kind) (a b : k.Entry) : Bool :=
  Json.equal (k.entryJson true a) (k.entryJson true b)

namespace Document

/-- The entries of a kind as JSON. -/
def sectionJson (d : Document) (k : Kind) : Json :=
  .object ((d.entries k).toList.map fun (name, entry) => (name, k.entryJson true entry))

/-- A document as JSON. -/
def toJson (d : Document) : Json :=
  .object (("version", .orNull .int d.version) :: Kind.all.map fun k => (k.sectionName, d.sectionJson k))

/-- The text of a document: on one line, or with an indentation of so many spaces a level. -/
def dump (d : Document) (indent : Option Nat) : Except Fault String :=
  match d.toJson.unicode? with
  | some json => .ok (json.write (match indent with
    | some width => .indented width 0
    | none => .compact))
  | none => .error .notUnicode

end Document

end DesignTokens
