import DesignTokens.Resolution.Metric

/-!
# Text attributes of a document

A set of text attributes starts from the set it is based on and declares a font, two colors and a tracking
over it. Everything wrong in an entry is reported before the entry fails: errors are counted, and the count
decides at the end. With both a font and a tracking the absolute spacing is worked out for the point size.

* `resolveTextAttributes_missing` — a name without entry has no value.
-/

namespace DesignTokens

namespace TextLayers

open Resolve

/-- The least and the greatest tracking. -/
def leastTracking : Float := -1000.0
def greatestTracking : Float := 5000.0

/-- Text attributes that are known and cannot be expressed in a document. -/
def unsupportedKeys : List String :=
  ["paragraphStyle", "ligature", "kern", "strikethroughStyle", "underlineStyle", "strokeColor",
   "strokeWidth", "shadow", "textEffect", "attachment", "link", "baselineOffset", "underlineColor",
   "strikethroughColor", "obliqueness", "expansion", "writingDirection", "verticalGlyphForm"]

/-- What is put together while an entry is read: attributes, tracking and the errors met so far. -/
structure Draft where
  attributes : Mapping TextValue := ∅
  tracking : Option Float := none
  errors : Nat := 0

namespace Draft

/-- One more error. -/
def spoil (d : Draft) : Draft := { d with errors := d.errors + 1 }

def set (d : Draft) (key : String) (value : TextValue) : Draft :=
  { d with attributes := d.attributes.insert key value }

/-- The font among the attributes. -/
def font? (d : Draft) : Option Font := (TextAttributes.mk d.attributes d.tracking).font?

end Draft

/-- How the entries that text attributes name are resolved. -/
structure References where
  metric : Metric.Lookup
  color : String → Resolve (Option Color)
  font : String → Resolve (Option Font)

/-- The value of the entry that an attribute names. -/
def named (a : Asset) (resolve : String → Resolve (Option a.Value)) (owner key : String) (value : Json) :
    Resolve (Option a.Value) :=
  match value with
  | .string name => do
    dependOn .textAttributes owner [⟨a.kind, name⟩]
    fetch a resolve name key .textAttributes
  | value => reject (.textAttributeNotName key a.kind value)

/-- A draft with one declared attribute read into it. -/
def readAttribute (refs : References) (owner : String) (draft : Draft) (key : String) (value : Json) :
    Resolve Draft := do
  if key = "font" then
    match ← named .font refs.font owner key value with
    | some font => return draft.set key (.font font)
    | none => return draft.spoil
  else if key = "foregroundColor" ∨ key = "backgroundColor" then
    match ← named .color refs.color owner key value with
    | some color => return draft.set key (.color color)
    | none => return draft.spoil
  else if key = "tracking" then
    match ← Metric.extractOneJson refs.metric "resolving tracking" value with
    | some (tracking, dependencies) =>
      dependOn .textAttributes owner dependencies
      return { draft with tracking := some tracking }
    | none =>
      warn (.unresolvedTracking value)
      return draft.spoil
  else if unsupportedKeys.contains key then
    warn (.unsupportedTextAttribute key)
    return draft.spoil
  else
    warn (.unknownTextAttribute key)
    return draft.spoil

/-- A draft with all declared attributes read into it. -/
def readAttributes (refs : References) (owner : String) : List (String × Json) → Draft → Resolve Draft
  | [], draft => return draft
  | (key, value) :: rest, draft => do
    readAttributes refs owner rest (← readAttribute refs owner draft key value)

/-- The draft that an entry starts from. -/
def baseDraft (sets : String → Resolve (Option TextAttributes)) (owner : String)
    (entry : TextAttributesEntry) : Resolve Draft :=
  match entry.basedOn.filter (!·.isEmpty) with
  | none => return {}
  | some base => do
    dependOn .textAttributes owner [⟨.textAttributes, base⟩]
    match ← fetch .textAttributes sets base "basedOn" .textAttributes with
    | some value => return { attributes := value.attributes, tracking := value.tracking }
    | none => return Draft.spoil {}

/-- A draft with the absolute spacing of its tracking, if it has a font to apply it to. -/
def addKern (draft : Draft) : Resolve Draft := do
  match draft.tracking, draft.font? with
  | some tracking, some font =>
    if leastTracking ≤ tracking ∧ tracking ≤ greatestTracking then
      return draft.set "kern" (.number (TextAttributes.kern tracking font.pointSize))
    else
      warn (.trackingRange tracking leastTracking greatestTracking)
      return draft.spoil
  | _, _ => return draft

/-- The declared attributes of an entry, if they are an object or absent. -/
def declared? (entry : TextAttributesEntry) : Except Json (List (String × Json)) :=
  match entry.attributes with
  | none => .ok []
  | some (.object members) => .ok members
  | some value => .error value

/-- The text attributes that an entry stands for. -/
def compute (refs : References) (sets : String → Resolve (Option TextAttributes)) (owner : String)
    (entry : TextAttributesEntry) : Resolve (Option TextAttributes) := do
  let base ← baseDraft sets owner entry
  match declared? entry with
  | .error value => reject (.textAttributesNotObject value)
  | .ok declared =>
    let draft ← addKern (← readAttributes refs owner declared base)
    if draft.errors = 0 then return some ⟨draft.attributes, draft.tracking⟩
    else reject (.textAttributeErrors draft.errors)

end TextLayers

/-- The value of a set while others are under way; none if there is no such set. -/
def resolveTextAttributes (refs : TextLayers.References) (sets : Mapping TextAttributesEntry)
    (underWay : List String) (name : String) : Resolve (Option TextAttributes) :=
  match _hfound : sets.find? name with
  | none => return none
  | some entry =>
    if _hidle : name ∈ underWay then
      some <$> memoized .textAttributes name entry true (return none)
    else
      some <$> memoized .textAttributes name entry false
        (TextLayers.compute refs
          (fun other => resolveTextAttributes refs sets (name :: underWay) other) name entry)
termination_by sets.idle underWay
decreasing_by exact Mapping.idle_cons_lt _hfound _hidle

theorem resolveTextAttributes_missing {refs : TextLayers.References}
    {sets : Mapping TextAttributesEntry} {underWay : List String} {name : String}
    (h : sets.find? name = none) : resolveTextAttributes refs sets underWay name = pure none := by
  rw [resolveTextAttributes]
  split
  · rfl
  · simp_all

end DesignTokens
