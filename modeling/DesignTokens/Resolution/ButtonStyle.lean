import DesignTokens.Resolution.Metric

/-!
# Button styles of a document

A style names elements for each state of a button and some values that all states share. Everything wrong
in it is reported and counted, one state does not keep the others from being looked at, and any error makes
the whole style invalid.
-/

namespace DesignTokens

namespace ButtonLayers

open Resolve

/-- How the entries that button styles name are resolved. -/
structure References where
  metric : Metric.Lookup
  color : String → Resolve (Option Color)
  textAttributes : String → Resolve (Option TextAttributes)
  image : String → Resolve (Option Image)

/-- The value of an element, and whether it is broken. -/
def element (a : Asset) (resolve : String → Resolve (Option a.Value)) (owner key : String)
    (name : Option String) : Resolve (Option a.Value × Nat) :=
  match name with
  | none => return (none, 0)
  | some name => do
    match ← fetch a resolve name key .buttonStyle with
    | none => return (none, 1)
    | some value =>
      dependOn .buttonStyle owner [⟨a.kind, name⟩]
      return (some value, 0)

/-- The elements of one state, none if there are none or one is broken, and the count of broken ones. -/
def stateElements (refs : References) (owner : String) (names : ElementNames) :
    Resolve (Option ButtonElements × Nat) := do
  let (titleAttributes, e₁) ←
    element .textAttributes refs.textAttributes owner "titleAttributes" names.titleAttributes
  let (titleImage, e₂) ← element .image refs.image owner "titleImage" names.titleImage
  let (backgroundImage, e₃) ← element .image refs.image owner "backgroundImage" names.backgroundImage
  let errors := e₁ + e₂ + e₃
  let elements : ButtonElements := { titleAttributes, titleImage, backgroundImage }
  if errors ≠ 0 ∨ elements.isEmpty then return (none, errors) else return (some elements, 0)

/-- The elements of all states, and the count of errors. -/
def states (refs : References) (owner : String) : List (ButtonState × Option ElementNames) →
    Resolve (List (ButtonState × ButtonElements) × Nat)
  | [] => return ([], 0)
  | (_, none) :: rest => states refs owner rest
  | (state, some names) :: rest => do
    let (elements, errors) ← stateElements refs owner names
    let (others, more) ← states refs owner rest
    return ((elements.map (state, ·)).toList ++ others, errors + more)

/-- The insets around the content, and the count of errors. -/
def contentInsets (refs : References) (owner : String) (raw : Option String) :
    Resolve (Option Insets × Nat) :=
  match raw with
  | none => return (none, 0)
  | some raw => do
    match ← Metric.extractInsets refs.metric "button style contentInsets" raw with
    | none => return (none, 1)
    | some read =>
      dependOn .buttonStyle owner read.dependencies
      return (Insets.ofList? read.values, 0)

/-- The button style that an entry stands for. -/
def compute (refs : References) (owner : String) (entry : ButtonStyleEntry) :
    Resolve (Option ButtonStyle) := do
  let (states, e₁) ← states refs owner
    [(.normal, entry.normalStyle), (.highlighted, entry.highlightedStyle),
     (.disabled, entry.disabledStyle), (.selected, entry.selectedStyle)]
  let (insets, e₂) ← contentInsets refs owner entry.contentInsets
  let (tint, e₃) ← element .color refs.color owner "tintColor" entry.tintColor
  let errors := e₁ + e₂ + e₃
  if errors = 0 then return some ⟨states, insets, tint, entry.reverseIconSide.getD false⟩
  else reject (.buttonStyleErrors errors)

end ButtonLayers

/-- The value of a button style; none if there is no such style. No style refers to another one. -/
def resolveButtonStyle (refs : ButtonLayers.References) (styles : Mapping ButtonStyleEntry)
    (name : String) : Resolve (Option ButtonStyle) :=
  match styles.find? name with
  | none => return none
  | some entry =>
    some <$> memoized .buttonStyle name entry false (ButtonLayers.compute refs name entry)

end DesignTokens
