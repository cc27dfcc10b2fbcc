import DesignTokens.Json.KeyPath
import DesignTokens.Resolution.Document

/-!
# Reading parameters

A custom parameter is read through an accessor: a value and the key path of the part in view. The readers
take a further key path and answer with a value of their type, or with nothing where the path leads nowhere
or to something else. Numbers may be given as metric expressions.

A parameter whose value is the name of another parameter redirects to it. Redirections are followed until
one leads to a value, or back to a name that was followed before; they end because the names not yet seen
become fewer.

* `follow_value` — a value that names no parameter is where redirections end.
-/

namespace DesignTokens

open Resolve

/-- The name of the parameter that a value redirects to. -/
def redirection? (parameters : Mapping Json) : Json → Option (String × Json)
  | .string name => (parameters.find? name).map (name, ·)
  | _ => none

/-- The value at the end of redirections, none of which goes to a name in `seen`. -/
def follow (parameters : Mapping Json) (seen : List String) (value : Json) : Resolve Json :=
  match value with
  | .string name =>
    match _hfound : parameters.find? name with
    | none => return value
    | some next =>
      if _hseen : name ∈ seen then do
        warn (.redirectionLoop name)
        return value
      else follow parameters (name :: seen) next
  | value => return value
termination_by parameters.idle seen
decreasing_by exact Mapping.idle_cons_lt _hfound _hseen

theorem follow_value {parameters : Mapping Json} {seen : List String} {value : Json}
    (h : redirection? parameters value = none) : follow parameters seen value = pure value := by
  unfold follow
  split
  · split
    · rfl
    · simp_all [redirection?]
  · rfl

/-- A view of a parameter: its value, and the key path to the part in view. -/
structure Accessor where
  value : Json
  scope : String := ""

namespace Accessor

/-- The accessor of the parameter under a name, at the end of its redirections if those are followed. -/
def ofName (r : Reading) (name : String) (indirect : Bool) : Resolve (Option Accessor) := do
  let parameters := r.document.sections.parameters
  match parameters.find? name with
  | none => reject (.missingParameter name)
  | some value => return some { value := ← (if indirect then follow parameters [name] value else pure value) }

/-- The accessor in words. -/
def description (a : Accessor) : String := "ParameterAccessor(prefix=" ++ Text.quoted a.scope ++ ")"

/-- The whole key path of a path that starts at the part in view. -/
def path (a : Accessor) (keyPath : String) : String := KeyPath.join [a.scope, keyPath]

/-- What is going on while a number is read. -/
def expecting (a : Accessor) (keyPath : String) : String :=
  "accessing parameter \"" ++ a.path keyPath ++ "\""

/-- The value at a key path; null where the path leads nowhere. -/
def object (a : Accessor) (keyPath : String) : Resolve Json := do
  return (← lift (KeyPath.valueAt a.value (a.path keyPath))).getD .null

def string (a : Accessor) (keyPath : String) : Resolve (Option String) := do
  match ← a.object keyPath with
  | .string s => return some s
  | _ => return none

def number (r : Reading) (a : Accessor) (keyPath : String) : Resolve (Option Float) := do
  match ← a.object keyPath with
  | .null => return none
  | value => return (← Metric.extractOneJson r.metricLookup (a.expecting keyPath) value).map (·.1)

/-- The number at a key path without its fraction. -/
def integer (r : Reading) (a : Accessor) (keyPath : String) : Resolve (Option Int) := do
  match ← a.number r keyPath with
  | none => return none
  | some x => return some (← lift (Color.wholePart x))

/-- The numbers at a key path: as many as requested, or all. -/
def numbers (r : Reading) (a : Accessor) (keyPath : String) (count : Option Int) :
    Resolve (Option (List Float)) := do
  match ← a.object keyPath with
  | .null => return none
  | value =>
    return (← Metric.extractJson r.metricLookup (a.expecting keyPath) value count).map Extraction.values

def point (r : Reading) (a : Accessor) (keyPath : String) : Resolve (Option Point) := do
  match ← a.numbers r keyPath (some 2) with
  | some [x, y] => return some ⟨x, y⟩
  | _ => return none

def size (r : Reading) (a : Accessor) (keyPath : String) : Resolve (Option Size) := do
  match ← a.numbers r keyPath (some 2) with
  | some [width, height] => return some ⟨width, height⟩
  | _ => return none

def insets (r : Reading) (a : Accessor) (keyPath : String) : Resolve (Option Insets) := do
  return (← a.numbers r keyPath (some 4)).bind Insets.ofList?

/-- The color that the text at a key path names. -/
def color (r : Reading) (a : Accessor) (keyPath : String) : Resolve (Option Color) := do
  match ← a.string keyPath with
  | none => return none
  | some name => DesignTokens.fetch .color r.color name (a.path keyPath) .customParameters

/-- A text at a key path that names some other entry. -/
def assetName (a : Accessor) (keyPath : String) : Resolve (Option String) := a.string keyPath

/-- The accessor of the part at a key path; if a text there names a parameter, of that parameter. -/
def accessor (r : Reading) (a : Accessor) (keyPath : String) : Resolve Accessor := do
  if keyPath.isEmpty then return a
  else
    let parameters := r.document.sections.parameters
    match ← a.string keyPath with
    | none => return { a with scope := a.path keyPath }
    | some name =>
      match parameters.find? name with
      | none => return { a with scope := a.path keyPath }
      | some value => return { value := ← follow parameters [name] value }

end Accessor

end DesignTokens
