import DesignTokens.Resolution.ButtonStyle
import DesignTokens.Resolution.Color
import DesignTokens.Resolution.Font
import DesignTokens.Resolution.Image
import DesignTokens.Resolution.TextAttributes

/-!
# Resolving the entries of a document

Kinds refer to one another in one direction: colors and fonts to metrics, text attributes to fonts and
colors, images to colors and metrics, button styles to all of these. So each kind is resolved with the
kinds before it as parameters, and only references inside a kind can be cyclic.
-/

namespace DesignTokens

/-- A document in its surroundings. -/
structure Reading where
  document : Document
  surroundings : Surroundings

namespace Reading

open Resolve

def metricLookup (r : Reading) : Metric.Lookup := Metric.lookup r.document.sections.metrics

def metric (r : Reading) : String → Resolve (Option Float) :=
  resolveMetric r.document.sections.metrics []

def color (r : Reading) : String → Resolve (Option Color) :=
  resolveColor r.metricLookup r.document.sections.colors []

def font (r : Reading) : String → Resolve (Option Font) :=
  resolveFont r.metricLookup r.surroundings.catalog r.document.sections.fonts []

def textAttributes (r : Reading) : String → Resolve (Option TextAttributes) :=
  resolveTextAttributes ⟨r.metricLookup, r.color, r.font⟩ r.document.sections.textAttributes []

def image (r : Reading) : String → Resolve (Option Image) :=
  resolveImage ⟨r.metricLookup, r.color, r.document.sections.placements.contains⟩ r.surroundings
    r.document.sections.images []

def buttonStyle (r : Reading) : String → Resolve (Option ButtonStyle) :=
  resolveButtonStyle ⟨r.metricLookup, r.color, r.textAttributes, r.image⟩ r.document.sections.buttonStyles

/-- The value of an entry; none if there is no such entry. -/
def resolve? (r : Reading) : (a : Asset) → String → Resolve (Option a.Value)
  | .metric => r.metric
  | .color => r.color
  | .font => r.font
  | .textAttributes => r.textAttributes
  | .image => r.image
  | .buttonStyle => r.buttonStyle

/-- The value of an entry, or the sentinel with a notice if there is no such entry. -/
def resolve (r : Reading) (a : Asset) (name : String) : Resolve a.Value := do
  match ← r.resolve? a name with
  | some value => return value
  | none =>
    warn (.missingEntry a.kind name)
    return a.invalid

/-- The value of an entry that another one refers to. Entries that are no assets are never valid. -/
def fetch (r : Reading) (kind : Kind) (name key : String) (user : Kind) :
    Resolve (Option ((a : Asset) × a.Value)) :=
  match kind.asset? with
  | some a => do return (← DesignTokens.fetch a (r.resolve? a) name key user).map (⟨a, ·⟩)
  | none =>
    match r.document.entry? kind name with
    | none => reject (.missingReference user key name)
    | some _ => reject (.invalidReference user key name)

/-- The entry of a kind that stands for itself, or a notice if there is none. -/
def entry (r : Reading) (kind : Kind) (name : String) : Resolve (Option kind.Entry) :=
  match r.document.entry? kind name with
  | some entry => return some entry
  | none => reject (.missingEntry kind name)

/-- The names of an asset that a whole-document check looks at, sorted; metrics that are comments are left
out. -/
def checkedNames (d : Document) (a : Asset) : List String :=
  let pairs := (d.entries a.kind).toList.filter fun (_, entry) =>
    !(a = .metric ∧ Kind.isComment a.kind entry)
  (pairs.map Prod.fst).mergeSort (· ≤ ·)

/-- The validity of each of the named entries, resolved in turn. -/
def checkNames (r : Reading) (a : Asset) : List String → Resolve (List (String × Bool))
  | [] => return []
  | name :: rest => do
    let _ ← r.resolve? a name
    let valid := (← cell a name).memo.isValid
    return (name, valid) :: (← r.checkNames a rest)

/-- The validity of every entry of the given assets. -/
def check (r : Reading) : List Asset → Resolve (List (Asset × List (String × Bool)))
  | [] => return []
  | a :: rest => do
    let names ← r.checkNames a (checkedNames r.document a)
    return (a, names) :: (← r.check rest)

end Reading

end DesignTokens
