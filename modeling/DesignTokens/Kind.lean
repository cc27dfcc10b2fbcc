/-!
# Kinds of entries

A document holds entries of eight kinds. Six of them, the assets, resolve to a value and remember it; a
placement and a custom parameter stand for themselves.

* `Asset.kind_injective` — the assets are among the kinds, each once.
-/

namespace DesignTokens

/-- The kinds of entries, in the order in which a document lists them. -/
inductive Kind where
  | metric | color | font | textAttributes | placement | image | buttonStyle | customParameters
  deriving DecidableEq, Repr

namespace Kind

def all : List Kind :=
  [.metric, .color, .font, .textAttributes, .placement, .image, .buttonStyle, .customParameters]

/-- The name of a kind in notices and reports. -/
def name : Kind → String
  | .metric => "metric"
  | .color => "color"
  | .font => "font"
  | .textAttributes => "textAttributes"
  | .placement => "placement"
  | .image => "image"
  | .buttonStyle => "buttonStyle"
  | .customParameters => "customParameters"

/-- The kind with a given name. -/
def ofName? (name : String) : Option Kind := all.find? (·.name == name)

/-- The name of the mapping that holds the entries of a kind in a written document. -/
def sectionName : Kind → String
  | .metric => "metrics"
  | .color => "colors"
  | .font => "fonts"
  | .textAttributes => "textAttributes"
  | .placement => "placements"
  | .image => "images"
  | .buttonStyle => "buttonStyles"
  | .customParameters => "otherParameters"

end Kind

/-- The kinds that are resolved to a value. -/
inductive Asset where
  | metric | color | font | textAttributes | image | buttonStyle
  deriving DecidableEq, Repr

namespace Asset

/-- The assets in the order in which a whole document is checked. -/
def all : List Asset := [.metric, .color, .font, .textAttributes, .image, .buttonStyle]

def kind : Asset → Kind
  | .metric => .metric
  | .color => .color
  | .font => .font
  | .textAttributes => .textAttributes
  | .image => .image
  | .buttonStyle => .buttonStyle

theorem kind_injective {a b : Asset} (h : a.kind = b.kind) : a = b := by
  cases a <;> cases b <;> simp_all [kind]

end Asset

/-- The asset that a kind is, if it is one. -/
def Kind.asset? : Kind → Option Asset
  | .metric => some .metric
  | .color => some .color
  | .font => some .font
  | .textAttributes => some .textAttributes
  | .image => some .image
  | .buttonStyle => some .buttonStyle
  | .placement => none
  | .customParameters => none

/-- An entry that the computation of another one uses. -/
structure Dependency where
  kind : Kind
  name : String
  deriving DecidableEq, Repr

end DesignTokens
