import DesignTokens.Resolution.Metric

/-!
# Color texts

A color text is a format and its parts between slashes, spaces aside: `rgb/173/82/76`, `wa/.4/1`,
`web/1A3A5C`, `named/accent`. Except for `web` and `named` the parts are metric expressions, all on one
scale: fractions up to 1, or values up to 255, of which at least one exceeds 1. A part may be empty.

A name is first looked up among the colors of the document and then in the standard palette.

* `Components.scale_eq` — the components are on the scale of 255 exactly if a value exceeds 1.
* `resolveColor_missing` — a name without entry has no value.
-/

namespace DesignTokens

/-- The formats of color texts. -/
inductive ColorFormat where
  | rgb | rgba | hsb | hsba | w | wa | web | named
  deriving DecidableEq, Repr

namespace ColorFormat

def name : ColorFormat → String
  | .rgb => "rgb"
  | .rgba => "rgba"
  | .hsb => "hsb"
  | .hsba => "hsba"
  | .w => "w"
  | .wa => "wa"
  | .web => "web"
  | .named => "named"

/-- The format that a word names. -/
def ofWord? (word : String) : Option ColorFormat :=
  [ColorFormat.rgb, .rgba, .hsb, .hsba, .w, .wa, .web, .named].find? (·.name == word)

/-- How many parts a format has. -/
def partCount : ColorFormat → Nat
  | .rgb => 3
  | .rgba => 4
  | .hsb => 3
  | .hsba => 4
  | .w => 1
  | .wa => 2
  | .web => 1
  | .named => 1

/-- Which part is the alpha of a format that has one. -/
def alphaIndex : ColorFormat → Nat
  | .w | .wa => 1
  | _ => 3

/-- Whether the components are hue, saturation and brightness. -/
def isHsb : ColorFormat → Bool
  | .hsb | .hsba => true
  | _ => false

end ColorFormat

/-- The components read so far, and what their values say about the scale. -/
structure Components where
  values : List Float := []
  /-- A value lies strictly between 0 and 1. -/
  haveFraction : Bool := false
  /-- A value exceeds 1. -/
  have255 : Bool := false

namespace Components

/-- A component that is full on the scale seen so far. -/
def full (c : Components) : Float := if c.have255 then 255.0 else 1.0

/-- The components with an empty part added: alpha is full and any other component zero. -/
def addEmpty (c : Components) (isAlpha : Bool) : Components :=
  { c with values := c.values ++ [if isAlpha then c.full else 0.0] }

/-- The components with a value added. -/
def add (c : Components) (value : Float) : Components where
  values := c.values ++ [value]
  haveFraction := c.haveFraction || (0.0 < value && value < 1.0)
  have255 := c.have255 || 1.0 < value

/-- The components as fractions. -/
def scaled (c : Components) : List Float :=
  if c.have255 then c.values.map (· / 255.0) else c.values

theorem scale_eq (c : Components) (value : Float) :
    (c.add value).have255 = (c.have255 || decide (1.0 < value)) := rfl

end Components

namespace ColorText

open Resolve

/-- The bytes of pairs of hexadecimal digits; at most four. -/
def webBytes (raw : String) : (digits : List Char) → (read : List Nat) → Resolve (Option (List Nat))
  | a :: b :: rest, read =>
    if read.length < 4 then
      match Number.Literal.hexValue? a, Number.Literal.hexValue? b with
      | some high, some low => webBytes raw rest (read ++ [high * 16 + low])
      | _, _ => reject (.colorComponent (String.ofList [a, b]) raw)
    else reject (.tooManyComponents raw)
  | [_], _ => reject (.tooManyComponents raw)
  | [], read =>
    if read.length = 3 then return some (read ++ [255])
    else if read.length = 4 then return some read
    else reject (.componentCount raw)

/-- The components of values beside the parts they were read from. -/
def normalise (format : ColorFormat) (raw : String) : (values : List (Float × String)) → Components →
    Resolve (Option (List Float))
  | [], c =>
    if c.haveFraction && c.have255 then reject (.mixedComponents raw)
    else
      let complete := if c.values.length = 1 ∨ c.values.length = 3 then c.addEmpty true else c
      return some complete.scaled
  | (value, part) :: rest, c =>
    if part.isEmpty then normalise format raw rest (c.addEmpty (c.values.length = format.alphaIndex))
    else if 0.0 ≤ value && value ≤ 255.0 then normalise format raw rest (c.add value)
    else reject (.colorComponent part raw)

/-- The color of complete components. -/
def ofComponents (format : ColorFormat) (raw : String) : List Float → Resolve (Option Color)
  | [white, alpha] => return some (.white white alpha)
  | [a, b, c, alpha] =>
    if format.isHsb then do return some (← lift (Color.hsb a b c alpha))
    else return some ⟨a, b, c, alpha⟩
  | _ => reject (.colorUnread raw)

/-- What a name means where colors are looked up. -/
inductive Lookup where
  | missing
  | invalid
  | found (color : Color)

/-- The color under a name of the document or of the standard palette. -/
def named (lookup : String → Resolve Lookup) (isEntry : String → Bool) (owner raw name : String) :
    Resolve (Option Color) := do
  if isEntry name then
    dependOn .color owner [⟨.color, name⟩]
    match ← lookup name with
    | .found color => return some color
    | _ => reject (.invalidColor raw name)
  else
    match Color.standard.lookup name with
    | some color => return some color
    | none => reject (.missingColor raw name)

/-- The color that the text of an entry stands for. -/
def compute (metric : Metric.Lookup) (lookup : String → Resolve Lookup) (isEntry : String → Bool)
    (owner raw : String) : Resolve (Option Color) := do
  match Metric.words (Text.withoutSpaces raw) with
  | [] => reject (.colorFormat raw)
  | tag :: parts =>
    match ColorFormat.ofWord? tag with
    | none => reject (.colorFormat raw)
    | some format =>
      if parts.length ≠ format.partCount then reject (.colorParts raw)
      else
        match format with
        | .named => named lookup isEntry owner raw (parts.headD "")
        | .web =>
          match ← webBytes raw (parts.headD "").toList [] with
          | none => return none
          | some bytes => ofComponents format raw (bytes.map fun byte => Float.ofNat byte / 255.0)
        | format =>
          match ← Metric.extractEach metric ("resolving color with format " ++ format.name) parts with
          | none => return none
          | some read =>
            dependOn .color owner read.dependencies
            match ← normalise format raw (read.values.zip parts) {} with
            | none => return none
            | some components => ofComponents format raw components

end ColorText

/-- The value of a color while others are under way; none if there is no such color. -/
def resolveColor (metric : Metric.Lookup) (colors : Mapping String) (underWay : List String)
    (name : String) : Resolve (Option Color) :=
  match _hfound : colors.find? name with
  | none => return none
  | some raw =>
    if _hidle : name ∈ underWay then
      some <$> memoized .color name raw true (return none)
    else
      let lookup (other : String) : Resolve ColorText.Lookup := do
        match ← resolveColor metric colors (name :: underWay) other with
        | none => return .missing
        | some _ =>
          match (← Resolve.cell .color other).memo.value? with
          | some value => return .found value
          | none => return .invalid
      some <$> memoized .color name raw false (ColorText.compute metric lookup colors.contains name raw)
termination_by colors.idle underWay
decreasing_by exact Mapping.idle_cons_lt _hfound _hidle

theorem resolveColor_missing {metric : Metric.Lookup} {colors : Mapping String} {underWay : List String}
    {name : String} (h : colors.find? name = none) :
    resolveColor metric colors underWay name = pure none := by
  rw [resolveColor]
  split
  · rfl
  · simp_all

end DesignTokens
