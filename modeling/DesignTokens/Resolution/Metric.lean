import DesignTokens.Number.Literal
import DesignTokens.Resolution.Store
import DesignTokens.Text.Blank

/-!
# Metric expressions

An expression is a list of words between slashes. A word is empty (zero), a number, a function (`add`,
`mul`, `min`, `max`, `switch`) or the name of a metric; `named` makes a name of all that follows. A function
takes all words that follow as its arguments, so that an expression is read from left to right by recursion
on its words, and a number of values may be asked of it.

A metric whose text is an expression resolves to its one value. A metric may refer to others; the names
under way are a parameter of the resolver, and it ends because they are fewer than the metrics.

* `Extraction.values_append`, `Extraction.dependencies_append` — what two readings give together.
* `resolveMetric_missing` — a name without metric has no value.
-/

namespace DesignTokens

/-- The functions of metric expressions. -/
inductive MetricFunction where
  | add | mul | min | max | switch
  deriving DecidableEq, Repr

namespace MetricFunction

def name : MetricFunction → String
  | .add => "add"
  | .mul => "mul"
  | .min => "min"
  | .max => "max"
  | .switch => "switch"

/-- The function that a word names. -/
def ofWord? (word : String) : Option MetricFunction :=
  [MetricFunction.add, .mul, .min, .max, .switch].find? (·.name == word)

/-- A function needs more arguments than this. -/
def tooFew : MetricFunction → Nat
  | .switch => 2
  | _ => 1

/-- The option that a selector counts from zero, the last one if it does not count one. -/
def select (selector : Float) (options : List Float) : Float :=
  let last := options.getLast?.getD 0.0
  match Number.truncate? selector with
  | some index =>
    if Number.isInteger selector ∧ 0 ≤ index ∧ index < options.length then
      (options[index.toNat]?).getD last
    else last
  | none => last

/-- The value of a function. Sums and products run from left to right. -/
def apply : MetricFunction → List Float → Float
  | .add, args => args.foldl (· + ·) 0.0
  | .mul, args => args.foldl (· * ·) 1.0
  | .min, args => (args.tail).foldl Number.lesser (args.headD 0.0)
  | .max, args => (args.tail).foldl Number.greater (args.headD 0.0)
  | .switch, args => select (args.headD 0.0) args.tail

end MetricFunction

/-- Values read from an expression, and what they rest on. -/
structure Extraction where
  values : List Float := []
  dependencies : List Dependency := []

namespace Extraction

def append (a b : Extraction) : Extraction :=
  ⟨a.values ++ b.values, a.dependencies ++ b.dependencies⟩

instance : Append Extraction := ⟨append⟩

/-- A single value. -/
def single (value : Float) (dependencies : List Dependency) : Extraction := ⟨[value], dependencies⟩

theorem values_append (a b : Extraction) : (a ++ b).values = a.values ++ b.values := rfl

theorem dependencies_append (a b : Extraction) :
    (a ++ b).dependencies = a.dependencies ++ b.dependencies := rfl

end Extraction

/-- What a name means inside an expression. -/
inductive MetricLookup where
  | missing
  | invalid
  | found (value : Float)
  deriving Repr

namespace Metric

open Resolve

/-- The words of an expression. -/
def words (expression : String) : List String := (expression.toList.splitOn '/').map String.ofList

/-- The expression of words. -/
def ofWords (words : List String) : String := "/".intercalate words

/-- How names are looked up. -/
abbrev Lookup := String → Resolve MetricLookup

/-- The value of a name, or a notice why it has none. -/
def namedValue (lookup : Lookup) (expecting name whole : String) : Resolve (Option Float) := do
  match ← lookup name with
  | .missing => reject (.unrecognisedMetric expecting name whole)
  | .invalid => reject (.invalidMetric expecting name)
  | .found value => return some value

/-- The judgement on all values read: they must be finite, leave no words unread and be as many as asked
for. -/
def conclude (expecting whole : String) (requested : Option Int) (rest : List String) (read : Extraction) :
    Resolve (Option Extraction) :=
  if !read.values.all Float.isFinite then reject (.notFinite expecting whole)
  else if !rest.isEmpty then reject (.unprocessedRest expecting (ofWords rest) whole)
  else if requested.any fun count => (read.values.length : Int) < count then
    reject (.fewValues expecting whole)
  else return some read

/-- Reads values off the words of an expression, after those `read` before. -/
def scan (lookup : Lookup) (expecting : String) : (words : List String) → (whole : String) →
    (requested : Option Int) → (read : Extraction) → Resolve (Option Extraction)
  | [], whole, requested, read => conclude expecting whole requested [] read
  | word :: rest, whole, requested, read =>
    if requested.any fun count => count ≤ (read.values.length : Int) then
      conclude expecting whole requested (word :: rest) read
    else
      match MetricFunction.ofWord? word with
      | some function =>
        if rest.isEmpty then reject (.noParameters expecting word whole)
        else do
          match ← scan lookup expecting rest (ofWords rest) none {} with
          | none => reject (.fewParameters expecting word whole)
          | some args =>
            if args.values.length ≤ function.tooFew then reject (.fewParameters expecting word whole)
            else
              conclude expecting whole requested []
                (read ++ Extraction.single (function.apply args.values) args.dependencies)
      | none =>
        if word.isEmpty then scan lookup expecting rest whole requested (read ++ Extraction.single 0.0 [])
        else if word = "named" then
          if rest.isEmpty then reject (.missingMetricName expecting whole)
          else do
            match ← namedValue lookup expecting (ofWords rest) whole with
            | none => return none
            | some value =>
              conclude expecting whole requested []
                (read ++ Extraction.single value [⟨.metric, ofWords rest⟩])
        else do
          match ← lift (Number.Literal.number? word) with
          | some value => scan lookup expecting rest whole requested (read ++ Extraction.single value [])
          | none =>
            match ← namedValue lookup expecting word whole with
            | none => return none
            | some value =>
              scan lookup expecting rest whole requested (read ++ Extraction.single value [⟨.metric, word⟩])

/-- The values of an expression: as many as requested, or all. -/
def extract (lookup : Lookup) (expecting expression : String) (requested : Option Int) :
    Resolve (Option Extraction) :=
  scan lookup expecting (words expression) expression requested {}

/-- The one value of an expression, in which spaces do not count. -/
def extractOne (lookup : Lookup) (expecting expression : String) :
    Resolve (Option (Float × List Dependency)) := do
  match ← extract lookup expecting (Text.withoutSpaces expression) (some 1) with
  | some ⟨value :: _, dependencies⟩ => return some (value, dependencies)
  | _ => return none

/-- One value from each of several expressions; nothing if one of them has none. -/
def extractEach (lookup : Lookup) (expecting : String) : List String → Resolve (Option Extraction)
  | [] => return some {}
  | expression :: rest => do
    match ← extractOne lookup expecting expression with
    | none => return none
    | some (value, dependencies) =>
      match ← extractEach lookup expecting rest with
      | none => return none
      | some others => return some (Extraction.single value dependencies ++ others)

/-- The four expressions of insets: three up to a slash each, and what is left with all its slashes. -/
def insetParts (raw : String) : List String :=
  match words (Text.withoutSpaces raw) with
  | a :: b :: c :: d :: rest => [a, b, c, ofWords (d :: rest)]
  | parts => parts

/-- The values of four expressions between slashes. -/
def extractInsets (lookup : Lookup) (expecting raw : String) : Resolve (Option Extraction) := do
  match ← extractEach lookup expecting (insetParts raw) with
  | some read =>
    if read.values.length = 4 then return some read
    else reject (.malformedInsets expecting raw)
  | none => reject (.malformedInsets expecting raw)

/-- The finite number that a value is; truth values are none. -/
def finiteNumber? : Json → Option Float
  | .int n => Number.ofInt? n
  | .float x _ => if x.isFinite then some x else none
  | _ => none

/-- The one value of a number or an expression. -/
def extractOneJson (lookup : Lookup) (expecting : String) (value : Json) :
    Resolve (Option (Float × List Dependency)) :=
  match value with
  | .string expression => extractOne lookup expecting expression
  | value => return (finiteNumber? value).map (·, [])

/-- One value from each item of a list; nothing if one of them has none. -/
def extractItems (lookup : Lookup) (expecting : String) : List Json → Resolve (Option Extraction)
  | [] => return some {}
  | item :: rest => do
    match ← extractOneJson lookup expecting item with
    | none => return none
    | some (value, dependencies) =>
      match ← extractItems lookup expecting rest with
      | none => return none
      | some others => return some (Extraction.single value dependencies ++ others)

/-- The values of a list, an expression or a single number: as many as requested, or all. -/
def extractJson (lookup : Lookup) (expecting : String) (value : Json) (requested : Option Int) :
    Resolve (Option Extraction) := do
  let read ← match value with
    | .list items => extractItems lookup expecting items
    | .string expression => extract lookup expecting (Text.withoutSpaces expression) requested
    | value => pure ((finiteNumber? value).map fun number => Extraction.single number [])
  match read with
  | none => return none
  | some read =>
    if requested.any fun count => (read.values.length : Int) ≠ count then return none
    else return some read

/-- The value that the text of a metric stands for. A metric without text stands for none. -/
def compute (lookup : Lookup) (name expression : String) : Resolve (Option Float) := do
  if expression.isEmpty then return none
  else
    match ← extractOne lookup "extracting a metric" expression with
    | none => return none
    | some (value, dependencies) =>
      dependOn .metric name dependencies
      return some value

end Metric

/-- How many names of a mapping are not among those under way. -/
def Mapping.idle {α : Type} (m : Mapping α) (underWay : List String) : Nat :=
  (m.keys.filter fun name => name ∉ underWay).length

theorem Mapping.idle_cons_lt {α : Type} {m : Mapping α} {underWay : List String} {name : String}
    {entry : α} (hfound : m.find? name = some entry) (hidle : name ∉ underWay) :
    m.idle (name :: underWay) < m.idle underWay := by
  have hmem : name ∈ m.keys := Mapping.find?_isSome_iff.1 (by simp [hfound])
  have hsub : m.keys.filter (fun n => n ∉ name :: underWay) =
      (m.keys.filter fun n => n ∉ underWay).filter fun n => n ≠ name := by
    rw [List.filter_filter]
    congr 1
    funext n
    simp [not_or]
  unfold Mapping.idle
  rw [hsub]
  refine List.length_filter_lt_length_iff_exists.2 ⟨name, ?_, by simp⟩
  simp [hmem, hidle]

/-- The value of a metric while others are under way; none if there is no such metric. -/
def resolveMetric (metrics : Mapping String) (underWay : List String) (name : String) :
    Resolve (Option Float) :=
  match _hfound : metrics.find? name with
  | none => return none
  | some expression =>
    if _hidle : name ∈ underWay then
      some <$> memoized .metric name expression true (return none)
    else
      let lookup : Metric.Lookup := fun other => do
        match ← resolveMetric metrics (name :: underWay) other with
        | none => return .missing
        | some _ =>
          match (← Resolve.cell .metric other).memo.value? with
          | some value => return .found value
          | none => return .invalid
      some <$> memoized .metric name expression false (Metric.compute lookup name expression)
termination_by metrics.idle underWay
decreasing_by exact Mapping.idle_cons_lt _hfound _hidle

/-- How names are looked up where no metric is under way. -/
def Metric.lookup (metrics : Mapping String) : Metric.Lookup := fun name => do
  match ← resolveMetric metrics [] name with
  | none => return .missing
  | some _ =>
    match (← Resolve.cell .metric name).memo.value? with
    | some value => return .found value
    | none => return .invalid

theorem resolveMetric_missing {metrics : Mapping String} {underWay : List String} {name : String}
    (h : metrics.find? name = none) : resolveMetric metrics underWay name = pure none := by
  rw [resolveMetric]
  split
  · rfl
  · simp_all

end DesignTokens
