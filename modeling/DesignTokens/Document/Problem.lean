import DesignTokens.Kind
import DesignTokens.Text.Half

/-!
# Decode problems

Decoding reports every problem it finds, each at its place: the names and positions that lead to it from
the top of the data. `Checked` is a value or such a list, and joining two checked values keeps the problems
of both, in order.

* `Checked.pair_eq_ok_iff` — a pair decodes exactly if both its parts do.
* `Checked.below_eq_ok_iff` — where a problem lies does not matter for whether there is one.
-/

namespace DesignTokens

/-- A step on the way to a problem. -/
inductive Step where
  | name (name : String)
  | index (index : Int)
  deriving DecidableEq, Repr

/-- A rule of the library that data breaks. -/
inductive Rule where
  | spaceInName (kind : Kind) (name : String)
  | duplicateName (kind : Kind) (name group : String)
  | unknownRelation (text : String)
  | unknownRenderMode (text : String)
  | imageSource
  | unknownLogLevel
  | emptyFileName
  deriving DecidableEq, Repr

/-- The wording of a broken rule, with the names in it as they are. -/
def Rule.wording : Rule → String
  | .spaceInName .metric name =>
    "The coding key \"" ++ name ++ "\" containing this metric entry may not contain spaces."
  | .spaceInName .customParameters name =>
    "The coding key \"" ++ name ++ "\" containing this custom parameter entry may not contain spaces."
  | .spaceInName _ name => "The coding key \"" ++ name ++ "\" containing this entry may not contain spaces."
  | .duplicateName kind name group =>
    "Found duplicate " ++ kind.name ++ " keys \"" ++ name ++ "\" while merging group \"" ++ group ++ "\""
  | .unknownRelation text => "No layout relation recognised from value \"" ++ text ++ "\""
  | .unknownRenderMode text => "Cannot reconstruct render mode from \"" ++ text ++ "\""
  | .imageSource =>
    "Must have one and only one of 'basedOn', 'filePath' and 'makeBackground' keys present."
  | .unknownLogLevel => "log_level must be one of DEBUG, INFO, WARNING, ERROR, CRITICAL"
  | .emptyFileName => "file_name must not be empty"

/-- The wording of a broken rule, which is Unicode text. -/
def Rule.message (rule : Rule) : String := Text.lossy rule.wording

/-- What is wrong with a piece of data. -/
inductive Mismatch where
  | notJson
  | notRecord
  | notMapping
  | notList
  | notString
  /-- Text with half a surrogate pair in it, or bytes that are no text. -/
  | notUnicode
  | notChoice
  | missing
  | notInteger
  | integerText
  | integerRange
  | integerFraction
  | notFinite
  | notNumber
  | numberText
  | notFlag
  | flagValue
  | notJsonValue
  | notPath
  | unknownField
  /-- Data inside itself, or too deep inside other data. -/
  | endless
  | broken (rule : Rule)
  deriving DecidableEq, Repr

/-- A mismatch and its place. -/
structure Problem where
  place : List Step
  mismatch : Mismatch
  deriving DecidableEq, Repr

/-- A value, or all problems on the way to it. -/
inductive Checked (α : Type) where
  | ok (value : α)
  | failed (problems : List Problem)

namespace Checked

variable {α β γ : Type}

/-- A single problem here. -/
def fail (mismatch : Mismatch) : Checked α := .failed [⟨[], mismatch⟩]

def map (f : α → β) : Checked α → Checked β
  | .ok value => .ok (f value)
  | .failed problems => .failed problems

/-- Both values, or the problems of both. -/
def pair : Checked α → Checked β → Checked (α × β)
  | .ok a, .ok b => .ok (a, b)
  | .ok _, .failed problems => .failed problems
  | .failed problems, .ok _ => .failed problems
  | .failed problems, .failed others => .failed (problems ++ others)

/-- A further step that needs the value. -/
def andThen (c : Checked α) (f : α → Checked β) : Checked β :=
  match c with
  | .ok value => f value
  | .failed problems => .failed problems

/-- The same one step further down. -/
def below (step : Step) : Checked α → Checked α
  | .ok value => .ok value
  | .failed problems => .failed (problems.map fun p => { p with place := step :: p.place })

instance : Functor Checked where
  map := map

instance : Applicative Checked where
  pure := .ok
  seq f x := (f.pair (x ())).map fun (f, x) => f x

/-- All values, or the problems of all. -/
def all : List (Checked α) → Checked (List α)
  | [] => .ok []
  | c :: rest => (c.pair (all rest)).map fun (value, values) => value :: values

theorem pair_eq_ok_iff {a : Checked α} {b : Checked β} {x : α} {y : β} :
    a.pair b = .ok (x, y) ↔ a = .ok x ∧ b = .ok y := by
  cases a <;> cases b <;> simp [pair]

theorem map_eq_ok_iff {c : Checked α} {f : α → β} {y : β} :
    c.map f = .ok y ↔ ∃ x, c = .ok x ∧ f x = y := by
  cases c <;> simp [map]

theorem below_eq_ok_iff {c : Checked α} {step : Step} {x : α} : c.below step = .ok x ↔ c = .ok x := by
  cases c <;> simp [below]

theorem andThen_eq_ok_iff {c : Checked α} {f : α → Checked β} {y : β} :
    c.andThen f = .ok y ↔ ∃ x, c = .ok x ∧ f x = .ok y := by
  cases c <;> simp [andThen]

theorem all_eq_ok_iff {cs : List (Checked α)} {xs : List α} :
    all cs = .ok xs ↔ cs = xs.map .ok := by
  induction cs generalizing xs with
  | nil => cases xs <;> simp [all]
  | cons c rest ih =>
    simp only [all, map_eq_ok_iff, Prod.exists, pair_eq_ok_iff, ih]
    cases xs with
    | nil => simp
    | cons x xs =>
      constructor
      · rintro ⟨a, b, ⟨rfl, rfl⟩, h⟩
        simp_all
      · intro h
        simp only [List.map_cons, List.cons.injEq] at h
        exact ⟨x, xs, ⟨h.1, h.2⟩, rfl⟩

end Checked

end DesignTokens
