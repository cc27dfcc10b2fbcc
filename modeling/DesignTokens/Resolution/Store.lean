import DesignTokens.Asset
import DesignTokens.Document.Dump
import DesignTokens.Font.Catalog
import DesignTokens.Mapping
import DesignTokens.Notice
import DesignTokens.Resolution.Cell

/-!
# The state of resolution

Resolving reads a document in its surroundings and changes two things: the cells of the entries, and the
history of what happened, in which a computation starts, is settled, and gives notices in between. A call
may also end in a fault; the cells then keep what they were told so far.

`memoized` is the one way into a cell. It answers from a loaded cell, refuses to enter a computation that is
under way, and otherwise computes once and settles the result.

* `Store.cell_modify_same`, `Store.cell_modify_other` — a cell changes alone.
-/

namespace DesignTokens

/-- The cells of all assets, by name. Names without a cell have a fresh one. -/
structure Store where
  metrics : Mapping (Cell Float) := ∅
  colors : Mapping (Cell Color) := ∅
  fonts : Mapping (Cell Font) := ∅
  textAttributes : Mapping (Cell TextAttributes) := ∅
  images : Mapping (Cell Image) := ∅
  buttonStyles : Mapping (Cell ButtonStyle) := ∅

namespace Store

/-- The cells of one asset. -/
def shelf (s : Store) : (a : Asset) → Mapping (Cell a.Value)
  | .metric => s.metrics
  | .color => s.colors
  | .font => s.fonts
  | .textAttributes => s.textAttributes
  | .image => s.images
  | .buttonStyle => s.buttonStyles

def setShelf (s : Store) : (a : Asset) → Mapping (Cell a.Value) → Store
  | .metric, cells => { s with metrics := cells }
  | .color, cells => { s with colors := cells }
  | .font, cells => { s with fonts := cells }
  | .textAttributes, cells => { s with textAttributes := cells }
  | .image, cells => { s with images := cells }
  | .buttonStyle, cells => { s with buttonStyles := cells }

/-- The cell of an entry. -/
def cell (s : Store) (a : Asset) (name : String) : Cell a.Value :=
  ((s.shelf a).find? name).getD .fresh

/-- The store with one cell changed. -/
def modify (s : Store) (a : Asset) (name : String) (f : Cell a.Value → Cell a.Value) : Store :=
  s.setShelf a ((s.shelf a).insert name (f (s.cell a name)))

theorem shelf_setShelf_same (s : Store) (a : Asset) (cells : Mapping (Cell a.Value)) :
    (s.setShelf a cells).shelf a = cells := by
  cases a <;> rfl

theorem shelf_setShelf_other (s : Store) {a b : Asset} (h : b ≠ a) (cells : Mapping (Cell a.Value)) :
    (s.setShelf a cells).shelf b = s.shelf b := by
  cases a <;> cases b <;> first | rfl | exact absurd rfl h

theorem cell_modify_same (s : Store) (a : Asset) (name : String) (f : Cell a.Value → Cell a.Value) :
    (s.modify a name f).cell a name = f (s.cell a name) := by
  simp [modify, cell, shelf_setShelf_same, Mapping.find?_insert]

theorem cell_modify_other (s : Store) {a b : Asset} {name other : String} (f : Cell a.Value → Cell a.Value)
    (h : b ≠ a ∨ other ≠ name) : (s.modify a name f).cell b other = s.cell b other := by
  by_cases hb : b = a
  · subst hb
    have hn : other ≠ name := h.resolve_left (fun hne => hne rfl)
    simp [modify, cell, shelf_setShelf_same, Mapping.find?_insert, hn]
  · simp [modify, cell, shelf_setShelf_other s hb]

end Store

/-- What happens while a document is used. -/
inductive Event where
  /-- The computation of an entry begins. -/
  | started (asset : Asset) (name : String)
  /-- The result of a computation is put into the cell of the entry. -/
  | settled (asset : Asset) (name : String) (valid : Bool)
  | noticed (notice : Notice)

/-- The cells, and what has happened, newest first. -/
structure Progress where
  store : Store := {}
  history : List Event := []

namespace Progress

/-- The notices given, oldest first. -/
def notices (p : Progress) : List Notice :=
  p.history.reverse.filterMap fun
    | .noticed notice => some notice
    | _ => none

end Progress

/-- What a document is resolved in: the folder of its image files, its fonts and the files in sight. -/
structure Surroundings where
  storage : Option Path
  catalog : Catalog
  files : Files

/-- A computation on the cells of a document. -/
abbrev Resolve := EStateM Fault Progress

namespace Resolve

def record (e : Event) : Resolve Unit :=
  modify fun p => { p with history := e :: p.history }

/-- Gives a notice. -/
def warn (n : Notice) : Resolve Unit := record (.noticed n)

/-- The cell of an entry. -/
def cell (a : Asset) (name : String) : Resolve (Cell a.Value) := do
  return (← get).store.cell a name

def modifyCell (a : Asset) (name : String) (f : Cell a.Value → Cell a.Value) : Resolve Unit :=
  modify fun p => { p with store := p.store.modify a name f }

/-- Adds to what the computation of an entry used. -/
def dependOn (a : Asset) (name : String) (dependencies : List Dependency) : Resolve Unit :=
  modifyCell a name (·.dependOn dependencies)

/-- A computation that needs no cells. -/
def lift {α : Type} : Except Fault α → Resolve α
  | .ok value => pure value
  | .error fault => throw fault

/-- Ends a computation without a result, for a given reason. -/
def reject {α : Type} (n : Notice) : Resolve (Option α) := do
  warn n
  return none

end Resolve

/-- An entry in words. -/
def Asset.label : (a : Asset) → a.kind.Entry → String
  | .metric, (expression : String) => "metric \"" ++ expression ++ "\""
  | .color, (raw : String) => "color \"" ++ raw ++ "\""
  | .font, entry => "font " ++ (FontEntry.toJson false entry).quoted
  | .textAttributes, entry => "text attributes " ++ (TextAttributesEntry.toJson false entry).quoted
  | .image, entry => "image " ++ (ImageEntry.toJson false entry).quoted
  | .buttonStyle, entry => "button style " ++ (ButtonStyleEntry.toJson false entry).quoted

open Resolve in
/-- The value of an entry: from its cell, or computed and put there. While the entry is `underWay` a
request comes from its own computation; it gets the sentinel and leaves the cell alone. -/
def memoized (a : Asset) (name : String) (entry : a.kind.Entry) (underWay : Bool)
    (compute : Resolve (Option a.Value)) : Resolve a.Value := do
  match (← cell a name).memo.payload? with
  | some value => return value
  | none =>
    if underWay then
      warn (.cyclicReference (a.label entry))
      return a.invalid
    else
      record (.started a name)
      let result ← compute
      modifyCell a name (·.settle (some a.invalid) result)
      record (.settled a name result.isSome)
      return result.getD a.invalid

open Resolve in
/-- The value of a referenced entry for another one, or a notice why there is none. `resolve` gives none
for a name without entry. -/
def fetch (a : Asset) (resolve : String → Resolve (Option a.Value)) (name key : String) (user : Kind) :
    Resolve (Option a.Value) := do
  match ← resolve name with
  | none => reject (.missingReference user key name)
  | some _ =>
    match (← cell a name).memo.value? with
    | some value => return some value
    | none => reject (.invalidReference user key name)

end DesignTokens
