import DesignTokens.Kind

/-!
# Memo cells

Every entry has one cell. It is empty at first, and once the entry has been resolved it holds a value for
good: the resolved one, or the sentinel that stands for an entry that cannot be resolved. Beside the value
the cell lists what the computation used.

Validity and being loaded are one choice of three here, so that a valid cell cannot be empty.

* `Memo.isLoaded_of_isValid` — what is valid is loaded.
* `Cell.settle_memo` — a computation ends in a valid value or in the sentinel.
-/

namespace DesignTokens

/-- What a cell remembers. -/
inductive Memo (α : Type) where
  | empty
  | valid (value : α)
  | invalid (sentinel : α)
  deriving DecidableEq, Repr

namespace Memo

variable {α : Type}

/-- The value that a later request gets. -/
def payload? : Memo α → Option α
  | .empty => none
  | .valid value => some value
  | .invalid sentinel => some sentinel

def isLoaded (m : Memo α) : Bool := m.payload?.isSome

def isValid : Memo α → Bool
  | .valid _ => true
  | _ => false

/-- The value of a valid cell. -/
def value? : Memo α → Option α
  | .valid value => some value
  | _ => none

/-- What is remembered of a payload; without payload nothing is. -/
def of (payload : Option α) (valid : Bool) : Memo α :=
  match payload with
  | none => .empty
  | some value => if valid then .valid value else .invalid value

/-- The state of a cell in words. -/
def description : Memo α → String
  | .empty => "ResolutionCache(empty)"
  | .valid _ => "ResolutionCache(valid)"
  | .invalid _ => "ResolutionCache(invalid)"

theorem isLoaded_of_isValid {m : Memo α} (h : m.isValid = true) : m.isLoaded = true := by
  cases m <;> simp_all [isValid, isLoaded, payload?]

theorem isLoaded_eq_false_iff {m : Memo α} : m.isLoaded = false ↔ m = .empty := by
  cases m <;> simp [isLoaded, payload?]

end Memo

structure Cell (α : Type) where
  memo : Memo α := .empty
  /-- What was used so far, in order, and again for each use. -/
  dependencies : List Dependency := []

namespace Cell

variable {α : Type}

/-- The cell of an entry that was never resolved. -/
def fresh : Cell α := {}

def dependOn (c : Cell α) (dependencies : List Dependency) : Cell α :=
  { c with dependencies := c.dependencies ++ dependencies }

/-- The cell after a computation: its result is valid, and without a result the sentinel is put there. A
cell without sentinel stays empty then. -/
def settle (c : Cell α) (sentinel result : Option α) : Cell α :=
  { c with memo := match result with
    | some value => .valid value
    | none => .of sentinel false }

theorem settle_memo (c : Cell α) (sentinel result : Option α) :
    (c.settle sentinel result).memo.payload? = result.or sentinel := by
  cases result <;> cases sentinel <;> rfl

theorem settle_dependencies (c : Cell α) (sentinel result : Option α) :
    (c.settle sentinel result).dependencies = c.dependencies := rfl

end Cell

end DesignTokens
