import DesignTokens.Notice
import DesignTokens.Resolution.Cell

/-!
# A cell on its own

A session drives one cell through requests whose computations follow a script: requests to the same cell and
dependencies, in any order, and at last a result or an exception. How a script goes on after a request may hang
on the answer. Another party may publish a payload while the cell's lock is taken. The computation of a cell that
is resolving is never entered a second time.

* `request_loaded` — a loaded cell answers at once, and nothing changes.
* `request_resolving` — so does a cell that is resolving, with the sentinel.
-/

namespace DesignTokens

/-- What a computation does; it ends with a value, with none or with an exception. After a request it goes on
with the answer. -/
inductive Script (α : Type) where
  | finish (result : Except String (Option α))
  | depend (dependency : Dependency) (rest : Script α)
  | request (inner : Script α) (next : Option α → Script α)

instance {α : Type} : Inhabited (Script α) := ⟨.finish (.ok none)⟩

/-- A request whose answer is not looked at. -/
def Script.reenter {α : Type} (inner rest : Script α) : Script α := .request inner fun _ => rest

/-- What a request leads to besides its answer. -/
inductive Trace (α : Type) where
  | computed
  | reentered (answer : Option α)

/-- A cell, and whether its computation is under way. -/
structure Session (α : Type) where
  cell : Cell α := .fresh
  resolving : Bool := false

/-- The answer of a request, the session after it, what it led to and the notices given. -/
structure Session.Outcome (α : Type) where
  answer : Except String (Option α)
  session : Session α
  trace : List (Trace α) := []
  notices : List Notice := []

namespace Session

variable {α : Type}

/-- Puts a payload into the cell. -/
def set (s : Session α) (payload : Option α) (valid : Bool) : Session α :=
  { s with cell := { s.cell with memo := .of payload valid } }

def dependOn (s : Session α) (dependencies : List Dependency) : Session α :=
  { s with cell := s.cell.dependOn dependencies }

/-- The session after another party has published a payload, valid or not. -/
def publish (s : Session α) (published : Option (α × Bool)) : Session α :=
  match published with
  | some (payload, valid) => s.set (some payload) valid
  | none => s

/-- The outcome of a computation that was entered in this session. -/
def conclude (sentinel : Option α) (inside : Outcome α) : Outcome α :=
  { inside with
    trace := .computed :: inside.trace
    answer := inside.answer.map (·.or sentinel)
    session := match inside.answer with
      | .ok value => ⟨inside.session.cell.settle sentinel value, false⟩
      | .error _ => { inside.session with resolving := false } }

/-- A request for the value of the cell; `compute` is run if there is none and it is not being made. -/
def request (published : Option (α × Bool)) (sentinel : Option α) (label : String)
    (compute : Session α → Outcome α) (s : Session α) : Outcome α :=
  match s.cell.memo.payload? with
  | some value => { answer := .ok (some value), session := s }
  | none =>
    let s := s.publish published
    match s.cell.memo.payload? with
    | some value => { answer := .ok (some value), session := s }
    | none =>
      if s.resolving then
        { answer := .ok sentinel, session := s, notices := [.cyclicReference label] }
      else conclude sentinel (compute { s with resolving := true })

/-- The outcome of what comes after a request inside a computation. -/
def followedBy (o : Outcome α) (rest : Option α → Session α → Outcome α) : Outcome α :=
  match o.answer with
  | .error _ => o
  | .ok answer =>
    let last := rest answer o.session
    { last with
      trace := o.trace ++ .reentered answer :: last.trace
      notices := o.notices ++ last.notices }

/-- A computation by its script. -/
def run (sentinel : Option α) (label : String) : Script α → Session α → Outcome α
  | .finish result, s => { answer := result, session := s }
  | .depend dependency rest, s => run sentinel label rest (s.dependOn [dependency])
  | .request inner next, s =>
    followedBy (request none sentinel label (run sentinel label inner) s) fun answer =>
      run sentinel label (next answer)

/-- A request whose computation follows a script. -/
def perform (s : Session α) (published : Option (α × Bool)) (sentinel : Option α) (label : String)
    (script : Script α) : Outcome α :=
  request published sentinel label (run sentinel label script) s

/-- Such a request, during which another party may publish a value that is valid. -/
def resolve (s : Session α) (published sentinel : Option α) (label : String) (script : Script α) :
    Outcome α :=
  s.perform (published.map (·, true)) sentinel label script

theorem request_loaded {s : Session α} {published : Option (α × Bool)} {sentinel : Option α} {label : String}
    {compute : Session α → Outcome α} {value : α} (h : s.cell.memo.payload? = some value) :
    request published sentinel label compute s = { answer := .ok (some value), session := s } := by
  simp [request, h]

theorem request_resolving {s : Session α} {sentinel : Option α} {label : String}
    {compute : Session α → Outcome α} (hempty : s.cell.memo.payload? = none) (h : s.resolving = true) :
    request none sentinel label compute s =
      { answer := .ok sentinel, session := s, notices := [.cyclicReference label] } := by
  simp [request, publish, hempty, h]

end Session

end DesignTokens
