import DesignTokens.Resolution.Session

/-!
# The protocol of a cell

A cell that is used by itself goes through operations: payloads are put into it, dependencies are added, and it is
requested from outside, with a computation that may request it again. Requests from outside find a cell that is not
resolving, however many operations have gone before and however they have ended. Inside a computation the cell stays
empty, so that its own requests are refused there and then, at every depth; what it comes to can be read off its
script, where every such request is answered with the sentinel.

* `Session.run_resolving` — a computation and the requests inside it.
* `Session.request_entered` — a request that enters the computation.
* `Session.keeps_protocol` — requests from outside, after any operations.
-/

namespace DesignTokens

variable {α : Type}

namespace Script

/-! ### What a script says, if its requests are answered with the sentinel -/

/-- The dependencies it adds itself. Those of the computations that it hands to its requests are not among them. -/
def recorded (sentinel : α) : Script α → List Dependency
  | .finish _ => []
  | .depend dependency rest => dependency :: rest.recorded sentinel
  | .request _ next => (next (some sentinel)).recorded sentinel

/-- How many requests it makes. -/
def requests (sentinel : α) : Script α → Nat
  | .finish _ => 0
  | .depend _ rest => rest.requests sentinel
  | .request _ next => (next (some sentinel)).requests sentinel + 1

/-- How it ends. -/
def result (sentinel : α) : Script α → Except String (Option α)
  | .finish result => result
  | .depend _ rest => rest.result sentinel
  | .request _ next => (next (some sentinel)).result sentinel

end Script

namespace Session

/-! ### Inside a computation -/

theorem dependOn_nil (s : Session α) : s.dependOn [] = s := by
  simp [dependOn, Cell.dependOn]

theorem dependOn_dependOn (s : Session α) (earlier later : List Dependency) :
    (s.dependOn earlier).dependOn later = s.dependOn (earlier ++ later) := by
  simp [dependOn, Cell.dependOn]

/-- While a cell is resolving, a script does nothing but add its dependencies: its requests get the sentinel at once,
and the computations that they come with are not entered. -/
theorem run_resolving (sentinel : α) (label : String) (script : Script α) {s : Session α}
    (hempty : s.cell.memo.payload? = none) (hresolving : s.resolving = true) :
    run (some sentinel) label script s =
      { answer := script.result sentinel
        session := s.dependOn (script.recorded sentinel)
        trace := .replicate (script.requests sentinel) (.reentered (some sentinel))
        notices := .replicate (script.requests sentinel) (.cyclicReference label) } := by
  induction script generalizing s with
  | finish result =>
    rw [run, Script.recorded, dependOn_nil]
    rfl
  | depend dependency rest ih =>
    have hrest := ih (s := s.dependOn [dependency]) hempty hresolving
    rw [run, hrest, dependOn_dependOn]
    rfl
  | request inner next _ ih =>
    rw [run, request_resolving hempty hresolving, followedBy]
    dsimp only
    rw [ih (some sentinel) hempty hresolving]
    rfl

/-! ### Requests from outside -/

/-- A payload that is published while the lock is taken is returned, and nothing else happens. -/
theorem request_published {s : Session α} {sentinel : Option α} {label : String}
    {compute : Session α → Outcome α} {payload : α} {valid : Bool} (h : s.cell.memo.payload? = none) :
    request (some (payload, valid)) sentinel label compute s =
      { answer := .ok (some payload), session := s.set (some payload) valid } := by
  have hpublished : (s.set (some payload) valid).cell.memo.payload? = some payload := by cases valid <;> rfl
  simp only [request, h, publish, hpublished]

/-- A request that finds no payload enters the computation, once. -/
theorem request_entered {s : Session α} {sentinel : α} {label : String} {script : Script α}
    (hempty : s.cell.memo.payload? = none) (hidle : s.resolving = false) :
    s.perform none (some sentinel) label script =
      { answer := (script.result sentinel).map (·.or (some sentinel))
        session := {
          cell := match script.result sentinel with
            | .ok result => (s.cell.dependOn (script.recorded sentinel)).settle (some sentinel) result
            | .error _ => s.cell.dependOn (script.recorded sentinel) }
        trace := .computed :: .replicate (script.requests sentinel) (.reentered (some sentinel))
        notices := .replicate (script.requests sentinel) (.cyclicReference label) } := by
  have hrun := run_resolving sentinel label script (s := { s with resolving := true }) hempty rfl
  simp only [perform, request, publish, hempty, hidle, Bool.false_eq_true, if_false, hrun, conclude]
  cases script.result sentinel <;> rfl

/-! ### Operations in any order -/

/-- What may be done to a cell from outside. -/
inductive Action (α : Type) where
  | set (payload : Option α) (valid : Bool)
  | dependOn (dependencies : List Dependency)
  /-- A request, during which another party may publish a payload. -/
  | resolve (published : Option (α × Bool)) (sentinel : α) (label : String) (script : Script α)

/-- The session after something was done. -/
def act (s : Session α) : Action α → Session α
  | .set payload valid => s.set payload valid
  | .dependOn dependencies => s.dependOn dependencies
  | .resolve published sentinel label script => (s.perform published (some sentinel) label script).session

/-- Requests leave a cell that is not resolving, even if their computation ends with an exception. -/
theorem resolving_resolve {s : Session α} (h : s.resolving = false) (published : Option (α × Bool)) (sentinel : α)
    (label : String) (script : Script α) :
    (s.perform published (some sentinel) label script).session.resolving = false := by
  cases hpayload : s.cell.memo.payload? with
  | some value => rw [perform, request_loaded hpayload, h]
  | none =>
    cases published with
    | some value => rw [perform, request_published hpayload]; exact h
    | none => rw [request_entered hpayload h]

theorem resolving_act {s : Session α} (h : s.resolving = false) (action : Action α) :
    (s.act action).resolving = false := by
  cases action with
  | set payload valid => exact h
  | dependOn dependencies => exact h
  | resolve published sentinel label script => exact resolving_resolve h ..

theorem resolving_actions {s : Session α} (h : s.resolving = false) (actions : List (Action α)) :
    (actions.foldl act s).resolving = false := by
  induction actions generalizing s with
  | nil => exact h
  | cons action rest ih => exact ih (resolving_act h action)

/-- What a request that enters the computation comes to: a trace of one computation, in which every request was
refused, the dependencies that the computation has added, and a cell that has been settled, unless the computation
ended with an exception. -/
def Enters (s : Session α) (sentinel : α) (script : Script α) (o : Outcome α) : Prop :=
  o.trace = .computed :: .replicate (script.requests sentinel) (.reentered (some sentinel)) ∧
    o.session.cell.dependencies = s.cell.dependencies ++ script.recorded sentinel ∧
    match script.result sentinel with
    | .ok (some value) => o.answer = .ok (some value) ∧ o.session.cell.memo = .valid value
    | .ok none => o.answer = .ok (some sentinel) ∧ o.session.cell.memo = .invalid sentinel
    | .error exception => o.answer = .error exception ∧ o.session.cell.memo = s.cell.memo

/-- What a request comes to: the payload that is there before or after the lock is taken, in a cell that is left as
it is then, or an entered computation. -/
def Answers (s : Session α) (published : Option (α × Bool)) (sentinel : α) (script : Script α) (o : Outcome α) : Prop :=
  match s.cell.memo.payload?, published with
  | some payload, _ => o = { answer := .ok (some payload), session := s }
  | none, some (payload, valid) => o = { answer := .ok (some payload), session := s.set (some payload) valid }
  | none, none => s.Enters sentinel script o

/-- After any operations on a new cell, whatever computations they came with, the cell is not resolving, it is loaded
if it is valid, and a request returns the payload that it finds or enters its computation once. -/
theorem keeps_protocol (actions : List (Action α)) (published : Option (α × Bool)) (sentinel : α) (label : String)
    (script : Script α) :
    let s := actions.foldl act {}
    s.resolving = false ∧ (s.cell.memo.isValid = true → s.cell.memo.isLoaded = true) ∧
      s.Answers published sentinel script (s.perform published (some sentinel) label script) := by
  intro s
  have hidle : s.resolving = false := resolving_actions rfl actions
  refine ⟨hidle, Memo.isLoaded_of_isValid, ?_⟩
  cases hpayload : s.cell.memo.payload? with
  | some value => simp only [Answers, hpayload, perform, request_loaded hpayload]
  | none =>
    cases published with
    | some value => simp only [Answers, hpayload, perform, request_published hpayload]
    | none =>
      simp only [Answers, hpayload, Enters, request_entered hpayload hidle, true_and]
      cases hresult : script.result sentinel with
      | error exception => exact ⟨rfl, rfl, rfl⟩
      | ok result => cases result <;> exact ⟨rfl, rfl, rfl⟩

end Session

end DesignTokens
