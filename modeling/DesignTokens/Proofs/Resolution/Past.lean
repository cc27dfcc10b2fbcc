import DesignTokens.Proofs.Resolution.Failure
import DesignTokens.Proofs.Resolution.Outcome

/-!
# What a call does not know

A brand keeps the cells of its document from call to call, but each call starts a history of its own. Nothing that a
call does depends on what happened before it, except for the cells: with a longer history it does the same and adds
the same to it (`Reading.resolve?_after`). So what is known of states that requests lead to from a fresh document is
also known of their cells alone (`Reading.Trusts`), and a request from such cells finds an entry valid exactly if it
is valid by itself.

* `Reading.Trusts.request` — what a request from such cells comes to.
* `Reading.resolve_alone` — what the same entry comes to in a fresh document.
-/

namespace DesignTokens

open Resolve

/-- The state with more history before it. -/
def Progress.after (p : Progress) (past : List Event) : Progress := { p with history := p.history ++ past }

/-- A result in such a state. -/
def Resolve.withPast {α : Type} (past : List Event) :
    EStateM.Result Fault Progress α → EStateM.Result Fault Progress α
  | .ok x p => .ok x (p.after past)
  | .error fault p => .error fault (p.after past)

/-- A cell that is looked at after a request answers with a value exactly if it is valid. -/
theorem Answer.isFound_of_some {α : Type} (value : α) (memo : Memo α) :
    (Answer.of (some value) memo).IsFound ↔ memo.isValid = true := by
  cases memo <;> simp [Memo.isValid, Answer.of, Memo.value?]

namespace Reading

variable {r : Reading} {a : Asset} {name : String} {p p' : Progress}

/-- A task does the same after more history. -/
theorem Runs.after {task : Task a} {result : EStateM.Result Fault Progress (Option a.Value)}
    (h : r.Runs a task p result) (past : List Event) : r.Runs a task (p.after past) (withPast past result) := by
  induction h with
  | missing hentry => exact .missing hentry
  | cached hentry hmemo => exact .cached hentry hmemo
  | cyclic hentry hmemo hunder => exact .cyclic hentry hmemo hunder
  | @computed a underWay name p p₁ entry result hentry hmemo hunder _ ih =>
    have hrun : r.Runs a (.inquiry underWay name (r.plan a name entry)) ((p.after past).record (.started a name))
        (.ok result (p₁.after past)) := ih
    have hsame : ((p.after past).cell a name).memo.payload? = none := hmemo
    exact .computed hentry hsame hunder hrun
  | @aborted a underWay name p p₁ entry fault hentry hmemo hunder _ ih =>
    have hrun : r.Runs a (.inquiry underWay name (r.plan a name entry)) ((p.after past).record (.started a name))
        (.error fault (p₁.after past)) := ih
    have hsame : ((p.after past).cell a name).memo.payload? = none := hmemo
    exact .aborted hentry hsame hunder hrun
  | done => exact .done
  | fail => exact .fail
  | note _ ih => exact .note ih
  | use _ ih => exact .use ih
  | ask hmay _ _ ihasked ihrun => exact .ask hmay ihasked ihrun
  | askAborted hmay _ ihasked => exact .askAborted hmay ihasked

theorem resolve?_after (r : Reading) (a : Asset) (name : String) (p : Progress) (past : List Event) :
    r.resolve? a name (p.after past) = withPast past (r.resolve? a name p) := by
  have hrun := ((r.runs_request a [] name p).after past).run_eq
  rwa [Task.run, request_nil] at hrun

theorem Reaches.after (h : r.Reaches p p') (past : List Event) : r.Reaches (p.after past) (p'.after past) := by
  induction h with
  | refl p => exact .refl _
  | notice n _ ih => exact .notice n ih
  | @request p p₁ p' a name x hrequest _ ih =>
    have hrequest' : r.resolve? a name (p.after past) = .ok x (p₁.after past) := by
      rw [resolve?_after, hrequest]
      rfl
    exact .request hrequest' ih

/-- The state is one that requests lead to from a fresh document, but for what happened before. -/
def Trusts (r : Reading) (p : Progress) : Prop :=
  ∃ past, (p.after past).Rests ∧ Usage.Sound { reading := r } (p.after past)

namespace Trusts

theorem start (r : Reading) : r.Trusts {} := ⟨[], .start, .start .start⟩

theorem reaches (h : r.Trusts p) (hreaches : r.Reaches p p') : r.Trusts p' := by
  obtain ⟨past, hrests, hsound⟩ := h
  exact ⟨past, (hreaches.after past).sound (u := { reading := r }) hrests hsound⟩

/-- All that counts are cells. -/
theorem forget (h : r.Trusts p) : r.Trusts { store := p.store } := by
  obtain ⟨past, hrests, hsound⟩ := h
  exact ⟨p.history ++ past, hrests, hsound⟩

/-- An entry that is requested without a fault is valid exactly if the meaning of the document finds a value for it,
and its questions lead to no fault. -/
theorem request (h : r.Trusts p) {entry : a.kind.Entry} (hentry : r.document.entry? a.kind name = some entry)
    {x : Option a.Value} (hrequest : r.resolve? a name p = .ok x p') :
    ((p'.cell a name).memo.isValid = true ↔ (Usage.meaning { reading := r } a name).IsFound) ∧
      ¬ Usage.Faulty { reading := r } a name := by
  obtain ⟨past, hrests, hsound⟩ := h
  have hexact := Usage.resolve?_exact (u := { reading := r }) hrests hsound a name
  have hrequest' : r.resolve? a name (p.after past) = .ok x (p'.after past) := by
    rw [resolve?_after, hrequest]
    rfl
  rw [hrequest'] at hexact
  obtain ⟨hsound', hmet, hanswer⟩ := hexact
  refine ⟨?_, hsound'.not_faulty (hrests.requested hrequest').1.idle hmet⟩
  cases x with
  | none => exact absurd hanswer.symm (Usage.meaning_ne_missing hentry)
  | some value =>
    rw [← hanswer, Answer.isFound_of_some]
    rfl

end Trusts

/-- An entry without faults, resolved in a fresh document, is valid exactly if its meaning finds a value. -/
theorem resolve_alone {entry : a.kind.Entry} (hentry : r.document.entry? a.kind name = some entry)
    (hfaulty : ¬ Usage.Faulty { reading := r } a name) :
    ∃ value p', r.resolve a name {} = .ok value p' ∧
      ((p'.cell a name).memo.isValid = true ↔ (Usage.meaning { reading := r } a name).IsFound) := by
  obtain ⟨value, p', hresolve, -, -, hanswer⟩ :=
    Usage.resolve_answer (u := { reading := r }) .start hentry hfaulty
  refine ⟨value, p', hresolve, ?_⟩
  rw [← hanswer, Answer.isFound_of_some]

end Reading

end DesignTokens
