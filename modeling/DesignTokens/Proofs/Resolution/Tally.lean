import DesignTokens.Proofs.Resolution.Failure
import DesignTokens.Proofs.Resolution.Foundation

/-!
# What one computation asks and records

The computation of an entry puts its questions while other entries are under way, and some answers are given while
those are half done. When it has returned, the cells of the document answer every question as it was answered then.
So what it has asked and what it has added to its cell are the findings of its inquiry with the answers of the cells
afterwards, in whatever state it began.

* `Inquiry.questions` — the questions that are put in a run.
* `Reading.request_tally` — the cell after a computation, and what the computation has asked.
-/

namespace DesignTokens

open Resolve

variable {α : Type}

/-- The questions that an inquiry puts to resolvers, in order, until it ends or a fault ends it. -/
def Inquiry.questions (q : Resolvers) : Inquiry α → Progress → List (Asset × String)
  | .done _, _ => []
  | .fail _, _ => []
  | .note notice rest, p => rest.questions q (p.record (.noticed notice))
  | .use a name dependencies rest, p => rest.questions q (p.modify a name (·.dependOn dependencies))
  | .ask a name next, p =>
    (a, name) :: match q.answer a name p with
      | .ok x p' => (next x).questions q p'
      | .error _ _ => []

namespace Reading

open Progress

variable {r : Reading} {a b : Asset} {underWay : List String} {name other : String} {entry : a.kind.Entry}
  {p p' : Progress}

theorem Runs.answer_eq {x : Option b.Value}
    (h : r.Runs b (.request (inside a (name :: underWay) b) other) p (.ok x p')) :
    (r.resolvers a (name :: underWay)).answer b other p = .ok (.of x (p'.cell b other).memo) p' := by
  have hrequest : r.resolvers a (name :: underWay) b other p = .ok x p' := h.run_eq
  rw [Resolvers.answer, bind_of_ok hrequest]
  rfl

/-- An inquiry that returns has asked its questions and recorded its dependencies in the cell of its entry. -/
theorem Runs.tally {rest : Inquiry (Option a.Value)} {x : Option a.Value} {asked : List (Asset × String)}
    {used before : List Dependency} (h : r.Runs a (.inquiry underWay name rest) p (.ok x p'))
    (hpartway : r.Partway underWay name entry rest p asked used)
    (hcell : (p.cell a name).dependencies = before ++ used) :
    ∃ used', r.Partway underWay name entry (.done x) p'
        (asked ++ rest.questions (r.resolvers a (name :: underWay)) p) used' ∧
      (p'.cell a name).dependencies = before ++ used' := by
  induction rest generalizing p asked used with
  | done value =>
    cases h
    rw [Inquiry.questions, List.append_nil]
    exact ⟨used, hpartway, hcell⟩
  | fail fault => cases h
  | note notice rest ih =>
    cases h with
    | note hrun => exact ih hrun hpartway.noted hcell
  | use b other dependencies rest ih =>
    cases h with
    | use hrun =>
      refine ih hrun hpartway.used ?_
      rw [cell_modify_same, Cell.dependOn, hcell, List.append_assoc]
  | ask b other next ih =>
    cases h with
    | @ask _ _ _ _ _ _ p₁ _ x₁ _ hmay hasked hrun =>
      have hown : p₁.cell a name = p.cell a name := hasked.keeps.own hmay
      obtain ⟨used', hdone, hcell'⟩ := ih _ hrun (hpartway.answered hmay hasked) (by rw [hown, hcell])
      refine ⟨used', ?_, hcell'⟩
      rw [List.append_assoc] at hdone
      rw [Inquiry.questions, hasked.answer_eq]
      exact hdone

/-- Once its entry is settled, the cells answer an inquiry as before. -/
theorem Partway.examine_settled {result : Option a.Value} {asked : List (Asset × String)} {used : List Dependency}
    (h : r.Partway underWay name entry (.done result) p asked used) :
    (r.plan a name entry).examine
        ((p.modify a name (·.settle (some a.invalid) result)).answers r.document) = ⟨.ok result, asked, used⟩ := by
  have hdone := h.done
  refine (Inquiry.examine_congr _ fun question hq => ?_).trans hdone
  by_cases hown : question.1 = a ∧ question.2 = name
  · obtain ⟨b, other⟩ := question
    obtain ⟨rfl, rfl⟩ := hown
    have hempty : (p.cell b other).memo = .empty := Memo.isLoaded_eq_false_iff.mp h.notLoaded
    rw [answers_present h.present b.invalid, answers_present h.present b.invalid, cell_modify_same, hempty]
    cases result with
    | none => rfl
    | some value =>
      -- an inquiry with a value has met with valid entries only, and its own entry is none
      obtain ⟨found, hfound⟩ := r.plan_earns b other entry (congrArg Findings.result hdone) (b, other) hq
      rw [answers_present h.present b.invalid, hempty] at hfound
      cases hfound
  · exact answers_congr (by rw [cell_modify_other _ _ hown])

/-- What a computation that returns has asked, what it has recorded and what it has come to are the findings of its
inquiry with the answers of the cells afterwards. What was recorded before stays in front. -/
theorem request_tally {x : Option a.Value} (hentry : r.document.entry? a.kind name = some entry)
    (hmemo : (p.cell a name).memo.isLoaded = false) (hunder : name ∉ underWay)
    (h : r.request a underWay name p = .ok x p') :
    ∃ result used, (r.plan a name entry).examine (p'.answers r.document) =
        ⟨.ok result,
          (r.plan a name entry).questions (r.resolvers a (name :: underWay)) (p.record (.started a name)), used⟩ ∧
      x = some (result.getD a.invalid) ∧
      p'.cell a name =
        (⟨.empty, (p.cell a name).dependencies ++ used⟩ : Cell a.Value).settle (some a.invalid) result := by
  have hruns := r.runs_request a underWay name p
  rw [h] at hruns
  have hempty := Memo.isLoaded_eq_false_iff.mp hmemo
  cases hruns with
  | missing hmissing => cases hentry.symm.trans hmissing
  | cached _ hcached => rw [hempty] at hcached; cases hcached
  | cyclic _ _ hmem => exact absurd hmem hunder
  | @computed _ _ _ _ p₁ entry' result hentry' hpayload _ hrun =>
    obtain rfl : entry = entry' := Option.some.inj (hentry.symm.trans hentry')
    have hbefore : ((p.record (.started a name)).cell a name).dependencies = (p.cell a name).dependencies ++ [] :=
      (List.append_nil _).symm
    obtain ⟨used, hdone, hcell⟩ := hrun.tally (.start hentry hpayload) hbefore
    rw [List.nil_append] at hdone
    refine ⟨result, used, hdone.examine_settled, rfl, ?_⟩
    rw [cell_record, cell_modify_same, ← hcell]
    cases result <;> rfl

end Reading

end DesignTokens
