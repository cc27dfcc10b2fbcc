import Mathlib.Data.List.Sort
import Mathlib.Data.String.Basic
import DesignTokens.Proofs.Resolution.Past
import DesignTokens.Proofs.Resolution.Raising

/-!
# Exact reports

A check of a whole document resolves entry after entry, in cells that earlier calls and earlier entries have filled.
Its report is exact all the same: it names every entry once, in order, but for metrics without text, and with each
one tells whether it is valid when it is resolved alone.

* `Reading.mem_checkedNames` — the names that a check looks at.
* `Reading.checkNames_alone` — what the cells tell after each of them has been requested.
* `Reading.check_exact` — so a report is exact, whatever cells the check starts from, if they can be trusted.
-/

namespace DesignTokens

open Resolve

namespace Reading

variable {r : Reading} {a : Asset} {name : String} {p p' : Progress}

/-! ### Names -/

theorem isComment_iff (a : Asset) (entry : a.kind.Entry) :
    (a = .metric ∧ Kind.isComment a.kind entry = true) ↔ a.IsBlank entry := by
  cases a with
  | metric =>
    change String at entry
    simp [Asset.IsBlank, Kind.isComment, Asset.kind]
  | _ => simp [Asset.IsBlank]

/-- The names of all entries but metrics without text. -/
theorem mem_checkedNames {d : Document} :
    name ∈ checkedNames d a ↔ ∃ entry, d.entry? a.kind name = some entry ∧ ¬ a.IsBlank entry := by
  unfold checkedNames
  dsimp only
  rw [List.mem_mergeSort, List.mem_map]
  constructor
  · rintro ⟨⟨other, entry⟩, hmem, rfl⟩
    obtain ⟨hentry, hkept⟩ := List.mem_filter.mp hmem
    refine ⟨entry, Mapping.find?_of_mem hentry, ?_⟩
    intro hblank
    simp [(isComment_iff a entry).mpr hblank] at hkept
  · rintro ⟨entry, hentry, hblank⟩
    refine ⟨(name, entry), List.mem_filter.mpr ⟨Mapping.mem_of_find? hentry, ?_⟩, rfl⟩
    rw [← isComment_iff] at hblank
    simpa only [Bool.not_eq_true', decide_eq_false_iff_not] using hblank

/-- The names come in order, each of them once. -/
theorem checkedNames_sorted (d : Document) (a : Asset) : (checkedNames d a).Pairwise (· < ·) := by
  unfold checkedNames
  dsimp only
  have hordered (names : List String) : (names.mergeSort (· ≤ ·)).Pairwise (· ≤ ·) :=
    List.pairwise_mergeSort' (· ≤ ·) names
  have hnodup : ∀ keep : String × a.kind.Entry → Bool,
      (((d.entries a.kind).toList.filter keep).map Prod.fst).Nodup := by
    intro keep
    exact (List.filter_sublist.map Prod.fst).nodup (d.entries a.kind).nodup
  refine (hordered _).imp₂ (fun _ _ => lt_of_le_of_ne) ?_
  exact (List.mergeSort_perm ..).nodup_iff.mpr (hnodup _)

/-! ### Reports -/

/-- Resolved alone, in a copy of the document with no cell filled yet, the entry turns out valid or not. -/
def ComesTo (r : Reading) (a : Asset) (name : String) (valid : Bool) : Prop :=
  ∃ value p, r.resolve a name {} = .ok value p ∧ (p.cell a name).memo.isValid = valid

/-- What a report on a whole document should be. -/
structure Exact (r : Reading) (report : List (Asset × List (String × Bool))) : Prop where
  assets : report.map Prod.fst = Asset.all
  sorted : ∀ a names, (a, names) ∈ report → (names.map Prod.fst).Pairwise (· < ·)
  complete : ∀ a names, (a, names) ∈ report → ∀ name,
    name ∈ names.map Prod.fst ↔ ∃ entry, r.document.entry? a.kind name = some entry ∧ ¬ a.IsBlank entry
  alone : ∀ a names, (a, names) ∈ report → ∀ name valid, (name, valid) ∈ names → r.ComesTo a name valid

/-- After entries have been requested one after the other, each cell tells what its entry comes to alone. -/
theorem checkNames_alone {names : List String} {checked : List (String × Bool)} (htrusts : r.Trusts p)
    (hnames : ∀ name ∈ names, ∃ entry, r.document.entry? a.kind name = some entry)
    (h : r.checkNames a names p = .ok checked p') :
    r.Trusts p' ∧ ∀ name valid, (name, valid) ∈ checked → r.ComesTo a name valid := by
  induction names generalizing p checked with
  | nil =>
    cases h
    exact ⟨htrusts, fun name valid hmem => by cases hmem⟩
  | cons name rest ih =>
    obtain ⟨x, p₁, hrequest, h⟩ := bind_eq_ok_iff.mp h
    obtain ⟨c, p₂, hcell, h⟩ := bind_eq_ok_iff.mp h
    obtain ⟨others, p₃, hothers, h⟩ := bind_eq_ok_iff.mp h
    cases h
    cases hcell
    obtain ⟨entry, hentry⟩ := hnames name (List.mem_cons_self ..)
    obtain ⟨hvalid, hfaulty⟩ := htrusts.request hentry hrequest
    obtain ⟨value, q, hresolve, halone⟩ := resolve_alone hentry hfaulty
    have htrusts₁ : r.Trusts p₁ := htrusts.reaches (.request hrequest (.refl p₁))
    obtain ⟨htrusts', hrest⟩ := ih htrusts₁ (fun other hother => hnames other (List.mem_cons_of_mem _ hother)) hothers
    refine ⟨htrusts', ?_⟩
    intro other valid hmem
    rcases List.mem_cons.mp hmem with hown | hmem
    · cases hown
      exact ⟨value, q, hresolve, Bool.eq_iff_iff.mpr (halone.trans hvalid.symm)⟩
    · exact hrest other valid hmem

theorem check_alone {assets : List Asset} {report : List (Asset × List (String × Bool))} (htrusts : r.Trusts p)
    (h : r.check assets p = .ok report p') :
    ∀ a names, (a, names) ∈ report → ∀ name valid, (name, valid) ∈ names → r.ComesTo a name valid := by
  induction assets generalizing p report with
  | nil =>
    cases h
    intro a names hmem
    cases hmem
  | cons a rest ih =>
    obtain ⟨checked, p₁, hnames, h⟩ := bind_eq_ok_iff.mp h
    obtain ⟨others, p₂, hothers, h⟩ := bind_eq_ok_iff.mp h
    cases h
    have hentries : ∀ name ∈ checkedNames r.document a, ∃ entry, r.document.entry? a.kind name = some entry := by
      intro name hmem
      obtain ⟨entry, hentry, -⟩ := mem_checkedNames.mp hmem
      exact ⟨entry, hentry⟩
    obtain ⟨htrusts₁, halone⟩ := checkNames_alone htrusts hentries hnames
    intro b names hmem
    rcases List.mem_cons.mp hmem with hown | hmem
    · cases hown
      exact halone
    · exact ih htrusts₁ hothers b names hmem

/-- A check that returns has made an exact report, if the cells that it started from can be trusted. -/
theorem check_exact {report : List (Asset × List (String × Bool))} (htrusts : r.Trusts p)
    (h : r.check Asset.all p = .ok report p') : r.Exact report := by
  have hnames := names_of_check h
  have hchecked : ∀ a names, (a, names) ∈ report → names.map Prod.fst = checkedNames r.document a := by
    intro a names hmem
    have hpair : (a, names.map Prod.fst) ∈ report.map fun pair => (pair.1, pair.2.map Prod.fst) :=
      List.mem_map.mpr ⟨(a, names), hmem, rfl⟩
    rw [hnames] at hpair
    obtain ⟨b, -, hb⟩ := List.mem_map.mp hpair
    obtain ⟨rfl, hsame⟩ := Prod.mk.inj hb
    exact hsame.symm
  constructor
  case assets =>
    have hfirst := congrArg (List.map Prod.fst) hnames
    simpa [Function.comp_def] using hfirst
  case sorted =>
    intro a names hmem
    rw [hchecked a names hmem]
    exact checkedNames_sorted r.document a
  case complete =>
    intro a names hmem name
    rw [hchecked a names hmem]
    exact mem_checkedNames
  case alone => exact check_alone htrusts h

end Reading

end DesignTokens
