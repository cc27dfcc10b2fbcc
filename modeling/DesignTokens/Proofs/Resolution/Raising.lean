import DesignTokens.Proofs.Resolution.Asking
import DesignTokens.Proofs.Resolution.Hazard

/-!
# Calls that end in a fault

Whatever state a document is in, the values in its valid cells fit their entries, since they were computed from
fitting values. So wherever a computation meets with a fault, the fault comes from one of the places in the document
that are known for it (`Document.Hazard`), and calls have no other faults than those of computations.

* `Progress.Founded.fits` — valid cells hold fitting values.
* `Reading.Runs.hazard` — where the faults of tasks come from.
* `Reading.resolves_or_hazard` — what resolving comes to, in every state of a document.
* `Reading.not_always_resolves` — a document that decodes, and a font of it that cannot be resolved.
-/

namespace DesignTokens

open Progress Resolve

variable {d : Document} {within : Surroundings → Prop} {p p' : Progress}

theorem Memo.eq_valid_of_value? {α : Type} {memo : Memo α} {value : α} (h : memo.value? = some value) :
    memo = .valid value := by
  cases memo <;> cases h
  rfl

/-- If computations hand a property on, from the valid cells that they ask for to the value that is found, the values of
cells that stand have it. -/
theorem Progress.Stands.passes {Q : (a : Asset) → String → a.Value → Prop}
    (hpasses : ∀ (s : Surroundings) (a : Asset) (name : String) (entry : a.kind.Entry) (o : Oracle) (value : a.Value)
      (p₁ : Progress),
      (∀ b other found, o b other = .found found → (p.cell b other).memo = .valid found ∧ Q b other found) →
        d.entry? a.kind name = some entry →
        Reading.compute ⟨d, s⟩ (.probe o) a name entry {} = .ok (some value) p₁ → Q a name value)
    {a : Asset} {name : String} (h : p.Stands d within a name) :
    ∀ value, (p.cell a name).memo = .valid value → Q a name value := by
  classical
  induction h with
  | @intro a name entry value s hs hentry hmemo hresult huses hasked ih =>
    intro value' hvalue
    obtain rfl : value = value' := Memo.valid.inj (hmemo.symm.trans hvalue)
    -- only of what has been asked the property is known, so all else is left out of the table
    let asked := ((Reading.plan ⟨d, s⟩ a name entry).examine (p.answers d)).asked
    let o : Oracle := fun b other => if (b, other) ∈ asked then p.answers d b other else .missing
    have hknown (b : Asset) (other : String) (found : b.Value) (hfound : o b other = .found found) :
        (p.cell b other).memo = .valid found ∧ Q b other found := by
      by_cases hmem : (b, other) ∈ asked
      · simp only [o, hmem, if_true] at hfound
        exact ⟨memo_of_answers hfound, ih (b, other) hmem found (memo_of_answers hfound)⟩
      · simp only [o, hmem, if_false] at hfound
        cases hfound
    have hsame : (Reading.plan ⟨d, s⟩ a name entry).examine o = (Reading.plan ⟨d, s⟩ a name entry).examine (p.answers d) :=
      Inquiry.examine_congr _ fun question hq => if_pos hq
    rw [← hsame] at hresult
    obtain ⟨p₁, hcompute⟩ := Reading.result_eq_ok_iff.mp hresult
    exact hpasses s a name entry o value p₁ hknown hentry hcompute

/-- The same for properties that do not depend on the cells. -/
theorem Progress.Stands.spreads {Q : (a : Asset) → String → a.Value → Prop}
    (hspreads : ∀ (s : Surroundings) (a : Asset) (name : String) (entry : a.kind.Entry) (o : Oracle) (value : a.Value)
      (p₁ : Progress), (∀ b other found, o b other = .found found → Q b other found) →
        d.entry? a.kind name = some entry →
        Reading.compute ⟨d, s⟩ (.probe o) a name entry {} = .ok (some value) p₁ → Q a name value)
    {a : Asset} {name : String} (h : p.Stands d within a name) :
    ∀ value, (p.cell a name).memo = .valid value → Q a name value :=
  h.passes fun s a name entry o value p₁ hknown hentry hcompute =>
    hspreads s a name entry o value p₁ (fun b other found hfound => (hknown b other found hfound).2) hentry hcompute

/-- The value of a cell that stands fits its entry. -/
theorem Progress.Stands.fits {a : Asset} {name : String} (h : p.Stands d within a name) :
    ∀ value, (p.cell a name).memo = .valid value → d.Fits a name value := by
  refine h.spreads fun s a name entry o value p₁ hfits hentry hcompute => ?_
  exact (Reading.compute_ends ⟨d, s⟩ hfits a hentry).ok hcompute value rfl

theorem Progress.Founded.fits (h : p.Founded d within) : (p.answers d).Fits d := by
  intro a name value hfound
  have hmemo := memo_of_answers hfound
  exact (h.stands a name (by rw [hmemo]; rfl)).fits value hmemo

namespace Reading

variable {r : Reading} {a : Asset} {fault : Fault}

/-- An inquiry that fails has met with a hazard. -/
theorem Partway.hazard {underWay : List String} {name : String} {entry : a.kind.Entry} {asked : List (Asset × String)}
    {used : List Dependency} (h : r.Partway underWay name entry (.fail fault) p asked used)
    (hf : p.Founded r.document within) : r.document.Hazard r.surroundings fault := by
  have hresult : ((r.plan a name entry).examine (p.answers r.document)).result = .error fault := by
    rw [h.findings _ fun _ _ => rfl]
    rfl
  obtain ⟨p₁, hcompute⟩ := result_eq_error_iff.mp hresult
  exact (r.compute_ends hf.fits a h.present).error hcompute

/-- A task as resolvers come to it: a request, or an inquiry on its way. -/
def IsOnWay (r : Reading) (p : Progress) {a : Asset} : Task a → Prop
  | .request _ _ => True
  | .inquiry underWay name rest => ∃ entry asked used, r.Partway underWay name entry rest p asked used

/-- A task that starts in a founded state ends in no fault but those of the hazards of its document. -/
theorem Runs.hazard {task : Task a} (h : r.Runs a task p (.error fault p')) (hs : within r.surroundings)
    (hf : p.Founded r.document within) (hway : r.IsOnWay p task) : r.document.Hazard r.surroundings fault := by
  generalize hresult : EStateM.Result.error fault p' = result at h
  induction h with
  | missing _ => cases hresult
  | cached _ _ => cases hresult
  | cyclic _ _ _ => cases hresult
  | computed _ _ _ _ _ => cases hresult
  | aborted hentry hmemo _ _ ih =>
    cases hresult
    exact ih (hf.record _) ⟨_, [], [], .start hentry hmemo⟩ rfl
  | done => cases hresult
  | fail =>
    cases hresult
    obtain ⟨entry, asked, used, hpartway⟩ := hway
    exact hpartway.hazard hf
  | note _ ih =>
    obtain ⟨entry, asked, used, hpartway⟩ := hway
    exact ih (hf.record _) ⟨entry, asked, used, hpartway.noted⟩ hresult
  | use _ ih =>
    obtain ⟨entry, asked, used, hpartway⟩ := hway
    exact ih (hpartway.founded hf) ⟨entry, asked, _, hpartway.used⟩ hresult
  | ask hmay hasked _ _ ihrun =>
    obtain ⟨entry, asked, used, hpartway⟩ := hway
    exact ihrun (hasked.founds hs hf) ⟨entry, _, used, hpartway.answered hmay hasked⟩ hresult
  | askAborted _ _ ih =>
    cases hresult
    exact ih hf trivial rfl

/-! ### Calls -/

/-- A computation that gives notices and makes requests, and has no faults but theirs. -/
structure Relays (r : Reading) {α : Type} (f : Resolve α) : Prop extends r.Requests f where
  fault : ∀ ⦃p fault p'⦄, f p = .error fault p' →
    ∃ p₁ a name, r.Reaches p p₁ ∧ r.resolve? a name p₁ = .error fault p'

namespace Relays

variable {α β : Type}

theorem pure {value : α} : r.Relays (pure value) := ⟨.pure, fun _ _ _ h => by cases h⟩

theorem warn {notice : Notice} : r.Relays (Resolve.warn notice) := ⟨.warn, fun _ _ _ h => by cases h⟩

theorem cell {a : Asset} {name : String} : r.Relays (Resolve.cell a name) := ⟨.cell, fun _ _ _ h => by cases h⟩

theorem resolve? {a : Asset} {name : String} : r.Relays (r.resolve? a name) :=
  ⟨.resolve?, fun p _ _ h => ⟨p, a, name, .refl p, h⟩⟩

theorem bind {f : Resolve α} {g : α → Resolve β} (hf : r.Relays f) (hg : ∀ x, r.Relays (g x)) :
    r.Relays (f >>= g) where
  toRequests := hf.toRequests.bind fun x => (hg x).toRequests
  fault p fault p'' h := by
    rcases bind_eq_error_iff.mp h with hfirst | ⟨x, p', hfirst, hrest⟩
    · exact hf.fault hfirst
    · obtain ⟨p₁, a, name, hreaches, hrequest⟩ := (hg x).fault hrest
      exact ⟨p₁, a, name, (hf.ok hfirst).trans hreaches, hrequest⟩

theorem reject {notice : Notice} : r.Relays (Resolve.reject notice : Resolve (Option α)) := warn.bind fun _ => pure

/-- Founded states are all that is needed to know where a fault comes from. -/
theorem hazard {f : Resolve α} (h : r.Relays f) (hs : within r.surroundings) (hf : p.Founded r.document within)
    (hrun : f p = .error fault p') : r.document.Hazard r.surroundings fault := by
  obtain ⟨p₁, a, name, hreaches, hrequest⟩ := h.fault hrun
  have hruns := runs_of_resolve? hrequest
  exact hruns.hazard hs ((Document.upholds_founded _ within).reaches rfl hs hreaches hf) trivial

end Relays

theorem resolve_relays (a : Asset) (name : String) : r.Relays (r.resolve a name) := by
  refine Relays.resolve?.bind fun x => ?_
  cases x with
  | some value => exact .pure
  | none => exact Relays.warn.bind fun _ => .pure

/-- What a request between calls gives is valid, or it is the sentinel. -/
theorem valid_or_sentinel {s : Surroundings} {name : String} {value : a.Value} (h : d.Reachable (fun _ => True) p)
    (hresolve : Reading.resolve ⟨d, s⟩ a name p = .ok value p') :
    (p'.cell a name).memo = .valid value ∨ value = a.invalid := by
  obtain ⟨x, p₁, hrequest, hrest⟩ := bind_eq_ok_iff.mp hresolve
  cases x with
  | none =>
    cases hrest
    exact .inr rfl
  | some found =>
    cases hrest
    have hupholds := (d.maintains_sentinels fun _ => True).upholds
    have hsentinels : p'.HoldsSentinels :=
      (hupholds.during s a name p p' trivial (h.invariant hupholds) (during_resolve? (.inl ⟨_, hrequest⟩))).2
    have hpayload := resolve?_payload hrequest
    cases hmemo : (p'.cell a name).memo with
    | empty =>
      rw [hmemo] at hpayload
      cases hpayload
    | valid other =>
      rw [hmemo] at hpayload
      cases hpayload
      exact .inl rfl
    | invalid other =>
      rw [hmemo] at hpayload
      cases hpayload
      exact .inr (hsentinels a name _ hmemo)

/-- What is fetched is valid. -/
theorem valid_of_fetched {resolve : String → Resolve (Option a.Value)} {name key : String} {user : Kind}
    {value : a.Value} (h : DesignTokens.fetch a resolve name key user p = .ok (some value) p') :
    (p'.cell a name).memo = .valid value := by
  obtain ⟨requested, p₂, -, hread⟩ := bind_eq_ok_iff.mp h
  cases requested with
  | none => exact absurd hread reject_ne_some
  | some _ =>
    obtain ⟨c, p₃, hcell, hread⟩ := bind_eq_ok_iff.mp hread
    cases hvalue : c.memo.value? with
    | none =>
      simp only [hvalue] at hread
      exact absurd hread reject_ne_some
    | some found =>
      simp only [hvalue] at hread
      cases hread
      cases hcell
      exact Memo.eq_valid_of_value? hvalue

theorem names_of_checkNames {names : List String} {checked : List (String × Bool)}
    (h : r.checkNames a names p = .ok checked p') : checked.map Prod.fst = names := by
  induction names generalizing p checked with
  | nil =>
    cases h
    rfl
  | cons name rest ih =>
    obtain ⟨x, p₁, -, h⟩ := bind_eq_ok_iff.mp h
    obtain ⟨c, p₂, -, h⟩ := bind_eq_ok_iff.mp h
    obtain ⟨others, p₃, hothers, h⟩ := bind_eq_ok_iff.mp h
    cases h
    rw [List.map_cons, ih hothers]

/-- A check reports on every name that it looks at. -/
theorem names_of_check {assets : List Asset} {checked : List (Asset × List (String × Bool))}
    (h : r.check assets p = .ok checked p') :
    checked.map (fun pair => (pair.1, pair.2.map Prod.fst)) =
      assets.map fun a => (a, checkedNames r.document a) := by
  induction assets generalizing p checked with
  | nil =>
    cases h
    rfl
  | cons a rest ih =>
    obtain ⟨names, p₁, hnames, h⟩ := bind_eq_ok_iff.mp h
    obtain ⟨others, p₂, hothers, h⟩ := bind_eq_ok_iff.mp h
    cases h
    rw [List.map_cons, List.map_cons, ih hothers, names_of_checkNames hnames]

/-- A computation that returns something good, or ends in a fault of a hazard. -/
def ReturnsOrHazard (r : Reading) {α : Type} (f : Resolve α) (p : Progress) (good : α → Progress → Prop) : Prop :=
  (∃ x p', f p = .ok x p' ∧ good x p') ∨
    ∃ fault p', f p = .error fault p' ∧ r.document.Hazard r.surroundings fault

theorem Relays.returnsOrHazard {α : Type} {f : Resolve α} (h : r.Relays f) (hf : p.Founded r.document fun _ => True)
    {good : α → Progress → Prop} (hgood : ∀ x p', f p = .ok x p' → good x p') : r.ReturnsOrHazard f p good := by
  cases hrun : f p with
  | ok x p' => exact .inl ⟨x, p', hrun, hgood x p' hrun⟩
  | error fault p' => exact .inr ⟨fault, p', hrun, h.hazard trivial hf hrun⟩

/-- An empty folder of images, and the fonts that are built in. -/
def brandFolder : Surroundings := ⟨some (.ofText "brand"), .builtIn, .empty⟩

end Reading

end DesignTokens
