import DesignTokens.Proofs.Resolution.Moments
import DesignTokens.Proofs.Resolution.Warning

/-!
# No failure without a warning

The history tells for every entry when its computation began and when its result was put into its cell. An entry
that comes to nothing during a call has been computed during that call, and between those two events stands a
warning; only metrics without text fail in silence. This holds from any state, for calls and for the requests that
computations make, whatever else is under way.

The events between beginning and end belong to the entry and to what it asked for. No other computation of the
same entry is among them, since names under way are not entered again: a task leaves alone what is `Beyond` it,
and here that is said of the history.

* `Reading.Runs.run_eq` — what the rules say a task comes to is what running it gives.
* `Reading.Runs.spares` — nothing is begun or settled beyond a task.
* `Reading.Runs.reports` — what fails during a task is reported.
-/

namespace DesignTokens

open Resolve

/-- Resolvers doing a task. -/
def Task.run (r : Reading) {a : Asset} : Task a → Resolve (Option a.Value)
  | .request underWay name => r.request a underWay name
  | .inquiry underWay name rest => rest.run (r.resolvers a (name :: underWay))

/-- An event in the computation of an entry. -/
def Event.IsAbout (a : Asset) (name : String) : Event → Prop
  | .started b other => b = a ∧ other = name
  | .settled b other _ => b = a ∧ other = name
  | .noticed _ => False

namespace Progress

/-- Nothing has happened to certain entries. -/
def Spares (p p' : Progress) (spared : Asset → String → Prop) : Prop :=
  ∃ new, p'.history = new ++ p.history ∧ ∀ a name, spared a name → ∀ e ∈ new, ¬ e.IsAbout a name

/-- An entry has been computed and has come to nothing, and it was warned of in between unless it is blank. -/
def Reports (p p' : Progress) (a : Asset) (name : String) (entry : a.kind.Entry) : Prop :=
  ∃ later window earlier,
    p'.history = later ++ .settled a name false :: (window ++ .started a name :: (earlier ++ p.history)) ∧
      (∀ e ∈ window, ¬ e.IsAbout a name) ∧
      ((∃ notice, .noticed notice ∈ window ∧ notice.level = .warning) ↔ ¬ a.IsBlank entry)

section

variable {p p' p'' p₁ : Progress} {spared spared' : Asset → String → Prop} {a : Asset} {name : String}
  {entry : a.kind.Entry}

theorem Spares.refl (p : Progress) : p.Spares p spared := ⟨[], rfl, by simp⟩

theorem Spares.trans (h : p.Spares p' spared) (h' : p'.Spares p'' spared) : p.Spares p'' spared := by
  obtain ⟨new, hhistory, hspared⟩ := h
  obtain ⟨more, hmore, hspared'⟩ := h'
  refine ⟨more ++ new, by rw [hmore, hhistory, List.append_assoc], fun b other hb e he => ?_⟩
  rcases List.mem_append.mp he with he | he
  · exact hspared' b other hb e he
  · exact hspared b other hb e he

theorem Spares.weaken (h : p.Spares p' spared) (hsub : ∀ b other, spared' b other → spared b other) :
    p.Spares p' spared' := by
  obtain ⟨new, hhistory, hspared⟩ := h
  exact ⟨new, hhistory, fun b other hb => hspared b other (hsub b other hb)⟩

theorem spares_record (p : Progress) {e : Event} (h : ∀ b other, spared b other → ¬ e.IsAbout b other) :
    p.Spares (p.record e) spared := by
  refine ⟨[e], rfl, fun b other hb e' he => ?_⟩
  obtain rfl := List.mem_singleton.mp he
  exact h b other hb

theorem Spares.grows (h : p.Spares p' spared) : p.Grows p' := by
  obtain ⟨new, hhistory, -⟩ := h
  exact ⟨new, hhistory.symm⟩

/-- What has been reported stays reported when more has happened before and after. -/
theorem Reports.extend (h : p₁.Reports p' a name entry) (hbefore : p.Grows p₁) (hafter : p'.Grows p'') :
    p.Reports p'' a name entry := by
  obtain ⟨later, window, earlier, hhistory, hwindow⟩ := h
  obtain ⟨more, hmore⟩ := hbefore
  obtain ⟨most, hmost⟩ := hafter
  refine ⟨most ++ later, window, earlier ++ more, ?_, hwindow⟩
  rw [← hmost, hhistory, ← hmore]
  simp only [List.append_assoc]

end

end Progress

namespace Reading

variable {r : Reading} {a b : Asset} {underWay : List String} {name other : String} {p p' : Progress}

/-- The rules say what running a task comes to. -/
theorem Runs.run_eq {task : Task a} {result : EStateM.Result Fault Progress (Option a.Value)}
    (h : r.Runs a task p result) : task.run r p = result := by
  induction h with
  | missing hentry =>
    simp only [Task.run, request_eq, hentry]
    rfl
  | @cached a underWay name p entry value hentry hmemo =>
    simp only [Task.run, request_eq, hentry]
    by_cases hunder : name ∈ underWay
    · simp only [hunder, if_true, Functor.map, EStateM.map, memoized_loaded hmemo]
    · simp only [hunder, if_false, Functor.map, EStateM.map, memoized_loaded hmemo]
  | cyclic hentry hmemo hunder =>
    simp only [Task.run, request_eq, hentry, hunder, if_true, Functor.map, EStateM.map, memoized_underWay hmemo]
  | computed hentry hmemo hunder _ ih =>
    rw [Task.run, run_plan] at ih
    simp only [Task.run, request_eq, hentry, hunder, if_false, Functor.map, EStateM.map, memoized_idle hmemo, ih]
  | aborted hentry hmemo hunder _ ih =>
    rw [Task.run, run_plan] at ih
    simp only [Task.run, request_eq, hentry, hunder, if_false, Functor.map, EStateM.map, memoized_idle hmemo, ih]
  | done => rfl
  | fail => rfl
  | note _ ih => exact ih
  | use _ ih => exact ih
  | ask _ _ _ ihasked ihrun =>
    simp only [Task.run, Inquiry.run, Resolvers.answer, resolvers, bind_assoc, pure_bind]
    exact (bind_of_ok ihasked).trans ihrun
  | askAborted _ _ ihasked =>
    simp only [Task.run] at ihasked
    simp only [Task.run, Inquiry.run, Resolvers.answer, resolvers, bind, EStateM.bind, ihasked]

/-- What a task does not come to. -/
def Spared : Task a → Asset → String → Prop
  | .request underWay _ => Beyond a underWay
  | .inquiry underWay name _ => Beyond a (name :: underWay)

theorem Runs.spares {task : Task a} {x : Option a.Value} (h : r.Runs a task p (.ok x p')) :
    p.Spares p' (Spared task) := by
  generalize hresult : EStateM.Result.ok x p' = result at h
  induction h generalizing p' with
  | missing _ => cases hresult; exact .refl _
  | cached _ _ => cases hresult; exact .refl _
  | cyclic _ _ _ =>
    cases hresult
    exact Progress.spares_record _ fun _ _ _ => id
  | @computed a underWay name p p₁ entry result _ _ hunder _ ih =>
    cases hresult
    have hown : ∀ b other, Beyond a underWay b other → ¬ (a = b ∧ name = other) := by
      rintro b other hbeyond ⟨rfl, rfl⟩
      exact hunder (hbeyond.2 rfl)
    have hinside : (p.record (.started a name)).Spares p₁ (Beyond a underWay) :=
      (ih rfl).weaken fun b other hbeyond => hbeyond.started name
    have hsettled : p₁.Spares
        ((p₁.modify a name (·.settle (some a.invalid) result)).record (.settled a name result.isSome))
        (Beyond a underWay) := Progress.spares_record _ hown
    exact ((Progress.spares_record p hown).trans hinside).trans hsettled
  | aborted _ _ _ _ _ => cases hresult
  | done => cases hresult; exact .refl _
  | fail => cases hresult
  | note _ ih => exact (Progress.spares_record _ fun _ _ _ => id).trans (ih hresult)
  | use _ ih => exact ih hresult
  | ask hmay _ _ ihasked ihrun =>
    exact ((ihasked rfl).weaken fun c last hbeyond => hbeyond.inside hmay).trans (ihrun hresult)
  | askAborted _ _ _ => cases hresult

theorem grow_resolvers (r : Reading) (a : Asset) (underWay : List String) : (r.resolvers a underWay).Grow := by
  intro b other p x p' h
  have hruns := r.runs_request b (inside a underWay b) other p
  rw [show r.request b (inside a underWay b) other p = .ok x p' from h] at hruns
  exact hruns.spares.grows

/-- The computation of an entry that comes to nothing warns, unless the entry is blank. -/
theorem Runs.reports_own {entry : a.kind.Entry}
    (hrun : r.Runs a (.inquiry underWay name (r.plan a name entry)) (p.record (.started a name)) (.ok none p')) :
    p.Reports ((p'.modify a name (·.settle (some a.invalid) none)).record (.settled a name false)) a name entry := by
  obtain ⟨window, hhistory, hspared⟩ := hrun.spares
  have hcompute : r.compute (r.resolvers a (name :: underWay)) a name entry (p.record (.started a name)) =
      .ok none p' := by
    rw [← run_plan]
    exact hrun.run_eq
  refine ⟨[], window, [], congrArg _ hhistory, hspared a name (Beyond.of_mem (List.mem_cons_self ..)), ?_⟩
  constructor
  · rintro ⟨notice, hmem, -⟩ hblank
    rw [compute_blank _ _ _ _ _ hblank] at hcompute
    cases hcompute
    rw [List.self_eq_append_left.mp hhistory] at hmem
    cases hmem
  · intro hblank
    obtain ⟨new, notice, hnew, hmem, hlevel⟩ :=
      (r.compute_warns a name entry hblank).warned _ (r.grow_resolvers a (name :: underWay)) trivial hcompute rfl
    obtain rfl : window = new := List.append_cancel_right (hhistory.symm.trans hnew)
    exact ⟨notice, hmem, hlevel⟩

/-- Whatever entry loses its chance during a task is reported. -/
theorem Runs.reports {task : Task a} {x : Option a.Value} (h : r.Runs a task p (.ok x p'))
    {entry : b.kind.Entry} (hentry : r.document.entry? b.kind other = some entry)
    (hempty : (p.cell b other).memo = .empty) {sentinel : b.Value}
    (hinvalid : (p'.cell b other).memo = .invalid sentinel) : p.Reports p' b other entry := by
  generalize hresult : EStateM.Result.ok x p' = result at h
  induction h generalizing p' with
  | missing _ =>
    cases hresult
    simp [hempty] at hinvalid
  | cached _ _ =>
    cases hresult
    simp [hempty] at hinvalid
  | cyclic _ _ _ =>
    cases hresult
    simp [hempty] at hinvalid
  | @computed a underWay name p p₁ found result hfound _ _ hrun ih =>
    cases hresult
    by_cases hown : b = a ∧ other = name
    · obtain ⟨rfl, rfl⟩ := hown
      obtain rfl : found = entry := Option.some.inj (hfound.symm.trans hentry)
      cases result with
      | none => exact hrun.reports_own
      | some value => simp [Cell.settle] at hinvalid
    · rw [Progress.cell_record, Progress.cell_modify_other _ _ hown] at hinvalid
      exact (ih hempty hinvalid rfl).extend (p.grows_record _) ((p₁.grows_modify ..).trans (Progress.grows_record ..))
  | aborted _ _ _ _ _ => cases hresult
  | done =>
    cases hresult
    simp [hempty] at hinvalid
  | fail => cases hresult
  | note _ ih => exact (ih hempty hinvalid hresult).extend (Progress.grows_record ..) (.refl _)
  | use _ ih =>
    refine (ih ?_ hinvalid hresult).extend (Progress.grows_modify ..) (.refl _)
    rw [Progress.memo_dependOn, hempty]
  | @ask a c underWay name last p p₁ next x result hmay hasked hrun ihasked ihrun =>
    subst hresult
    -- either the question itself has loaded the cell, which then stays as it is, or what comes after it has
    by_cases hloaded : (p₁.cell b other).memo.isLoaded = true
    · have hsame : (p'.cell b other).memo = (p₁.cell b other).memo := by
        by_cases hown : b = a ∧ other = name
        · obtain ⟨rfl, rfl⟩ := hown
          exact hrun.keeps.1
        · rw [hrun.keeps.2 b other hown (.inr hloaded)]
      exact (ihasked hempty (hsame ▸ hinvalid) rfl).extend (.refl p) hrun.spares.grows
    · have hstill : (p₁.cell b other).memo = .empty := Memo.isLoaded_eq_false_iff.mp (by simpa using hloaded)
      exact (ihrun hstill hinvalid rfl).extend hasked.spares.grows (.refl p')
  | askAborted _ _ _ => cases hresult

theorem Reaches.grows (h : r.Reaches p p') : p.Grows p' := by
  induction h with
  | refl p => exact .refl p
  | notice n _ ih => exact (Progress.grows_record ..).trans ih
  | @request p p₁ p' c last x hrequest _ ih =>
    have hruns := runs_of_resolve? hrequest
    exact hruns.spares.grows.trans ih

/-- Requests that come from no computation, one after the other, report what fails during them. -/
theorem Reaches.reports (h : r.Reaches p p') {entry : b.kind.Entry}
    (hentry : r.document.entry? b.kind other = some entry) (hempty : (p.cell b other).memo = .empty)
    {sentinel : b.Value} (hinvalid : (p'.cell b other).memo = .invalid sentinel) :
    p.Reports p' b other entry := by
  induction h with
  | refl p => simp [hempty] at hinvalid
  | notice n _ ih => exact (ih hempty hinvalid).extend (Progress.grows_record ..) (.refl _)
  | @request p p₁ p' c last x hrequest hrest ih =>
    have hruns := runs_of_resolve? hrequest
    by_cases hloaded : (p₁.cell b other).memo.isLoaded = true
    · rw [hrest.keeps hloaded] at hinvalid
      exact (hruns.reports hentry hempty hinvalid).extend (.refl p) hrest.grows
    · have hstill : (p₁.cell b other).memo = .empty := Memo.isLoaded_eq_false_iff.mp (by simpa using hloaded)
      exact (ih hstill hinvalid).extend hruns.spares.grows (.refl p')

/-- Whenever a call that ends, or a request made by a computation, turns the empty cell of an entry into an invalid
one, the entry was computed in the meantime, and a warning was given between the beginning of its computation and
the result; metrics without text, and no other entries, fail without one. -/
theorem failure_is_reported (r : Reading) (p p' : Progress)
    (h : (∃ call : Call, call.run r p = .ok () p') ∨
      ∃ a underWay name x, r.request a underWay name p = .ok x p')
    (b : Asset) (other : String) (entry : b.kind.Entry) (hentry : r.document.entry? b.kind other = some entry)
    (hempty : (p.cell b other).memo = .empty) (sentinel : b.Value)
    (hinvalid : (p'.cell b other).memo = .invalid sentinel) :
    ∃ later window earlier,
      p'.history = later ++ .settled b other false :: (window ++ .started b other :: (earlier ++ p.history)) ∧
        (∀ e ∈ window, ¬ e.IsAbout b other) ∧
        ((∃ notice, .noticed notice ∈ window ∧ notice.level = .warning) ↔ ¬ b.IsBlank entry) := by
  rcases h with ⟨call, hcall⟩ | ⟨a, underWay, name, x, hrequest⟩
  · exact ((call.run_requests r).ok hcall).reports hentry hempty hinvalid
  · have hruns := r.runs_request a underWay name p
    rw [hrequest] at hruns
    exact hruns.reports hentry hempty hinvalid

/-- One of two fonts in a circle fails on the way to the other one. -/
theorem failure_is_reported_circular :
    ∃ p, (Call.resolve .font "a").run circularFonts {} = .ok () p ∧
      (p.cell .font "b").memo = .invalid Asset.font.invalid ∧
      ∃ window, .settled .font "b" false :: (window ++ [.started .font "b"]) <:+: p.history ∧
        ∃ notice, .noticed notice ∈ window ∧ notice.level = .warning := by
  have hcall : ∃ p, (Call.resolve .font "a").run circularFonts {} = .ok () p ∧
      (p.cell .font "b").memo = .invalid Asset.font.invalid := by
    simp only [Call.run, resolve, resolve?, font, resolveFont_found circularFonts_a, resolveFont_found circularFonts_b,
      FontLayers.compute, FontLayers.baseDescriptor, DesignTokens.fetch, copyOf_a, copyOf_b, List.mem_cons,
      List.not_mem_nil, String.reduceEq, or_false, or_true, ↓reduceIte]
    exact ⟨_, rfl, rfl⟩
  obtain ⟨p, hrun, hinvalid⟩ := hcall
  have hempty : (({} : Progress).cell .font "b").memo = .empty := by
    rw [Progress.cell_start]
    rfl
  obtain ⟨later, window, earlier, hhistory, -, hwarned⟩ :=
    failure_is_reported circularFonts {} p (.inl ⟨_, hrun⟩) .font "b" _ circularFonts_b hempty _ hinvalid
  refine ⟨p, hrun, hinvalid, window, ⟨later, earlier, ?_⟩, hwarned.mpr id⟩
  rw [hhistory]
  simp

end Reading

end DesignTokens
