import DesignTokens.Proofs.Resolution.Plan

/-!
# Requests and their computations

The six resolvers are one: a request finds no entry, is refused because its entry is under way, or goes into
the memo cell (`Reading.request_eq`), and the computation in the cell is the run of an inquiry. An entry may
ask about its own asset and about assets of a lower level, so names under way need to be known for its own
asset alone.

`Reading.Runs` says by rules how a request and the inquiry behind it run. Facts about resolution go by
induction on it.

* `Reading.request_eq` — the three ways of a request.
* `memoized_loaded`, `memoized_underWay`, `memoized_idle` — the three ways through a memo cell.
* `Reading.runs_request` — every request runs by the rules.
-/

namespace DesignTokens

open Resolve

/-! ### One step of each resolver -/

theorem resolveMetric_found {metrics : Mapping String} {underWay : List String} {name expression : String}
    (h : metrics.find? name = some expression) :
    resolveMetric metrics underWay name =
      if name ∈ underWay then some <$> memoized .metric name expression true (pure none)
      else
        some <$> memoized .metric name expression false
          (Metric.compute
            (fun other => do
              match ← resolveMetric metrics (name :: underWay) other with
              | none => return .missing
              | some _ =>
                match (← cell .metric other).memo.value? with
                | some value => return .found value
                | none => return .invalid)
            name expression) := by
  rw [resolveMetric]
  split
  · simp_all
  · next found hfound =>
    obtain rfl : found = expression := Option.some.inj (hfound.symm.trans h)
    rfl

theorem resolveColor_found {metric : Metric.Lookup} {colors : Mapping String} {underWay : List String}
    {name raw : String} (h : colors.find? name = some raw) :
    resolveColor metric colors underWay name =
      if name ∈ underWay then some <$> memoized .color name raw true (pure none)
      else
        some <$> memoized .color name raw false
          (ColorText.compute metric
            (fun other => do
              match ← resolveColor metric colors (name :: underWay) other with
              | none => return .missing
              | some _ =>
                match (← cell .color other).memo.value? with
                | some value => return .found value
                | none => return .invalid)
            colors.contains name raw) := by
  rw [resolveColor]
  split
  · simp_all
  · next found hfound =>
    obtain rfl : found = raw := Option.some.inj (hfound.symm.trans h)
    rfl

theorem resolveFont_found {metric : Metric.Lookup} {catalog : Catalog} {fonts : Mapping FontEntry}
    {underWay : List String} {name : String} {entry : FontEntry} (h : fonts.find? name = some entry) :
    resolveFont metric catalog fonts underWay name =
      if name ∈ underWay then some <$> memoized .font name entry true (pure none)
      else
        some <$> memoized .font name entry false
          (FontLayers.compute metric catalog (resolveFont metric catalog fonts (name :: underWay)) name entry) := by
  rw [resolveFont]
  split
  · simp_all
  · next found hfound =>
    obtain rfl : found = entry := Option.some.inj (hfound.symm.trans h)
    rfl

theorem resolveTextAttributes_found {refs : TextLayers.References} {sets : Mapping TextAttributesEntry}
    {underWay : List String} {name : String} {entry : TextAttributesEntry}
    (h : sets.find? name = some entry) :
    resolveTextAttributes refs sets underWay name =
      if name ∈ underWay then some <$> memoized .textAttributes name entry true (pure none)
      else
        some <$> memoized .textAttributes name entry false
          (TextLayers.compute refs (resolveTextAttributes refs sets (name :: underWay)) name entry) := by
  rw [resolveTextAttributes]
  split
  · simp_all
  · next found hfound =>
    obtain rfl : found = entry := Option.some.inj (hfound.symm.trans h)
    rfl

theorem resolveImage_found {refs : ImageLayers.References} {surroundings : Surroundings}
    {images : Mapping ImageEntry} {underWay : List String} {name : String} {entry : ImageEntry}
    (h : images.find? name = some entry) :
    resolveImage refs surroundings images underWay name =
      if name ∈ underWay then some <$> memoized .image name entry true (pure none)
      else
        some <$> memoized .image name entry false
          (ImageLayers.compute refs surroundings (resolveImage refs surroundings images (name :: underWay)) name
            entry) := by
  rw [resolveImage]
  split
  · simp_all
  · next found hfound =>
    obtain rfl : found = entry := Option.some.inj (hfound.symm.trans h)
    rfl

/-! ### All resolvers as one -/

namespace Asset

/-- How many kinds deep an asset may refer. -/
def level : Asset → Nat
  | .metric => 0
  | .color => 1
  | .font => 1
  | .textAttributes => 2
  | .image => 2
  | .buttonStyle => 3

/-- Which assets the computation of an asset may ask about. -/
def MayAsk (a b : Asset) : Prop := b = a ∨ b.level < a.level

end Asset

namespace Reading

/-- The computation of an entry that puts its questions to given resolvers. -/
def compute (r : Reading) (q : Resolvers) : (a : Asset) → String → a.kind.Entry → Resolve (Option a.Value)
  | .metric, name, (expression : String) => Metric.compute q.metric name expression
  | .color, name, (raw : String) =>
    ColorText.compute q.metric q.color r.document.sections.colors.contains name raw
  | .font, name, entry => FontLayers.compute q.metric r.surroundings.catalog (q .font) name entry
  | .textAttributes, name, entry => TextLayers.compute (.of q) (q .textAttributes) name entry
  | .image, name, entry =>
    ImageLayers.compute (.of q r.document.sections.placements.contains) r.surroundings (q .image) name entry
  | .buttonStyle, name, entry => ButtonLayers.compute (.of q) name entry

theorem compute_inquires (r : Reading) (a : Asset) (name : String) (entry : a.kind.Entry) :
    Inquires a.MayAsk (fun b m => b = a ∧ m = name) True (fun x => True ∧ x.isSome = true)
      fun q => r.compute q a name entry := by
  have below {b : Asset} (h : b.level < a.level) : a.MayAsk b := .inr h
  cases a with
  | metric => exact Metric.compute_inquires (.inl rfl) name entry ⟨rfl, rfl⟩
  | color => exact ColorText.compute_inquires (below (by decide)) (.inl rfl) _ name entry ⟨rfl, rfl⟩
  | font => exact FontLayers.compute_inquires (below (by decide)) (.inl rfl) _ name ⟨rfl, rfl⟩ entry
  | textAttributes =>
    exact TextLayers.compute_inquires (below (by decide)) (below (by decide)) (below (by decide)) (.inl rfl)
      name ⟨rfl, rfl⟩ entry
  | image =>
    exact ImageLayers.compute_inquires (below (by decide)) (below (by decide)) (.inl rfl) ⟨rfl, rfl⟩ _ entry
  | buttonStyle =>
    exact ButtonLayers.compute_inquires (below (by decide)) (below (by decide)) (below (by decide))
      (below (by decide)) ⟨rfl, rfl⟩ entry

/-- The inquiry that computes an entry. -/
noncomputable def plan (r : Reading) (a : Asset) (name : String) (entry : a.kind.Entry) :
    Inquiry (Option a.Value) :=
  (r.compute_inquires a name entry).choose

theorem run_plan (r : Reading) (q : Resolvers) (a : Asset) (name : String) (entry : a.kind.Entry) :
    (r.plan a name entry).run q = r.compute q a name entry :=
  ((r.compute_inquires a name entry).choose_spec.1 q).symm

theorem plan_within (r : Reading) (a : Asset) (name : String) (entry : a.kind.Entry) :
    (r.plan a name entry).Within a.MayAsk fun b m => b = a ∧ m = name :=
  (r.compute_inquires a name entry).choose_spec.2.1

/-- An entry is found valid only if everything asked on the way is. -/
theorem plan_earns (r : Reading) (a : Asset) (name : String) (entry : a.kind.Entry) {o : Oracle}
    {value : a.Value} (h : ((r.plan a name entry).examine o).result = .ok (some value)) :
    ∀ question ∈ ((r.plan a name entry).examine o).asked, (o question.1 question.2).IsFound :=
  ((r.compute_inquires a name entry).choose_spec.2.2 o (some value) h ⟨trivial, rfl⟩).2

/-- The value of an entry while others of its asset are under way; none if there is no such entry. -/
def request (r : Reading) : (a : Asset) → (underWay : List String) → String → Resolve (Option a.Value)
  | .metric, underWay, name => resolveMetric r.document.sections.metrics underWay name
  | .color, underWay, name => resolveColor r.metricLookup r.document.sections.colors underWay name
  | .font, underWay, name =>
    resolveFont r.metricLookup r.surroundings.catalog r.document.sections.fonts underWay name
  | .textAttributes, underWay, name =>
    resolveTextAttributes ⟨r.metricLookup, r.color, r.font⟩ r.document.sections.textAttributes underWay name
  | .image, underWay, name =>
    resolveImage ⟨r.metricLookup, r.color, r.document.sections.placements.contains⟩ r.surroundings
      r.document.sections.images underWay name
  | .buttonStyle, underWay, name =>
    match r.document.sections.buttonStyles.find? name with
    | none => return none
    | some entry =>
      if name ∈ underWay then some <$> memoized .buttonStyle name entry true (return none)
      else r.buttonStyle name

theorem request_nil (r : Reading) (a : Asset) (name : String) : r.request a [] name = r.resolve? a name := by
  cases a with
  | buttonStyle =>
    simp only [request, resolve?, buttonStyle, resolveButtonStyle, List.not_mem_nil, if_false]
    cases r.document.sections.buttonStyles.find? name <;> rfl
  | _ => rfl

/-- The names of an asset that are under way for a request that comes from the computation of an entry. -/
def inside (a : Asset) (underWay : List String) (b : Asset) : List String :=
  if b = a then underWay else []

@[simp] theorem inside_same (a : Asset) (underWay : List String) : inside a underWay a = underWay := by
  simp [inside]

/-- The resolvers that the computation of an entry puts its questions to. -/
def resolvers (r : Reading) (a : Asset) (underWay : List String) : Resolvers :=
  fun b name => r.request b (inside a underWay b) name

theorem metric_resolvers_other (r : Reading) {a : Asset} (underWay : List String) (h : a ≠ .metric) :
    (r.resolvers a underWay).metric = r.metricLookup := by
  rw [Resolvers.metric_eq]
  simp only [resolvers, inside, Ne.symm h, if_false]
  rfl

theorem resolvers_other (r : Reading) {a b : Asset} (underWay : List String) (h : b ≠ a) :
    r.resolvers a underWay b = r.resolve? b := by
  funext name
  simp only [resolvers, inside, h, if_false, request_nil]

/-- Every request takes one of three ways: to nothing, to the refusal of a cycle, or into the memo cell. -/
theorem request_eq (r : Reading) (a : Asset) (underWay : List String) (name : String) :
    r.request a underWay name =
      match r.document.entry? a.kind name with
      | none => pure none
      | some entry =>
        if name ∈ underWay then some <$> memoized a name entry true (pure none)
        else some <$> memoized a name entry false (r.compute (r.resolvers a (name :: underWay)) a name entry) := by
  have same (c : Asset) : r.resolvers c (name :: underWay) c = r.request c (name :: underWay) := by
    funext other
    simp only [resolvers, inside_same]
  have other {b c : Asset} (h : b ≠ c) := r.resolvers_other (name :: underWay) h
  have metric {c : Asset} (h : c ≠ .metric) := r.metric_resolvers_other (name :: underWay) h
  cases h : r.document.entry? a.kind name with
  | none =>
    cases a with
    | metric => exact resolveMetric_missing h
    | color => exact resolveColor_missing h
    | font => exact resolveFont_missing h
    | textAttributes => exact resolveTextAttributes_missing h
    | image => exact resolveImage_missing h
    | buttonStyle =>
      change r.document.sections.buttonStyles.find? name = none at h
      simp only [request, h]
  | some entry =>
    cases a with
    | metric =>
      change r.document.sections.metrics.find? name = some entry at h
      rw [request, resolveMetric_found h]
      simp only [compute, Resolvers.metric_eq, same]
      rfl
    | color =>
      change r.document.sections.colors.find? name = some entry at h
      rw [request, resolveColor_found h]
      simp only [compute, metric (by decide : Asset.color ≠ .metric), Resolvers.color_eq, same]
      rfl
    | font =>
      change r.document.sections.fonts.find? name = some entry at h
      rw [request, resolveFont_found h]
      simp only [compute, metric (by decide : Asset.font ≠ .metric), same]
      rfl
    | textAttributes =>
      change r.document.sections.textAttributes.find? name = some entry at h
      rw [request, resolveTextAttributes_found h]
      simp only [compute, TextLayers.References.of, metric (by decide : Asset.textAttributes ≠ .metric), same]
      rw [other (by decide), other (by decide)]
      rfl
    | image =>
      change r.document.sections.images.find? name = some entry at h
      rw [request, resolveImage_found h]
      simp only [compute, ImageLayers.References.of, metric (by decide : Asset.image ≠ .metric), same]
      rw [other (by decide)]
      rfl
    | buttonStyle =>
      change r.document.sections.buttonStyles.find? name = some entry at h
      simp only [request, h, buttonStyle, resolveButtonStyle, compute, ButtonLayers.References.of,
        metric (by decide : Asset.buttonStyle ≠ .metric)]
      rw [other (by decide), other (by decide), other (by decide)]
      rfl

end Reading

/-! ### What a request does -/

namespace Progress

/-- The cell of an entry. -/
def cell (p : Progress) (a : Asset) (name : String) : Cell a.Value := p.store.cell a name

/-- One more event. -/
def record (p : Progress) (e : Event) : Progress := { p with history := e :: p.history }

/-- One cell changed. -/
def modify (p : Progress) (a : Asset) (name : String) (f : Cell a.Value → Cell a.Value) : Progress :=
  { p with store := p.store.modify a name f }

@[simp] theorem cell_record (p : Progress) (e : Event) (a : Asset) (name : String) :
    (p.record e).cell a name = p.cell a name := rfl

@[simp] theorem cell_modify_same (p : Progress) (a : Asset) (name : String)
    (f : Cell a.Value → Cell a.Value) : (p.modify a name f).cell a name = f (p.cell a name) :=
  Store.cell_modify_same ..

theorem cell_modify_other (p : Progress) {a b : Asset} {name other : String} (f : Cell a.Value → Cell a.Value)
    (h : ¬ (b = a ∧ other = name)) : (p.modify a name f).cell b other = p.cell b other := by
  refine Store.cell_modify_other _ _ ?_
  rcases Classical.em (b = a) with hb | hb
  · exact .inr fun hn => h ⟨hb, hn⟩
  · exact .inl hb

/-- Adding dependencies changes no memo. -/
theorem memo_dependOn (p : Progress) (a b : Asset) (name other : String) (dependencies : List Dependency) :
    ((p.modify a name (·.dependOn dependencies)).cell b other).memo = (p.cell b other).memo := by
  by_cases hown : b = a ∧ other = name
  · obtain ⟨rfl, rfl⟩ := hown
    rw [cell_modify_same]
    rfl
  · rw [cell_modify_other _ _ hown]

/-- Settling an entry changes no dependencies. -/
theorem dependencies_settle (p : Progress) (a b : Asset) (name other : String) (sentinel result : Option a.Value) :
    ((p.modify a name (·.settle sentinel result)).cell b other).dependencies = (p.cell b other).dependencies := by
  by_cases hown : b = a ∧ other = name
  · obtain ⟨rfl, rfl⟩ := hown
    rw [cell_modify_same, Cell.settle_dependencies]
  · rw [cell_modify_other _ _ hown]

end Progress

/-! The three ways through a memo cell. -/

theorem Resolve.cell_eq (a : Asset) (name : String) (p : Progress) :
    Resolve.cell a name p = .ok (p.cell a name) p := rfl

section Memoized

variable {a : Asset} {name : String} {entry : a.kind.Entry} {p : Progress}

theorem memoized_loaded {underWay : Bool} {compute : Resolve (Option a.Value)} {value : a.Value}
    (h : (p.cell a name).memo.payload? = some value) :
    memoized a name entry underWay compute p = .ok value p := by
  rw [memoized, bind_of_ok (cell_eq a name p)]
  simp only [h]
  rfl

theorem memoized_underWay {compute : Resolve (Option a.Value)} (h : (p.cell a name).memo.payload? = none) :
    memoized a name entry true compute p =
      .ok a.invalid (p.record (.noticed (.cyclicReference (a.label entry)))) := by
  rw [memoized, bind_of_ok (cell_eq a name p)]
  simp only [h, if_true]
  rfl

theorem memoized_idle {compute : Resolve (Option a.Value)} (h : (p.cell a name).memo.payload? = none) :
    memoized a name entry false compute p =
      match compute (p.record (.started a name)) with
      | .error fault p' => .error fault p'
      | .ok result p' =>
        .ok (result.getD a.invalid)
          ((p'.modify a name (·.settle (some a.invalid) result)).record (.settled a name result.isSome)) := by
  have hstart : Resolve.record (.started a name) p = .ok () (p.record (.started a name)) := rfl
  rw [memoized, bind_of_ok (cell_eq a name p)]
  simp only [h, Bool.false_eq_true, if_false]
  rw [bind_of_ok hstart]
  cases hcompute : compute (p.record (.started a name)) with
  | error fault p' => simp only [bind, EStateM.bind, hcompute]
  | ok result p' => exact bind_of_ok hcompute

end Memoized

/-- What resolvers are occupied with: a request for an entry, or the rest of the inquiry that computes it.
Further names of the asset may be under way. -/
inductive Task (a : Asset) where
  | request (underWay : List String) (name : String)
  | inquiry (underWay : List String) (name : String) (rest : Inquiry (Option a.Value))

/-- How tasks run: from which state, to which result, in which state. -/
inductive Reading.Runs (r : Reading) : (a : Asset) → Task a → Progress →
    EStateM.Result Fault Progress (Option a.Value) → Prop where
  | missing {a : Asset} {underWay : List String} {name : String} {p : Progress}
      (hentry : r.document.entry? a.kind name = none) :
      Runs r a (.request underWay name) p (.ok none p)
  | cached {a : Asset} {underWay : List String} {name : String} {p : Progress} {entry : a.kind.Entry}
      {value : a.Value} (hentry : r.document.entry? a.kind name = some entry)
      (hmemo : (p.cell a name).memo.payload? = some value) :
      Runs r a (.request underWay name) p (.ok (some value) p)
  | cyclic {a : Asset} {underWay : List String} {name : String} {p : Progress} {entry : a.kind.Entry}
      (hentry : r.document.entry? a.kind name = some entry) (hmemo : (p.cell a name).memo.payload? = none)
      (hunder : name ∈ underWay) :
      Runs r a (.request underWay name) p
        (.ok (some a.invalid) (p.record (.noticed (.cyclicReference (a.label entry)))))
  | computed {a : Asset} {underWay : List String} {name : String} {p p' : Progress} {entry : a.kind.Entry}
      {result : Option a.Value} (hentry : r.document.entry? a.kind name = some entry)
      (hmemo : (p.cell a name).memo.payload? = none) (hunder : name ∉ underWay)
      (hrun : Runs r a (.inquiry underWay name (r.plan a name entry)) (p.record (.started a name))
        (.ok result p')) :
      Runs r a (.request underWay name) p
        (.ok (some (result.getD a.invalid))
          ((p'.modify a name (·.settle (some a.invalid) result)).record (.settled a name result.isSome)))
  | aborted {a : Asset} {underWay : List String} {name : String} {p p' : Progress} {entry : a.kind.Entry}
      {fault : Fault} (hentry : r.document.entry? a.kind name = some entry)
      (hmemo : (p.cell a name).memo.payload? = none) (hunder : name ∉ underWay)
      (hrun : Runs r a (.inquiry underWay name (r.plan a name entry)) (p.record (.started a name))
        (.error fault p')) :
      Runs r a (.request underWay name) p (.error fault p')
  | done {a : Asset} {underWay : List String} {name : String} {p : Progress} {value : Option a.Value} :
      Runs r a (.inquiry underWay name (.done value)) p (.ok value p)
  | fail {a : Asset} {underWay : List String} {name : String} {p : Progress} {fault : Fault} :
      Runs r a (.inquiry underWay name (.fail fault)) p (.error fault p)
  | note {a : Asset} {underWay : List String} {name : String} {p : Progress} {notice : Notice}
      {rest : Inquiry (Option a.Value)} {result : EStateM.Result Fault Progress (Option a.Value)}
      (hrun : Runs r a (.inquiry underWay name rest) (p.record (.noticed notice)) result) :
      Runs r a (.inquiry underWay name (.note notice rest)) p result
  | use {a : Asset} {underWay : List String} {name : String} {p : Progress} {dependencies : List Dependency}
      {rest : Inquiry (Option a.Value)} {result : EStateM.Result Fault Progress (Option a.Value)}
      (hrun : Runs r a (.inquiry underWay name rest) (p.modify a name (·.dependOn dependencies)) result) :
      Runs r a (.inquiry underWay name (.use a name dependencies rest)) p result
  | ask {a b : Asset} {underWay : List String} {name other : String} {p p' : Progress}
      {next : Answer b.Value → Inquiry (Option a.Value)} {x : Option b.Value}
      {result : EStateM.Result Fault Progress (Option a.Value)} (hmay : a.MayAsk b)
      (hasked : Runs r b (.request (inside a (name :: underWay) b) other) p (.ok x p'))
      (hrun : Runs r a (.inquiry underWay name (next (.of x (p'.cell b other).memo))) p' result) :
      Runs r a (.inquiry underWay name (.ask b other next)) p result
  | askAborted {a b : Asset} {underWay : List String} {name other : String} {p p' : Progress}
      {next : Answer b.Value → Inquiry (Option a.Value)} {fault : Fault} (hmay : a.MayAsk b)
      (hasked : Runs r b (.request (inside a (name :: underWay) b) other) p (.error fault p')) :
      Runs r a (.inquiry underWay name (.ask b other next)) p (.error fault p')

namespace Reading

theorem runs_inquiry (r : Reading) {a : Asset} {underWay : List String} {name : String}
    (hask : ∀ b, a.MayAsk b → ∀ other p,
      r.Runs b (.request (inside a (name :: underWay) b) other) p
        (r.request b (inside a (name :: underWay) b) other p))
    (t : Inquiry (Option a.Value)) (ht : t.Within a.MayAsk fun b m => b = a ∧ m = name) (p : Progress) :
    r.Runs a (.inquiry underWay name t) p (t.run (r.resolvers a (name :: underWay)) p) := by
  induction t generalizing p with
  | done value => exact .done
  | fail fault => exact .fail
  | note notice rest ih => exact .note (ih ht _)
  | use b other dependencies rest ih =>
    obtain ⟨⟨rfl, rfl⟩, hrest⟩ := ht
    exact .use (ih hrest _)
  | ask b other next ih =>
    have hrequest := hask b ht.1 other p
    simp only [Inquiry.run, Resolvers.answer, resolvers, bind_assoc, pure_bind]
    cases h : r.request b (inside a (name :: underWay) b) other p with
    | error fault p' =>
      rw [h] at hrequest
      simp only [bind, EStateM.bind, h]
      exact .askAborted ht.1 hrequest
    | ok x p' =>
      rw [h] at hrequest
      simp only [bind, EStateM.bind, h]
      exact .ask ht.1 hrequest (ih _ (ht.2 _) p')

/-- Resolvers do what `Runs` says. -/
theorem runs_request (r : Reading) (a : Asset) (underWay : List String) (name : String) (p : Progress) :
    r.Runs a (.request underWay name) p (r.request a underWay name p) := by
  rw [request_eq]
  cases hentry : r.document.entry? a.kind name with
  | none => exact .missing hentry
  | some entry =>
    dsimp only
    by_cases hunder : name ∈ underWay
    · rw [if_pos hunder]
      cases hmemo : (p.cell a name).memo.payload? with
      | some value =>
        simp only [Functor.map, EStateM.map, memoized_loaded hmemo]
        exact .cached hentry hmemo
      | none =>
        simp only [Functor.map, EStateM.map, memoized_underWay hmemo]
        exact .cyclic hentry hmemo hunder
    · rw [if_neg hunder]
      cases hmemo : (p.cell a name).memo.payload? with
      | some value =>
        simp only [Functor.map, EStateM.map, memoized_loaded hmemo]
        exact .cached hentry hmemo
      | none =>
        have hrun := r.runs_inquiry (fun b hb other p => r.runs_request b (inside a (name :: underWay) b) other p)
          (r.plan a name entry) (r.plan_within a name entry) (p.record (.started a name))
        rw [run_plan] at hrun
        simp only [Functor.map, EStateM.map, memoized_idle hmemo]
        cases h : r.compute (r.resolvers a (name :: underWay)) a name entry (p.record (.started a name)) with
        | error fault p' => exact .aborted hentry hmemo hunder (h ▸ hrun)
        | ok result p' => exact .computed hentry hmemo hunder (h ▸ hrun)
termination_by (a.level, (r.document.entries a.kind).idle underWay)
decreasing_by
  rcases hb with rfl | hb
  · rw [inside_same]
    exact .right _ (Mapping.idle_cons_lt hentry hunder)
  · exact .left _ _ hb

/-- A request between calls is one with nothing under way. -/
theorem runs_of_resolve? {r : Reading} {a : Asset} {name : String} {p : Progress}
    {result : EStateM.Result Fault Progress (Option a.Value)} (h : r.resolve? a name p = result) :
    r.Runs a (.request [] name) p result := by
  rw [← h, ← request_nil]
  exact r.runs_request a [] name p

/-- The value that a request between calls returns is the one in the cell. -/
theorem resolve?_payload {r : Reading} {a : Asset} {name : String} {p p' : Progress} {value : a.Value}
    (h : r.resolve? a name p = .ok (some value) p') : (p'.cell a name).memo.payload? = some value := by
  cases runs_of_resolve? h with
  | cached hentry hmemo => exact hmemo
  | cyclic hentry hmemo hunder => cases hunder
  | @computed _ _ _ _ p₁ _ result hentry hmemo hunder hrun =>
    rw [Progress.cell_record, Progress.cell_modify_same, Cell.settle_memo]
    cases result <;> rfl

end Reading

end DesignTokens
