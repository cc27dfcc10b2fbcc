import DesignTokens.Proofs.Resolution.Recorded

/-!
# What is looked at whatever else fails

Text attributes and button styles are gone through to the end. An error is counted and does not keep the rest from being
looked at, so a computation that returns has asked about every entry that is named directly, whatever it has come to.

That is not yet to say that these entries are loaded: text attributes may be asked for while they are under way
themselves, and they are refused then. So at the end of a task what was named is missing, loaded or under way
(`Progress.Met`), which is what one step hands on to the next, and when the outermost request has returned nothing is
under way any more.

* `Puts` — a computation has asked certain questions whenever it returns.
* `Reading.named_asked` — text attributes and button styles ask about all that they name.
* `Reading.Reaches.loads_named` — what requests load has all that it names loaded beside it.
* `Reading.run_known` — what has nothing but loaded entries to ask about is read off the cells as they are.
-/

namespace DesignTokens

open Resolve

variable {α β : Type}

/-- The entry that an item is. Metrics stand in expressions, and placements are not resolved. -/
def Item.named : Item → List (Asset × String)
  | .reference a name => [(a, name)]
  | .element a name => [(a, name)]
  | .metrics _ => []
  | .placement _ => []

/-- The entries that an entry names directly. -/
def Document.named (d : Document) (a : Asset) (entry : a.kind.Entry) : List (Asset × String) :=
  (d.items a entry).flatMap Item.named

/-- What an entry declares for each state. -/
def ButtonStyleEntry.states (entry : ButtonStyleEntry) : List (ButtonState × Option ElementNames) :=
  [(.normal, entry.normalStyle), (.highlighted, entry.highlightedStyle), (.disabled, entry.disabledStyle),
    (.selected, entry.selectedStyle)]

/-! ### Questions that are put in any case -/

/-- A computation from a table has asked certain questions whenever it returns. -/
structure Puts (o : Oracle) (questions : List (Asset × String)) (f : Resolvers → Resolve α) : Prop where
  begun : ∀ ⦃p x p'⦄, f (.probe o) p = .ok x p' → questions ++ p.begun ⊆ p'.begun

namespace Puts

variable {o : Oracle} {questions questions' : List (Asset × String)}

theorem pure {value : α} : Puts o [] fun _ => pure value := by
  refine ⟨fun p x p' h => ?_⟩
  cases h
  exact List.Subset.refl _

theorem warn {notice : Notice} {f : Resolvers → Resolve α} (h : Puts o questions f) :
    Puts o questions (fun q => do Resolve.warn notice; f q) :=
  ⟨fun p _ _ hrun => h.begun (p := p.record (.noticed notice)) hrun⟩

theorem reject {notice : Notice} : Puts o [] fun _ => (reject notice : Resolve (Option α)) := warn pure

theorem dependOn {a : Asset} {name : String} {dependencies : List Dependency} {f : Resolvers → Resolve α}
    (h : Puts o questions f) : Puts o questions (fun q => do Resolve.dependOn a name dependencies; f q) :=
  ⟨fun p _ _ hrun => h.begun (p := p.modify a name (·.dependOn dependencies)) hrun⟩

theorem bind {f : Resolvers → Resolve α} {g : α → Resolvers → Resolve β} (hf : Puts o questions f)
    (hg : ∀ x, Puts o questions' (g x)) : Puts o (questions ++ questions') (fun q => do g (← f q) q) := by
  refine ⟨fun p y p'' h => ?_⟩
  obtain ⟨x, p', hfirst, hrest⟩ := bind_eq_ok_iff.mp h
  have hbefore := hf.begun hfirst
  have hafter := (hg x).begun hrest
  intro question hq
  rw [List.append_assoc] at hq
  rcases List.mem_append.mp hq with hq | hq
  · exact hafter (List.mem_append_right _ (hbefore (List.mem_append_left _ hq)))
  rcases List.mem_append.mp hq with hq | hq
  · exact hafter (List.mem_append_left _ hq)
  · exact hafter (List.mem_append_right _ (hbefore (List.mem_append_right _ hq)))

/-- What comes second has no questions of its own. -/
theorem bindLast {f : Resolvers → Resolve α} {g : α → Resolvers → Resolve β} (hf : Puts o questions f)
    (hg : ∀ x, Puts o [] (g x)) : Puts o questions (fun q => do g (← f q) q) := by
  simpa only [List.append_nil] using bind hf hg

/-- What comes first has no questions of its own. -/
theorem bindRest {f : Resolvers → Resolve α} {g : α → Resolvers → Resolve β} (hf : Puts o [] f)
    (hg : ∀ x, Puts o questions (g x)) : Puts o questions (fun q => do g (← f q) q) := by
  simpa only [List.nil_append] using bind hf hg

theorem weaken {f : Resolvers → Resolve α} (h : Puts o questions f) (hsub : questions' ⊆ questions) :
    Puts o questions' f := by
  refine ⟨fun p x p' hrun => ?_⟩
  have hall := h.begun hrun
  obtain ⟨hquestions, hbefore⟩ := List.append_subset.mp hall
  exact List.append_subset.mpr ⟨List.Subset.trans hsub hquestions, hbefore⟩

/-- An inquiry has asked what it asks. -/
theorem of_run {f : Resolvers → Resolve α} {t : Inquiry α} (hrun : ∀ q, f q = t.run q) :
    Puts o (t.examine o).asked f := by
  refine ⟨fun p x p' h => ?_⟩
  obtain ⟨p₁, hprobe, hbegun⟩ := t.run_probe o p
  rw [hrun, hprobe, Findings.inState] at h
  cases hresult : (t.examine o).result with
  | error fault => simp [hresult] at h
  | ok value =>
    rw [hresult] at h
    cases h
    intro question hq
    rw [hbegun]
    rcases List.mem_append.mp hq with hq | hq
    · exact List.mem_append_left _ (List.mem_reverse.mpr hq)
    · exact List.mem_append_right _ hq

/-- Reading expressions asks nothing in any case, as it may stop at the first word. -/
theorem of_metrics {good : α → Prop} {f : Resolvers → Resolve α}
    (h : Inquires (Eq .metric) (fun _ _ => True) True good f) : Puts o [] f := by
  obtain ⟨t, hrun, -⟩ := h
  exact (of_run hrun).weaken (List.nil_subset _)

theorem fetch (a : Asset) (name key : String) (user : Kind) :
    Puts o [(a, name)] fun q => DesignTokens.fetch a (q a) name key user := by
  refine ⟨fun p x p' h => ?_⟩
  obtain ⟨p₁, hanswer, hbegun⟩ := Resolvers.answer_probe o a name p
  rw [Resolvers.fetch_eq, bind_of_ok hanswer] at h
  have hsame : p'.begun = p₁.begun := by
    cases hx : o a name <;> rw [hx] at h <;> cases h <;> rfl
  rw [hsame, hbegun]
  exact List.Subset.refl _

end Puts

section Parts

variable {o : Oracle}

namespace TextLayers

theorem named_puts (b : Asset) (owner key : String) (value : Json) :
    Puts o ((nameItems b value).flatMap Item.named) fun q => named b (q b) owner key value := by
  cases value with
  | string name => exact .dependOn (.fetch b name key .textAttributes)
  | _ => exact .reject

theorem readAttribute_puts (owner : String) (draft : Draft) (key : String) (value : Json) :
    Puts o ((attributeItems (key, value)).flatMap Item.named)
      fun q => readAttribute (.of q) owner draft key value := by
  unfold readAttribute attributeItems
  dsimp only
  split
  · refine .bindLast (named_puts .font owner key value) fun font => ?_
    cases font with
    | none => exact .pure
    | some font => exact .pure
  split
  · refine .bindLast (named_puts .color owner key value) fun color => ?_
    cases color with
    | none => exact .pure
    | some color => exact .pure
  split
  · refine .bindLast (.of_metrics (Metric.extractOneJson_inquires rfl ..)) fun read => ?_
    rcases read with _ | ⟨tracking, dependencies⟩
    · exact .warn .pure
    · exact .dependOn .pure
  split
  · exact .warn .pure
  · exact .warn .pure

theorem readAttributes_puts (owner : String) (declared : List (String × Json)) (draft : Draft) :
    Puts o ((declared.flatMap attributeItems).flatMap Item.named)
      fun q => readAttributes (.of q) owner declared draft := by
  induction declared generalizing draft with
  | nil => exact .pure
  | cons member rest ih =>
    rw [List.flatMap_cons, List.flatMap_append]
    exact .bind (readAttribute_puts owner draft member.1 member.2) fun draft => ih draft

theorem addKern_puts (draft : Draft) : Puts o [] fun _ => addKern draft := by
  unfold addKern
  split
  · split
    · exact .pure
    · exact .warn .pure
  · exact .pure

/-- Whatever text attributes come to, they have asked about their base, and about their font and colors unless their
attributes are no object. -/
theorem compute_puts (owner : String) (entry : TextAttributesEntry) :
    Puts o ((items entry).flatMap Item.named) fun q => compute (.of q) (q .textAttributes) owner entry := by
  have hbase : Puts o (((entry.basedOn.filter (!·.isEmpty)).toList.map (.reference .textAttributes)).flatMap Item.named)
      fun q => baseDraft (q .textAttributes) owner entry := by
    unfold baseDraft
    cases entry.basedOn.filter (!·.isEmpty) with
    | none => exact .pure
    | some base =>
      refine .dependOn (.bindLast (.fetch .textAttributes base "basedOn" .textAttributes) fun found => ?_)
      cases found with
      | none => exact .pure
      | some found => exact .pure
  unfold items
  rw [List.flatMap_append]
  refine .bind hbase fun base => ?_
  unfold declaredItems
  cases declared? entry with
  | error value => exact .reject
  | ok declared =>
    refine .bindLast (readAttributes_puts owner declared base) fun read => ?_
    refine .bindLast (addKern_puts read) fun draft => ?_
    split
    · exact .pure
    · exact .reject

end TextLayers

namespace ButtonLayers

theorem element_puts (b : Asset) (owner key : String) (name : Option String) :
    Puts o ((name.toList.map (.element b)).flatMap Item.named) fun q => element b (q b) owner key name := by
  cases name with
  | none => exact .pure
  | some name =>
    refine .bindLast (.fetch b name key .buttonStyle) fun found => ?_
    cases found with
    | none => exact .pure
    | some value => exact .dependOn .pure

theorem stateElements_puts (owner : String) (names : ElementNames) :
    Puts o ((elementItems names).flatMap Item.named) fun q => stateElements (.of q) owner names := by
  unfold elementItems
  simp only [List.flatMap_append]
  refine .bind (element_puts .textAttributes owner "titleAttributes" _) fun titleAttributes => ?_
  refine .bind (element_puts .image owner "titleImage" _) fun titleImage => ?_
  refine .bindLast (element_puts .image owner "backgroundImage" _) fun backgroundImage => ?_
  dsimp only
  split
  · exact .pure
  · exact .pure

theorem states_puts (owner : String) (declared : List (ButtonState × Option ElementNames)) :
    Puts o ((stateItems declared).flatMap Item.named) fun q => states (.of q) owner declared := by
  induction declared with
  | nil => exact .pure
  | cons state rest ih =>
    rcases state with ⟨state, _ | names⟩
    · exact ih
    · have hitems : stateItems ((state, some names) :: rest) = elementItems names ++ stateItems rest := by
        simp [stateItems]
      rw [hitems, List.flatMap_append]
      refine .bind (stateElements_puts owner names) fun elements => ?_
      exact .bindLast ih fun others => .pure

theorem contentInsets_puts (owner : String) (raw : Option String) :
    Puts o [] fun q => contentInsets (.of q) owner raw := by
  cases raw with
  | none => exact .pure
  | some raw =>
    refine .bindLast (.of_metrics (Metric.extractInsets_inquires rfl ..)) fun read => ?_
    cases read with
    | none => exact .pure
    | some read => exact .dependOn .pure

/-- What a button style names are the elements of its states and its tint. -/
theorem items_named (entry : ButtonStyleEntry) :
    (items entry).flatMap Item.named = (stateItems entry.states).flatMap Item.named ++
      (entry.tintColor.toList.map (.element .color)).flatMap Item.named := by
  have hmetrics : (entry.contentInsets.toList.map fun raw => Item.metrics (Metric.insetNames raw)).flatMap Item.named =
      [] := by
    cases entry.contentInsets <;> rfl
  unfold items
  rw [List.flatMap_append, List.flatMap_append, hmetrics]
  rfl

/-- Whatever a button style comes to, it has asked about the elements of all states and about its tint. -/
theorem compute_puts (owner : String) (entry : ButtonStyleEntry) :
    Puts o ((items entry).flatMap Item.named) fun q => compute (.of q) owner entry := by
  rw [items_named]
  refine .bind (states_puts owner entry.states) fun states => ?_
  refine .bindRest (contentInsets_puts owner entry.contentInsets) fun insets => ?_
  refine .bindLast (element_puts .color owner "tintColor" entry.tintColor) fun tint => ?_
  dsimp only
  split
  · exact .pure
  · exact .reject

end ButtonLayers

end Parts

/-- The entries that are gone through to the end, however much is wrong with them. -/
def Asset.IsThorough (a : Asset) : Prop := a = .textAttributes ∨ a = .buttonStyle

namespace Reading

variable {r : Reading} {a b : Asset} {name other : String} {underWay : List String} {p p' p'' : Progress}

theorem compute_puts (ha : a.IsThorough) (r : Reading) (o : Oracle) (name : String) (entry : a.kind.Entry) :
    Puts o (r.document.named a entry) fun q => r.compute q a name entry := by
  rcases ha with rfl | rfl
  · exact TextLayers.compute_puts name entry
  · exact ButtonLayers.compute_puts name entry

/-- What is put in any case is asked by the inquiry of an entry when it has come to an end. -/
theorem asked_of_puts {o : Oracle} {entry : a.kind.Entry} {result : Option a.Value}
    {questions : List (Asset × String)} (h : Puts o questions fun q => r.compute q a name entry)
    (hresult : ((r.plan a name entry).examine o).result = .ok result) :
    questions ⊆ ((r.plan a name entry).examine o).asked := by
  obtain ⟨p', hcompute⟩ := result_eq_ok_iff.mp hresult
  rw [(examine_eq_of_compute hcompute).2]
  intro question hq
  exact List.mem_reverse.mpr (h.begun hcompute (List.mem_append_left _ hq))

/-- Text attributes and button styles have asked about all that they name, whatever they have come to. -/
theorem named_asked (ha : a.IsThorough) {o : Oracle} {entry : a.kind.Entry} {result : Option a.Value}
    (hresult : ((r.plan a name entry).examine o).result = .ok result) :
    r.document.named a entry ⊆ ((r.plan a name entry).examine o).asked :=
  asked_of_puts (compute_puts ha r o name entry) hresult

end Reading

/-! ### What is loaded in the end -/

namespace Progress

/-- An entry is missing or loaded. -/
def Known (p : Progress) (d : Document) (question : Asset × String) : Prop :=
  d.entry? question.1.kind question.2 = none ∨ (p.cell question.1 question.2).memo.isLoaded = true

/-- An entry is missing, loaded or under way. -/
def Met (p : Progress) (d : Document) (a : Asset) (underWay : List String) (question : Asset × String) : Prop :=
  p.Known d question ∨ question.1 = a ∧ question.2 ∈ underWay

/-- Everything named by the text attributes and button styles that get loaded between two states is met. -/
def MeetsNamed (p p' : Progress) (d : Document) (a : Asset) (underWay : List String) : Prop :=
  ∀ (b : Asset) (name : String) (entry : b.kind.Entry), b.IsThorough → d.entry? b.kind name = some entry →
    (p.cell b name).memo.isLoaded = false → (p'.cell b name).memo.isLoaded = true →
      ∀ question ∈ d.named b entry, p'.Met d a underWay question

variable {d : Document} {a b : Asset} {underWay : List String} {name : String} {question : Asset × String}
  {p p' p'' : Progress}

/-- Loaded cells stay loaded. -/
def KeepsLoaded (p p' : Progress) : Prop :=
  ∀ a name, (p.cell a name).memo.isLoaded = true → (p'.cell a name).memo.isLoaded = true

theorem KeepsLoaded.settle (p : Progress) (a : Asset) (name : String) (result : Option a.Value) :
    p.KeepsLoaded ((p.modify a name (·.settle (some a.invalid) result)).record (.settled a name result.isSome)) := by
  intro b other hloaded
  rw [cell_record]
  by_cases hown : b = a ∧ other = name
  · obtain ⟨rfl, rfl⟩ := hown
    rw [cell_modify_same]
    exact Cell.isLoaded_settle ..
  · rwa [cell_modify_other _ _ hown]

theorem Known.mono (h : p.Known d question) (hkeeps : p.KeepsLoaded p') : p'.Known d question :=
  h.imp_right (hkeeps _ _)

theorem Met.mono (h : p.Met d a underWay question) (hkeeps : p.KeepsLoaded p') : p'.Met d a underWay question :=
  h.imp_left (·.mono hkeeps)

/-- What a request has met is met by the inquiry that makes it. -/
theorem Met.outside (h : p.Met d b (Reading.inside a underWay b) question) : p.Met d a underWay question := by
  rcases h with hknown | ⟨rfl, hunder⟩
  · exact .inl hknown
  · by_cases hb : question.1 = a
    · subst hb
      rw [Reading.inside_same] at hunder
      exact .inr ⟨rfl, hunder⟩
    · simp [Reading.inside, hb] at hunder

/-- Once an entry is settled it is not under way any more. -/
theorem Met.settled {result : Option a.Value} (h : p.Met d a (name :: underWay) question) :
    ((p.modify a name (·.settle (some a.invalid) result)).record (.settled a name result.isSome)).Met d a underWay
      question := by
  rcases h with hknown | ⟨hasset, hunder⟩
  · exact .inl (hknown.mono (.settle p a name result))
  · obtain ⟨b, other⟩ := question
    obtain rfl : b = a := hasset
    rcases List.mem_cons.mp hunder with rfl | hunder
    · refine .inl (.inr ?_)
      rw [cell_record, cell_modify_same]
      exact Cell.isLoaded_settle ..
    · exact .inr ⟨rfl, hunder⟩

/-- Where nothing gets loaded there is nothing to meet. -/
theorem MeetsNamed.of_memo (h : ∀ b other, (p'.cell b other).memo = (p.cell b other).memo) :
    p.MeetsNamed p' d a underWay := by
  intro b name entry _ _ hempty hloaded
  rw [h, hempty] at hloaded
  cases hloaded

theorem MeetsNamed.trans (h : p.MeetsNamed p' d a underWay) (h' : p'.MeetsNamed p'' d a underWay)
    (hkeeps : p'.KeepsLoaded p'') : p.MeetsNamed p'' d a underWay := by
  intro b name entry hb hentry hempty hloaded question hq
  cases hmiddle : (p'.cell b name).memo.isLoaded with
  | false => exact h' b name entry hb hentry hmiddle hloaded question hq
  | true => exact (h b name entry hb hentry hempty hmiddle question hq).mono hkeeps

end Progress

namespace Reading

open Progress

variable {r : Reading} {a b : Asset} {name other : String} {underWay : List String} {p p' p'' : Progress}

theorem Keeps.loaded {task : Task a} (h : Keeps task p p') : p.KeepsLoaded p' := by
  intro b other hloaded
  cases task with
  | request underWay name => rwa [h b other (.inr hloaded)]
  | inquiry underWay name rest =>
    by_cases hown : b = a ∧ other = name
    · obtain ⟨rfl, rfl⟩ := hown
      rwa [h.1]
    · rwa [h.2 b other hown (.inr hloaded)]

/-- The names under way for what a task asks. -/
def taskNames : Task a → List String
  | .request underWay _ => underWay
  | .inquiry underWay name _ => name :: underWay

/-- An inquiry that has ended has met with all that it has asked about. -/
theorem Partway.met {entry : a.kind.Entry} {result : Option a.Value} {asked : List (Asset × String)}
    {used : List Dependency} (h : r.Partway underWay name entry (.done result) p asked used) :
    ∀ question ∈ asked, p.Met r.document a (name :: underWay) question := by
  intro question hq
  rcases h.fixed question hq with hmissing | hloaded | hbeyond
  · exact .inl (.inl hmissing)
  · exact .inl (.inr hloaded)
  · have hmay : a.MayAsk question.1 := by
      refine (r.plan_within a name entry).asked (p.answers r.document) question ?_
      rw [h.done]
      exact hq
    rcases hmay with hsame | hlevel
    · exact .inr ⟨hsame, hbeyond.2 hsame⟩
    · exact absurd hlevel hbeyond.1

/-- A task that returns has met with all that is named by what it has loaded. -/
theorem Runs.meetsNamed {task : Task a} {x : Option a.Value} (h : r.Runs a task p (.ok x p')) :
    p.MeetsNamed p' r.document a (taskNames task) := by
  generalize hresult : EStateM.Result.ok x p' = result at h
  induction h generalizing p' with
  | missing _ => cases hresult; exact .of_memo fun _ _ => rfl
  | cached _ _ => cases hresult; exact .of_memo fun _ _ => rfl
  | cyclic _ _ _ => cases hresult; exact .of_memo fun _ _ => rfl
  | @computed a underWay name p p₁ entry result hentry hmemo _ hrun ih =>
    cases hresult
    obtain ⟨asked, used, hdone⟩ := hrun.partway (.start hentry hmemo)
    intro b last entry' hb hentry' hempty hloaded question hq
    by_cases hown : b = a ∧ last = name
    · obtain ⟨rfl, rfl⟩ := hown
      obtain rfl : entry = entry' := Option.some.inj (hentry.symm.trans hentry')
      have hasked := named_asked hb (congrArg Findings.result hdone.done) hq
      rw [hdone.done] at hasked
      exact (hdone.met question hasked).settled
    · rw [cell_record, cell_modify_other _ _ hown] at hloaded
      exact (ih rfl b last entry' hb hentry' hempty hloaded question hq).settled
  | aborted _ _ _ _ _ => cases hresult
  | done => cases hresult; exact .of_memo fun _ _ => rfl
  | fail => cases hresult
  | note _ ih => exact ih hresult
  | use _ ih =>
    intro b last entry hb hentry hempty hloaded
    exact ih hresult b last entry hb hentry (by rwa [memo_dependOn]) hloaded
  | ask hmay hasked hrun ihasked ihrun =>
    subst hresult
    have hfirst := ihasked rfl
    refine MeetsNamed.trans ?_ (ihrun rfl) hrun.keeps.loaded
    intro b last entry hb hentry hempty hloaded question hq
    exact (hfirst b last entry hb hentry hempty hloaded question hq).outside
  | askAborted _ _ _ => cases hresult

/-- What is named by text attributes and button styles that requests have loaded is loaded when they have returned. -/
theorem Reaches.loads_named (h : r.Reaches p p') {entry : a.kind.Entry} (ha : a.IsThorough)
    (hentry : r.document.entry? a.kind name = some entry) (hempty : (p.cell a name).memo.isLoaded = false)
    (hloaded : (p'.cell a name).memo.isLoaded = true) :
    ∀ question ∈ r.document.named a entry, p'.Known r.document question := by
  induction h with
  | refl p =>
    rw [hempty] at hloaded
    cases hloaded
  | notice n _ ih => exact ih hempty hloaded
  | @request p p₁ p' b last x hrequest hrest ih =>
    cases hmiddle : (p₁.cell a name).memo.isLoaded with
    | false => exact ih hmiddle hloaded
    | true =>
      have hruns := runs_of_resolve? hrequest
      intro question hq
      have hkeeps : p₁.KeepsLoaded p' := fun c other hloaded => by rwa [hrest.keeps hloaded]
      rcases hruns.meetsNamed a name entry ha hentry hempty hmiddle question hq with hknown | ⟨-, hunder⟩
      · exact hknown.mono hkeeps
      · cases hunder

end Reading

/-! ### Inquiries in the cells as they are -/

namespace Reading

open Progress

variable {r : Reading} {a : Asset} {name : String} {p : Progress}

theorem Runs.resolve?_eq {result : EStateM.Result Fault Progress (Option a.Value)}
    (h : r.Runs a (.request [] name) p result) : r.resolve? a name p = result := by
  rw [← request_nil]
  exact h.run_eq

/-- What is missing or loaded is answered at once. -/
theorem answer_known (h : p.Known r.document (a, name)) :
    Resolvers.answer r.resolve? a name p = .ok (p.answers r.document a name) p := by
  cases hentry : r.document.entry? a.kind name with
  | none =>
    have hruns : r.Runs a (.request [] name) p (.ok none p) := .missing hentry
    rw [Resolvers.answer, bind_of_ok hruns.resolve?_eq, answers_missing hentry]
    rfl
  | some entry =>
    have hloaded : (p.cell a name).memo.isLoaded = true := by
      rcases h with hmissing | hloaded
      · cases hentry.symm.trans hmissing
      · exact hloaded
    obtain ⟨value, hpayload⟩ := Option.isSome_iff_exists.mp hloaded
    have hruns : r.Runs a (.request [] name) p (.ok (some value) p) := .cached hentry hpayload
    rw [Resolvers.answer, bind_of_ok hruns.resolve?_eq, answers_present hentry value]
    rfl

/-- An inquiry that asks about nothing but what is missing or loaded changes no cells. -/
theorem run_known {α : Type} {asks : Asset → Prop} {t : Inquiry α} (ht : t.Within asks fun _ _ => False)
    (hknown : ∀ question ∈ (t.examine (p.answers r.document)).asked, p.Known r.document question) :
    ∃ p', t.run r.resolve? p = (t.examine (p.answers r.document)).inState p' ∧ p'.store = p.store := by
  induction t generalizing p with
  | done value => exact ⟨p, rfl, rfl⟩
  | fail fault => exact ⟨p, rfl, rfl⟩
  | note notice rest ih => exact ih (p := p.record (.noticed notice)) ht hknown
  | use b other dependencies rest ih => exact ht.1.elim
  | ask b other next ih =>
    have hanswer := answer_known (hknown (b, other) (List.mem_cons_self ..))
    obtain ⟨p', hrun, hstore⟩ := ih _ (ht.2 _) fun question hq => hknown question (List.mem_cons_of_mem _ hq)
    exact ⟨p', (bind_of_ok hanswer).trans hrun, hstore⟩

end Reading

end DesignTokens
