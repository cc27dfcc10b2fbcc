import DesignTokens.Proofs.Metric.Readers
import DesignTokens.Proofs.Resolution.Alias
import DesignTokens.Proofs.Resolution.Consulted

/-!
# Valid button styles

A button style counts its errors in three loops, over its states, the elements of a state and what all states share. It
is valid exactly if the count is zero, that is if everything that it names is there and valid and its insets can be
read; one bad state is enough to spoil the others. A state without elements is left out, which is no error, so the
states of a valid style are those that name an element.

No other entry refers to a button style. What a style has asked about is therefore never under way when the style is
settled, and its answers are final: a loaded style is always what its inquiry finds in the cells as they are
(`Progress.Concluded`).

* `ButtonLayers.compute_outcome` — what a computation comes to.
* `Document.concluded_of_reachable` — loaded styles in every state.
* `Document.named_loaded_and_decisive` — what is named is loaded in the end, and it decides about button styles.
-/

namespace DesignTokens

open Resolve

/-! ### What is named and what is found -/

/-- The value that is found. -/
def Answer.value? {α : Type} : Answer α → Option α
  | .found value => some value
  | _ => none

/-- Everything asked about is found. -/
def Oracle.FindsAll (o : Oracle) (questions : List (Asset × String)) : Prop :=
  ∀ question ∈ questions, (o question.1 question.2).IsFound

theorem Oracle.findsAll_append {o : Oracle} {questions questions' : List (Asset × String)} :
    o.FindsAll (questions ++ questions') ↔ o.FindsAll questions ∧ o.FindsAll questions' :=
  List.forall_mem_append

namespace ElementNames

/-- No element is named. -/
def isEmpty (names : ElementNames) : Bool :=
  names.titleAttributes.isNone && names.titleImage.isNone && names.backgroundImage.isNone

/-- The values of the named elements. -/
def elements (value? : (a : Asset) → String → Option a.Value) (names : ElementNames) : ButtonElements where
  titleAttributes := names.titleAttributes.bind (value? .textAttributes)
  titleImage := names.titleImage.bind (value? .image)
  backgroundImage := names.backgroundImage.bind (value? .image)

end ElementNames

namespace ButtonState

/-- The states that name an element, with the values of what they name. -/
def elements (value? : (a : Asset) → String → Option a.Value)
    (declared : List (ButtonState × Option ElementNames)) : List (ButtonState × ButtonElements) :=
  declared.filterMap fun state =>
    (state.2.filter (!·.isEmpty)).map fun names => (state.1, names.elements value?)

theorem elements_cons (value? : (a : Asset) → String → Option a.Value) (state : ButtonState) (names : ElementNames)
    (rest : List (ButtonState × Option ElementNames)) :
    elements value? ((state, some names) :: rest) =
      ((if names.isEmpty then none else some (names.elements value?)).map (state, ·)).toList ++
        elements value? rest := by
  unfold elements
  rw [List.filterMap_cons]
  cases hempty : names.isEmpty <;> simp [Option.filter, hempty]

end ButtonState

/-! ### The count of errors -/

namespace Metric

/-- The inquiry that reads the content insets of a button style. -/
noncomputable def insetsPlan (raw : String) : Inquiry (Option Extraction) :=
  (extractInsets_inquires rfl "button style contentInsets" raw :
    Inquires (Eq .metric) (fun _ _ => False) True _ _).choose

theorem run_insetsPlan (raw : String) (q : Resolvers) :
    extractInsets q.metric "button style contentInsets" raw = (insetsPlan raw).run q :=
  (extractInsets_inquires rfl "button style contentInsets" raw :
    Inquires (Eq .metric) (fun _ _ => False) True _ _).choose_spec.1 q

theorem insetsPlan_within (raw : String) : (insetsPlan raw).Within (Eq .metric) fun _ _ => False :=
  (extractInsets_inquires rfl "button style contentInsets" raw :
    Inquires (Eq .metric) (fun _ _ => False) True _ _).choose_spec.2.1

/-- Insets are read with the answers of a table. -/
def ReadsInsets (o : Oracle) (raw : String) : Prop :=
  ∃ read, ((insetsPlan raw).examine o).result = .ok (some read)

theorem readsInsets_iff {o : Oracle} {raw : String} {x : Option Extraction} {p p' : Progress}
    (h : extractInsets (Resolvers.probe o).metric "button style contentInsets" raw p = .ok x p') :
    ReadsInsets o raw ↔ x.isSome = true := by
  obtain ⟨p₁, hrun, -⟩ := (insetsPlan raw).run_probe o p
  rw [← run_insetsPlan, h, Findings.inState] at hrun
  unfold ReadsInsets
  cases hresult : ((insetsPlan raw).examine o).result with
  | error fault => simp [hresult] at hrun
  | ok y =>
    rw [hresult] at hrun
    cases hrun
    cases x <;> simp

end Metric

namespace ButtonLayers

variable {o : Oracle} {owner key : String} {p p' : Progress} {errors : Nat}

theorem element_outcome {a : Asset} {name : Option String} {x : Option a.Value}
    (h : element a (Resolvers.probe o a) owner key name p = .ok (x, errors) p') :
    x = name.bind (fun other => (o a other).value?) ∧
      (errors = 0 ↔ o.FindsAll ((name.toList.map (.element a)).flatMap Item.named)) := by
  cases name with
  | none =>
    cases h
    exact ⟨rfl, iff_of_true rfl (by simp [Oracle.FindsAll])⟩
  | some other =>
    have hall : o.FindsAll (((some other).toList.map (.element a)).flatMap Item.named) ↔ (o a other).IsFound := by
      simp [Oracle.FindsAll, Item.named]
    rw [hall]
    obtain ⟨found, p₁, hfetch, h⟩ := bind_eq_ok_iff.mp h
    by_cases hfound : (o a other).IsFound
    · obtain ⟨value, hvalue⟩ := hfound
      obtain ⟨p₂, hagain⟩ := Resolvers.fetch_probe_found hvalue key .buttonStyle p
      rw [hagain] at hfetch
      cases hfetch
      cases h
      exact ⟨by rw [Option.bind_some, hvalue]; rfl, iff_of_true rfl ⟨value, hvalue⟩⟩
    · obtain ⟨p₂, hagain, -⟩ := Resolvers.fetch_probe hfound key .buttonStyle p
      rw [hagain] at hfetch
      cases hfetch
      cases h
      refine ⟨?_, iff_of_false Nat.one_ne_zero hfound⟩
      cases hx : o a other with
      | found value => exact absurd ⟨value, hx⟩ hfound
      | _ => rw [Option.bind_some, hx]; rfl

/-- The element is there exactly if it is named, when it is found. -/
theorem isNone_of_findsAll {a : Asset} {name : Option String}
    (h : o.FindsAll ((name.toList.map (.element a)).flatMap Item.named)) :
    (name.bind fun other => (o a other).value?).isNone = name.isNone := by
  cases name with
  | none => rfl
  | some other =>
    obtain ⟨value, hvalue⟩ := h (a, other) (by simp [Item.named])
    rw [Option.bind_some, hvalue]
    rfl

theorem stateElements_outcome {names : ElementNames} {x : Option ButtonElements}
    (h : stateElements (.of (.probe o)) owner names p = .ok (x, errors) p') :
    (errors = 0 ↔ o.FindsAll ((elementItems names).flatMap Item.named)) ∧
      (errors = 0 → x = if names.isEmpty then none else some (names.elements fun a name => (o a name).value?)) := by
  obtain ⟨⟨titleAttributes, e₁⟩, p₁, h₁, h⟩ := bind_eq_ok_iff.mp h
  obtain ⟨⟨titleImage, e₂⟩, p₂, h₂, h⟩ := bind_eq_ok_iff.mp h
  obtain ⟨⟨backgroundImage, e₃⟩, p₃, h₃, h⟩ := bind_eq_ok_iff.mp h
  obtain ⟨rfl, hfirst⟩ := element_outcome (a := .textAttributes) h₁
  obtain ⟨rfl, hsecond⟩ := element_outcome (a := .image) h₂
  obtain ⟨rfl, hthird⟩ := element_outcome (a := .image) h₃
  have hall : o.FindsAll ((elementItems names).flatMap Item.named) ↔ e₁ + e₂ + e₃ = 0 := by
    unfold elementItems
    rw [List.flatMap_append, List.flatMap_append, Oracle.findsAll_append, Oracle.findsAll_append, ← hfirst, ← hsecond,
      ← hthird]
    omega
  have hempty (hsum : e₁ + e₂ + e₃ = 0) :
      (names.elements fun a name => (o a name).value?).isEmpty = names.isEmpty := by
    obtain ⟨⟨hzero₁, hzero₂⟩, hzero₃⟩ : (e₁ = 0 ∧ e₂ = 0) ∧ e₃ = 0 := by omega
    simp only [ButtonElements.isEmpty, ElementNames.elements, ElementNames.isEmpty,
      isNone_of_findsAll (hfirst.mp hzero₁), isNone_of_findsAll (hsecond.mp hzero₂),
      isNone_of_findsAll (hthird.mp hzero₃)]
  dsimp only at h
  split at h
  · next hnone =>
    cases h
    refine ⟨hall.symm, fun hsum => ?_⟩
    have helements := hnone.resolve_left (not_not.mpr hsum)
    rw [if_pos ((hempty hsum).symm.trans helements)]
  · next hsome =>
    cases h
    obtain ⟨hsum, hsome⟩ := not_or.mp hsome
    have hzero : e₁ + e₂ + e₃ = 0 := not_not.mp hsum
    refine ⟨iff_of_true rfl (hall.mpr hzero), fun _ => ?_⟩
    have hnonempty : ¬ names.isEmpty = true := fun hnames => hsome ((hempty hzero).trans hnames)
    rw [if_neg hnonempty]
    rfl

theorem states_outcome {declared : List (ButtonState × Option ElementNames)}
    {x : List (ButtonState × ButtonElements)}
    (h : states (.of (.probe o)) owner declared p = .ok (x, errors) p') :
    (errors = 0 ↔ o.FindsAll ((stateItems declared).flatMap Item.named)) ∧
      (errors = 0 → x = ButtonState.elements (fun a name => (o a name).value?) declared) := by
  induction declared generalizing p x errors with
  | nil =>
    cases h
    exact ⟨iff_of_true rfl (by simp [Oracle.FindsAll, stateItems]), fun _ => rfl⟩
  | cons state rest ih =>
    rcases state with ⟨state, _ | names⟩
    · exact ih h
    · obtain ⟨⟨elements, e₁⟩, p₁, h₁, h⟩ := bind_eq_ok_iff.mp h
      obtain ⟨⟨others, e₂⟩, p₂, h₂, h⟩ := bind_eq_ok_iff.mp h
      cases h
      obtain ⟨hfirst, helements⟩ := stateElements_outcome h₁
      obtain ⟨hrest, hothers⟩ := ih h₂
      have hitems : stateItems ((state, some names) :: rest) = elementItems names ++ stateItems rest := by
        simp [stateItems]
      refine ⟨?_, fun hzero => ?_⟩
      · rw [hitems, List.flatMap_append, Oracle.findsAll_append, ← hfirst, ← hrest]
        omega
      · obtain ⟨hzero₁, hzero₂⟩ : e₁ = 0 ∧ e₂ = 0 := by omega
        rw [helements hzero₁, hothers hzero₂, ButtonState.elements_cons]

theorem contentInsets_outcome {raw : Option String} {x : Option Insets}
    (h : contentInsets (.of (.probe o)) owner raw p = .ok (x, errors) p') :
    errors = 0 ↔ ∀ text ∈ raw, Metric.ReadsInsets o text := by
  cases raw with
  | none =>
    cases h
    exact iff_of_true rfl (by simp)
  | some text =>
    obtain ⟨read, p₁, hread, h⟩ := bind_eq_ok_iff.mp h
    have hreads := Metric.readsInsets_iff hread
    cases read with
    | none =>
      cases h
      exact iff_of_false Nat.one_ne_zero fun hall => Bool.false_ne_true (hreads.mp (hall text rfl))
    | some read =>
      cases h
      refine iff_of_true rfl fun other hother => ?_
      cases hother
      exact hreads.mpr rfl

/-- A button style comes to something exactly if all that it names is found and its insets are read, and then its
states are those that name an element. -/
theorem compute_outcome {entry : ButtonStyleEntry} {result : Option ButtonStyle}
    (h : compute (.of (.probe o)) owner entry p = .ok result p') :
    (result.isSome = true ↔ o.FindsAll ((items entry).flatMap Item.named) ∧
        ∀ raw ∈ entry.contentInsets, Metric.ReadsInsets o raw) ∧
      ∀ style ∈ result, style.states = ButtonState.elements (fun a name => (o a name).value?) entry.states := by
  obtain ⟨⟨found, e₁⟩, p₁, h₁, h⟩ := bind_eq_ok_iff.mp h
  obtain ⟨⟨insets, e₂⟩, p₂, h₂, h⟩ := bind_eq_ok_iff.mp h
  obtain ⟨⟨tint, e₃⟩, p₃, h₃, h⟩ := bind_eq_ok_iff.mp h
  obtain ⟨hstates, helements⟩ := states_outcome h₁
  have hinsets := contentInsets_outcome h₂
  obtain ⟨-, htint⟩ := element_outcome (a := .color) h₃
  have hall : (o.FindsAll ((items entry).flatMap Item.named) ∧
      ∀ raw ∈ entry.contentInsets, Metric.ReadsInsets o raw) ↔ e₁ + e₂ + e₃ = 0 := by
    rw [items_named, Oracle.findsAll_append, ← htint, ← hinsets]
    have hcount : e₁ = 0 ↔ o.FindsAll ((stateItems entry.states).flatMap Item.named) := hstates
    rw [← hcount]
    omega
  rw [hall]
  dsimp only at h
  split at h
  · next hzero =>
    cases h
    refine ⟨iff_of_true rfl hzero, fun style hstyle => ?_⟩
    cases hstyle
    exact helements (by omega)
  · next hsome =>
    cases h
    exact ⟨iff_of_false Bool.false_ne_true hsome, fun style hstyle => nomatch hstyle⟩

/-- A button style that comes to an end has asked what reading its insets asks. -/
theorem compute_puts_insets (o : Oracle) (owner : String) {entry : ButtonStyleEntry} {raw : String}
    (hraw : entry.contentInsets = some raw) :
    Puts o ((Metric.insetsPlan raw).examine o).asked fun q => compute (.of q) owner entry := by
  have hinsets : Puts o ((Metric.insetsPlan raw).examine o).asked
      fun q => contentInsets (.of q) owner entry.contentInsets := by
    rw [hraw]
    refine .bindLast (.of_run (Metric.run_insetsPlan raw)) fun read => ?_
    cases read with
    | none => exact .pure
    | some read => exact .dependOn .pure
  have hstates : Puts o [] fun q => states (.of q) owner entry.states :=
    (states_puts owner entry.states).weaken (List.nil_subset _)
  have htint : Puts o [] fun q => element .color (q .color) owner "tintColor" entry.tintColor :=
    (element_puts .color owner "tintColor" entry.tintColor).weaken (List.nil_subset _)
  refine .bindRest hstates fun found => .bindLast hinsets fun insets => .bindLast htint fun tint => ?_
  dsimp only
  split
  · exact .pure
  · exact .reject

end ButtonLayers

variable {d : Document} {within : Surroundings → Prop} {p p' : Progress}

theorem Metric.readsInsets_iff_accepts {raw : String}
    (hknown : ∀ question ∈ ((insetsPlan raw).examine (p.answers d)).asked, p.Known d question) :
    ReadsInsets (p.answers d) raw ↔
      (extractInsets (lookup d.sections.metrics) "button style contentInsets" raw).Accepts p := by
  let r : Reading := ⟨d, ⟨none, .builtIn, .empty⟩⟩
  have hsame : extractInsets (lookup d.sections.metrics) "button style contentInsets" raw =
      (insetsPlan raw).run r.resolve? := by
    rw [← run_insetsPlan, r.metric_resolve?]
    rfl
  obtain ⟨p', hrun, hstore⟩ := Reading.run_known (r := r) (insetsPlan_within raw) hknown
  rw [hsame]
  constructor
  · rintro ⟨read, hread⟩
    refine ⟨read, p'.store, p', ?_, rfl⟩
    rw [hrun, Findings.inState]
    simp only [r, hread]
  · rintro ⟨read, cells, p₁, hyields, -⟩
    rw [hrun, Findings.inState] at hyields
    cases hresult : ((insetsPlan raw).examine (p.answers r.document)).result with
    | error fault => simp [hresult] at hyields
    | ok x =>
      rw [hresult] at hyields
      cases hyields
      exact ⟨read, hresult⟩

/-! ### Loaded styles -/

namespace Progress

variable {name : String} {entry : ButtonStyleEntry}

/-- The inquiry of a style finds, with the cells as they are, what the cell of the style holds, and all that it asks
about is missing or loaded. -/
def Concluded (p : Progress) (d : Document) (within : Surroundings → Prop) (name : String)
    (entry : ButtonStyleEntry) : Prop :=
  ∃ s, within s ∧
    ((Reading.plan ⟨d, s⟩ .buttonStyle name entry).examine (p.answers d)).result =
      .ok (p.cell .buttonStyle name).memo.value? ∧
    ∀ question ∈ ((Reading.plan ⟨d, s⟩ .buttonStyle name entry).examine (p.answers d)).asked, p.Known d question

/-- A style stays concluded as long as loaded cells are kept. -/
theorem Concluded.mono (h : p.Concluded d within name entry)
    (hloaded : (p.cell .buttonStyle name).memo.isLoaded = true)
    (hkeeps : ∀ a other, (p.cell a other).memo.isLoaded = true → (p'.cell a other).memo = (p.cell a other).memo) :
    p'.Concluded d within name entry := by
  obtain ⟨s, hs, hresult, hknown⟩ := h
  have hsame : (Reading.plan ⟨d, s⟩ .buttonStyle name entry).examine (p'.answers d) =
      (Reading.plan ⟨d, s⟩ .buttonStyle name entry).examine (p.answers d) := by
    refine Inquiry.examine_congr _ fun question hq => ?_
    rcases hknown question hq with hmissing | hquestion
    · rw [answers_missing hmissing, answers_missing hmissing]
    · exact answers_congr (hkeeps _ _ hquestion)
  have hkept : p.KeepsLoaded p' := fun a other hother => by rwa [hkeeps a other hother]
  refine ⟨s, hs, ?_, ?_⟩
  · rw [hsame, hresult, hkeeps _ _ hloaded]
  · rw [hsame]
    exact fun question hq => (hknown question hq).mono hkept

/-- A style that is settled is concluded: of what it has asked about nothing is under way, since no style asks about
another one. -/
theorem concluded_of_partway {s : Surroundings} (hs : within s) {underWay : List String} {result : Option ButtonStyle}
    {asked : List (Asset × String)} {used : List Dependency}
    (h : Reading.Partway (a := .buttonStyle) ⟨d, s⟩ underWay name entry (.done result) p asked used) :
    (p.modify .buttonStyle name (·.settle (some ButtonStyle.invalid) result)).Concluded d within name entry := by
  have hsettled : (Reading.plan ⟨d, s⟩ .buttonStyle name entry).examine
      ((p.modify .buttonStyle name (·.settle (some ButtonStyle.invalid) result)).answers d) =
      ⟨.ok result, asked, used⟩ := h.examine_settled
  refine ⟨s, hs, ?_, fun question hq => ?_⟩
  · rw [hsettled, cell_modify_same]
    cases result <;> rfl
  · rw [hsettled] at hq
    rcases h.met question hq with hknown | ⟨hstyle, -⟩
    · exact hknown.mono (KeepsLoaded.settle p .buttonStyle name result)
    · obtain ⟨b, other⟩ := question
      obtain rfl : b = .buttonStyle := hstyle
      have hasked : (.buttonStyle, other) ∈
          ((Reading.plan ⟨d, s⟩ .buttonStyle name entry).examine (p.answers d)).asked := by
        rw [h.done]
        exact hq
      cases Reading.mem_references_of_asked hasked

end Progress

namespace Document

open Progress

theorem maintains_concluded (d : Document) (within : Surroundings → Prop) :
    d.Maintains within fun p => ∀ name entry, d.sections.buttonStyles.find? name = some entry →
      (p.cell .buttonStyle name).memo.isLoaded = true → p.Concluded d within name entry where
  start name entry _ hloaded := by
    rw [cell_start] at hloaded
    cases hloaded
  record _ _ h := h
  dependOn p a name dependencies _ h last entry hentry hloaded := by
    rw [memo_dependOn] at hloaded
    exact (h last entry hentry hloaded).mono hloaded fun _ _ _ => memo_dependOn ..
  settle s p a underWay name entry result asked used hs _ _ hdone h last entry' hentry hloaded := by
    by_cases hown : Asset.buttonStyle = a ∧ last = name
    · obtain ⟨rfl, rfl⟩ := hown
      obtain rfl : entry' = entry := Option.some.inj (hentry.symm.trans hdone.present)
      exact concluded_of_partway hs hdone
    · have hkeeps (b : Asset) (other : String) (hother : (p.cell b other).memo.isLoaded = true) :
          ((p.modify a name (·.settle (some a.invalid) result)).cell b other).memo = (p.cell b other).memo := by
        rw [cell_modify_loaded hdone.notLoaded hother]
      rw [cell_modify_other _ _ hown] at hloaded
      exact (h last entry' hentry hloaded).mono hloaded hkeeps

/-- In every state of a document loaded styles are concluded. -/
theorem concluded_of_reachable (h : d.Reachable within p) {name : String} {entry : ButtonStyleEntry}
    (hentry : d.sections.buttonStyles.find? name = some entry)
    (hloaded : (p.cell .buttonStyle name).memo.isLoaded = true) : p.Concluded d within name entry :=
  (h.invariant (maintains_concluded d within).upholds).2 name entry hentry hloaded

end Document

namespace Progress.Founded

variable {a : Asset} {name : String}

/-- What is found is what valid cells hold. -/
theorem value?_answers (h : p.Founded d within) (a : Asset) (name : String) :
    (p.answers d a name).value? = (p.cell a name).memo.value? := by
  cases hentry : d.entry? a.kind name with
  | some entry =>
    rw [answers_present hentry a.invalid]
    cases hmemo : (p.cell a name).memo <;> rfl
  | none =>
    rw [answers_missing hentry]
    cases hmemo : (p.cell a name).memo with
    | valid value =>
      have hpresent := (h.stands a name (by rw [hmemo]; rfl)).present
      rw [hentry] at hpresent
      cases hpresent
    | _ => rfl

theorem isFound_answers_iff (h : p.Founded d within) :
    (p.answers d a name).IsFound ↔ (d.entry? a.kind name).isSome = true ∧ (p.cell a name).memo.isValid = true := by
  constructor
  · rintro ⟨value, hvalue⟩
    have hvalid : (p.cell a name).memo.isValid = true := by
      rw [memo_of_answers hvalue]
      rfl
    exact ⟨(h.stands a name hvalid).present, hvalid⟩
  · rintro ⟨hpresent, hvalid⟩
    obtain ⟨entry, hentry⟩ := Option.isSome_iff_exists.mp hpresent
    rw [answers_present hentry a.invalid]
    cases hmemo : (p.cell a name).memo <;> rw [hmemo] at hvalid <;> cases hvalid
    exact ⟨_, rfl⟩

end Progress.Founded

namespace Progress.Concluded

variable {name : String} {entry : ButtonStyleEntry}

/-- A concluded style is valid exactly if all that it names is there and valid and its insets can be read. -/
theorem isValid_iff (h : p.Concluded d within name entry) (hf : p.Founded d within) :
    (p.cell .buttonStyle name).memo.isValid = true ↔
      (∀ question ∈ d.named .buttonStyle entry, (d.entry? question.1.kind question.2).isSome = true ∧
        (p.cell question.1 question.2).memo.isValid = true) ∧
      ∀ raw ∈ entry.contentInsets, (Metric.extractInsets (Metric.lookup d.sections.metrics)
        "button style contentInsets" raw).Accepts p := by
  obtain ⟨s, -, hresult, hknown⟩ := h
  obtain ⟨p₁, hcompute⟩ := Reading.result_eq_ok_iff.mp hresult
  obtain ⟨hvalid, -⟩ := ButtonLayers.compute_outcome hcompute
  have hmemo : (p.cell .buttonStyle name).memo.isValid = (p.cell .buttonStyle name).memo.value?.isSome := by
    cases (p.cell .buttonStyle name).memo <;> rfl
  rw [hmemo, hvalid]
  refine and_congr (forall₂_congr fun question _ => hf.isFound_answers_iff) (forall₂_congr fun raw hraw => ?_)
  have hputs := ButtonLayers.compute_puts_insets (p.answers d) name hraw
  exact Metric.readsInsets_iff_accepts fun question hq => hknown question (Reading.asked_of_puts hputs hresult hq)

/-- The states of a concluded style that is valid are those that name an element. -/
theorem states_eq (h : p.Concluded d within name entry) (hf : p.Founded d within) {style : ButtonStyle}
    (hmemo : (p.cell .buttonStyle name).memo = .valid style) :
    style.states = ButtonState.elements (fun a other => (p.cell a other).memo.value?) entry.states := by
  obtain ⟨s, -, hresult, -⟩ := h
  obtain ⟨p₁, hcompute⟩ := Reading.result_eq_ok_iff.mp hresult
  obtain ⟨-, hstates⟩ := ButtonLayers.compute_outcome hcompute
  have hvalues : (fun a other => (p.answers d a other).value?) = fun a other => (p.cell a other).memo.value? := by
    funext a other
    exact hf.value?_answers a other
  rw [← hvalues]
  refine hstates style ?_
  rw [hmemo]
  rfl

end Progress.Concluded

namespace Document

open Progress

/-- When a call has returned, every entry that is named by text attributes or by a button style which the call has
loaded is loaded as well if it exists, whatever else was wrong with what names it. And in every state of a document a
loaded button style is valid exactly if everything it names exists and is valid and its content insets, if there are
any, can be read; its states are then those that name an element, each with the values of what it names. Attributes that
are no object name nothing. -/
theorem named_loaded_and_decisive (d : Document) (within : Surroundings → Prop) :
    (∀ (s : Surroundings) (call : Call) (p p' : Progress), call.run ⟨d, s⟩ p = .ok () p' →
      ∀ (a : Asset) (name : String) (entry : a.kind.Entry), a = .textAttributes ∨ a = .buttonStyle →
        d.entry? a.kind name = some entry →
        (p.cell a name).memo.isLoaded = false → (p'.cell a name).memo.isLoaded = true →
        ∀ question ∈ d.named a entry, (d.entry? question.1.kind question.2).isSome = true →
          (p'.cell question.1 question.2).memo.isLoaded = true) ∧
    ∀ (p : Progress), d.Reachable within p → ∀ (name : String) (entry : ButtonStyleEntry),
      d.sections.buttonStyles.find? name = some entry → (p.cell .buttonStyle name).memo.isLoaded = true →
      ((p.cell .buttonStyle name).memo.isValid = true ↔
        (∀ question ∈ d.named .buttonStyle entry, (d.entry? question.1.kind question.2).isSome = true ∧
          (p.cell question.1 question.2).memo.isValid = true) ∧
        ∀ raw ∈ entry.contentInsets, (Metric.extractInsets (Metric.lookup d.sections.metrics)
          "button style contentInsets" raw).Accepts p) ∧
      ∀ style, (p.cell .buttonStyle name).memo = .valid style →
        style.states = ButtonState.elements (fun a other => (p.cell a other).memo.value?) entry.states := by
  constructor
  · intro s call p p' hcall a name entry ha hentry hempty hloaded question hq hpresent
    have hreaches := (call.run_requests ⟨d, s⟩).ok hcall
    rcases hreaches.loads_named ha hentry hempty hloaded question hq with hmissing | hquestion
    · rw [hmissing] at hpresent
      cases hpresent
    · exact hquestion
  · intro p hreachable name entry hentry hloaded
    have hf : p.Founded d within := founded_of_reachable hreachable
    have hconcluded := concluded_of_reachable hreachable hentry hloaded
    exact ⟨hconcluded.isValid_iff hf, fun style hmemo => hconcluded.states_eq hf hmemo⟩

end Document

/-! ### A style with another title -/

/-- Plain text with an attribute that is not supported. -/
def TextAttributesEntry.ligatures : TextAttributesEntry := ⟨some "plain", some (.object [("ligature", .int 1)])⟩

/-- A style that has a title when it is highlighted and declares nothing for its normal state. -/
def ButtonStyleEntry.highlighted : ButtonStyleEntry :=
  ⟨some ⟨none, none, none⟩, some ⟨some "plain", none, none⟩, none, none, none, none, none⟩

/-- The same style with a title of its own when it is disabled. -/
def ButtonStyleEntry.spoilt : ButtonStyleEntry :=
  { ButtonStyleEntry.highlighted with disabledStyle := some ⟨some "fancy", none, none⟩ }

namespace Reading

/-- Plain text, text with ligatures, and a style for each. -/
def titledButtons : Reading :=
  ofSections {
    textAttributes := ⟨[("plain", ⟨none, none⟩), ("fancy", .ligatures)], (by decide : ["plain", "fancy"].Nodup)⟩
    buttonStyles := ⟨[("good", .highlighted), ("bad", .spoilt)], (by decide : ["good", "bad"].Nodup)⟩ }

theorem titledButtons_plain : titledButtons.document.sections.textAttributes.find? "plain" = some ⟨none, none⟩ := rfl

theorem titledButtons_fancy : titledButtons.document.sections.textAttributes.find? "fancy" = some .ligatures := rfl

theorem titledButtons_good : titledButtons.document.sections.buttonStyles.find? "good" = some .highlighted := rfl

theorem titledButtons_bad : titledButtons.document.sections.buttonStyles.find? "bad" = some .spoilt := rfl

theorem ligatures_basedOn : TextAttributesEntry.ligatures.basedOn.filter (!·.isEmpty) = some "plain" := by decide

theorem run_titledButtons :
    ∃ p p', (Call.resolve .buttonStyle "bad").run titledButtons {} = .ok () p ∧
      (p.cell .textAttributes "fancy").memo = .invalid TextAttributes.invalid ∧
      (p.cell .buttonStyle "bad").memo.isLoaded = true ∧
      (Call.resolve .buttonStyle "good").run titledButtons p = .ok () p' ∧
      (p'.cell .textAttributes "plain").memo = .valid ⟨∅, none⟩ ∧
      (p'.cell .buttonStyle "good").memo.isLoaded = true := by
  simp only [Call.run, resolve, resolve?, textAttributes, buttonStyle, resolveButtonStyle, titledButtons_good,
    titledButtons_bad, ButtonLayers.compute, ButtonLayers.states, ButtonLayers.stateElements, ButtonLayers.element,
    ButtonLayers.contentInsets, ButtonStyleEntry.spoilt, ButtonStyleEntry.highlighted,
    resolveTextAttributes_found titledButtons_plain, resolveTextAttributes_found titledButtons_fancy,
    TextLayers.compute, TextLayers.baseDraft, DesignTokens.fetch, ligatures_basedOn, List.mem_cons, List.not_mem_nil,
    String.reduceEq, or_self, ↓reduceIte]
  exact ⟨_, _, rfl, rfl, rfl, rfl, rfl, rfl⟩

end Reading

open Reading in
/-- The text with ligatures fails and what it is based on is loaded; the style that names it is not valid, and the other
style has the one state that names an element. -/
theorem Document.named_loaded_and_decisive_titles :
    ∃ p p' : Progress, titledButtons.document.Reachable (fun _ => True) p' ∧
      (p.cell .textAttributes "fancy").memo.isValid = false ∧ (p.cell .textAttributes "plain").memo.isLoaded = true ∧
      (p.cell .buttonStyle "bad").memo.isValid = false ∧
      ∃ style, (p'.cell .buttonStyle "good").memo = .valid style ∧
        style.states = [(.highlighted, ⟨some ⟨∅, none⟩, none, none⟩)] := by
  obtain ⟨p, p', hbad, hfancy, hloaded, hgood, hplain, hloaded'⟩ := run_titledButtons
  obtain ⟨hnamed, hjudged⟩ := named_loaded_and_decisive titledButtons.document fun _ => True
  have hrest : titledButtons.document.AtRest (fun _ => True) p := .returned trivial .start hbad
  have hreachable : titledButtons.document.Reachable (fun _ => True) p' := .atRest (.returned trivial hrest hgood)
  have hbase : (p.cell .textAttributes "plain").memo.isLoaded = true := by
    refine hnamed titledButtons.surroundings _ {} p hbad .textAttributes "fancy" _ (.inl rfl) titledButtons_fancy rfl ?_
      (.textAttributes, "plain") (by decide) rfl
    rw [hfancy]
    rfl
  have hspoilt : (p.cell .buttonStyle "bad").memo.isValid = false := by
    by_contra hvalid
    have hall := (hjudged p (.atRest hrest) "bad" _ titledButtons_bad hloaded).1.mp (by simpa using hvalid)
    have htitle := (hall.1 (.textAttributes, "fancy") (by decide)).2
    rw [hfancy] at htitle
    cases htitle
  obtain ⟨hvalid, hstates⟩ := hjudged p' hreachable "good" _ titledButtons_good hloaded'
  have hgoodValid : (p'.cell .buttonStyle "good").memo.isValid = true := by
    refine hvalid.mpr ⟨fun question hq => ?_, fun raw hraw => nomatch hraw⟩
    obtain rfl : question = (.textAttributes, "plain") := List.mem_singleton.mp hq
    refine ⟨rfl, ?_⟩
    rw [hplain]
    rfl
  obtain ⟨style, hmemo⟩ : ∃ style, (p'.cell .buttonStyle "good").memo = .valid style := by
    cases hcell : (p'.cell .buttonStyle "good").memo <;> rw [hcell] at hgoodValid <;> cases hgoodValid
    exact ⟨_, rfl⟩
  have helements : style.states =
      [(.highlighted, ⟨(p'.cell .textAttributes "plain").memo.value?, none, none⟩)] := hstates style hmemo
  rw [hplain] at helements
  exact ⟨p, p', hreachable, by rw [hfancy]; rfl, hbase, hspoilt, style, hmemo, helements⟩

end DesignTokens
