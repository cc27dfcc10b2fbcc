import DesignTokens.Proofs.Metric.Scan
import DesignTokens.Proofs.Resolution.Past

/-!
# What words come to, cells included

`Metric.Reads` gives the values of words where the values of names are fixed. Between the calls of a document they
are not: looking up a name fills cells, and the next name is looked up in these. `Metric.Takes` is the relation with
the cells threaded through it. It knows of no number of values asked for and of no values read before, and nothing in
it depends on the history of the document, to which two readers of the same text add different notices.

The evaluator stops as soon as it has what was asked for and judges then. It succeeds exactly with the words that
`Takes` relates to as many values, and so what is asked for is only a filter on what words come to.

* `Metric.Takes` — the values of words, and the cells before and after.
* `Metric.scan_yields_iff` — when the evaluator succeeds, and with what.
* `Metric.extract_yields_iff`, `Metric.extractOne_yields_iff`, `Metric.extractEach_yields_iff` — the same for texts.
-/

namespace DesignTokens

namespace Resolve

variable {α β : Type}

/-- A computation ends with a result and leaves these cells, whatever it adds to the history. -/
def Yields (f : Resolve α) (p : Progress) (x : α) (cells : Store) : Prop :=
  ∃ p', f p = .ok x p' ∧ p'.store = cells

variable {p : Progress} {cells : Store}

theorem yields_pure_iff {x y : α} : (pure x : Resolve α).Yields p y cells ↔ y = x ∧ cells = p.store := by
  constructor
  · rintro ⟨p', h, rfl⟩
    cases h
    exact ⟨rfl, rfl⟩
  · rintro ⟨rfl, rfl⟩
    exact ⟨p, rfl, rfl⟩

theorem yields_bind_iff {f : Resolve α} {g : α → Resolve β} {y : β} :
    (f >>= g).Yields p y cells ↔ ∃ x p₁, f p = .ok x p₁ ∧ (g x).Yields p₁ y cells := by
  constructor
  · rintro ⟨p', h, hcells⟩
    obtain ⟨x, p₁, hfirst, hrest⟩ := bind_eq_ok_iff.mp h
    exact ⟨x, p₁, hfirst, p', hrest, hcells⟩
  · rintro ⟨x, p₁, hfirst, p', hrest, hcells⟩
    exact ⟨p', bind_eq_ok_iff.mpr ⟨x, p₁, hfirst, hrest⟩, hcells⟩

theorem not_yields_reject {n : Notice} {x : α} : ¬ (reject n : Resolve (Option α)).Yields p (some x) cells := by
  rintro ⟨p', h, -⟩
  exact reject_ne_some h

/-- The computation comes to the same in states with the same cells. -/
def IgnoresPast (f : Resolve α) : Prop :=
  ∀ ⦃p q : Progress⦄ ⦃x cells⦄, p.store = q.store → f.Yields p x cells → f.Yields q x cells

namespace IgnoresPast

theorem pure {x : α} : IgnoresPast (pure x) := by
  intro p q y cells hstore h
  rw [yields_pure_iff] at h ⊢
  rwa [← hstore]

theorem bind {f : Resolve α} {g : α → Resolve β} (hf : IgnoresPast f) (hg : ∀ x, IgnoresPast (g x)) :
    IgnoresPast (f >>= g) := by
  intro p q y cells hstore h
  obtain ⟨x, p₁, hfirst, hrest⟩ := yields_bind_iff.mp h
  obtain ⟨q₁, hfirst', hsame⟩ := hf hstore ⟨p₁, hfirst, rfl⟩
  exact yields_bind_iff.mpr ⟨x, q₁, hfirst', hg x hsame.symm hrest⟩

theorem cell {a : Asset} {name : String} : IgnoresPast (cell a name) := by
  rintro p q x _ hstore ⟨p', h, rfl⟩
  cases h
  refine ⟨q, ?_, hstore.symm⟩
  rw [hstore]
  rfl

end IgnoresPast

end Resolve

open Resolve

theorem Reading.resolve?_ignoresPast (r : Reading) (a : Asset) (name : String) : IgnoresPast (r.resolve? a name) := by
  rintro p q x _ hstore ⟨p', h, rfl⟩
  have hp : p = ({ store := p.store } : Progress).after p.history := rfl
  have hq : q = ({ store := p.store } : Progress).after q.history := by rw [hstore]; rfl
  rw [hp, r.resolve?_after] at h
  rw [hq]
  cases halone : r.resolve? a name { store := p.store } with
  | error fault p₁ => rw [halone] at h; cases h
  | ok y p₁ =>
    rw [halone] at h
    cases h
    exact ⟨p₁.after q.history, by rw [r.resolve?_after, halone]; rfl, rfl⟩

namespace Extraction

@[simp] theorem append_empty (a : Extraction) : a ++ ({} : Extraction) = a :=
  congrArg₂ mk (List.append_nil a.values) (List.append_nil a.dependencies)

@[simp] theorem empty_append (a : Extraction) : ({} : Extraction) ++ a = a := rfl

theorem append_assoc (a b c : Extraction) : a ++ b ++ c = a ++ (b ++ c) :=
  congrArg₂ mk (List.append_assoc ..) (List.append_assoc ..)

end Extraction

namespace Metric

/-- The lookup of a name finds a value in these cells, and leaves those. -/
def Finds (lookup : Lookup) (name : String) (cells : Store) (value : Float) (cells' : Store) : Prop :=
  (lookup name).Yields { store := cells } (.found value) cells'

/-- What words come to from these cells, and the cells afterwards. -/
inductive Takes (lookup : Lookup) : List String → Store → Extraction → Store → Prop where
  | done {cells : Store} : Takes lookup [] cells {} cells
  | empty {rest : List String} {others : Extraction} {cells cells' : Store}
      (hrest : Takes lookup rest cells others cells') :
      Takes lookup ("" :: rest) cells (.single 0.0 [] ++ others) cells'
  | literal {word : String} {rest : List String} {value : Float} {others : Extraction} {cells cells' : Store}
      (hnumber : Number.Literal.number? word = .ok (some value)) (hfinite : value.isFinite = true)
      (hrest : Takes lookup rest cells others cells') :
      Takes lookup (word :: rest) cells (.single value [] ++ others) cells'
  | name {word : String} {rest : List String} {value : Float} {others : Extraction} {cells cells₁ cells' : Store}
      (hnonempty : word ≠ "") (hplain : IsPlain word) (hnumber : Number.Literal.number? word = .ok none)
      (hfinds : Finds lookup word cells value cells₁) (hfinite : value.isFinite = true)
      (hrest : Takes lookup rest cells₁ others cells') :
      Takes lookup (word :: rest) cells (.single value [⟨.metric, word⟩] ++ others) cells'
  | named {rest : List String} {value : Float} {cells cells' : Store} (hrest : rest ≠ [])
      (hfinds : Finds lookup (ofWords rest) cells value cells') (hfinite : value.isFinite = true) :
      Takes lookup ("named" :: rest) cells (.single value [⟨.metric, ofWords rest⟩]) cells'
  | function {function : MetricFunction} {rest : List String} {args : Extraction} {cells cells' : Store}
      (hrest : rest ≠ []) (hargs : Takes lookup rest cells args cells') (hmany : function.tooFew < args.values.length)
      (hfinite : (function.apply args.values).isFinite = true) :
      Takes lookup (function.name :: rest) cells (.single (function.apply args.values) args.dependencies) cells'

/-- Words come to known values where every lookup finds these, and leaves cells of which the same can be said. -/
theorem Takes.reads_of_finds {lookup : Lookup} {known : String → Float → Prop} {kept : Store → Prop}
    (hfinds : ∀ name cells value cells', kept cells → Finds lookup name cells value cells' →
      known name value ∧ kept cells')
    {words : List String} {cells cells' : Store} {taken : Extraction} (h : Takes lookup words cells taken cells')
    (hcells : kept cells) : Reads known words taken.values ∧ kept cells' := by
  induction h with
  | done => exact ⟨.done, hcells⟩
  | empty _ ih =>
    obtain ⟨hreads, hkept⟩ := ih hcells
    exact ⟨.empty hreads, hkept⟩
  | literal hnumber hfinite _ ih =>
    obtain ⟨hreads, hkept⟩ := ih hcells
    exact ⟨.literal hnumber hfinite hreads, hkept⟩
  | name hnonempty hplain hnumber hfound _ _ ih =>
    obtain ⟨hknown, hbetween⟩ := hfinds _ _ _ _ hcells hfound
    obtain ⟨hreads, hkept⟩ := ih hbetween
    exact ⟨.name hnonempty hplain hnumber hknown hreads, hkept⟩
  | named hrest hfound _ =>
    obtain ⟨hknown, hkept⟩ := hfinds _ _ _ _ hcells hfound
    exact ⟨.named hrest hknown, hkept⟩
  | function hrest _ hmany hfinite ih =>
    obtain ⟨hreads, hkept⟩ := ih hcells
    exact ⟨.function hrest hreads hmany (MetricFunction.gives_apply hmany) hfinite, hkept⟩

section Scan

variable {lookup : Lookup} {expecting whole : String} {requested : Option Int} {read found : Extraction}
  {p : Progress} {cells : Store}

theorem conclude_yields_iff {rest : List String} :
    (conclude expecting whole requested rest read).Yields p (some found) cells ↔
      found = read ∧ cells = p.store ∧ (∀ value ∈ read.values, value.isFinite = true) ∧ rest = [] ∧
        ∀ count, requested = some count → count ≤ read.values.length := by
  constructor
  · rintro ⟨p', h, rfl⟩
    obtain ⟨rfl, rfl, hjudged⟩ := conclude_eq_ok_iff.mp h
    exact ⟨rfl, rfl, hjudged⟩
  · rintro ⟨rfl, rfl, hjudged⟩
    exact ⟨p, conclude_eq_ok_iff.mpr ⟨rfl, rfl, hjudged⟩, rfl⟩

theorem namedValue_finds (hl : ∀ name, IgnoresPast (lookup name)) {name : String} {value : Float} {p' : Progress}
    (h : namedValue lookup expecting name whole p = .ok (some value) p') :
    Finds lookup name p.store value p'.store := by
  obtain ⟨answer, p₁, hanswer, h⟩ := bind_eq_ok_iff.mp h
  cases answer with
  | missing => exact absurd h reject_ne_some
  | invalid => exact absurd h reject_ne_some
  | found value =>
    cases h
    have hyields : (lookup name).Yields p (.found value) p'.store := ⟨p', hanswer, rfl⟩
    exact hl name (p := p) (q := { store := p.store }) rfl hyields

theorem Finds.namedValue (hl : ∀ name, IgnoresPast (lookup name)) {name : String} {value : Float}
    (h : Finds lookup name p.store value cells) (expecting whole : String) :
    ∃ p', namedValue lookup expecting name whole p = .ok (some value) p' ∧ p'.store = cells := by
  obtain ⟨p', hanswer, hcells⟩ := hl name (p := { store := p.store }) (q := p) rfl h
  exact ⟨p', bind_eq_ok_iff.mpr ⟨.found value, p', hanswer, rfl⟩, hcells⟩

/-- What has been found is what was read before and what the words after it come to, as much as requested. -/
structure Adds (lookup : Lookup) (requested : Option Int) (read : Extraction) (words : List String) (before : Store)
    (found : Extraction) (after : Store) : Prop where
  finite : ∀ value ∈ read.values, value.isFinite = true
  complete : ∀ count, requested = some count → (found.values.length : Int) = count
  takes : ∃ taken, Takes lookup words before taken after ∧ found = read ++ taken

/-- A word comes to one value, and the rest goes on from there. -/
theorem Adds.cons {word : String} {rest : List String} {value : Float} {dependencies : List Dependency}
    {before : Store} (h : Adds lookup requested (read ++ .single value dependencies) rest before found cells)
    {start : Store} (hword : ∀ others, value.isFinite = true → Takes lookup rest before others cells →
      Takes lookup (word :: rest) start (.single value dependencies ++ others) cells) :
    Adds lookup requested read (word :: rest) start found cells := by
  obtain ⟨others, htakes, hfound⟩ := h.takes
  have hvalue : value.isFinite = true :=
    h.finite value (List.mem_append.mpr (.inr (List.mem_singleton_self value)))
  refine ⟨fun x hx => h.finite x (List.mem_append.mpr (.inl hx)), h.complete, _, hword others hvalue htakes, ?_⟩
  rw [hfound, Extraction.append_assoc]

/-- All words together come to one value, which is judged. -/
theorem Adds.last {words : List String} {value : Float} {dependencies : List Dependency} {before : Store}
    (hroom : read.HasRoom requested)
    (h : (conclude expecting whole requested [] (read ++ .single value dependencies)).Yields p (some found) cells)
    (hword : value.isFinite = true → Takes lookup words before (.single value dependencies) p.store) :
    Adds lookup requested read words before found cells := by
  obtain ⟨rfl, rfl, hfinite, -, hcount⟩ := conclude_yields_iff.mp h
  have hvalue : value.isFinite = true := hfinite value (List.mem_append.mpr (.inr (List.mem_singleton_self value)))
  refine ⟨fun x hx => hfinite x (List.mem_append.mpr (.inl hx)), fun count hc => ?_, _, hword hvalue, rfl⟩
  exact Int.le_antisymm (hroom.length_single_le _ _ count hc) (hcount count hc)

/-- What the evaluator finds is what the words come to. -/
theorem scan_adds (hl : ∀ name, IgnoresPast (lookup name)) {words : List String}
    (hfits : ∀ count, requested = some count → read.values.length ≤ count)
    (h : (scan lookup expecting words whole requested read).Yields p (some found) cells) :
    Adds lookup requested read words p.store found cells := by
  induction words generalizing whole requested read found p cells with
  | nil =>
    obtain ⟨rfl, rfl, hfinite, -, hcount⟩ := conclude_yields_iff.mp h
    refine ⟨hfinite, fun count hc => ?_, {}, .done, by simp⟩
    exact Int.le_antisymm (hfits count hc) (hcount count hc)
  | cons word rest ih =>
    obtain ⟨p', hscan, rfl⟩ := h
    obtain ⟨hroom, hfinishes⟩ := scan_finishes hscan
    have later {value : Float} {dependencies : List Dependency} {p₁ : Progress}
        (hscan : scan lookup expecting rest whole requested (read ++ .single value dependencies) p₁ =
          .ok (some found) p') := ih (hroom.length_single_le value dependencies) ⟨p', hscan, rfl⟩
    cases hfinishes with
    | empty hscan => exact (later hscan).cons fun others _ htakes => .empty htakes
    | literal hnumber hscan => exact (later hscan).cons fun others hfinite htakes => .literal hnumber hfinite htakes
    | name hnonempty hplain hnumber hvalue hscan =>
      have hfinds := namedValue_finds hl hvalue
      exact (later hscan).cons fun others hfinite htakes => .name hnonempty hplain hnumber hfinds hfinite htakes
    | named hrest hvalue hconclude =>
      exact .last hroom ⟨p', hconclude, rfl⟩ fun hfinite => .named hrest (namedValue_finds hl hvalue) hfinite
    | @function _ _ args p₁ hrest hargs hmany hconclude =>
      obtain ⟨-, -, taken, htakes, hsame⟩ := ih (by simp) ⟨p₁, hargs, rfl⟩
      obtain rfl : args = taken := by simpa using hsame
      exact .last hroom ⟨p', hconclude, rfl⟩ fun hfinite => .function hrest htakes hmany hfinite

/-- The evaluator finds what the words come to, if that is as much as requested. -/
theorem Takes.scan (hl : ∀ name, IgnoresPast (lookup name)) {words : List String} {taken : Extraction}
    {before : Store} (h : Takes lookup words before taken cells)
    (hread : ∀ value ∈ read.values, value.isFinite = true)
    (hcount : ∀ count, requested = some count → ((read.values ++ taken.values).length : Int) = count)
    (hbefore : p.store = before) :
    (scan lookup expecting words whole requested read).Yields p (some (read ++ taken)) cells := by
  induction h generalizing whole requested read p with
  | done =>
    refine conclude_yields_iff.mpr ⟨by simp, hbefore.symm, hread, rfl, fun count hc => ?_⟩
    have hlength := hcount count hc
    rw [List.append_nil] at hlength
    exact Int.le_of_eq hlength.symm
  | @empty rest others _ _ _ ih =>
    have hroom : read.HasRoom requested := .of_length hcount
    rw [scan_empty hroom, ← Extraction.append_assoc]
    refine ih (Extraction.isFinite_append_single hread rfl) ?_ hbefore
    rwa [Extraction.values_append_single]
  | @literal word rest value others _ _ hnumber hvalue _ ih =>
    obtain ⟨hplain, hnonempty⟩ := isPlain_of_number hnumber
    have hroom : read.HasRoom requested := .of_length hcount
    rw [scan_plain hroom hplain hnonempty, hnumber, ← Extraction.append_assoc]
    refine ih (Extraction.isFinite_append_single hread hvalue) ?_ hbefore
    rwa [Extraction.values_append_single]
  | @name word rest value others cells cells₁ _ hnonempty hplain hnumber hfinds hvalue _ ih =>
    have hroom : read.HasRoom requested := .of_length hcount
    subst hbefore
    obtain ⟨p₁, hnamed, hcells⟩ := hfinds.namedValue hl expecting whole
    rw [scan_plain hroom hplain hnonempty, hnumber, ← Extraction.append_assoc]
    refine yields_bind_iff.mpr ⟨none, p, rfl, yields_bind_iff.mpr ⟨some value, p₁, hnamed, ?_⟩⟩
    refine ih (Extraction.isFinite_append_single hread hvalue) ?_ hcells
    rwa [Extraction.values_append_single]
  | @named rest value _ _ hrest hfinds hvalue =>
    have hroom : read.HasRoom requested := .of_length hcount
    subst hbefore
    obtain ⟨p₁, hnamed, hcells⟩ := hfinds.namedValue hl expecting whole
    rw [scan_named hroom hrest]
    refine yields_bind_iff.mpr ⟨some value, p₁, hnamed, conclude_yields_iff.mpr ⟨rfl, hcells.symm, ?_, rfl, ?_⟩⟩
    · exact Extraction.isFinite_append_single hread hvalue
    · exact fun count hc => Int.le_of_eq (hcount count hc).symm
  | @function function rest args _ _ hrest _ hmany hvalue ih =>
    have hroom : read.HasRoom requested := .of_length hcount
    obtain ⟨p₁, hargs, hcells⟩ : (scan lookup expecting rest (ofWords rest) none {}).Yields p (some ({} ++ args)) _ :=
      ih (by simp) (by simp) hbefore
    rw [scan_function hroom function hrest]
    refine yields_bind_iff.mpr ⟨some args, p₁, hargs, ?_⟩
    dsimp only
    rw [if_neg (Nat.not_le.mpr hmany)]
    refine conclude_yields_iff.mpr ⟨rfl, hcells.symm, ?_, rfl, ?_⟩
    · exact Extraction.isFinite_append_single hread hvalue
    · exact fun count hc => Int.le_of_eq (hcount count hc).symm

theorem scan_yields_iff (hl : ∀ name, IgnoresPast (lookup name)) {words : List String}
    (hread : ∀ value ∈ read.values, value.isFinite = true)
    (hfits : ∀ count, requested = some count → read.values.length ≤ count) :
    (scan lookup expecting words whole requested read).Yields p (some found) cells ↔
      ∃ taken, Takes lookup words p.store taken cells ∧ found = read ++ taken ∧
        ∀ count, requested = some count → (found.values.length : Int) = count := by
  constructor
  · intro h
    obtain ⟨-, hcount, taken, htakes, hfound⟩ := scan_adds hl hfits h
    exact ⟨taken, htakes, hfound, hcount⟩
  · rintro ⟨taken, htakes, rfl, hcount⟩
    exact htakes.scan hl hread hcount rfl

/-! ### Texts -/

/-- A text is read with success if its words come to as many values as requested, whatever is requested. -/
theorem extract_yields_iff (hl : ∀ name, IgnoresPast (lookup name)) {text : String} :
    (extract lookup expecting text requested).Yields p (some read) cells ↔
      Takes lookup (words text) p.store read cells ∧
        ∀ count, requested = some count → (read.values.length : Int) = count := by
  by_cases hneg : ∃ count, requested = some count ∧ count < 0
  · -- There are words, and so what a negative count leaves unread is not empty.
    obtain ⟨count, rfl, hcount⟩ := hneg
    refine iff_of_false ?_ fun ⟨_, hlength⟩ => ?_
    · obtain ⟨word, rest, hwords⟩ := List.exists_cons_of_ne_nil (words_ne_nil text)
      rw [extract, hwords, scan_full fun hroom => ?_]
      · intro h
        obtain ⟨-, -, -, hnil, -⟩ := conclude_yields_iff.mp h
        cases hnil
      · have hlt := hroom count rfl
        simp only [List.length_nil] at hlt
        omega
    · have hsame := hlength count rfl
      omega
  · have hfits (count : Int) (hc : requested = some count) : (({} : Extraction).values.length : Int) ≤ count :=
      Int.not_lt.mp fun hlt => hneg ⟨count, hc, hlt⟩
    rw [extract, scan_yields_iff hl (by simp) hfits]
    constructor
    · rintro ⟨taken, htakes, rfl, hcount⟩
      exact ⟨htakes, hcount⟩
    · rintro ⟨htakes, hcount⟩
      exact ⟨read, htakes, rfl, hcount⟩

theorem extractOne_yields_iff (hl : ∀ name, IgnoresPast (lookup name)) {text : String} {value : Float}
    {dependencies : List Dependency} :
    (extractOne lookup expecting text).Yields p (some (value, dependencies)) cells ↔
      Takes lookup (words (Text.withoutSpaces text)) p.store (.single value dependencies) cells := by
  constructor
  · intro h
    obtain ⟨read, p₁, hextract, hone⟩ := yields_bind_iff.mp h
    rcases read with _ | ⟨_ | ⟨first, others⟩, used⟩
    · cases (yields_pure_iff.mp hone).1
    · cases (yields_pure_iff.mp hone).1
    obtain ⟨hsame, rfl⟩ := yields_pure_iff.mp hone
    cases hsame
    obtain ⟨htakes, hcount⟩ := (extract_yields_iff hl).mp ⟨p₁, hextract, rfl⟩
    obtain rfl : others = [] := by
      have hlength := hcount 1 rfl
      simp only [List.length_cons] at hlength
      exact List.eq_nil_of_length_eq_zero (by omega)
    exact htakes
  · intro h
    obtain ⟨p₁, hextract, rfl⟩ : (extract lookup expecting (Text.withoutSpaces text) (some 1)).Yields p
        (some (.single value dependencies)) cells := (extract_yields_iff hl).mpr ⟨h, by simp [Extraction.single]⟩
    exact yields_bind_iff.mpr ⟨_, p₁, hextract, yields_pure_iff.mpr ⟨rfl, rfl⟩⟩

/-- What texts come to, one value from each. -/
inductive TakesEach (lookup : Lookup) : List String → Store → Extraction → Store → Prop where
  | nil {cells : Store} : TakesEach lookup [] cells {} cells
  | cons {text : String} {rest : List String} {value : Float} {dependencies : List Dependency} {others : Extraction}
      {cells cells₁ cells' : Store}
      (hfirst : Takes lookup (words (Text.withoutSpaces text)) cells (.single value dependencies) cells₁)
      (hrest : TakesEach lookup rest cells₁ others cells') :
      TakesEach lookup (text :: rest) cells (.single value dependencies ++ others) cells'

theorem extractEach_yields_iff (hl : ∀ name, IgnoresPast (lookup name)) {texts : List String} :
    (extractEach lookup expecting texts).Yields p (some read) cells ↔
      TakesEach lookup texts p.store read cells := by
  induction texts generalizing p read with
  | nil =>
    constructor
    · intro h
      obtain ⟨hsame, rfl⟩ := yields_pure_iff.mp h
      cases hsame
      exact .nil
    · intro h
      cases h
      exact yields_pure_iff.mpr ⟨rfl, rfl⟩
  | cons text rest ih =>
    constructor
    · intro h
      obtain ⟨one, p₁, hone, h⟩ := yields_bind_iff.mp h
      cases one with
      | none => cases (yields_pure_iff.mp h).1
      | some one =>
        obtain ⟨others, p₂, hothers, h⟩ := yields_bind_iff.mp h
        cases others with
        | none => cases (yields_pure_iff.mp h).1
        | some others =>
          obtain ⟨hsame, rfl⟩ := yields_pure_iff.mp h
          cases hsame
          exact .cons ((extractOne_yields_iff hl).mp ⟨p₁, hone, rfl⟩) (ih.mp ⟨p₂, hothers, rfl⟩)
    · intro h
      cases h with
      | @cons _ _ value dependencies others _ _ _ hfirst hrest =>
        obtain ⟨p₁, hone, rfl⟩ : (extractOne lookup expecting text).Yields p (some (value, dependencies)) _ :=
          (extractOne_yields_iff hl).mpr hfirst
        obtain ⟨p₂, hothers, rfl⟩ := ih.mpr hrest
        exact yields_bind_iff.mpr ⟨_, p₁, hone, yields_bind_iff.mpr
          ⟨_, p₂, hothers, yields_pure_iff.mpr ⟨rfl, rfl⟩⟩⟩

end Scan

end Metric

end DesignTokens
