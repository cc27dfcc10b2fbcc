import DesignTokens.Proofs.Metric.Readers

/-!
# Names and their texts

Between calls, looking up a name finds exactly the value of its text, and leaves cells of which the same can be said
(`Metric.KeepsValues`). So what an expression comes to is said by `Metric.Reads` with the values of all texts: it
depends neither on the cells nor on the order in which they are filled.

A name at the end of an expression may then be replaced by the words of its text. Before it may stand plain words and
functions; a function takes the words of the text as its last arguments, and it takes as many as the name was, since
the text of a metric comes to one value.

* `Metric.extract_values_iff` — the values of an expression, in every state between calls.
* `Metric.Reads.inline` — words of one value for words of the same value.
* `Metric.inlining_preserves_values` — the text of a metric in place of its name.
-/

namespace DesignTokens

open Resolve

namespace Metric

/-! ### The values of words -/

section Reads

variable {known : String → Float → Prop} {word : String} {ws vs : List String} {values : List Float}

/-- What stands after a word that marks no name counts only by its values. -/
theorem Reads.congr_rest (hmark : word ≠ "named") (hne : vs ≠ [])
    (hrest : ∀ values, Reads known ws values → Reads known vs values) (h : Reads known (word :: ws) values) :
    Reads known (word :: vs) values := by
  cases h with
  | empty h => exact .empty (hrest _ h)
  | literal hnumber hfinite h => exact .literal hnumber hfinite (hrest _ h)
  | name hnonempty hplain hnumber hknown h => exact .name hnonempty hplain hnumber hknown (hrest _ h)
  | named => exact absurd rfl hmark
  | function _ hargs hmany hgives hfinite => exact .function hne (hrest _ hargs) hmany hgives hfinite

/-- After words that mark no name, words may be replaced by others of the same values. -/
theorem Reads.inline {tokens : List String} (htokens : ∀ token ∈ tokens, token ≠ "named") (hne : vs ≠ [])
    (hlast : ∀ values, Reads known ws values → Reads known vs values) (h : Reads known (tokens ++ ws) values) :
    Reads known (tokens ++ vs) values := by
  -- For all values: a function in front has one value, and what it takes has others.
  induction tokens generalizing values with
  | nil => exact hlast values h
  | cons token rest ih =>
    obtain ⟨htoken, hothers⟩ := List.forall_mem_cons.mp htokens
    exact h.congr_rest htoken (List.append_ne_nil_of_right_ne_nil rest hne) fun _ => ih hothers

theorem words_ofWords_append {tokens : List String} (htokens : ∀ token ∈ tokens, '/' ∉ token.toList) (last : String) :
    words (ofWords (tokens ++ [last])) = tokens ++ words last := by
  induction tokens with
  | nil => rw [List.nil_append, ofWords_singleton, List.nil_append]
  | cons token rest ih =>
    obtain ⟨htoken, hothers⟩ := List.forall_mem_cons.mp htokens
    rw [List.cons_append, ofWords_cons (by simp), words_append htoken, ih hothers, List.cons_append]

end Reads

/-! ### Between calls -/

/-- The cells of a state between calls: metrics that are loaded are kept with the values of their texts. -/
def KeepsValues (d : Document) (cells : Store) : Prop :=
  ∃ p : Progress, p.store = cells ∧ p.Rests ∧ p.AllLoaded (KeptRightly d.sections.metrics)

section Lookup

variable {r : Reading} {name expecting text : String} {value : Float} {cells cells' : Store} {ws : List String}

/-- A name is looked up by requesting its metric and reading the cell. -/
theorem metricLookup_eq_ok_iff {x : MetricLookup} {p p' : Progress} :
    r.metricLookup name p = .ok x p' ↔
      ∃ y, r.resolve? .metric name p = .ok y p' ∧ (Answer.of y (p'.cell .metric name).memo).toMetric = x := by
  rw [← r.metric_resolve?]
  constructor
  · intro h
    obtain ⟨answer, p₁, hanswer, hx⟩ := bind_eq_ok_iff.mp h
    obtain ⟨y, p₂, hrequest, hcell⟩ := bind_eq_ok_iff.mp hanswer
    cases hcell
    cases hx
    exact ⟨y, hrequest, rfl⟩
  · rintro ⟨y, hrequest, rfl⟩
    exact bind_eq_ok_iff.mpr ⟨_, p', bind_eq_ok_iff.mpr ⟨y, p', hrequest, rfl⟩, rfl⟩

/-- A name that is looked up has the value of its text. -/
theorem Finds.hasValue (h : Finds r.metricLookup name cells value cells') (hcells : KeepsValues r.document cells) :
    HasValue r.document.sections.metrics name value ∧ KeepsValues r.document cells' := by
  obtain ⟨p, rfl, hkeeps⟩ := hcells
  obtain ⟨p', hlookup, rfl⟩ := r.metricLookup_ignoresPast name (p := { store := p.store }) (q := p) rfl h
  obtain ⟨y, hrequest, hfound⟩ := metricLookup_eq_ok_iff.mp hlookup
  have hkeeps' := (preserves_keptRightly r.document).request r .metric name p p' y rfl hkeeps hrequest
  refine ⟨?_, p', rfl, hkeeps'⟩
  cases y with
  | none => cases hfound
  | some y =>
    have hmemo := Usage.kept_eq_found_iff (u := ⟨r, p'⟩).mp (toMetric_eq_found_iff.mp hfound)
    exact (hkeeps'.2 .metric name (by rw [hmemo]; rfl) value).mp hmemo

/-- The value of a text is found where its name is looked up. -/
theorem HasValue.finds (h : HasValue r.document.sections.metrics name value) (hcells : KeepsValues r.document cells) :
    ∃ cells', Finds r.metricLookup name cells value cells' ∧ KeepsValues r.document cells' := by
  obtain ⟨p, rfl, hkeeps⟩ := hcells
  have hm : Usage.meaning ⟨r, p⟩ .metric name = .found value :=
    (meaning_iff_hasValue (u := ⟨r, p⟩) hkeeps.2).mpr h
  have hexact := Usage.resolve?_exact (u := ⟨r, p⟩) hkeeps.1 (.start hkeeps.1) .metric name
  cases hrequest : r.resolve? .metric name p with
  | error fault p' =>
    rw [hrequest] at hexact
    exact absurd ⟨fault, hexact⟩ (Usage.not_faulty_of_isFound ⟨value, hm⟩)
  | ok x p' =>
    rw [hrequest] at hexact
    have hlookup : r.metricLookup name p = .ok (.found value) p' :=
      metricLookup_eq_ok_iff.mpr ⟨x, hrequest, toMetric_eq_found_iff.mpr (hexact.2.2.trans hm)⟩
    have hkeeps' := (preserves_keptRightly r.document).request r .metric name p p' x rfl hkeeps hrequest
    exact ⟨p'.store, r.metricLookup_ignoresPast name (p := p) (q := { store := p.store }) rfl ⟨p', hlookup, rfl⟩,
      p', rfl, hkeeps'⟩

/-- Words come to the values that they have. -/
theorem Takes.reads {taken : Extraction} (h : Takes r.metricLookup ws cells taken cells')
    (hcells : KeepsValues r.document cells) :
    Reads (HasValue r.document.sections.metrics) ws taken.values ∧ KeepsValues r.document cells' :=
  h.reads_of_finds (fun _ _ _ _ hbetween hfinds => hfinds.hasValue hbetween) hcells

/-- Words that have values come to them. -/
theorem Reads.takes {values : List Float} (h : Reads (HasValue r.document.sections.metrics) ws values)
    (hcells : KeepsValues r.document cells) :
    ∃ taken cells', Takes r.metricLookup ws cells taken cells' ∧ taken.values = values := by
  induction h generalizing cells with
  | done => exact ⟨{}, cells, .done, rfl⟩
  | empty _ ih =>
    obtain ⟨others, cells', htakes, rfl⟩ := ih hcells
    exact ⟨_, cells', .empty htakes, rfl⟩
  | literal hnumber hfinite _ ih =>
    obtain ⟨others, cells', htakes, rfl⟩ := ih hcells
    exact ⟨_, cells', .literal hnumber hfinite htakes, rfl⟩
  | name hnonempty hplain hnumber hvalue _ ih =>
    obtain ⟨cells₁, hfinds, hbetween⟩ := HasValue.finds hvalue hcells
    obtain ⟨others, cells', htakes, rfl⟩ := ih hbetween
    exact ⟨_, cells', .name hnonempty hplain hnumber hfinds (HasValue.isFinite hvalue) htakes, rfl⟩
  | named hrest hvalue =>
    obtain ⟨cells', hfinds, -⟩ := HasValue.finds hvalue hcells
    exact ⟨_, cells', .named hrest hfinds (HasValue.isFinite hvalue), rfl⟩
  | function hrest _ hmany hgives hfinite ih =>
    obtain ⟨args, cells', htakes, rfl⟩ := ih hcells
    obtain rfl := hgives.eq_apply
    exact ⟨_, cells', .function hrest htakes hmany hfinite, rfl⟩

/-- The values of an expression, in every state between calls. -/
theorem extract_values_iff {requested : Option Int} {values : List Float} {p : Progress}
    (hp : KeepsValues r.document p.store) :
    (∃ read p', extract r.metricLookup expecting text requested p = .ok (some read) p' ∧ read.values = values) ↔
      Reads (HasValue r.document.sections.metrics) (words text) values ∧
        ∀ count, requested = some count → (values.length : Int) = count := by
  constructor
  · rintro ⟨read, p', hread, rfl⟩
    obtain ⟨htakes, hcount⟩ := (extract_yields_iff r.metricLookup_ignoresPast).mp ⟨p', hread, rfl⟩
    exact ⟨(htakes.reads hp).1, hcount⟩
  · rintro ⟨hreads, hcount⟩
    obtain ⟨taken, cells', htakes, rfl⟩ := hreads.takes hp
    obtain ⟨p', hread, -⟩ := (extract_yields_iff r.metricLookup_ignoresPast).mpr ⟨htakes, hcount⟩
    exact ⟨taken, p', hread, rfl⟩

end Lookup

/-- A plain word alone has the value of the metric that it names. -/
theorem reads_name_iff {known : String → Float → Prop} {word : String} {values : List Float} (hnonempty : word ≠ "")
    (hplain : IsPlain word) (hnumber : Number.Literal.number? word = .ok none) :
    Reads known [word] values ↔ ∃ value, known word value ∧ values = [value] := by
  constructor
  · intro h
    cases h with
    | empty => exact absurd rfl hnonempty
    | literal hliteral => cases hnumber.symm.trans hliteral
    | name _ _ _ hknown hnil =>
      cases hnil
      exact ⟨_, hknown, rfl⟩
    | named hrest => exact absurd rfl hrest
    | function hrest => exact absurd rfl hrest
  · rintro ⟨value, hknown, rfl⟩
    exact .name hnonempty hplain hnumber hknown .done

/-- A valid metric at the end of an expression may be replaced by its text. Before it stand any words but the one
that marks a name; they may be functions, which then take the words of the text as their last arguments. -/
theorem inlining_preserves_values (reading : Reading) (operations : List Operation) (u : Usage)
    (h : Operation.performAll { reading } operations = .ok u) (tokens : List String) (name text : String)
    (htokens : ∀ token ∈ tokens, '/' ∉ token.toList ∧ token ≠ "named")
    (hname : '/' ∉ name.toList ∧ name ≠ "" ∧ IsPlain name ∧ Number.Literal.number? name = .ok none)
    (hentry : reading.document.sections.metrics.find? name = some text)
    (hvalid : ∃ value p', u.reading.resolve .metric name u.progress = .ok value p' ∧
      (p'.cell .metric name).memo = .valid value)
    (expecting expecting' : String) (requested : Option Int) (values : List Float) :
    (∃ read p', extract u.reading.metricLookup expecting (ofWords (tokens ++ [name])) requested u.progress =
        .ok (some read) p' ∧ read.values = values) ↔
      ∃ read p', extract u.reading.metricLookup expecting' (ofWords (tokens ++ [Text.withoutSpaces text])) requested
        u.progress = .ok (some read) p' ∧ read.values = values := by
  obtain ⟨hdocument, hrests, hkept⟩ := Metric.keptRightly_of_run h
  rw [← hdocument] at hentry hkept
  have hkeeps : KeepsValues u.reading.document u.progress.store := ⟨u.progress, rfl, hrests, hkept⟩
  obtain ⟨hslash, hnonempty, hplain, hnumber⟩ := hname
  obtain ⟨value, p', hresolve, hmemo⟩ := hvalid
  have hvalue : HasValue u.reading.document.sections.metrics name value :=
    (meaning_iff_hasValue hkept).mp (Usage.meaning_of_valid (a := .metric) hrests hentry hresolve hmemo)
  have htext : Reads (HasValue u.reading.document.sections.metrics) (words (Text.withoutSpaces text)) [value] := by
    obtain ⟨text', hentry', -, hdenotes⟩ := hvalue
    obtain rfl : text = text' := Option.some.inj (hentry.symm.trans hentry')
    exact hdenotes.reads_hasValue
  have hsame (values : List Float) : Reads (HasValue u.reading.document.sections.metrics) [name] values ↔
      Reads (HasValue u.reading.document.sections.metrics) (words (Text.withoutSpaces text)) values := by
    rw [reads_name_iff hnonempty hplain hnumber]
    constructor
    · rintro ⟨other, hother, rfl⟩
      rwa [hother.unique hvalue]
    · intro hreads
      exact ⟨value, hvalue, hreads.unique htext⟩
  have hmarks : ∀ token ∈ tokens, token ≠ "named" := fun token hmem => (htokens token hmem).2
  have hslashes : ∀ token ∈ tokens, '/' ∉ token.toList := fun token hmem => (htokens token hmem).1
  rw [extract_values_iff hkeeps, extract_values_iff hkeeps, words_ofWords_append hslashes,
    words_ofWords_append hslashes, words_of_not_mem hslash]
  refine and_congr_left' ⟨fun hreads => ?_, fun hreads => ?_⟩
  · exact hreads.inline hmarks (words_ne_nil _) fun values => (hsame values).mp
  · exact hreads.inline hmarks (List.cons_ne_nil _ _) fun values => (hsame values).mpr

/-- A product in the place of its name at the end of a sum, after the metric that it uses was resolved. -/
theorem inlining_preserves_values_nested :
    ∃ u, Operation.performAll { reading := Reading.nestedMetrics } [.call (.resolve .metric "size")] = .ok u ∧
      (∃ value p', u.reading.resolve .metric "twice" u.progress = .ok value p' ∧
        (p'.cell .metric "twice").memo = .valid value) ∧
      ∃ read p', extract u.reading.metricLookup "" "add/1/mul/2/size" (some 1) u.progress = .ok (some read) p' ∧
        read.values = [7.0] := by
  have hrun : ∃ u, Operation.performAll { reading := Reading.nestedMetrics } [.call (.resolve .metric "size")] =
      .ok u := by
    simp only [Operation.performAll, Operation.perform, bind, Except.bind, Call.run, Reading.resolve,
      Reading.resolve?, Reading.metric, resolveMetric_found Reading.nestedMetrics_size, List.not_mem_nil, ↓reduceIte]
    exact ⟨_, rfl⟩
  obtain ⟨u, h⟩ := hrun
  obtain ⟨hdocument, hrests, hkept⟩ := keptRightly_of_run h
  rw [← hdocument] at hkept
  have hvalue : HasValue u.reading.document.sections.metrics "twice" 6.0 := by
    rw [hdocument]
    exact ⟨_, Reading.nestedMetrics_twice, by decide, Reading.denotes_twice⟩
  have hvalid : ∃ value p', u.reading.resolve .metric "twice" u.progress = .ok value p' ∧
      (p'.cell .metric "twice").memo = .valid value :=
    ⟨6.0, Usage.resolve_valid hrests ((meaning_iff_hasValue hkept).mpr hvalue)⟩
  have hreads : Reads (HasValue u.reading.document.sections.metrics) ["add", "1", "twice"] [7.0] := by
    have hargs : Reads (HasValue u.reading.document.sections.metrics) ["1", "twice"] [1.0, 6.0] :=
      .literal rfl rfl (.name (by decide) ⟨by decide, by decide⟩ rfl hvalue .done)
    have hgives : MetricFunction.add.Gives [1.0, 6.0] 7.0 := .fold (by decide)
    exact .function (by decide) hargs (by decide) hgives rfl
  have hinlined := inlining_preserves_values _ _ u h ["add", "1"] "twice" _ (by decide)
    ⟨by decide, by decide, ⟨by decide, by decide⟩, rfl⟩ Reading.nestedMetrics_twice hvalid "" "" (some 1) [7.0]
  refine ⟨u, h, hvalid, hinlined.mp ?_⟩
  exact (extract_values_iff ⟨u.progress, rfl, hrests, hkept⟩).mpr ⟨hreads, by simp⟩

end Metric

end DesignTokens
