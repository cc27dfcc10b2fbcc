import DesignTokens.Proofs.Metric.Answers
import DesignTokens.Proofs.Resolution.Outcome

/-!
# The value of a metric

Metrics have two meanings: the value that is found in stages, where names are looked up in the stage before,
and the value by the derivations of `Metric.Denotes`. They are the same, as long as the cells that are loaded
hold the values of their texts. A stage finds only what has a derivation, and a derivation is followed from its
leaves to its root by as many stages as it needs.

* `Metric.meaning_iff_hasValue` — the meaning of a metric is the value of its text.
* `Metric.word_of_leadsTo` — where the faults of metrics come from.
* `Metric.extractOne_ends`, `Metric.compute_ends` — reading the one value of a text by a table.
* `Metric.Reads.unique`, `Metric.Denotes.unique` — words and texts have one value at most.
* `Reading.metric_resolves_iff` — what resolving a metric comes to, whatever the cells hold.
-/

namespace DesignTokens

namespace Metric

open Resolve

/-- A metric is kept as valid exactly with the value of its text. -/
def KeptRightly (metrics : Mapping String) : (a : Asset) → String → Memo a.Value → Prop
  | .metric, name, memo => ∀ value, memo = .valid value ↔ HasValue metrics name value
  | _, _, _ => True

section Meaning

variable {u : Usage} {name : String} {value : Float}

theorem toMetric_eq_found_iff {x : Answer Float} : x.toMetric = .found value ↔ x = .found value := by
  cases x <;> simp [Answer.toMetric]

theorem answers_probe (o : Oracle) : Answers (Resolvers.probe o).metric fun name => (o .metric name).toMetric := by
  intro name p
  obtain ⟨p', hanswer, -⟩ := Resolvers.metric_probe o name p
  exact ⟨p', hanswer⟩

/-- What a stage finds for a metric that is pending has been read off the words of its text with the values of
the stage before. -/
theorem reads_of_stage {text : String} (hpending : u.Pending .metric name text) {k : Nat}
    (h : u.stage k .metric name = .found value) :
    ∃ j, k = j + 1 ∧ text ≠ "" ∧
      Reads (fun name value => u.stage j .metric name = .found value) (words (Text.withoutSpaces text)) [value] := by
  obtain ⟨j, hj, hresult⟩ := hpending.exists_of_stage_found h
  obtain ⟨p', hcompute⟩ := Reading.result_eq_ok_iff.mp hresult
  obtain ⟨htext, -, hreads⟩ := compute_sound (answers_probe (u.stage j)) hcompute
  exact ⟨j, hj, htext, hreads.mono fun _ _ hfound => toMetric_eq_found_iff.mp hfound⟩

theorem hasValue_of_stage (hkept : u.progress.AllLoaded (KeptRightly u.reading.document.sections.metrics)) {k : Nat}
    (h : u.stage k .metric name = .found value) : HasValue u.reading.document.sections.metrics name value := by
  induction k using Nat.strongRecOn generalizing name value with
  | ind k ih =>
    rcases Usage.kept_or_pending h with ⟨-, hvalid⟩ | ⟨text, hpending⟩
    · exact (hkept .metric name (by rw [hvalid]; rfl) value).mp hvalid
    · obtain ⟨j, rfl, htext, hreads⟩ := reads_of_stage hpending h
      have hvalues := hreads.mono fun _ _ hfound => ih j (Nat.lt_succ_self j) hfound
      exact ⟨text, hpending.present, htext, hvalues.denotes_words⟩

theorem hasValue_of_meaning (hkept : u.progress.AllLoaded (KeptRightly u.reading.document.sections.metrics))
    (h : u.meaning .metric name = .found value) : HasValue u.reading.document.sections.metrics name value := by
  obtain ⟨k, hk⟩ := Usage.exists_stage_of_meaning h
  exact hasValue_of_stage hkept hk

/-- The meaning is closed under the rules for the values of texts. -/
theorem meaning_of_reads (hkept : u.progress.AllLoaded (KeptRightly u.reading.document.sections.metrics))
    {text : String} (hentry : u.reading.document.sections.metrics.find? name = some text) (htext : text ≠ "")
    (h : Reads (fun name value => u.meaning .metric name = .found value) (words (Text.withoutSpaces text)) [value]) :
    u.meaning .metric name = .found value := by
  rcases Usage.loaded_or_pending (a := .metric) hentry with hloaded | hpending
  · have hvalues := h.mono fun _ _ hfound => hasValue_of_meaning hkept hfound
    have hvalid := (hkept .metric name hloaded value).mpr ⟨text, hentry, htext, hvalues.denotes_words⟩
    rwa [Usage.meaning_loaded (a := .metric) hentry hloaded, Usage.kept_eq_found_iff]
  · have hfinite (name : String) (value : Float) (h : (u.meaning .metric name).toMetric = .found value) :
        value.isFinite = true := (hasValue_of_meaning hkept (toMetric_eq_found_iff.mp h)).isFinite
    have hreads := h.mono fun _ _ hfound => toMetric_eq_found_iff.mpr hfound
    rw [Usage.meaning_eq_found_iff hpending]
    exact Reading.result_eq_ok_iff.mpr (compute_complete (answers_probe u.meaning) hfinite htext hreads {})

theorem meaning_iff_hasValue (hkept : u.progress.AllLoaded (KeptRightly u.reading.document.sections.metrics)) :
    u.meaning .metric name = .found value ↔ HasValue u.reading.document.sections.metrics name value := by
  constructor
  · intro h
    exact hasValue_of_meaning hkept h
  · rintro ⟨text, hentry, htext, hvalue⟩
    exact meaning_of_reads hkept hentry htext (hvalue.reads fun _ _ _ => meaning_of_reads hkept)

/-- What is kept as the meaning says is kept rightly. -/
theorem keptRightly_of_meaning {d : Document} (hdocument : u.reading.document = d)
    (hkept : u.progress.AllLoaded (KeptRightly d.sections.metrics)) (a : Asset) (name : String) (memo : Memo a.Value)
    (hmemo : ∀ value, memo = .valid value ↔ u.meaning a name = .found value) :
    KeptRightly d.sections.metrics a name memo := by
  subst hdocument
  cases a with
  | metric => exact fun value => (hmemo value).trans (meaning_iff_hasValue hkept)
  | _ => exact trivial

/-- Metrics are kept rightly by every request. -/
theorem preserves_keptRightly (d : Document) :
    d.Preserves fun p => p.Rests ∧ p.AllLoaded (KeptRightly d.sections.metrics) :=
  Document.preserves_memos fun _ => keptRightly_of_meaning

/-- Metrics are kept rightly by every run of operations. -/
theorem keptRightly_of_run {reading : Reading} {operations : List Operation}
    (hrun : Operation.performAll { reading } operations = .ok u) :
    u.reading.document = reading.document ∧ u.progress.Rests ∧
      u.progress.AllLoaded (KeptRightly reading.document.sections.metrics) :=
  Operation.performAll_memos hrun fun _ => keptRightly_of_meaning

end Meaning

/-- What is read off the words of a text is its value, if the metrics that are found have theirs. -/
theorem Reads.denotes_of_found {metrics : Mapping String} {o : Oracle} {text : String} {value : Float}
    (h : Reads (fun name value => (o .metric name).toMetric = .found value) (words text) [value])
    (hmetrics : ∀ name value, o .metric name = .found value → HasValue metrics name value) :
    Denotes metrics text [value] :=
  (h.mono fun name x hfound => hmetrics name x (toMetric_eq_found_iff.mp hfound)).denotes_words

section Unique

variable {metrics : Mapping String} {name text : String} {ws : List String} {values others : List Float} {x y : Float}

/-- A document of metrics that nobody has used yet. -/
def untouched (metrics : Mapping String) : Usage := { reading := .ofSections { metrics } }

theorem keptRightly_untouched (metrics : Mapping String) :
    (untouched metrics).progress.AllLoaded (KeptRightly metrics) := by
  intro a name hloaded
  rw [untouched, Progress.cell_start] at hloaded
  cases hloaded

theorem toMetric_untouched_iff :
    ((untouched metrics).meaning .metric name).toMetric = .found x ↔ HasValue metrics name x :=
  toMetric_eq_found_iff.trans (meaning_iff_hasValue (u := untouched metrics) (keptRightly_untouched metrics))

/-- Words have one list of values at most, because the evaluator finds any. -/
theorem Reads.unique (h : Reads (HasValue metrics) ws values) (h' : Reads (HasValue metrics) ws others) :
    values = others := by
  have hanswers := answers_probe (untouched metrics).meaning
  have hfinite (name : String) (value : Float)
      (hfound : ((untouched metrics).meaning .metric name).toMetric = .found value) : value.isFinite = true :=
    (toMetric_untouched_iff.mp hfound).isFinite
  have hscan {values : List Float} (h : Reads (HasValue metrics) ws values) :
      ∃ found p', scan (Resolvers.probe (untouched metrics).meaning).metric "" ws "" none {} {} = .ok (some found) p' ∧
        found.values = [] ++ values :=
    scan_complete hanswers hfinite (h.mono fun _ _ hvalue => toMetric_untouched_iff.mpr hvalue) (by simp) (by simp) {}
  obtain ⟨found, p', hrun, hvalues⟩ := hscan h
  obtain ⟨found', p'', hrun', hvalues'⟩ := hscan h'
  rw [hrun] at hrun'
  cases hrun'
  simpa using hvalues.symm.trans hvalues'

theorem Denotes.reads_hasValue (h : Denotes metrics text values) : Reads (HasValue metrics) (words text) values :=
  h.reads fun _ text _ hentry htext hvalue => ⟨text, hentry, htext, hvalue.denotes_words⟩

/-- An expression has one value at most. -/
theorem Denotes.unique (h : Denotes metrics text [x]) (h' : Denotes metrics text [y]) : x = y :=
  List.singleton_inj.mp (h.reads_hasValue.unique h'.reads_hasValue)

theorem HasValue.unique (h : HasValue metrics name x) (h' : HasValue metrics name y) : x = y := by
  obtain ⟨text, hentry, -, hvalue⟩ := h
  obtain ⟨text', hentry', -, hvalue'⟩ := h'
  obtain rfl : text = text' := Option.some.inj (hentry.symm.trans hentry')
  exact hvalue.unique hvalue'

end Unique

section FromTable

variable {o : Oracle} {may : Fault → Prop} {expecting text : String}

/-- A text has this one value, according to a table. -/
def HasOne (o : Oracle) (text : String) (value : Float) : Prop :=
  value.isFinite = true ∧
    Reads (fun name value => o .metric name = .found value) (words (Text.withoutSpaces text)) [value]

theorem extractOne_ends (hmay : ∀ fault, Unreadable text fault → may fault) :
    Finds (fun read => HasOne o text read.1) may (extractOne (Resolvers.probe o).metric expecting text) where
  ok p x p' hx := by
    rintro ⟨value, dependencies⟩ rfl
    obtain ⟨hfinite, hreads⟩ := extractOne_sound (answers_probe o) hx
    exact ⟨hfinite, hreads.mono fun _ _ hfound => toMetric_eq_found_iff.mp hfound⟩
  error := (extractOne_answers (.probe hmay)).error

theorem compute_ends {name : String} (hmay : ∀ fault, Unreadable text fault → may fault) :
    Finds (fun value => text ≠ "" ∧ HasOne o text value) may (compute (Resolvers.probe o).metric name text) where
  ok p x p' hx := by
    rintro value rfl
    obtain ⟨htext, hfinite, hreads⟩ := compute_sound (answers_probe o) hx
    exact ⟨htext, hfinite, hreads.mono fun _ _ hfound => toMetric_eq_found_iff.mp hfound⟩
  error := (compute_answers (.probe hmay)).error

end FromTable

end Metric

namespace Reading

/-- Two metrics, the second of which uses the first. -/
def nestedMetrics : Reading :=
  ofSections { metrics := ⟨[("size", "add/1/2"), ("twice", "mul / 2 / size")], by decide⟩ }

theorem nestedMetrics_size : nestedMetrics.document.sections.metrics.find? "size" = some "add/1/2" := rfl

theorem nestedMetrics_twice : nestedMetrics.document.sections.metrics.find? "twice" = some "mul / 2 / size" := rfl

theorem denotes_size : Metric.Denotes nestedMetrics.document.sections.metrics "add/1/2" [3.0] := by
  have hone : Metric.Denotes nestedMetrics.document.sections.metrics "1" [1.0] := .literal (by decide) rfl rfl
  have htwo : Metric.Denotes nestedMetrics.document.sections.metrics "2" [2.0] := .literal (by decide) rfl rfl
  have hargs : Metric.Denotes nestedMetrics.document.sections.metrics ("1" ++ "/" ++ "2") ([1.0] ++ [2.0]) :=
    .append (by decide) ⟨by decide, by decide⟩ hone htwo
  have hgives : MetricFunction.add.Gives [1.0, 2.0] 3.0 := .fold (by decide)
  exact .function hargs (by decide) hgives rfl

theorem denotes_twice : Metric.Denotes nestedMetrics.document.sections.metrics "mul/2/size" [6.0] := by
  have htwo : Metric.Denotes nestedMetrics.document.sections.metrics "2" [2.0] := .literal (by decide) rfl rfl
  have hsize : Metric.Denotes nestedMetrics.document.sections.metrics "size" [3.0] :=
    .name (by decide) (by decide) ⟨by decide, by decide⟩ rfl nestedMetrics_size (by decide) denotes_size
  have hargs : Metric.Denotes nestedMetrics.document.sections.metrics ("2" ++ "/" ++ "size") ([2.0] ++ [3.0]) :=
    .append (by decide) ⟨by decide, by decide⟩ htwo hsize
  have hgives : MetricFunction.mul.Gives [2.0, 3.0] 6.0 := .fold (by decide)
  exact .function hargs (by decide) hgives rfl

end Reading

end DesignTokens
