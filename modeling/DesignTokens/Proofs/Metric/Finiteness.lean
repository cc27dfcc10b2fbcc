import DesignTokens.Proofs.Resolution.Sentinel

/-!
# Metrics are finite

It does not matter how names are looked up, in which state, or what the values of other entries are: what a reader of
metrics gives is finite. Then it has an integer part, and a parameter that is read as a number can be read as an
integer.

* `Metric.extract_finds`, `Metric.extractJson_finds` — the readers of texts and of data.
* `Document.metric_numbers_finite` — metrics in valid cells, the values of all readers, and integers.
-/

namespace DesignTokens

open Resolve

namespace Resolve

variable {α : Type}

/-- What a computation finds, if it finds something, has a property. It may as well end in a fault. -/
abbrev FindsOnly (good : α → Prop) (f : Resolve (Option α)) : Prop := Finds good (fun _ => True) f

theorem Ends.unknown (f : Resolve α) : Ends (fun _ => True) (fun _ => True) f :=
  ⟨fun _ _ _ _ => trivial, fun _ _ _ _ => trivial⟩

end Resolve

/-! ### Readers of metrics -/

namespace Metric

variable {lookup : Lookup} {expecting text : String} {requested : Option Int} {value : Json}

theorem Tame.unknown : Tame lookup (fun _ => True) text := ⟨fun _ _ => .unknown _, fun _ _ => trivial⟩

theorem extract_finds : FindsOnly Extraction.IsFinite (extract lookup expecting text requested) :=
  scan_answers (fun _ _ => .unknown _) fun _ _ _ _ => trivial

theorem extractOne_finds : FindsOnly (fun read => read.1.isFinite = true) (extractOne lookup expecting text) :=
  extractOne_answers .unknown

theorem extractEach_finds (texts : List String) :
    FindsOnly Extraction.IsFinite (extractEach lookup expecting texts) :=
  extractEach_answers fun _ _ => .unknown

theorem extractInsets_finds : FindsOnly Extraction.IsFinite (extractInsets lookup expecting text) :=
  extractInsets_answers fun _ _ => .unknown

theorem extractOneJson_finds :
    FindsOnly (fun read => read.1.isFinite = true) (extractOneJson lookup expecting value) :=
  extractOneJson_answers fun _ _ => .unknown

theorem extractJson_finds : FindsOnly Extraction.IsFinite (extractJson lookup expecting value requested) :=
  (extractJson_answers fun _ _ => .unknown).weaken fun _ h found hfound => (h found hfound).1

end Metric

/-! ### Parameters -/

namespace Accessor

variable {r : Reading} {a : Accessor} {keyPath : String} {p p' : Progress}

theorem number_finds : FindsOnly (fun x => x.isFinite = true) (a.number r keyPath) := by
  refine (Ends.unknown _).bind fun value _ => ?_
  split
  · exact .none
  · refine Metric.extractOneJson_finds.bind fun read hread => .pure fun x hx => ?_
    obtain ⟨first, hfirst, rfl⟩ := Option.map_eq_some_iff.mp hx
    exact hread first hfirst

theorem numbers_finds {count : Option Int} :
    FindsOnly (fun values => ∀ x ∈ values, x.isFinite = true) (a.numbers r keyPath count) := by
  refine (Ends.unknown _).bind fun value _ => ?_
  split
  · exact .none
  · refine Metric.extractJson_finds.bind fun read hread => .pure fun values hvalues => ?_
    obtain ⟨found, hfound, rfl⟩ := Option.map_eq_some_iff.mp hvalues
    exact hread found hfound

theorem wholePart_of_finite {x : Float} (h : x.isFinite = true) :
    ∃ n, Number.truncate? x = some n ∧ Color.wholePart x = .ok n := by
  obtain ⟨s, m, e, hexact⟩ := Number.isFinite_iff.mp h
  have htruncate : Number.truncate? x = some (Number.negateIf s (Number.wholePart m e)) := by
    simp only [Number.truncate?, hexact]
  exact ⟨_, htruncate, by simp only [Color.wholePart, htruncate]⟩

/-- A number that is read has an integer part, and that is read as the integer. -/
theorem integer_of_number {x : Float} (h : a.number r keyPath p = .ok (some x) p') :
    ∃ n, Number.truncate? x = some n ∧ a.integer r keyPath p = .ok (some n) p' := by
  obtain ⟨n, htruncate, hwhole⟩ := wholePart_of_finite (number_finds.ok h x rfl)
  refine ⟨n, htruncate, ?_⟩
  rw [integer, bind_of_ok h]
  simp only [hwhole]
  rfl

/-- Reading an integer ends in a fault only where reading a number does. -/
theorem integer_eq_error_iff {fault : Fault} :
    a.integer r keyPath p = .error fault p' ↔ a.number r keyPath p = .error fault p' := by
  constructor
  · intro h
    rcases bind_eq_error_iff.mp h with h | ⟨x, p₁, hnumber, h⟩
    · exact h
    · cases x with
      | none => cases h
      | some x =>
        obtain ⟨n, -, hinteger⟩ := integer_of_number hnumber
        rw [integer, bind_of_ok hnumber] at hinteger
        cases hinteger.symm.trans h
  · intro h
    exact bind_eq_error_iff.mpr (.inl h)

end Accessor

namespace Document

/-- In every state of a document, metrics in valid cells are finite. However names are looked up and whatever state a
reading starts from, all values that it gives are finite. So a number that is read from a parameter has an integer
part, which is what reading an integer gives, and that ends in no fault of its own. -/
theorem metric_numbers_finite (d : Document) (p : Progress) (h : d.Reachable (fun _ => True) p) :
    (∀ name value, (p.cell .metric name).memo = .valid value → Float.isFinite value = true) ∧
      (∀ (lookup : Metric.Lookup) (expecting : String),
        (∀ text requested, FindsOnly Extraction.IsFinite (Metric.extract lookup expecting text requested)) ∧
        (∀ text, FindsOnly (fun read => read.1.isFinite = true) (Metric.extractOne lookup expecting text)) ∧
        (∀ texts, FindsOnly Extraction.IsFinite (Metric.extractEach lookup expecting texts)) ∧
        (∀ raw, FindsOnly Extraction.IsFinite (Metric.extractInsets lookup expecting raw)) ∧
        (∀ value, FindsOnly (fun read => read.1.isFinite = true) (Metric.extractOneJson lookup expecting value)) ∧
        ∀ value requested, FindsOnly Extraction.IsFinite (Metric.extractJson lookup expecting value requested)) ∧
      ∀ (s : Surroundings) (a : Accessor) (keyPath : String) (q q' : Progress),
        (∀ x, a.number ⟨d, s⟩ keyPath q = .ok (some x) q' →
          x.isFinite = true ∧
            ∃ n, Number.truncate? x = some n ∧ a.integer ⟨d, s⟩ keyPath q = .ok (some n) q') ∧
          (∀ fault, a.integer ⟨d, s⟩ keyPath q = .error fault q' ↔ a.number ⟨d, s⟩ keyPath q = .error fault q') ∧
          ∀ count values, a.numbers ⟨d, s⟩ keyPath count q = .ok (some values) q' →
            ∀ x ∈ values, x.isFinite = true := by
  have hf : p.Founded d fun _ => True := founded_of_reachable h
  refine ⟨fun name value hmemo => ?_, fun lookup expecting => ⟨fun text requested => Metric.extract_finds,
    fun text => Metric.extractOne_finds, Metric.extractEach_finds, fun raw => Metric.extractInsets_finds,
    fun value => Metric.extractOneJson_finds, fun value requested => Metric.extractJson_finds⟩,
    fun s a keyPath q q' => ⟨fun x hx => ⟨Accessor.number_finds.ok hx x rfl, Accessor.integer_of_number hx⟩,
      fun fault => Accessor.integer_eq_error_iff,
      fun count values hvalues => Accessor.numbers_finds.ok hvalues values rfl⟩⟩
  have hvalue : Metric.HasValue d.sections.metrics name value := hf.comesTo (a := .metric) hmemo
  exact hvalue.isFinite

/-- A metric that a call has resolved, and a parameter with a fraction. -/
theorem metric_numbers_finite_nested :
    ∃ p, Reading.nestedMetrics.document.Reachable (fun _ => True) p ∧
      (p.cell .metric "size").memo = .valid 3.0 ∧ (3.0 : Float).isFinite = true ∧
      (⟨.string "mul/3/0.75", ""⟩ : Accessor).number Reading.nestedMetrics "" p = .ok (some 2.25) p ∧
      (⟨.string "mul/3/0.75", ""⟩ : Accessor).integer Reading.nestedMetrics "" p = .ok (some 2) p := by
  have hcall : ∃ p, (Call.resolve .metric "size").run Reading.nestedMetrics {} = .ok () p ∧
      (p.cell .metric "size").memo = .valid 3.0 := by
    simp only [Call.run, Reading.resolve, Reading.resolve?, Reading.metric,
      resolveMetric_found Reading.nestedMetrics_size, List.not_mem_nil, ↓reduceIte]
    exact ⟨_, rfl, rfl⟩
  obtain ⟨p, hrun, hmemo⟩ := hcall
  have hreach : Reading.nestedMetrics.document.Reachable (fun _ => True) p := .atRest (.returned trivial .start hrun)
  have hnumber : (⟨.string "mul/3/0.75", ""⟩ : Accessor).number Reading.nestedMetrics "" p = .ok (some 2.25) p := rfl
  obtain ⟨hcells, -, hnumbers⟩ := metric_numbers_finite _ p hreach
  obtain ⟨-, n, htruncate, hinteger⟩ := (hnumbers Reading.nestedMetrics.surroundings _ "" p p).1 _ hnumber
  obtain rfl : 2 = n := Option.some.inj htruncate
  exact ⟨p, hreach, hmemo, hcells "size" _ hmemo, hnumber, hinteger⟩

end Document

end DesignTokens
