import DesignTokens.Proofs.Resolution.ColorScale

/-!
# Faults of metrics and colors

Metrics refer to metrics, and colors to colors and metrics. Resolving one of them can set off the resolution of others,
but whatever the state is in which that happens, a fault can come from nothing but a word with the form of a number, in
the text of the entry or in one that references lead to from there.

* `Metric.Breaks`, `resolveMetric_ends` — metrics, and the expressions that use them.
* `ColorText.Breaks`, `resolveColor_ends`, `fetch_ends` — colors, and what is fetched.
-/

namespace DesignTokens

open Resolve

variable {may : Fault → Prop}

namespace Resolve.Ends

variable {a : Asset} {name : String}

theorem cell : Ends (fun _ => True) may (Resolve.cell a name) where
  ok _ _ _ _ := trivial
  error _ _ _ h := by cases h

theorem record {event : Event} : Ends (fun _ => True) may (Resolve.record event) where
  ok _ _ _ _ := trivial
  error _ _ _ h := by cases h

theorem modifyCell {f : Cell a.Value → Cell a.Value} : Ends (fun _ => True) may (Resolve.modifyCell a name f) where
  ok _ _ _ _ := trivial
  error _ _ _ h := by cases h

/-- A memo cell adds no faults to those of the computation. -/
theorem memoized {entry : a.kind.Entry} {underWay : Bool} {compute : Resolve (Option a.Value)}
    (h : Ends (fun _ => True) may compute) : Ends (fun _ => True) may (memoized a name entry underWay compute) := by
  refine cell.bind fun c _ => ?_
  split
  · exact .pure trivial
  split
  · exact warn.bind fun _ _ => .pure trivial
  · exact record.bind fun _ _ => h.bind fun _ _ => modifyCell.bind fun _ _ => record.bind fun _ _ => .pure trivial

end Resolve.Ends

/-! ### Metrics -/

/-- An expression has a word with the form of a number that cannot be read as one, or a name that leads to a metric with
such a word. -/
inductive Metric.Breaks (metrics : Mapping String) (fault : Fault) : String → Prop where
  | word {text : String} (h : Unreadable text fault) : Breaks metrics fault text
  | metric {text name inner : String} (hname : name ∈ names (words (Text.withoutSpaces text)))
      (hentry : metrics.find? name = some inner) (h : Breaks metrics fault inner) : Breaks metrics fault text

/-- Looking a metric up is resolving it and reading its cell. -/
theorem Metric.reading_ends {name : String} {resolved : Resolve (Option Float)}
    (h : Ends (fun _ => True) may resolved) :
    Ends (fun _ => True) may (do
      match ← resolved with
      | none => return MetricLookup.missing
      | some _ =>
        match (← Resolve.cell .metric name).memo.value? with
        | some value => return MetricLookup.found value
        | none => return MetricLookup.invalid) := by
  refine h.bind fun requested _ => ?_
  cases requested with
  | none => exact .pure trivial
  | some _ =>
    refine .bind .cell fun c _ => ?_
    cases c.memo.value? <;> exact .pure trivial

section Metrics

variable {metrics : Mapping String}

/-- If looking a name up ends in no faults but those that its text leads to, an expression is tame as far as its words and
names lead to no others. -/
theorem Metric.Tame.of_breaks {lookup : Metric.Lookup} {text : String}
    (hlookup : ∀ name, (∀ inner fault, metrics.find? name = some inner → Metric.Breaks metrics fault inner → may fault) →
      Ends (fun _ => True) may (lookup name))
    (hmay : ∀ fault, Metric.Breaks metrics fault text → may fault) : Metric.Tame lookup may text where
  names name hname := hlookup name fun _ fault hentry h => hmay fault (.metric hname hentry h)
  words fault h := hmay fault (.word h)

theorem resolveMetric_ends (underWay : List String) (name : String)
    (hmay : ∀ text fault, metrics.find? name = some text → Metric.Breaks metrics fault text → may fault) :
    Ends (fun _ => True) may (resolveMetric metrics underWay name) := by
  fun_induction resolveMetric metrics underWay name with
  | case1 => exact .pure trivial
  | case2 => exact .map (.memoized (a := .metric) (.pure trivial)) fun _ _ => trivial
  | case3 underWay name text hfound hidle lookup ih =>
    have htame : Metric.Tame lookup may text :=
      .of_breaks (fun other hother => Metric.reading_ends (ih other hother)) fun fault => hmay text fault hfound
    exact .map (.memoized (a := .metric) ((Metric.compute_answers htame).weaken fun _ _ => trivial)) fun _ _ => trivial

/-- Among the metrics of a document, an expression is tame unless it breaks. -/
theorem Metric.tame_lookup {text : String} (hmay : ∀ fault, Metric.Breaks metrics fault text → may fault) :
    Metric.Tame (Metric.lookup metrics) may text :=
  .of_breaks (fun name hname => Metric.reading_ends (resolveMetric_ends [] name hname)) hmay

end Metrics

/-! ### Colors -/

/-- A color text has a part, as an expression, with a word that cannot be read, or refers to a color of which the same
can be said. -/
inductive ColorText.Breaks (metrics colors : Mapping String) (fault : Fault) : String → Prop where
  | part {raw text : String} (hpart : text ∈ expressions raw) (h : Metric.Breaks metrics fault text) :
      Breaks metrics colors fault raw
  | color {raw name inner : String} (hwords : Metric.words (Text.withoutSpaces raw) = ["named", name])
      (hentry : colors.find? name = some inner) (h : Breaks metrics colors fault inner) :
      Breaks metrics colors fault raw

theorem resolveColor_ends {metrics colors : Mapping String} (underWay : List String) (name : String)
    (hmay : ∀ raw fault, colors.find? name = some raw → ColorText.Breaks metrics colors fault raw → may fault) :
    Ends (fun _ => True) may (resolveColor (Metric.lookup metrics) colors underWay name) := by
  fun_induction resolveColor (Metric.lookup metrics) colors underWay name with
  | case1 => exact .pure trivial
  | case2 => exact .map (.memoized (a := .color) (.pure trivial)) fun _ _ => trivial
  | case3 underWay name raw hfound hidle lookup ih =>
    have hlookup (other : String) (hwords : Metric.words (Text.withoutSpaces raw) = ["named", other]) :
        Ends (fun _ => True) may (lookup other) := by
      have hother := ih other fun inner fault hentry h => hmay raw fault hfound (.color hwords hentry h)
      refine hother.bind fun requested _ => ?_
      cases requested with
      | none => exact .pure trivial
      | some _ =>
        refine .bind .cell fun c _ => ?_
        cases c.memo.value? <;> exact .pure trivial
    have hparts (text : String) (htext : text ∈ ColorText.expressions raw) :
        Metric.Tame (Metric.lookup metrics) may text :=
      Metric.tame_lookup fun fault h => hmay raw fault hfound (.part htext h)
    have hcompute : Finds (fun _ => True) may
        (ColorText.compute (Metric.lookup metrics) lookup colors.contains name raw) :=
      ColorText.compute_answers (fun _ _ => trivial)
        (fun other hwords => (hlookup other hwords).weaken fun _ _ _ _ => trivial) hparts
    exact .map (.memoized (a := .color) (hcompute.weaken fun _ _ => trivial)) fun _ _ => trivial

theorem fetch_ends {a : Asset} {resolve : String → Resolve (Option a.Value)} {name key : String} {user : Kind}
    (h : Ends (fun _ => True) may (resolve name)) : Finds (fun _ => True) may (fetch a resolve name key user) := by
  refine h.bind fun found _ => ?_
  cases found with
  | none => exact .reject
  | some _ =>
    refine Ends.cell.bind fun c _ => ?_
    cases c.memo.value? with
    | none => exact .reject
    | some value => exact .some trivial

end DesignTokens
