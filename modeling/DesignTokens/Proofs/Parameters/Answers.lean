import DesignTokens.Proofs.Json.Walk
import DesignTokens.Proofs.Metric.Finiteness
import DesignTokens.Proofs.Parameters.Scope
import DesignTokens.Proofs.Resolution.Literals
import DesignTokens.Proofs.Resolution.Raising

/-!
# Answers of the readers of parameters

A reader walks along a key path. Where the path leads nowhere, it answers with nothing. Where the path leads to a value,
the answer is of the type of the reader and fits the value: texts are read from texts only, numbers are finite, lists
are as long as requested, and a color is the valid one under the name that stands there.

Nearly everything that can be wrong with a value is answered with nothing as well. Two things are not. A segment at a
list that is meant as a position, but is no integer, ends in a fault, whatever the reader; and so may a text, or another
entry it refers to, with a word that has the form of a number and cannot be read as one.

* `Accessor.number_answers`, `Accessor.numbers_answers`, `Accessor.color_answers` — the answers of readers.
* `Accessor.reads_or_hazard` — all readers, at all key paths of all parameters.
-/

namespace DesignTokens

open Resolve

/-! ### Answers -/

/-- The answer where there is nothing to read. -/
def Reader.nothing : (reader : Reader) → reader.Value
  | .object => Json.null
  | .string | .assetName => (none : Option String)
  | .number => (none : Option Float)
  | .integer => (none : Option Int)
  | .numbers _ => (none : Option (List Float))
  | .point => (none : Option Point)
  | .size => (none : Option Size)
  | .insets => (none : Option Insets)
  | .color => (none : Option Color)

/-- A finite number, or nothing. Without a text to read it is the number that the value itself is. -/
structure IsNumberOf (value : Json) (answer : Option Float) : Prop where
  finite : ∀ x ∈ answer, x.isFinite = true
  number : (∀ text, value ≠ .string text) → answer = Metric.finiteNumber? value

/-- Finite numbers, as many as requested. -/
structure AreNumbers (count : Option Int) (values : List Float) : Prop where
  finite : ∀ x ∈ values, x.isFinite = true
  counted : Metric.AsRequested count values

/-- What a reader may answer with where there is a value. -/
def Reader.Fits (p : Progress) (value : Json) : (reader : Reader) → reader.Value → Prop
  | .object, (answer : Json) => answer = value
  | .string, (answer : Option String) | .assetName, (answer : Option String) =>
    ∀ text, answer = some text ↔ value = .string text
  | .number, (answer : Option Float) => IsNumberOf value answer
  | .integer, (answer : Option Int) => ∃ number, IsNumberOf value number ∧ answer = number.bind Number.truncate?
  | .numbers count, (answer : Option (List Float)) => ∀ values ∈ answer, AreNumbers count values
  | .point, (answer : Option Point) => ∀ point ∈ answer, AreNumbers (some 2) [point.x, point.y]
  | .size, (answer : Option Size) => ∀ size ∈ answer, AreNumbers (some 2) [size.width, size.height]
  | .insets, (answer : Option Insets) => ∀ insets ∈ answer, AreNumbers (some 4) insets.toList
  | .color, (answer : Option Color) =>
    ∀ color ∈ answer, ∃ name, value = .string name ∧ (p.cell .color name).memo = .valid color

/-- What a reader may end in a fault for where there is a value: a word with the form of a number that cannot be read as
one, in an expression that is read or in an entry that references lead to from there. -/
def Reader.Hazard (d : Document) (value : Json) : Reader → Fault → Prop
  | .object, _ | .string, _ | .assetName, _ => False
  | .number, fault | .integer, fault => ∃ text, value = .string text ∧ Metric.Breaks d.sections.metrics fault text
  | .numbers _, fault | .point, fault | .size, fault | .insets, fault =>
    ∃ text, Metric.TextOf value text ∧ Metric.Breaks d.sections.metrics fault text
  | .color, fault =>
    ∃ name raw, value = .string name ∧ d.sections.colors.find? name = some raw ∧
      ColorText.Breaks d.sections.metrics d.sections.colors fault raw

namespace Accessor

section Readers

variable {r : Reading} {a : Accessor} {keyPath : String} {value : Json} {may : Fault → Prop}
  (hobject : a.object keyPath = pure value)

include hobject

theorem string_answers :
    Ends (fun answer => ∀ text, answer = some text ↔ value = .string text) may (a.string keyPath) := by
  rw [string, hobject, pure_bind]
  cases value <;> exact .pure (by simp)

theorem number_answers (htame : ∀ text, value = .string text → Metric.Tame r.metricLookup may text) :
    Ends (IsNumberOf value) may (a.number r keyPath) := by
  have hread : Finds (fun read => read.1.isFinite = true) may
      (Metric.extractOneJson r.metricLookup (a.expecting keyPath) value) :=
    Metric.extractOneJson_answers htame
  rw [number, hobject, pure_bind]
  cases value with
  | null => exact .pure ⟨by simp, fun _ => rfl⟩
  | string text =>
    refine hread.bind fun read hfinite => .pure ⟨fun x hx => ?_, fun h => absurd rfl (h text)⟩
    obtain ⟨first, hfirst, rfl⟩ := Option.map_eq_some_iff.mp hx
    exact hfinite first hfirst
  | _ =>
    refine .pure ⟨fun x hx => ?_, fun _ => ?_⟩
    · rw [Option.map_map] at hx
      exact Metric.isFinite_of_finiteNumber? (by simpa using hx)
    · simp [Option.map_map, Function.comp_def]

theorem integer_answers (htame : ∀ text, value = .string text → Metric.Tame r.metricLookup may text) :
    Ends (fun answer => ∃ number, IsNumberOf value number ∧ answer = number.bind Number.truncate?) may
      (a.integer r keyPath) := by
  refine (number_answers hobject htame).bind fun number hnumber => ?_
  cases number with
  | none => exact .pure ⟨none, hnumber, rfl⟩
  | some x =>
    obtain ⟨n, htruncate, hwhole⟩ := wholePart_of_finite (hnumber.finite x rfl)
    simp only [hwhole]
    exact .pure ⟨some x, hnumber, htruncate.symm⟩

variable (htame : ∀ text, Metric.TextOf value text → Metric.Tame r.metricLookup may text)

include htame

theorem numbers_answers {count : Option Int} : Finds (AreNumbers count) may (a.numbers r keyPath count) := by
  have hread : Finds (fun found => found.IsFinite ∧ Metric.AsRequested count found.values) may
      (Metric.extractJson r.metricLookup (a.expecting keyPath) value count) :=
    Metric.extractJson_answers htame
  rw [numbers, hobject, pure_bind]
  split
  · exact .none
  · refine hread.bind fun found hfound => .pure fun values hvalues => ?_
    obtain ⟨read, hread, rfl⟩ := Option.map_eq_some_iff.mp hvalues
    exact ⟨(hfound read hread).1, (hfound read hread).2⟩

/-- Two numbers make a point, and they make a size. -/
theorem pair_answers {α : Type} (make : Float → Float → α) {good : α → Prop}
    (hgood : ∀ x y, AreNumbers (some 2) [x, y] → good (make x y)) :
    Finds good may (do
      match ← a.numbers r keyPath (some 2) with
      | some [x, y] => return some (make x y)
      | _ => return none) := by
  refine (numbers_answers hobject htame).bind fun values hvalues => ?_
  split
  · next x y => exact .some (hgood x y (hvalues _ rfl))
  · exact .none

theorem insets_answers :
    Finds (fun insets => AreNumbers (some 4) insets.toList) may (a.insets r keyPath) := by
  refine (numbers_answers hobject htame).bind fun values hvalues => .pure fun insets hinsets => ?_
  obtain ⟨list, hlist, hmake⟩ := Option.bind_eq_some_iff.mp hinsets
  obtain rfl : insets.toList = list := by
    unfold Insets.ofList? at hmake
    split at hmake
    · cases hmake
      rfl
    · cases hmake
  exact hvalues _ hlist

end Readers

/-- The color under a name is valid. -/
theorem color_answers {r : Reading} {a : Accessor} {keyPath : String} {value : Json}
    (hobject : a.object keyPath = pure value) (p : Progress) :
    (∃ answer p', a.color r keyPath p = .ok answer p' ∧ Reader.Fits p' value .color answer) ∨
      ∃ fault p', a.color r keyPath p = .error fault p' ∧ Reader.Hazard r.document value .color fault := by
  rw [color, string, hobject, pure_bind]
  cases value with
  | string name =>
    have hends : Finds (fun _ => True) (Reader.Hazard r.document (.string name) .color)
        (DesignTokens.fetch .color r.color name (a.path keyPath) .customParameters) :=
      fetch_ends (resolveColor_ends [] name fun raw fault hentry h => ⟨name, raw, rfl, hentry, h⟩)
    rcases hends.outcome p with ⟨answer, p', hanswer, -⟩ | hfault
    · refine .inl ⟨answer, p', hanswer, ?_⟩
      rintro color rfl
      exact ⟨name, rfl, Reading.valid_of_fetched hanswer⟩
    · exact .inr hfault
  | _ => exact .inl ⟨none, p, rfl, fun _ h => by cases h⟩

/-- Where there is a value, the answer fits it, unless an unreadable number is in the way. -/
theorem readValue_answers {r : Reading} {a : Accessor} {keyPath : String} {value : Json}
    (hobject : a.object keyPath = pure value) (p : Progress) (reader : Reader) :
    (∃ answer p', a.readValue r keyPath reader p = .ok answer p' ∧ reader.Fits p' value answer) ∨
      ∃ fault p', a.readValue r keyPath reader p = .error fault p' ∧ reader.Hazard r.document value fault := by
  have hself (text : String) (htext : value = .string text) :
      Metric.Tame r.metricLookup (Reader.Hazard r.document value .number) text :=
    Metric.tame_lookup fun fault h => ⟨text, htext, h⟩
  have hwithin (text : String) (htext : Metric.TextOf value text) :
      Metric.Tame r.metricLookup (Reader.Hazard r.document value (.numbers none)) text :=
    Metric.tame_lookup fun fault h => ⟨text, htext, h⟩
  cases reader with
  | object => exact .inl ⟨value, p, by rw [readValue, hobject]; rfl, rfl⟩
  | string | assetName =>
    exact (string_answers hobject).outcome p
  | number => exact (number_answers hobject hself).outcome p
  | integer => exact (integer_answers hobject hself).outcome p
  | numbers count => exact (numbers_answers hobject hwithin).outcome p
  | point => exact (pair_answers hobject hwithin Point.mk fun _ _ => id).outcome p
  | size => exact (pair_answers hobject hwithin Size.mk fun _ _ => id).outcome p
  | insets => exact (insets_answers hobject hwithin).outcome p
  | color => exact color_answers hobject p

/-- Where there is nothing, nothing is read, and nothing happens. -/
theorem readValue_nothing {r : Reading} {a : Accessor} {keyPath : String} (hobject : a.object keyPath = pure Json.null)
    (reader : Reader) : a.readValue r keyPath reader = pure reader.nothing := by
  cases reader <;>
    simp only [readValue, string, assetName, number, integer, numbers, point, size, insets, color, hobject,
      pure_bind] <;> rfl

/-- A key path leads to a value, or nowhere, or to a segment that is meant as a position and is no integer. All readers
of a parameter end accordingly, in every state of a document. What they answer where there is a value fits it; a fault
there comes from a word with the form of a number that cannot be read as one, in the value or in an entry that
references lead to from there. -/
theorem reads_or_hazard (root : Json) (path : String) (r : Reading) (a : Accessor) (keyPath : String) (p : Progress)
    (reader : Reader) :
    ((∀ target, KeyPath.valueAt root path = .ok (some target) ↔ KeyPath.Leads root (KeyPath.split path) target) ∧
      (KeyPath.valueAt root path = .ok none ↔ ∃ inner segment, KeyPath.Halts root (KeyPath.split path) inner segment ∧
        ¬ KeyPath.Blocks inner segment ∧ ∀ next, ¬ KeyPath.Matches inner segment next) ∧
      ∀ fault, KeyPath.valueAt root path = .error fault ↔
        ∃ inner segment, KeyPath.Halts root (KeyPath.split path) inner segment ∧
          KeyPath.Blocks inner segment ∧ fault = .indexNotInteger segment) ∧
    (∀ value, KeyPath.valueAt a.value (a.path keyPath) = .ok (some value) →
      (∃ answer p', a.readValue r keyPath reader p = .ok answer p' ∧ reader.Fits p' value answer) ∨
        ∃ fault p', a.readValue r keyPath reader p = .error fault p' ∧ reader.Hazard r.document value fault) ∧
    (KeyPath.valueAt a.value (a.path keyPath) = .ok none → a.readValue r keyPath reader p = .ok reader.nothing p) ∧
    ∀ fault, KeyPath.valueAt a.value (a.path keyPath) = .error fault →
      a.readValue r keyPath reader p = .error fault p := by
  refine ⟨⟨fun target => KeyPath.walk_eq_some_iff, KeyPath.walk_eq_none_iff, fun fault => KeyPath.walk_eq_error_iff⟩,
    fun value hvalue => ?_, fun hvalue => ?_, fun fault hvalue => ?_⟩
  · have hobject : a.object keyPath = pure value := by
      rw [object, hvalue]
      rfl
    exact readValue_answers hobject p reader
  · have hobject : a.object keyPath = pure Json.null := by
      rw [object, hvalue]
      rfl
    rw [readValue_nothing hobject]
    rfl
  · have hobject : a.object keyPath = throw fault := by
      rw [object, hvalue]
      rfl
    rw [readValue_of_fault hobject]
    rfl

/-- A parameter with a list. -/
def listParameter : Reading where
  document := {
    version := none
    sections := { parameters := ⟨[("widths", .list [.int 1])], (by decide : ["widths"].Nodup)⟩ }
    hasEmptyGroups := false }
  surroundings := { storage := none, catalog := .builtIn, files := .empty }

theorem valueAt_listed (segment : String) (hne : segment ≠ "") (hdot : segment.toList.splitOn '.' = [segment.toList]) :
    KeyPath.valueAt (.list [.int 1]) segment = KeyPath.walk (.list [.int 1]) [segment] := by
  rw [KeyPath.valueAt, KeyPath.split_eq hne, hdot, List.map_singleton, String.ofList_toList]

/-- A list has no item at a superscript, which is a digit and still no integer. -/
theorem valueAt_superscript : KeyPath.valueAt (.list [.int 1]) "²" = .error (.indexNotInteger "²") := by
  rw [valueAt_listed "²" (by decide) (by decide), KeyPath.walk_eq_error_iff]
  have hdigit : KeyPath.MeansPosition "²" 0 ['²'] :=
    ⟨by decide, by decide, List.forall_mem_singleton.mpr rfl⟩
  exact ⟨.list [.int 1], "²", ⟨[], [], rfl, .here⟩,
    ⟨[.int 1], rfl, 0, ['²'], hdigit, .inr (.inl ⟨'²', List.mem_singleton_self _, rfl⟩)⟩, rfl⟩

/-- The three ends of a walk along one segment. -/
theorem reads_or_hazard_listed :
    let a : Accessor := ⟨.list [.int 1], ""⟩
    KeyPath.valueAt a.value (a.path "-1") = .ok (some (.int 1)) ∧
      KeyPath.valueAt a.value (a.path "width") = .ok none ∧
      KeyPath.valueAt a.value (a.path "²") = .error (.indexNotInteger "²") ∧
      (∃ answer p', a.readValue listParameter "-1" .string {} = .ok answer p' ∧ answer = (none : Option String)) ∧
      a.readValue listParameter "width" .string {} = .ok (none : Option String) {} ∧
      a.readValue listParameter "²" .string {} = .error (.indexNotInteger "²") {} := by
  intro a
  have hlast : KeyPath.valueAt a.value (a.path "-1") = .ok (some (.int 1)) :=
    (valueAt_listed "-1" (by decide) (by decide)).trans rfl
  have hmember : KeyPath.valueAt a.value (a.path "width") = .ok none :=
    (valueAt_listed "width" (by decide) (by decide)).trans rfl
  have hsuperscript : KeyPath.valueAt a.value (a.path "²") = .error (.indexNotInteger "²") := valueAt_superscript
  have hreads (keyPath : String) := (reads_or_hazard a.value (a.path keyPath) listParameter a keyPath {} .string).2
  refine ⟨hlast, hmember, hsuperscript, ?_, (hreads "width").2.1 hmember, (hreads "²").2.2 _ hsuperscript⟩
  rcases (hreads "-1").1 _ hlast with ⟨answer, p', hanswer, hfits⟩ | ⟨_, _, _, hno⟩
  · exact ⟨answer, p', hanswer, Option.eq_none_iff_forall_ne_some.mpr fun text h => by cases (hfits text).mp h⟩
  · exact hno.elim

/-- Not every reader of a parameter answers. -/
theorem not_always_reads :
    ¬ ∀ (r : Reading) (name : String) (indirect : Bool) (a : Accessor) (p p' : Progress),
      Accessor.ofName r name indirect p = .ok (some a) p' →
        ∀ keyPath reader, ∃ answer q, a.readValue r keyPath reader p' = .ok answer q := by
  intro hreads
  have hname : Accessor.ofName listParameter "widths" false {} = .ok (some ⟨.list [.int 1], ""⟩) {} := rfl
  obtain ⟨answer, q, hanswer⟩ := hreads listParameter "widths" false _ {} {} hname "²" .object
  have hobject : (⟨.list [.int 1], ""⟩ : Accessor).object "²" = throw (.indexNotInteger "²") := by
    show lift (KeyPath.valueAt (.list [.int 1]) "²") >>= _ = _
    rw [valueAt_superscript]
    rfl
  rw [readValue_of_fault hobject] at hanswer
  cases hanswer

end Accessor

end DesignTokens
