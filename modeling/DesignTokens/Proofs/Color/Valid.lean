import DesignTokens.Proofs.Color.Components
import DesignTokens.Proofs.Resolution.Sentinel

/-!
# Valid colors

Colors of components are kept by the rule of their parts, because the metrics that the parts name are kept with the
values of their texts. So whether such a color is valid, and which color it is, depends on its own text and on valid
metrics alone. Colors of any format, at the end of any chain of names, have components between zero and one.

* `ColorText.meaning_iff_denotes` — the meaning of a color of components is the color of its text.
* `Reading.components_resolve_iff` — which colors of components are valid, and what their components are.
* `Document.colors_inRange` — components and bytes of the colors in valid cells.
-/

namespace DesignTokens

namespace ColorText

variable {format : ColorFormat} {raw : String} {color : Color}

/-! ### Cells -/

/-- A color with components is kept as valid exactly if it is the color of its text. -/
def KeptRightly (d : Document) : (a : Asset) → String → Memo a.Value → Prop
  | .color, name, memo => ∀ raw format parts, d.sections.colors.find? name = some raw → IsComponents raw format parts →
      ∀ color, memo = .valid color ↔ Denotes d.sections.metrics d.sections.colors raw color
  | _, _, _ => True

/-- Metrics and colors with components are kept rightly. -/
def AllKeptRightly (d : Document) (a : Asset) (name : String) (memo : Memo a.Value) : Prop :=
  Metric.KeptRightly d.sections.metrics a name memo ∧ KeptRightly d a name memo

section Cells

variable {u : Usage} {name : String} {parts : List String}

theorem meaning_iff_denotes (hkept : u.progress.AllLoaded (AllKeptRightly u.reading.document))
    (hentry : u.reading.document.sections.colors.find? name = some raw) (h : IsComponents raw format parts) :
    u.meaning .color name = .found color ↔
      Denotes u.reading.document.sections.metrics u.reading.document.sections.colors raw color := by
  rcases Usage.loaded_or_pending (a := .color) hentry with hloaded | hpending
  · rw [Usage.meaning_loaded (a := .color) hentry hloaded, Usage.kept_eq_found_iff]
    exact (hkept .color name hloaded).2 raw format parts hentry h color
  · refine (Usage.meaning_eq_found_iff hpending).trans (Reading.result_eq_ok_iff.trans ?_)
    refine compute_iff (fun other value => ?_) h
    rw [Metric.toMetric_eq_found_iff]
    exact Metric.meaning_iff_hasValue fun a name hloaded => (hkept a name hloaded).1

/-- What is kept as the meaning says is kept rightly. -/
theorem allKeptRightly_of_meaning {d : Document} (hdocument : u.reading.document = d)
    (hkept : u.progress.AllLoaded (AllKeptRightly d)) (a : Asset) (name : String) (memo : Memo a.Value)
    (hmemo : ∀ value, memo = .valid value ↔ u.meaning a name = .found value) : AllKeptRightly d a name memo := by
  have hmetrics := fun a name hloaded => (hkept a name hloaded).1
  refine ⟨Metric.keptRightly_of_meaning hdocument hmetrics a name memo hmemo, ?_⟩
  subst hdocument
  cases a with
  | color => exact fun raw format parts hentry h color => (hmemo color).trans (meaning_iff_denotes hkept hentry h)
  | _ => exact trivial

end Cells

end ColorText

namespace Usage

/-- Resolving an entry gives a value that is kept as valid. -/
def ResolvesTo (u : Usage) (a : Asset) (name : String) (value : a.Value) : Prop :=
  ∃ p', u.reading.resolve a name u.progress = .ok value p' ∧ (p'.cell a name).memo = .valid value

variable {u : Usage} {a : Asset} {name : String}

theorem resolvesTo_iff_meaning (hrests : u.progress.Rests) {entry : a.kind.Entry}
    (hentry : u.reading.document.entry? a.kind name = some entry) {value : a.Value} :
    u.ResolvesTo a name value ↔ u.meaning a name = .found value := by
  constructor
  · rintro ⟨p', hresolve, hmemo⟩
    exact meaning_of_valid hrests hentry hresolve hmemo
  · exact resolve_valid hrests

end Usage

/-- In every state of a document the components of a color in a valid cell lie between zero and one, so that it has
bytes. -/
theorem Document.colors_inRange (d : Document) (p : Progress) (h : d.Reachable (fun _ => True) p) (name : String)
    (color : Color) (hmemo : (p.cell .color name).memo = .valid color) :
    (∀ x ∈ [color.red, color.green, color.blue, color.alpha], 0.0 ≤ x ∧ x ≤ 1.0) ∧
      ∃ red green blue alpha, color.bytes = .ok [red, green, blue, alpha] ∧
        ∀ byte ∈ [red, green, blue, alpha], 0 ≤ byte ∧ byte ≤ 255 := by
  have hf : p.Founded d fun _ => True := founded_of_reachable h
  obtain ⟨text, -, hdenotes⟩ : ColorText.HasValue d.sections.metrics d.sections.colors name color :=
    hf.comesTo (a := .color) hmemo
  have hrange := hdenotes.inRange
  exact ⟨fun x hx => (Number.inRange_iff Number.isNat_one).mp (hrange.components x hx), hrange.bytes⟩

/-- A color in hexadecimal digits, after a call for it. -/
theorem Document.colors_inRange_alarm :
    ∃ p color, Reading.alarmColor.Reachable (fun _ => True) p ∧ (p.cell .color "alarm").memo = .valid color ∧
      ∀ x ∈ [color.red, color.green, color.blue, color.alpha], 0.0 ≤ x ∧ x ≤ 1.0 := by
  have hcall : ∃ p color, (Call.resolve .color "alarm").run ⟨Reading.alarmColor, Reading.brandFolder⟩ {} = .ok () p ∧
      (p.cell .color "alarm").memo = .valid color := by
    simp only [Call.run, Reading.resolve, Reading.resolve?, Reading.color, resolveColor_found Reading.alarmColor_alarm,
      List.not_mem_nil, ↓reduceIte]
    exact ⟨_, _, rfl, rfl⟩
  obtain ⟨p, color, hrun, hmemo⟩ := hcall
  have hreach : Reading.alarmColor.Reachable (fun _ => True) p := .atRest (.returned trivial .start hrun)
  exact ⟨p, color, hreach, hmemo, (colors_inRange _ p hreach "alarm" color hmemo).1⟩

end DesignTokens
