import DesignTokens.Proofs.Font.Layers
import DesignTokens.Proofs.Resolution.Raising
import DesignTokens.Proofs.Resolution.Retry

/-!
# Values that equal the sentinel

A call for an entry that is missing or invalid returns the sentinel of its asset. But the sentinels of metrics, colors
and fonts are values like all others, and an entry may come to one of them: a metric by its arithmetic, a color by its
components, its digits or the entry that it names, a font by the layers of its descriptor and the face that the catalog
has for it (`Document.SpellsSentinel`). Such an entry is valid, and the value alone does not tell it from a failure.

* `Progress.Founded.comesTo` — valid cells hold what their entries come to.
* `Reading.equals_sentinel_iff` — which values that calls return equal the sentinel.
* `Reading.not_equals_sentinel_iff_failed` — a metric that is valid and has the value of the sentinel.
-/

namespace DesignTokens

open Progress Resolve

namespace Document

/-- What metrics and colors come to by their texts and fonts by their layers. A font is what some catalog has granted for
its descriptor. -/
def ComesTo (d : Document) : (a : Asset) → String → a.Value → Prop
  | .metric, name, (x : Float) => Metric.HasValue d.sections.metrics name x
  | .color, name, (color : Color) => ColorText.HasValue d.sections.metrics d.sections.colors name color
  | .font, name, (font : Font) =>
    FontLayers.Describes d.sections.metrics d.sections.fonts name font.descriptor ∧
      ∃ c requested expected realized size, FontLayers.Grants c requested font expected realized size
  | _, _, _ => True

/-- An entry comes to the sentinel of its asset by its text or by its layers. The family and the face of a font are up
to the catalog, so those of the value count. -/
def SpellsSentinel (d : Document) : (a : Asset) → String → a.Value → Prop
  | .metric, name, _ => ∃ x, Metric.HasValue d.sections.metrics name x ∧ (x == Asset.invalidMetric) = true
  | .color, name, _ =>
    ∃ color, ColorText.HasValue d.sections.metrics d.sections.colors name color ∧ (color == Color.invalid) = true
  | .font, name, (font : Font) =>
    ∃ descriptor, FontLayers.Describes d.sections.metrics d.sections.fonts name descriptor ∧
      descriptor.equal Font.invalid.descriptor = true ∧ font.family = "Courier" ∧ font.face = "Bold Oblique"
  | _, _, _ => False

variable {d : Document} {s : Surroundings} {a : Asset} {name : String} {entry : a.kind.Entry} {value : a.Value}

/-- What an entry comes to equals the sentinel exactly if the entry spells it, since it comes to nothing else. -/
theorem ComesTo.isInvalid_iff (h : d.ComesTo a name value) (ha : a ∈ [Asset.metric, .color, .font]) :
    a.isInvalid value = true ↔ d.SpellsSentinel a name value := by
  simp only [List.mem_cons, List.not_mem_nil, or_false] at ha
  rcases ha with rfl | rfl | rfl
  · constructor
    · exact fun hequal => ⟨value, h, hequal⟩
    · rintro ⟨x, hx, hequal⟩
      obtain rfl := Metric.HasValue.unique h hx
      exact hequal
  · constructor
    · exact fun hequal => ⟨value, h, hequal⟩
    · rintro ⟨color, hcolor, hequal⟩
      obtain rfl := ColorText.HasValue.unique h hcolor
      exact hequal
  · obtain ⟨hdescribes, c, requested, expected, realized, size, hgrants⟩ := h
    rw [show Asset.isInvalid .font value = value.equal Font.invalid from rfl, hgrants.equal_invalid]
    constructor
    · rintro ⟨hequal, hfamily, hface⟩
      exact ⟨value.descriptor, hdescribes, hequal, hfamily, hface⟩
    · rintro ⟨descriptor, hdescriptor, hequal, hfamily, hface⟩
      rw [hdescribes.unique hdescriptor]
      exact ⟨hequal, hfamily, hface⟩

/-- A computation comes to what its entry comes to, if the values that it asks for do. -/
theorem comesTo_of_compute {o : Oracle} {p' : Progress}
    (hknown : ∀ b other found, o b other = .found found → d.ComesTo b other found)
    (hentry : d.entry? a.kind name = some entry)
    (h : Reading.compute ⟨d, s⟩ (.probe o) a name entry {} = .ok (some value) p') : d.ComesTo a name value := by
  have hmetrics (name : String) (x : Float) (hfound : o .metric name = .found x) :
      Metric.HasValue d.sections.metrics name x := hknown .metric name x hfound
  cases a with
  | metric =>
    obtain ⟨htext, -, hreads⟩ := Metric.compute_sound (Metric.answers_probe o) h
    exact ⟨entry, hentry, htext, hreads.denotes_of_found hmetrics⟩
  | color => exact ⟨entry, hentry, ColorText.compute_sound hmetrics (hknown .color) h⟩
  | font =>
    have hfonts (name : String) (font : Font) (hfound : o .font name = .found font) :
        FontLayers.Describes d.sections.metrics d.sections.fonts name font.descriptor :=
      (hknown .font name font hfound).1
    obtain ⟨hdescribes, hgrants⟩ := FontLayers.compute_sound hmetrics hfonts hentry h
    exact ⟨hdescribes, s.catalog, hgrants⟩
  | _ => trivial

end Document

theorem Progress.Founded.comesTo {d : Document} {within : Surroundings → Prop} {p : Progress} (h : p.Founded d within)
    {a : Asset} {name : String} {value : a.Value} (hmemo : (p.cell a name).memo = .valid value) :
    d.ComesTo a name value :=
  (h.stands a name (by rw [hmemo]; rfl)).spreads
    (fun _ _ _ _ _ _ _ hknown hentry hcompute => Document.comesTo_of_compute hknown hentry hcompute) value hmemo

namespace Reading

variable {d : Document} {s : Surroundings} {p p' : Progress} {a : Asset} {name : String} {value : a.Value}

theorem isInvalid_invalid (ha : a ∈ [Asset.metric, .color, .font]) : a.isInvalid a.invalid = true := by
  simp only [List.mem_cons, List.not_mem_nil, or_false] at ha
  rcases ha with rfl | rfl | rfl <;> decide

/-- A call leaves the state founded. -/
theorem founded_of_resolve (h : d.Reachable (fun _ => True) p)
    (hresolve : Reading.resolve ⟨d, s⟩ a name p = .ok value p') : p'.Founded d fun _ => True := by
  have hf : p.Founded d fun _ => True := Document.founded_of_reachable h
  obtain ⟨x, p₁, hrequest, hrest⟩ := bind_eq_ok_iff.mp hresolve
  have hf₁ : p₁.Founded d fun _ => True :=
    (Document.upholds_founded d fun _ => True).during s a name p p₁ trivial hf (during_resolve? (.inl ⟨x, hrequest⟩))
  cases x with
  | none =>
    cases hrest
    exact hf₁.record _
  | some found =>
    cases hrest
    exact hf₁

/-- In every state of a document, a call for a metric, a color or a font returns a value that equals the sentinel of its
asset exactly if there is no such entry, its cell is not valid after the call, or the entry spells the sentinel: unless
the call ends in a fault of a hazard of the document. -/
theorem equals_sentinel_iff (d : Document) (s : Surroundings) (p : Progress) (a : Asset) (name : String)
    (h : d.Reachable (fun _ => True) p) (ha : a ∈ [Asset.metric, .color, .font]) :
    ReturnsOrHazard ⟨d, s⟩ (Reading.resolve ⟨d, s⟩ a name) p fun value p' =>
      a.isInvalid value = true ↔
        d.entry? a.kind name = none ∨ (p'.cell a name).memo.isValid = false ∨ d.SpellsSentinel a name value := by
  refine (resolve_relays a name).returnsOrHazard (Document.founded_of_reachable h) fun value p' hresolve => ?_
  have hf' := founded_of_resolve h hresolve
  constructor
  · intro hequal
    cases hentry : d.entry? a.kind name with
    | none => exact .inl rfl
    | some entry =>
      have hpayload := payload_of_resolve (by rw [hentry]; rfl) hresolve
      cases hmemo : (p'.cell a name).memo with
      | valid other =>
        rw [hmemo] at hpayload
        cases hpayload
        exact .inr (.inr (((hf'.comesTo hmemo).isInvalid_iff ha).mp hequal))
      | _ => exact .inr (.inl rfl)
  · rintro (hmissing | hinvalid | hspells)
    · rw [resolve_missing hmissing] at hresolve
      cases hresolve
      exact isInvalid_invalid ha
    · rcases valid_or_sentinel h hresolve with hvalid | rfl
      · rw [hvalid] at hinvalid
        cases hinvalid
      · exact isInvalid_invalid ha
    · rcases valid_or_sentinel h hresolve with hvalid | rfl
      · exact ((hf'.comesTo hvalid).isInvalid_iff ha).mpr hspells
      · exact isInvalid_invalid ha

/-- A color whose digits are those of the sentinel. -/
def alarmColor : Document := ⟨some 0, { colors := ⟨[("alarm", "web/FF0000CC")], by decide⟩ }, false⟩

theorem alarmColor_alarm : alarmColor.sections.colors.find? "alarm" = some "web/FF0000CC" := rfl

theorem spellsSentinel_alarm (value : Color) : alarmColor.SpellsSentinel .color "alarm" value := by
  have hhex : ColorText.Hex ['F', 'F', '0', '0', '0', '0', 'C', 'C']
      [15 * 16 + 15, 0 * 16 + 0, 0 * 16 + 0, 12 * 16 + 12] :=
    .cons rfl rfl (.cons rfl rfl (.cons rfl rfl (.cons rfl rfl .nil)))
  have hbytes : ColorText.WebBytes [] "FF0000CC".toList [255, 0, 0, 204] := ⟨_, hhex, .inr ⟨rfl, rfl⟩⟩
  exact ⟨_, ⟨_, alarmColor_alarm, .web (by decide) hbytes (.rgb rfl)⟩, by decide⟩

/-- The color is valid, and what a call for it returns equals the sentinel. -/
theorem equals_sentinel_iff_alarm :
    ∃ value p', Reading.resolve ⟨alarmColor, brandFolder⟩ .color "alarm" {} = .ok value p' ∧
      (p'.cell .color "alarm").memo.isValid = true ∧ Asset.isInvalid .color value = true := by
  have hcall : ∃ value p', Reading.resolve ⟨alarmColor, brandFolder⟩ .color "alarm" {} = .ok value p' ∧
      (p'.cell .color "alarm").memo.isValid = true := by
    simp only [Reading.resolve, Reading.resolve?, Reading.color, resolveColor_found alarmColor_alarm,
      List.not_mem_nil, ↓reduceIte]
    exact ⟨_, _, rfl, rfl⟩
  obtain ⟨value, p', hresolve, hvalid⟩ := hcall
  have hsignal := equals_sentinel_iff alarmColor brandFolder {} .color "alarm" (.atRest .start) (by decide)
  rcases hsignal with ⟨returned, p₁, hreturned, hiff⟩ | ⟨fault, p₁, hfault, -⟩
  · rw [hresolve] at hreturned
    cases hreturned
    exact ⟨value, p', hresolve, hvalid, hiff.mpr (.inr (.inr (spellsSentinel_alarm value)))⟩
  · rw [hresolve] at hfault
    cases hfault

/-- A metric of the value of the sentinel. -/
def circleMetric : Document := ⟨some 0, { metrics := ⟨[("m", "3.141592653589793")], by decide⟩ }, false⟩

theorem ofText_circleMetric :
    Document.ofText "\x7b\"metrics\":\x7b\"m\":\"3.141592653589793\"\x7d\x7d" = .ok circleMetric := by
  have hhalf : Text.hasHalf "\x7b\"metrics\":\x7b\"m\":\"3.141592653589793\"\x7d\x7d" = false := by cbv
  have hread : Json.read? .document "\x7b\"metrics\":\x7b\"m\":\"3.141592653589793\"\x7d\x7d" =
      some (.map [(.string "metrics", .map [(.string "m", .string "3.141592653589793")])]) := by cbv
  rw [Document.ofText_of_read? hhalf hread]
  rfl

theorem circleMetric_m : circleMetric.sections.metrics.find? "m" = some "3.141592653589793" := rfl

/-- There is a document that decodes and a metric of it that is valid and still resolves to the sentinel. -/
theorem not_equals_sentinel_iff_failed :
    ¬ ∀ text d s p a name value p', Document.ofText text = .ok d → d.Reachable (fun _ => True) p →
      a ∈ [Asset.metric, .color, .font] → Reading.resolve ⟨d, s⟩ a name p = .ok value p' →
        (a.isInvalid value = true ↔ d.entry? a.kind name = none ∨ (p'.cell a name).memo.isValid = false) := by
  intro h
  have hcall : ∃ p', Reading.resolve ⟨circleMetric, brandFolder⟩ .metric "m" {} = .ok 3.141592653589793 p' ∧
      (p'.cell .metric "m").memo.isValid = true := by
    simp only [Reading.resolve, Reading.resolve?, Reading.metric, resolveMetric_found circleMetric_m,
      List.not_mem_nil, ↓reduceIte]
    exact ⟨_, rfl, rfl⟩
  obtain ⟨p', hresolve, hvalid⟩ := hcall
  rcases (h _ _ _ _ _ _ _ _ ofText_circleMetric (.atRest .start) (by decide) hresolve).mp (by decide) with
    hmissing | hinvalid
  · cases hmissing
  · rw [hvalid] at hinvalid
    cases hinvalid

end Reading

end DesignTokens
