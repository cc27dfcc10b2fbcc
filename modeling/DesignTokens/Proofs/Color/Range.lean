import DesignTokens.Proofs.Color.Meaning
import DesignTokens.Proofs.Number.Range

/-!
# The range of colors

The values of a color text are up to 255. On the scale of 255 they are divided by it, and on the scale of one none of
them exceeds one, so that the components lie between zero and one. Hue, saturation and brightness in this range make
components in this range, and the bytes of such components are up to 255.

* `Color.hsb_inRange` — all sextants of the hue circle.
* `Color.InRange.bytes` — components in range have bytes.
* `ColorText.Denotes.inRange` — the color that a text stands for, at the end of any chain of names.
-/

namespace DesignTokens

open Number

namespace Color

/-- A color whose components lie between zero and one. -/
structure InRange (c : Color) : Prop where
  red : Number.InRange 1 c.red
  green : Number.InRange 1 c.green
  blue : Number.InRange 1 c.blue
  alpha : Number.InRange 1 c.alpha

namespace InRange

variable {c : Color} {whiteness alpha : Float}

theorem white (hwhiteness : Number.InRange 1 whiteness) (halpha : Number.InRange 1 alpha) :
    (Color.white whiteness alpha).InRange := ⟨hwhiteness, hwhiteness, hwhiteness, halpha⟩

theorem components (h : c.InRange) : ∀ x ∈ [c.red, c.green, c.blue, c.alpha], Number.InRange 1 x := by
  simp only [List.forall_mem_cons, List.not_mem_nil, false_imp_iff, implies_true, and_true]
  exact ⟨h.red, h.green, h.blue, h.alpha⟩

end InRange

/-- A component in range is scaled to a byte. -/
theorem rounded_inRange {x : Float} (h : Number.InRange 1 x) :
    ∃ byte, rounded (x * 255.0) = .ok byte ∧ 0 ≤ byte ∧ byte ≤ 255 := by
  have hscaled : Number.InRange 255 (x * 255.0) := h.mul isNat_255.inRange (by decide)
  obtain ⟨byte, hbyte, hle⟩ := hscaled.nearest?
  exact ⟨byte, by simp only [rounded, hbyte], by omega, by omega⟩

theorem InRange.bytes {c : Color} (h : c.InRange) :
    ∃ red green blue alpha, c.bytes = .ok [red, green, blue, alpha] ∧
      ∀ byte ∈ [red, green, blue, alpha], 0 ≤ byte ∧ byte ≤ 255 := by
  obtain ⟨red, hred, hredbyte⟩ := rounded_inRange h.red
  obtain ⟨green, hgreen, hgreenbyte⟩ := rounded_inRange h.green
  obtain ⟨blue, hblue, hbluebyte⟩ := rounded_inRange h.blue
  obtain ⟨alpha, halpha, halphabyte⟩ := rounded_inRange h.alpha
  refine ⟨red, green, blue, alpha, ?_, by simp [*]⟩
  simp only [Color.bytes, List.mapM_cons, List.mapM_nil, hred, hgreen, hblue, halpha]
  rfl

/-- Every color of the palette is in range. -/
theorem standard_inRange {name : String} {c : Color} (h : standard.lookup name = some c) : c.InRange := by
  have hall : ∀ pair ∈ standard, (Number.InRange 1 pair.2.red ∧ Number.InRange 1 pair.2.green) ∧
      Number.InRange 1 pair.2.blue ∧ Number.InRange 1 pair.2.alpha := by decide
  obtain ⟨pairs, key, hpairs, -⟩ := List.lookup_eq_some_iff.mp h
  obtain ⟨⟨hred, hgreen⟩, hblue, halpha⟩ := hall (name, c) (by rw [hpairs]; simp)
  exact ⟨hred, hgreen, hblue, halpha⟩

theorem ofSextant_inRange {sextant : Int} {brightness p q t alpha : Float}
    (hbrightness : Number.InRange 1 brightness) (hp : Number.InRange 1 p) (hq : Number.InRange 1 q)
    (ht : Number.InRange 1 t) (halpha : Number.InRange 1 alpha) :
    InRange ⟨(ofSextant sextant brightness p q t).1, (ofSextant sextant brightness p q t).2.1,
      (ofSextant sextant brightness p q t).2.2, alpha⟩ := by
  unfold ofSextant
  split <;> constructor <;> assumption

/-- A turn of the hue circle ends in its first sextant again. -/
theorem hsb_inRange {hue saturation brightness alpha : Float} (hhue : Number.InRange 1 hue)
    (hsaturation : Number.InRange 1 saturation) (hbrightness : Number.InRange 1 brightness)
    (halpha : Number.InRange 1 alpha) : ∃ c, hsb hue saturation brightness alpha = .ok c ∧ c.InRange := by
  unfold hsb
  split
  · exact ⟨_, rfl, .white hbrightness halpha⟩
  · have hturned : Number.InRange 6 (hue * 6.0) := hhue.mul isNat_six.inRange (by decide)
    obtain ⟨sextant, hsextant, -⟩ := hturned.truncate?
    have hfraction := hturned.fraction hsextant
    have rest {x : Float} (hx : Number.InRange 1 x) : Number.InRange 1 (1.0 - x) := hx.of_nat_sub isNat_one (by decide)
    have part {x y : Float} (hx : Number.InRange 1 x) (hy : Number.InRange 1 y) : Number.InRange 1 (x * y) :=
      hx.mul hy (by decide)
    have hp := part hbrightness (rest hsaturation)
    have hq := part hbrightness (rest (part hsaturation hfraction))
    have ht := part hbrightness (rest (part hsaturation (rest hfraction)))
    simp only [wholePart, hsextant, bind, Except.bind, pure, Except.pure]
    exact ⟨_, rfl, ofSextant_inRange hbrightness hp hq ht halpha⟩

end Color

/-! ### Components -/

namespace Components

/-- All values are up to 255, and up to one as long as none has exceeded it. -/
structure OnScale (c : Components) : Prop where
  within : ∀ value ∈ c.values, InRange 255 value
  fraction : c.have255 = false → ∀ value ∈ c.values, InRange 1 value

namespace OnScale

variable {c : Components} {value : Float}

theorem start : OnScale {} := ⟨by simp, by simp⟩

theorem append {values : List Float} (h : c.OnScale) (hvalues : values = c.values ++ [value])
    (hwithin : InRange 255 value) {haveFraction have255 : Bool}
    (hkept : have255 = false → c.have255 = false ∧ InRange 1 value) : OnScale ⟨values, haveFraction, have255⟩ := by
  subst hvalues
  constructor
  · intro x hx
    rcases List.mem_append.mp hx with hx | hx
    · exact h.within x hx
    · rwa [List.mem_singleton.mp hx]
  · intro hnone x hx
    rcases List.mem_append.mp hx with hx | hx
    · exact h.fraction (hkept hnone).1 x hx
    · rw [List.mem_singleton.mp hx]
      exact (hkept hnone).2

theorem add (h : c.OnScale) (hlow : 0.0 ≤ value) (hhigh : value ≤ 255.0) : (c.add value).OnScale := by
  refine h.append rfl ((inRange_iff isNat_255).mpr ⟨hlow, hhigh⟩) fun hnone => ?_
  rw [Bool.or_eq_false_iff, decide_eq_false_iff_not] at hnone
  exact ⟨hnone.1, inRange_of_not_lt isNat_one hlow hnone.2⟩

theorem addEmpty (h : c.OnScale) (isAlpha : Bool) : (c.addEmpty isAlpha).OnScale := by
  refine h.append rfl ?_ fun hnone => ⟨hnone, ?_⟩
  · unfold full
    split
    · split
      · exact isNat_255.inRange
      · exact isNat_one.inRange.mono (by decide)
    · exact inRange_zero
  · unfold full
    rw [hnone]
    split
    · exact isNat_one.inRange
    · exact inRange_zero

theorem complete (h : c.OnScale) : c.complete.OnScale := by
  unfold Components.complete
  split
  · exact h.addEmpty true
  · exact h

theorem scaled (h : c.OnScale) : ∀ value ∈ c.scaled, InRange 1 value := by
  intro value hvalue
  unfold Components.scaled at hvalue
  split at hvalue
  · obtain ⟨x, hx, rfl⟩ := List.mem_map.mp hvalue
    exact (h.within x hx).div isNat_255 (by decide)
  · next hnone => exact h.fraction (by simpa using hnone) value hvalue

end OnScale

/-- What the parts of a text add. -/
theorem OnScale.ofParts {format : ColorFormat} {values : List (Float × String)} {c : Components} (h : c.OnScale)
    (hwithin : ∀ pair ∈ values, pair.2 ≠ "" → 0.0 ≤ pair.1 ∧ pair.1 ≤ 255.0) : (c.ofParts format values).OnScale := by
  induction values generalizing c with
  | nil => exact h
  | cons pair rest ih =>
    obtain ⟨hpair, hrest⟩ := List.forall_mem_cons.mp hwithin
    refine ih ?_ hrest
    dsimp only
    split
    · exact h.addEmpty _
    · next hpart =>
      obtain ⟨hlow, hhigh⟩ := hpair (by simpa using hpart)
      exact h.add hlow hhigh

end Components

/-! ### Texts -/

namespace ColorText

variable {metrics colors : Mapping String} {format : ColorFormat} {raw : String} {color : Color}
  {fractions : List Float}

theorem Normal.inRange {values : List (Float × String)} (h : Normal format values {} fractions) :
    ∀ fraction ∈ fractions, InRange 1 fraction := by
  rw [h.fractions_eq]
  exact (Components.OnScale.start.ofParts h.within).complete.scaled

theorem Makes.inRange (h : Makes format fractions color) (hfractions : ∀ fraction ∈ fractions, InRange 1 fraction) :
    color.InRange := by
  cases h with
  | gray =>
    simp only [List.forall_mem_cons] at hfractions
    exact .white hfractions.1 hfractions.2.1
  | hsb hformat hcolor =>
    simp only [List.forall_mem_cons] at hfractions
    obtain ⟨hhue, hsaturation, hbrightness, halpha, -⟩ := hfractions
    obtain ⟨made, hmade, hrange⟩ := Color.hsb_inRange hhue hsaturation hbrightness halpha
    rw [hcolor] at hmade
    cases hmade
    exact hrange
  | rgb hformat =>
    simp only [List.forall_mem_cons] at hfractions
    obtain ⟨hred, hgreen, hblue, halpha, -⟩ := hfractions
    exact ⟨hred, hgreen, hblue, halpha⟩

theorem hexValue_le {c : Char} {value : Nat} (h : Number.Literal.hexValue? c = some value) : value ≤ 15 := by
  have hnumber {d : Char} (hle : c ≤ d) : c.toNat ≤ d.toNat := UInt32.le_iff_toNat_le.mp hle
  have hstarts : '0'.toNat = 48 ∧ 'a'.toNat = 97 ∧ 'A'.toNat = 65 := by decide
  have hends : '9'.toNat = 57 ∧ 'f'.toNat = 102 ∧ 'F'.toNat = 70 := by decide
  unfold Number.Literal.hexValue? at h
  simp only [Bool.and_eq_true, decide_eq_true_eq] at h
  split at h
  · next hdigit =>
    cases h
    have hle := hnumber hdigit.2
    omega
  split at h
  · next hsmall =>
    cases h
    have hle := hnumber hsmall.2
    omega
  split at h
  · next hcapital =>
    cases h
    have hle := hnumber hcapital.2
    omega
  · cases h

theorem Hex.byte_le {digits : List Char} {bytes : List Nat} (h : Hex digits bytes) : ∀ byte ∈ bytes, byte ≤ 255 := by
  induction h with
  | nil => exact fun _ hmem => nomatch hmem
  | cons hhigh hlow _ ih =>
    have hfirst := hexValue_le hhigh
    have hsecond := hexValue_le hlow
    exact List.forall_mem_cons.mpr ⟨by omega, ih⟩

theorem WebBytes.byte_le {digits : List Char} {bytes : List Nat} (h : WebBytes [] digits bytes) :
    ∀ byte ∈ bytes, byte ≤ 255 := by
  obtain ⟨given, hgiven, ⟨-, rfl⟩ | ⟨-, rfl⟩⟩ := h
  · exact List.forall_mem_append.mpr ⟨hgiven.byte_le, List.forall_mem_singleton.mpr le_rfl⟩
  · exact hgiven.byte_le

/-- A byte on the scale of one. -/
theorem inRange_byte {byte : Nat} (h : byte ≤ 255) : InRange 1 (Float.ofNat byte / 255.0) :=
  (inRange_ofNat (k := 1 * 255) h (by decide)).div isNat_255 (by decide)

/-- The color that a text stands for is in range, be it its own or that of a name. -/
theorem Denotes.inRange (h : Denotes metrics colors raw color) : color.InRange := by
  induction h with
  | components _ _ _ _ _ _ hnormal hcolor => exact hcolor.inRange hnormal.inRange
  | web _ hbytes hcolor =>
    refine hcolor.inRange fun fraction hmem => ?_
    obtain ⟨byte, hbyte, rfl⟩ := List.mem_map.mp hmem
    exact inRange_byte (hbytes.byte_le byte hbyte)
  | standard _ _ hcolor => exact Color.standard_inRange hcolor
  | named _ _ _ ih => exact ih

end ColorText

end DesignTokens
