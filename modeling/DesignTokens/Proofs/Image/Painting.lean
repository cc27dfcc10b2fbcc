import DesignTokens.Image.Background
import DesignTokens.Proofs.Number.Magnitude

/-!
# Painting backgrounds

A color of small components can be painted. The lengths of a background are finite, but twice the width of its caps may
be beyond the doubles, and then the background has no size. Nothing else can go wrong with a background.

* `Color.rounded_component` — small components are painted with small numbers.
* `BackgroundStyle.draw_eq_error`, `BackgroundStyle.parts_of_draw` — which backgrounds cannot be drawn, and the parts
  of those that are.
-/

namespace DesignTokens

open Number

namespace Color

/-- A color with small components. -/
structure IsModest (c : Color) : Prop where
  red : Bounded 20 c.red
  green : Bounded 20 c.green
  blue : Bounded 20 c.blue
  alpha : Bounded 20 c.alpha

theorem rounded_ok {x : Float} (h : x.isFinite = true) : ∃ n, rounded x = .ok n := by
  obtain ⟨s, m, e, hexact⟩ := isFinite_iff.mp h
  simp only [rounded, nearest?, hexact]
  exact ⟨_, rfl⟩

/-- A modest component is painted with a number that fits in 31 bits. -/
theorem rounded_component {x : Float} (h : Bounded 20 x) : ∃ n, rounded (x * 255.0) = .ok n ∧ n.natAbs ≤ 2 ^ 30 := by
  obtain ⟨n, hn, hbound⟩ := (h.mul bounded_255 (by decide)).nearest?
  exact ⟨n, by simp only [rounded, hn], by omega⟩

end Color

namespace BackgroundStyle

theorem fits_of_natAbs_le {bits : Nat} {n : Int} (hbits : 31 ≤ bits) (h : n.natAbs ≤ 2 ^ 30) : fits bits n = true := by
  have hpow : 2 ^ 31 ≤ 2 ^ bits := Nat.pow_le_pow_right (by decide) hbits
  have hsame : Nat.pow 2 bits = 2 ^ bits := rfl
  simp only [fits, hsame, Bool.and_eq_true, decide_eq_true_eq]
  omega

theorem paint_ok {c : Color} (h : c.IsModest) : ∃ pixel, paint c = .ok pixel := by
  obtain ⟨red, hred, hredfits⟩ := Color.rounded_component h.red
  obtain ⟨green, hgreen, hgreenfits⟩ := Color.rounded_component h.green
  obtain ⟨blue, hblue, hbluefits⟩ := Color.rounded_component h.blue
  obtain ⟨alpha, halpha, halphafits⟩ := Color.rounded_component h.alpha
  have hbytes : c.bytes = .ok [red, green, blue, alpha] := by
    simp only [Color.bytes, List.mapM_cons, List.mapM_nil, hred, hgreen, hblue, halpha]
    rfl
  have hfits : (componentBits.zipWith fits [red, green, blue, alpha]).all id = true := by
    simp [componentBits, fits_of_natAbs_le (by decide : 31 ≤ 63) hredfits, fits_of_natAbs_le le_rfl hgreenfits,
      fits_of_natAbs_le le_rfl hbluefits, fits_of_natAbs_le le_rfl halphafits]
  refine ⟨Pixel.clipped [red, green, blue, alpha], ?_⟩
  simp only [paint, hbytes, bind, Except.bind, hfits, if_true]
  rfl

theorem isFinite_greater {a b : Float} (ha : a.isFinite = true) (hb : b.isFinite = true) :
    (greater a b).isFinite = true := by
  unfold greater
  split
  · exact hb
  · exact ha

/-- Whole pixels are found for every length, unless it is beyond the doubles. -/
theorem pixels_eq_error {length : Float} {fault : Fault} (h : pixels length = .error fault) :
    length.isFinite = false ∧ (length.isNaN = false → fault = .infinitePixels) := by
  unfold pixels at h
  split at h
  · cases h
  · next hnone =>
    refine ⟨?_, fun hnan => ?_⟩
    · rw [ceiling?_eq_none_iff] at hnone
      rw [← Bool.not_eq_true, isFinite_iff]
      rintro ⟨s, m, e, hexact⟩
      exact hnone s m e hexact
    · rw [hnan] at h
      cases h
      rfl

/-- A side gets no pixels only if the least side is beyond the doubles. -/
theorem pixels_side {s : BackgroundStyle} (hwidth : s.lineWidth.isFinite = true)
    (hcorner : s.cornerRadius.isFinite = true) {minimum : Float} (hminimum : minimum.isFinite = true) {fault : Fault}
    (h : pixels (greater minimum s.leastSide) = .error fault) :
    fault = .infinitePixels ∧ s.leastSide.isFinite = false := by
  have hcaps : s.caps.isFinite = true := isFinite_greater hwidth (isFinite_greater hcorner rfl)
  have hnan : s.leastSide.isNaN = false := isNaN_add (isNaN_mul rfl hcaps) rfl
  obtain ⟨hlength, hfault⟩ := pixels_eq_error h
  unfold greater at hlength hfault
  split at hlength
  · next hless =>
    rw [if_pos hless] at hfault
    exact ⟨hfault hnan, hlength⟩
  · rw [hminimum] at hlength
    cases hlength

/-- A color that is there can be painted. -/
def CanPaint (color : Option Color) : Prop := ∀ c, color = some c → ∃ pixel, paint c = .ok pixel

theorem canPaint_of_isModest {color : Option Color} (h : ∀ c, color = some c → c.IsModest) : CanPaint color :=
  fun c hc => paint_ok (h c hc)

theorem mapM_paint_ok_iff {color : Option Color} : (∃ pixel, color.mapM paint = .ok pixel) ↔ CanPaint color := by
  cases color with
  | none => exact iff_of_true ⟨none, rfl⟩ nofun
  | some c =>
    constructor
    · rintro ⟨pixel, hpixel⟩ _ ⟨⟩
      cases hpaint : paint c with
      | ok pixel => exact ⟨pixel, rfl⟩
      | error fault =>
        rw [Option.mapM_some, hpaint] at hpixel
        cases hpixel
    · intro h
      obtain ⟨pixel, hpaint⟩ := h c rfl
      refine ⟨some pixel, ?_⟩
      rw [Option.mapM_some, hpaint]
      rfl

/-- There is a fill or a border to draw. -/
def DrawsSomething (s : BackgroundStyle) : Prop := s.fill.isSome = true ∨ s.border?.isSome = true

/-- The border as it is painted: its color and its width, which is a pixel at least. -/
def paintBorder (s : BackgroundStyle) : Except Fault (Option (Pixel × Int)) :=
  s.border?.mapM fun color => do return ((← paint color), max 1 (← Color.rounded s.lineWidth))

/-- The image with some size, rounded corners, fill and border. -/
def painting (s : BackgroundStyle) (width height : Nat) (radius : Int) (fill : Option Pixel)
    (border : Option (Pixel × Int)) : Image where
  raster := ⟨width, height, "RGBA", .rectangle radius fill border⟩
  capInsets := some (.all s.caps)

section Draw

variable {s : BackgroundStyle}

theorem draw_of_drawsSomething (h : s.DrawsSomething) : s.draw = do
    let width ← pixels (greater s.minimumWidth s.leastSide)
    let height ← pixels (greater s.minimumHeight s.leastSide)
    let radius ← Color.rounded s.radius
    let fill ← s.fill.mapM paint
    let border ← s.paintBorder
    return s.painting width height radius fill border := by
  have hdrawn : ¬ (s.fill.isNone && s.border?.isNone) = true := by
    unfold DrawsSomething at h
    simp only [Option.isSome_iff_ne_none] at h
    simpa [or_iff_not_imp_left] using h
  unfold draw
  rw [if_neg hdrawn]
  rfl

theorem draw_of_not_drawsSomething (h : ¬ s.DrawsSomething) :
    s.draw = .ok { raster := ⟨0, 0, "RGBA", .blank⟩ } := by
  unfold DrawsSomething at h
  simp only [not_or, Option.not_isSome_iff_eq_none] at h
  exact draw_nothing h.1 h.2

/-- Once all its parts have been found a background is drawn. -/
theorem draw_of_parts (h : s.DrawsSomething) {width height : Nat} {radius : Int} {fill : Option Pixel}
    {border : Option (Pixel × Int)} (hwidth : pixels (greater s.minimumWidth s.leastSide) = .ok width)
    (hheight : pixels (greater s.minimumHeight s.leastSide) = .ok height)
    (hradius : Color.rounded s.radius = .ok radius) (hfill : s.fill.mapM paint = .ok fill)
    (hborder : s.paintBorder = .ok border) : s.draw = .ok (s.painting width height radius fill border) := by
  rw [draw_of_drawsSomething h, hwidth, hheight, hradius, hfill, hborder]
  rfl

/-- A painted border is as wide as the nearest integer says, but not narrower than a pixel. -/
theorem paintBorder_eq_ok {border : Option (Pixel × Int)} (h : s.paintBorder = .ok border) :
    (s.border? = none ∧ border = none) ∨ ∃ color pixel line, s.border? = some color ∧ paint color = .ok pixel ∧
      Color.rounded s.lineWidth = .ok line ∧ border = some (pixel, max 1 line) := by
  unfold paintBorder at h
  cases hborder : s.border? with
  | none =>
    rw [hborder] at h
    cases h
    exact .inl ⟨rfl, rfl⟩
  | some color =>
    rw [hborder, Option.mapM_some] at h
    cases hpaint : paint color with
    | error fault => rw [hpaint] at h; cases h
    | ok pixel =>
    cases hline : Color.rounded s.lineWidth with
    | error fault => rw [hpaint, hline] at h; cases h
    | ok line =>
      rw [hpaint, hline] at h
      cases h
      exact .inr ⟨color, pixel, line, rfl, hpaint, rfl, rfl⟩

theorem paintBorder_ok_iff (hline : s.lineWidth.isFinite = true) :
    (∃ border, s.paintBorder = .ok border) ↔ CanPaint s.border? := by
  constructor
  · rintro ⟨border, hborder⟩ color hcolor
    obtain ⟨hnone, -⟩ | ⟨_, pixel, line, hsame, hpaint, -⟩ := paintBorder_eq_ok hborder
    · cases hcolor.symm.trans hnone
    · cases hcolor.symm.trans hsame
      exact ⟨pixel, hpaint⟩
  · intro h
    unfold paintBorder
    cases hborder : s.border? with
    | none => exact ⟨none, rfl⟩
    | some color =>
      obtain ⟨pixel, hpixel⟩ := h color hborder
      obtain ⟨line, hline⟩ := Color.rounded_ok hline
      simp only [Option.mapM_some, hpixel, hline, bind, Except.bind]
      exact ⟨_, rfl⟩

theorem stroke_of_border {color : Color} (h : s.border? = some color) :
    s.stroke = some color ∧ ¬ s.lineWidth ≤ 0.0 := by
  unfold border? at h
  split at h
  · cases h
  · next hline => exact ⟨h, hline⟩

/-- A background of modest colors and finite lengths is drawn, unless its least side is beyond the doubles. -/
theorem draw_eq_error (hfill : ∀ c, s.fill = some c → c.IsModest)
    (hstroke : ∀ c, s.stroke = some c → c.IsModest) (hwidth : s.lineWidth.isFinite = true)
    (hcorner : s.cornerRadius.isFinite = true) (hminimum : s.minimumWidth.isFinite = true)
    (hheight : s.minimumHeight.isFinite = true) {fault : Fault} (h : s.draw = .error fault) :
    fault = .infinitePixels ∧ s.leastSide.isFinite = false ∧
      (s.fill.isSome = true ∨ s.stroke.isSome = true ∧ ¬ s.lineWidth ≤ 0.0) := by
  by_cases hdrawn : s.DrawsSomething
  swap
  · rw [draw_of_not_drawsSomething hdrawn] at h
    cases h
  have hcolored : s.fill.isSome = true ∨ s.stroke.isSome = true ∧ ¬ s.lineWidth ≤ 0.0 := by
    refine hdrawn.imp_right fun hborder => ?_
    obtain ⟨color, hcolor⟩ := Option.isSome_iff_exists.mp hborder
    obtain ⟨hstroked, hline⟩ := stroke_of_border hcolor
    exact ⟨Option.isSome_iff_exists.mpr ⟨color, hstroked⟩, hline⟩
  suffices hside : fault = .infinitePixels ∧ s.leastSide.isFinite = false from ⟨hside.1, hside.2, hcolored⟩
  cases hpixels : pixels (greater s.minimumWidth s.leastSide) with
  | error other =>
    rw [draw_of_drawsSomething hdrawn, hpixels] at h
    cases h
    exact pixels_side hwidth hcorner hminimum hpixels
  | ok width =>
    cases hpixels' : pixels (greater s.minimumHeight s.leastSide) with
    | error other =>
      rw [draw_of_drawsSomething hdrawn, hpixels, hpixels'] at h
      cases h
      exact pixels_side hwidth hcorner hheight hpixels'
    | ok height =>
      obtain ⟨radius, hradius⟩ := Color.rounded_ok (isFinite_greater hcorner (b := 0.0) rfl)
      obtain ⟨fill, hfilled⟩ := mapM_paint_ok_iff.mpr (canPaint_of_isModest hfill)
      obtain ⟨border, hborder⟩ := (paintBorder_ok_iff hwidth).mpr
        (canPaint_of_isModest fun c hc => hstroke c (stroke_of_border hc).1)
      rw [draw_of_parts hdrawn hpixels hpixels' hradius hfilled hborder] at h
      cases h

/-- All parts of a background that is drawn have been found. -/
theorem parts_of_draw (hdrawn : s.DrawsSomething) {image : Image} (h : s.draw = .ok image) :
    ∃ width height radius fill border, pixels (greater s.minimumWidth s.leastSide) = .ok width ∧
      pixels (greater s.minimumHeight s.leastSide) = .ok height ∧ Color.rounded s.radius = .ok radius ∧
      s.fill.mapM paint = .ok fill ∧ s.paintBorder = .ok border ∧
      image = s.painting width height radius fill border := by
  rw [draw_of_drawsSomething hdrawn] at h
  cases hwidth : pixels (greater s.minimumWidth s.leastSide) with
  | error fault => rw [hwidth] at h; cases h
  | ok width =>
  cases hheight : pixels (greater s.minimumHeight s.leastSide) with
  | error fault => rw [hwidth, hheight] at h; cases h
  | ok height =>
  cases hradius : Color.rounded s.radius with
  | error fault => rw [hwidth, hheight, hradius] at h; cases h
  | ok radius =>
  cases hfill : s.fill.mapM paint with
  | error fault => rw [hwidth, hheight, hradius, hfill] at h; cases h
  | ok fill =>
  cases hborder : s.paintBorder with
  | error fault => rw [hwidth, hheight, hradius, hfill, hborder] at h; cases h
  | ok border =>
    rw [hwidth, hheight, hradius, hfill, hborder] at h
    cases h
    exact ⟨width, height, radius, fill, border, rfl, rfl, rfl, rfl, rfl, rfl⟩

end Draw

end BackgroundStyle

end DesignTokens
