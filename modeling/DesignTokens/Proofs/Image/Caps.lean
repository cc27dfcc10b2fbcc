import DesignTokens.Proofs.Image.Painting
import DesignTokens.Proofs.Number.Rounding
import Mathlib.Algebra.Order.Floor.Ring

/-!
# What the caps of a background enclose

The caps of a background are as wide as its corners or its border. They need not be whole pixels, but what is drawn is:
the radius of the corners is rounded to the nearest integer, and so is the width of the border, to one pixel at least.
So corners and border stay within the caps once these are rounded up to whole pixels. They stay within the caps
themselves if rounding these to whole pixels does not make them wider. The sides are rounded up, and the centre that is
left is as wide as it is meant to be, less at most what the least side loses as a double.

* `BackgroundStyle.isFinite_leastSide_iff` — the backgrounds that have a size.
* `BackgroundStyle.centre_ge`, `BackgroundStyle.four_le_centre` — the centre.
* `BackgroundStyle.le_ceil_caps`, `BackgroundStyle.le_caps` — corners and border.
* `BackgroundStyle.caps_enclose_rounded` — every background with finite lengths.
* `BackgroundStyle.not_caps_enclose` — a border that is wider than its caps.
-/

namespace DesignTokens

open Number

namespace BackgroundStyle

/-- All lengths are finite. -/
structure HasFiniteLengths (s : BackgroundStyle) : Prop where
  lineWidth : s.lineWidth.isFinite = true
  cornerRadius : s.cornerRadius.isFinite = true
  minimumWidth : s.minimumWidth.isFinite = true
  minimumHeight : s.minimumHeight.isFinite = true

/-- An image of some size is not smaller than the minimums. Its caps leave a centre of four pixels, less some `loss`,
and corners and border are not wider than some `edge`. -/
structure Encloses (s : BackgroundStyle) (loss edge : ℚ) (width height : Nat) (radius : Int)
    (border : Option (Pixel × Int)) : Prop where
  minimumWidth : value s.minimumWidth ≤ width
  minimumHeight : value s.minimumHeight ≤ height
  centreWidth : 4 - loss ≤ width - 2 * value s.caps
  centreHeight : 4 - loss ≤ height - 2 * value s.caps
  corners : radius ≤ edge
  border : ∀ pixel line, border = some (pixel, line) → (line : ℚ) ≤ edge

/-- What the least side may lose when it is rounded to a double. -/
def lostSide (s : BackgroundStyle) : ℚ := (2 * value s.caps + 4) / 2 ^ 53

/-- The caps do not become wider when they are rounded to the nearest integer. -/
def CapsRoundDown (s : BackgroundStyle) : Prop := ∃ n : ℤ, nearest? s.caps = some n ∧ n ≤ value s.caps

/-- Rounding takes nothing away: the least side is exact or rounded up to the next pixel anyway, the caps round down,
and they have a pixel for a border. -/
structure FitsPixels (s : BackgroundStyle) : Prop where
  side : s.lostSide < Int.fract (2 * value s.caps) ∨ Int.fract (2 * value s.caps) = 0 ∧ 2 * value s.caps + 4 < 2 ^ 53
  caps : s.CapsRoundDown
  border : s.border?.isSome = true → 1 ≤ value s.caps

variable {s : BackgroundStyle}

/-! ### The least side -/

theorem HasFiniteLengths.isFinite_radius (h : s.HasFiniteLengths) : s.radius.isFinite = true :=
  isFinite_greater h.cornerRadius rfl

theorem HasFiniteLengths.isFinite_caps (h : s.HasFiniteLengths) : s.caps.isFinite = true :=
  isFinite_greater h.lineWidth h.isFinite_radius

theorem value_flexibleCentre : value flexibleCentre = 4 := by
  have hunpack : flexibleCentre.toModel.unpack = .finite .positive (2 ^ 52) (-50) (by decide) := rfl
  rw [value_of_unpack hunpack]
  norm_num

theorem value_radius (h : s.HasFiniteLengths) : value s.radius = max (value s.cornerRadius) 0 :=
  value_greater h.cornerRadius rfl

/-- The caps are as wide as the border or the corners. -/
theorem value_caps (h : s.HasFiniteLengths) : value s.caps = max (value s.lineWidth) (value s.radius) :=
  value_greater h.lineWidth h.isFinite_radius

theorem value_caps_nonneg (h : s.HasFiniteLengths) : 0 ≤ value s.caps := by
  rw [value_caps h, value_radius h]
  exact le_max_of_le_right (le_max_right _ _)

theorem isFinite_twice_caps_iff (h : s.HasFiniteLengths) :
    (2.0 * s.caps).isFinite = true ↔ value s.caps < 2 ^ 1023 :=
  isFinite_two_mul_iff h.isFinite_caps (value_caps_nonneg h)

theorem rounds_leastSide (h : s.HasFiniteLengths) (hcaps : value s.caps < 2 ^ 1023) :
    Rounds (2 * value s.caps + 4) s.leastSide := by
  have hnonneg := value_caps_nonneg h
  have hfinite := (isFinite_twice_caps_iff h).mpr hcaps
  have hdouble := value_two_mul h.isFinite_caps hnonneg hfinite
  rw [← hdouble, ← value_flexibleCentre]
  refine rounds_add hfinite ?_ ?_
  · rw [hdouble]
    linarith
  · rw [value_flexibleCentre]
    norm_num

theorem isFinite_leastSide (h : s.HasFiniteLengths) (hcaps : value s.caps < 2 ^ 1023) :
    s.leastSide.isFinite = true := by
  have hgreatest := value_le_greatest (2.0 * s.caps)
  have hnext : (2 : ℚ) ^ (970 + 1 : ℤ) = 2 ^ (970 : ℤ) * 2 := zpow_add_one₀ two_ne_zero 970
  have hunit : (2 : ℚ) ^ (3 : ℤ) ≤ 2 ^ (970 : ℤ) := zpow_le_zpow_right₀ one_le_two (by decide)
  rw [value_two_mul h.isFinite_caps (value_caps_nonneg h) ((isFinite_twice_caps_iff h).mpr hcaps)] at hgreatest
  change _ ≤ _ * (2 : ℚ) ^ (970 + 1 : ℤ) at hgreatest
  rw [hnext] at hgreatest
  rw [(rounds_leastSide h hcaps).isFinite_iff, overflowBound]
  generalize (2 : ℚ) ^ (970 : ℤ) = unit at hgreatest hunit ⊢
  linarith only [hgreatest, hunit]

/-- Twice the caps are an infinity if they are beyond the doubles, and so is the least side. -/
theorem unpack_leastSide (h : s.HasFiniteLengths) (hcaps : 2 ^ 1023 ≤ value s.caps) :
    s.leastSide.toModel.unpack = .infinity .positive := by
  have hpos : 0 < value s.caps := lt_of_lt_of_le (by positivity) hcaps
  have hinfinite : (2.0 * s.caps).isFinite = false := by
    rw [← Bool.not_eq_true, isFinite_twice_caps_iff h]
    exact not_lt.mpr hcaps
  exact unpack_add_infinity ((rounds_mul (value_two ▸ two_pos) hpos).infinity hinfinite) rfl

/-- A background has a size unless twice its caps are beyond the doubles. -/
theorem isFinite_leastSide_iff (h : s.HasFiniteLengths) : s.leastSide.isFinite = true ↔ value s.caps < 2 ^ 1023 := by
  refine ⟨fun hfinite => ?_, isFinite_leastSide h⟩
  by_contra hcaps
  change s.leastSide.toModel.unpack.isFinite = true at hfinite
  rw [unpack_leastSide h (not_lt.mp hcaps)] at hfinite
  cases hfinite

/-! ### Sides -/

section Side

variable {minimum : Float} {length : Nat}

theorem pixels_ok {x : Float} (h : x.isFinite = true) : pixels x = .ok ⌈value x⌉.toNat := by
  rw [pixels, ceiling?_eq h]

theorem pixels_side_infinite (h : s.HasFiniteLengths) (hminimum : minimum.isFinite = true)
    (hcaps : 2 ^ 1023 ≤ value s.caps) : pixels (greater minimum s.leastSide) = .error .infinitePixels := by
  have hside := unpack_leastSide h hcaps
  have hinfinite : s.leastSide.isFinite = false := by
    rw [← Bool.not_eq_true, isFinite_leastSide_iff h]
    exact not_lt.mpr hcaps
  rw [greater, if_pos (lt_infinity hminimum hside)]
  cases hpixels : pixels s.leastSide with
  | ok length =>
    rw [pixels, ceiling?, exact, hside] at hpixels
    cases hpixels
  | error fault =>
    have hnan : s.leastSide.isNaN = false := by
      change s.leastSide.toModel.unpack.isNaN = false
      rw [hside]
      rfl
    rw [(pixels_eq_error hpixels).2 hnan]

/-- A side is as long as its minimum and as the least side. -/
theorem side_ge (h : s.HasFiniteLengths) (hcaps : value s.caps < 2 ^ 1023) (hminimum : minimum.isFinite = true)
    (hlength : pixels (greater minimum s.leastSide) = .ok length) :
    value minimum ≤ length ∧ ⌈value s.leastSide⌉ ≤ length := by
  have hside := isFinite_leastSide h hcaps
  rw [pixels_ok (isFinite_greater hminimum hside), value_greater hminimum hside] at hlength
  cases hlength
  have hceil := Int.self_le_toNat ⌈max (value minimum) (value s.leastSide)⌉
  constructor
  · calc value minimum ≤ max (value minimum) (value s.leastSide) := le_max_left _ _
      _ ≤ ⌈max (value minimum) (value s.leastSide)⌉ := Int.le_ceil _
      _ ≤ _ := by exact_mod_cast hceil
  · exact (Int.ceil_le_ceil (le_max_right _ _)).trans hceil

/-- The least side is what it is meant to be, up to what a double can hold. -/
theorem leastSide_ge (h : s.HasFiniteLengths) (hcaps : value s.caps < 2 ^ 1023) :
    2 * value s.caps + 4 - s.lostSide ≤ value s.leastSide := by
  have hnonneg := value_caps_nonneg h
  have hleast : (2 : ℚ) ^ (-1022 : ℤ) ≤ 2 * value s.caps + 4 := by
    have hone : (2 : ℚ) ^ (-1022 : ℤ) ≤ 1 := zpow_le_one_of_nonpos₀ one_le_two (by decide)
    linarith
  have hnear := (rounds_leastSide h hcaps).abs_value_sub_le (isFinite_leastSide h hcaps) hleast
  unfold lostSide
  linarith [(abs_le.mp hnear).1]

/-- Between the caps there are four pixels, less what the least side loses. -/
theorem centre_ge (h : s.HasFiniteLengths) (hcaps : value s.caps < 2 ^ 1023) (hlength : ⌈value s.leastSide⌉ ≤ length) :
    4 - s.lostSide ≤ length - 2 * value s.caps := by
  have hlength' : (⌈value s.leastSide⌉ : ℚ) ≤ length := by exact_mod_cast hlength
  linarith [leastSide_ge h hcaps, Int.le_ceil (value s.leastSide)]

/-- Between the caps there are four pixels if the least side is exact or rounded up to the next pixel anyway. -/
theorem four_le_centre (h : s.HasFiniteLengths) (hcaps : value s.caps < 2 ^ 1023) (hfits : s.FitsPixels)
    (hlength : ⌈value s.leastSide⌉ ≤ length) : 4 ≤ length - 2 * value s.caps := by
  have hlength' : (⌈value s.leastSide⌉ : ℚ) ≤ length := by exact_mod_cast hlength
  have hparts := Int.floor_add_fract (2 * value s.caps)
  have hnonneg := value_caps_nonneg h
  suffices hside : 2 * value s.caps + 4 ≤ ⌈value s.leastSide⌉ by linarith
  rcases hfits.side with hfraction | ⟨hwhole, hsmall⟩
  · -- rounding to a double does not take the fraction away, and then it is rounded up
    have habove : ((⌊2 * value s.caps⌋ + 4 : ℤ) : ℚ) < value s.leastSide := by
      push_cast
      linarith [leastSide_ge h hcaps]
    have hnext : ((⌊2 * value s.caps⌋ + 4 + 1 : ℤ) : ℚ) ≤ ⌈value s.leastSide⌉ := by
      exact_mod_cast Int.add_one_le_of_lt (Int.lt_ceil.mpr habove)
    push_cast at hnext
    linarith [Int.fract_lt_one (2 * value s.caps)]
  · obtain ⟨k, hk⟩ : ∃ k : ℕ, ⌊2 * value s.caps⌋ = k := Int.eq_ofNat_of_zero_le (Int.floor_nonneg.mpr (by linarith))
    have hnumber : 2 * value s.caps + 4 = ((k + 4 : ℕ) : ℚ) * 2 ^ (0 : ℤ) := by
      rw [hwhole, add_zero, hk] at hparts
      rw [← hparts]
      push_cast
      ring
    have hbits : k + 4 < 2 ^ 53 := by
      rw [hnumber] at hsmall
      exact_mod_cast (mul_one ((k + 4 : ℕ) : ℚ)) ▸ hsmall
    rw [← (rounds_leastSide h hcaps).value_eq hbits (by decide) hnumber (isFinite_leastSide h hcaps)]
    exact Int.le_ceil _

end Side

/-! ### Corners and border -/

section Edge

variable {x : Float} {n : ℤ}

theorem isNearest_of_rounded (hx : x.isFinite = true) (h : Color.rounded x = .ok n) : IsNearest n (value x) := by
  obtain ⟨other, hother, hnearest⟩ := nearest?_eq_some hx
  rw [Color.rounded, hother] at h
  cases h
  exact hnearest

/-- What is not wider than the caps is not wider than the caps are in whole pixels. -/
theorem le_ceil_caps (hnearest : IsNearest n (value x)) (hx : value x ≤ value s.caps) : n ≤ ⌈value s.caps⌉ :=
  hnearest.le_ceil.trans (Int.ceil_le_ceil hx)

/-- If the caps round down, what is not wider than they are is not wider in whole pixels. -/
theorem le_caps (h : s.HasFiniteLengths) (hdown : s.CapsRoundDown) (hnearest : IsNearest n (value x))
    (hx : value x ≤ value s.caps) : (n : ℚ) ≤ value s.caps := by
  obtain ⟨m, hm, hle⟩ := hdown
  obtain ⟨other, hother, hcaps⟩ := nearest?_eq_some h.isFinite_caps
  cases hm.symm.trans hother
  have horder : (n : ℚ) ≤ m := by exact_mod_cast hnearest.mono hcaps hx
  exact horder.trans hle

theorem value_radius_le_caps (h : s.HasFiniteLengths) : value s.radius ≤ value s.caps :=
  value_caps h ▸ le_max_right _ _

theorem value_lineWidth_le_caps (h : s.HasFiniteLengths) : value s.lineWidth ≤ value s.caps :=
  value_caps h ▸ le_max_left _ _

/-- A border that is drawn has some width. -/
theorem lineWidth_pos_of_border (h : s.HasFiniteLengths) {color : Color} (hborder : s.border? = some color) :
    0 < value s.lineWidth :=
  not_le.mp fun hle => (stroke_of_border hborder).2 (le_zero_of_value h.lineWidth hle)

/-- A painted border is within an edge that leaves it a pixel and the nearest integer. -/
theorem line_le {border : Option (Pixel × Int)} {edge : ℚ} (hborder : s.paintBorder = .ok border)
    (hpixel : s.border?.isSome = true → 1 ≤ edge)
    (hline : ∀ n : ℤ, Color.rounded s.lineWidth = .ok n → (n : ℚ) ≤ edge) (pixel : Pixel) (line : Int)
    (hpainted : border = some (pixel, line)) : (line : ℚ) ≤ edge := by
  obtain ⟨-, hnone⟩ | ⟨color, _, n, hcolor, -, hrounded, hsame⟩ := paintBorder_eq_ok hborder
  · cases hnone.symm.trans hpainted
  · cases hsame.symm.trans hpainted
    rw [Int.cast_max, Int.cast_one]
    exact max_le (hpixel (Option.isSome_iff_exists.mpr ⟨color, hcolor⟩)) (hline n hrounded)

/-- If the nearest integers of the radius and of the line are within the caps, then so is that of the caps. -/
theorem capsRoundDown_of_le {radius line : ℤ} (hradius : Color.rounded s.radius = .ok radius)
    (hline : Color.rounded s.lineWidth = .ok line) (hcorners : (radius : ℚ) ≤ value s.caps)
    (hborder : (line : ℚ) ≤ value s.caps) : s.CapsRoundDown := by
  have hnearest {x : Float} {n : ℤ} (h : Color.rounded x = .ok n) : nearest? x = some n := by
    unfold Color.rounded at h
    split at h
    · next hsome =>
      cases h
      exact hsome
    · cases h
  by_cases hwider : s.lineWidth < s.radius
  · have hsame : s.caps = s.radius := by rw [caps, greater, if_pos hwider]
    exact ⟨radius, by rw [hsame, hnearest hradius], hcorners⟩
  · have hsame : s.caps = s.lineWidth := by rw [caps, greater, if_neg hwider]
    exact ⟨line, by rw [hsame, hnearest hline], hborder⟩

end Edge

/-! ### Backgrounds -/

/-- A background that has a size is drawn exactly if its colors can be painted. -/
theorem draw_ok_iff (h : s.HasFiniteLengths) (hdrawn : s.DrawsSomething) (hcaps : value s.caps < 2 ^ 1023) :
    (∃ image, s.draw = .ok image) ↔ CanPaint s.fill ∧ CanPaint s.border? := by
  have hside := isFinite_leastSide h hcaps
  constructor
  · rintro ⟨image, hdraw⟩
    obtain ⟨_, _, _, fill, border, -, -, -, hfill, hborder, -⟩ := parts_of_draw hdrawn hdraw
    exact ⟨mapM_paint_ok_iff.mp ⟨fill, hfill⟩, (paintBorder_ok_iff h.lineWidth).mp ⟨border, hborder⟩⟩
  · rintro ⟨hfill, hborder⟩
    obtain ⟨radius, hradius⟩ := Color.rounded_ok h.isFinite_radius
    obtain ⟨fill, hfill⟩ := mapM_paint_ok_iff.mpr hfill
    obtain ⟨border, hborder⟩ := (paintBorder_ok_iff h.lineWidth).mpr hborder
    exact ⟨_, draw_of_parts hdrawn (pixels_ok (isFinite_greater h.minimumWidth hside))
      (pixels_ok (isFinite_greater h.minimumHeight hside)) hradius hfill hborder⟩

/-- A background without a size cannot be drawn. -/
theorem draw_infinite (h : s.HasFiniteLengths) (hdrawn : s.DrawsSomething) (hcaps : 2 ^ 1023 ≤ value s.caps) :
    s.draw = .error .infinitePixels := by
  rw [draw_of_drawsSomething hdrawn, pixels_side_infinite h h.minimumWidth hcaps]
  rfl

/-- A background with finite lengths that has something to draw is drawn if its colors can be painted, unless twice its
caps are beyond the doubles. Corners and border are within the caps in whole pixels, and the centre has the width it is
meant to have up to what a double can hold. Where rounding takes nothing away the caps themselves enclose corners and
border. With a border this is so only if the caps round down and are a pixel wide. -/
theorem caps_enclose_rounded (h : s.HasFiniteLengths) (hdrawn : s.DrawsSomething) :
    (value s.caps < 2 ^ 1023 → ((∃ image, s.draw = .ok image) ↔ CanPaint s.fill ∧ CanPaint s.border?)) ∧
      (2 ^ 1023 ≤ value s.caps → s.draw = .error .infinitePixels) ∧
      ∀ image, s.draw = .ok image → ∃ width height radius fill border,
        image = s.painting width height radius fill border ∧
        s.Encloses s.lostSide ⌈value s.caps⌉ width height radius border ∧
        (s.FitsPixels → s.Encloses 0 (value s.caps) width height radius border) ∧
        (s.border?.isSome = true → s.Encloses 0 (value s.caps) width height radius border →
          s.CapsRoundDown ∧ 1 ≤ value s.caps) := by
  refine ⟨draw_ok_iff h hdrawn, draw_infinite h hdrawn, fun image hdraw => ?_⟩
  have hcaps : value s.caps < 2 ^ 1023 := by
    by_contra hgreat
    rw [draw_infinite h hdrawn (not_lt.mp hgreat)] at hdraw
    cases hdraw
  obtain ⟨width, height, radius, fill, border, hwidth, hheight, hradius, -, hborder, rfl⟩ := parts_of_draw hdrawn hdraw
  obtain ⟨hminimumWidth, hwidth⟩ := side_ge h hcaps h.minimumWidth hwidth
  obtain ⟨hminimumHeight, hheight⟩ := side_ge h hcaps h.minimumHeight hheight
  have hcorners := isNearest_of_rounded h.isFinite_radius hradius
  refine ⟨width, height, radius, fill, border, rfl, ?_, fun hfits => ?_, fun hstroked hencloses => ?_⟩
  · refine ⟨hminimumWidth, hminimumHeight, centre_ge h hcaps hwidth, centre_ge h hcaps hheight, ?_,
      line_le hborder (fun hstroked => ?_) fun n hline => ?_⟩
    · exact_mod_cast le_ceil_caps hcorners (value_radius_le_caps h)
    · obtain ⟨color, hcolor⟩ := Option.isSome_iff_exists.mp hstroked
      have hpos := (lineWidth_pos_of_border h hcolor).trans_le (value_lineWidth_le_caps h)
      exact_mod_cast Int.ceil_pos.mpr hpos
    · exact_mod_cast le_ceil_caps (isNearest_of_rounded h.lineWidth hline) (value_lineWidth_le_caps h)
  · refine ⟨hminimumWidth, hminimumHeight, ?_, ?_, le_caps h hfits.caps hcorners (value_radius_le_caps h),
      line_le hborder hfits.border fun n hline => ?_⟩
    · rw [sub_zero]
      exact four_le_centre h hcaps hfits hwidth
    · rw [sub_zero]
      exact four_le_centre h hcaps hfits hheight
    · exact le_caps h hfits.caps (isNearest_of_rounded h.lineWidth hline) (value_lineWidth_le_caps h)
  · obtain ⟨hnone, -⟩ | ⟨color, pixel, n, hcolor, -, hline, rfl⟩ := paintBorder_eq_ok hborder
    · rw [hnone] at hstroked
      cases hstroked
    have hpainted := hencloses.border pixel _ rfl
    rw [Int.cast_max, Int.cast_one] at hpainted
    exact ⟨capsRoundDown_of_le hradius hline hencloses.corners ((le_max_right _ _).trans hpainted),
      (le_max_left _ _).trans hpainted⟩

/-- A fill in a frame with rounded corners. -/
def framed : BackgroundStyle where
  fill := some ⟨1.0, 0.0, 0.0, 1.0⟩
  stroke := some ⟨0.0, 0.0, 0.0, 1.0⟩
  lineWidth := 2.0
  cornerRadius := 6.0

theorem framed_hasFiniteLengths : framed.HasFiniteLengths := ⟨rfl, rfl, rfl, rfl⟩

theorem value_caps_framed : value framed.caps = 6 := by
  have hunpack : framed.caps.toModel.unpack = .finite .positive (6 * 2 ^ 50) (-50) (by decide) := rfl
  rw [value_of_unpack hunpack]
  norm_num

theorem framed_fitsPixels : framed.FitsPixels where
  side := by
    rw [value_caps_framed]
    norm_num
  caps := ⟨6, rfl, by rw [value_caps_framed]; norm_num⟩
  border _ := by
    rw [value_caps_framed]
    norm_num

theorem caps_enclose_rounded_framed : framed.HasFiniteLengths ∧ framed.DrawsSomething ∧
    ∃ image, framed.draw = .ok image ∧ ∃ width height radius fill border,
      image = framed.painting width height radius fill border ∧
      framed.Encloses 0 (value framed.caps) width height radius border := by
  have hdrawn : framed.DrawsSomething := .inl rfl
  obtain ⟨-, -, hencloses⟩ := caps_enclose_rounded framed_hasFiniteLengths hdrawn
  have hceiling : ceiling? (greater framed.minimumWidth framed.leastSide) = some 16 := by decide +kernel
  have hside : pixels (greater framed.minimumWidth framed.leastSide) = .ok 16 := by
    rw [pixels, hceiling]
    rfl
  have hdraw := draw_of_parts hdrawn hside hside rfl rfl rfl
  obtain ⟨width, height, radius, fill, border, hsame, -, hexact, -⟩ := hencloses _ hdraw
  exact ⟨framed_hasFiniteLengths, hdrawn, _, hdraw, width, height, radius, fill, border, hsame,
    hexact framed_fitsPixels⟩

/-- A border that is half a pixel wide. -/
def hairline : BackgroundStyle where
  stroke := some ⟨1.0, 0.0, 0.0, 1.0⟩
  lineWidth := 0.5

theorem value_caps_hairline : value hairline.caps = 1 / 2 := by
  have hunpack : hairline.caps.toModel.unpack = .finite .positive (2 ^ 52) (-53) (by decide) := rfl
  rw [value_of_unpack hunpack]
  norm_num

/-- Caps of half a pixel do not enclose their border, which is drawn a pixel wide. -/
theorem not_caps_enclose : ¬ ∀ s : BackgroundStyle, s.HasFiniteLengths → s.DrawsSomething →
    ∃ width height radius fill border, s.draw = .ok (s.painting width height radius fill border) ∧
      s.Encloses 0 (value s.caps) width height radius border := by
  intro h
  obtain ⟨width, height, radius, fill, border, hdraw, hencloses⟩ := h hairline ⟨rfl, rfl, rfl, rfl⟩ (.inr rfl)
  obtain ⟨_, _, _, _, _, -, -, -, -, hpainted, hsame⟩ := parts_of_draw (.inr rfl) hdraw
  have hborder : hairline.paintBorder = .ok (some (⟨255, 0, 0, 255⟩, 1)) := rfl
  cases hborder.symm.trans hpainted
  cases hsame
  have hline := hencloses.border _ _ rfl
  rw [value_caps_hairline] at hline
  norm_num at hline

end BackgroundStyle

end DesignTokens
