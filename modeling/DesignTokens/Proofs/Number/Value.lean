import DesignTokens.Proofs.Number.Overflow

/-!
# Doubles as rational numbers

A finite double is a rational number. Comparing doubles is comparing these numbers, and rounding to integers is what it
is for rational numbers: up to the next integer, or to the nearest one, to the even one half way between two.

* `lt_iff_value` — comparing doubles.
* `ceiling?_eq`, `nearest?_eq_some` — integers from doubles.
* `IsNearest.mono` — rounding to the nearest integer keeps the order.
-/

namespace DesignTokens.Number

open Float.Model Float.Model.UnpackedFloat

/-- The number that an unpacked double is; zero for infinities and what is no number. -/
def unpackedValue : UnpackedFloat → ℚ
  | .finite .positive m e _ => (m : ℚ) * 2 ^ e
  | .finite .negative m e _ => -((m : ℚ) * 2 ^ e)
  | _ => 0

/-- The rational number that a finite double is. -/
def value (x : Float) : ℚ := unpackedValue x.toModel.unpack

theorem two_zpow_pos (e : Int) : (0 : ℚ) < 2 ^ e := by positivity

section Value

variable {x y : Float}

theorem value_of_exact {negative : Bool} {m : Nat} {e : Int} (h : exact x = .finite negative m e) :
    value x = if negative then -((m : ℚ) * 2 ^ e) else (m : ℚ) * 2 ^ e := by
  unfold exact at h
  unfold value
  split at h
  · cases h
  · cases h
  · next s hu =>
    cases h
    rw [hu]
    simp [unpackedValue]
  · next s m e hpos hu =>
    cases h
    rw [hu]
    cases s <;> rfl

theorem value_of_unpack {m : Nat} {e : Int} {hpos : 0 < m} (h : x.toModel.unpack = .finite .positive m e hpos) :
    value x = m * 2 ^ e := by
  rw [value, h]
  rfl

/-- A double whose value is positive has a mantissa. -/
theorem unpack_of_pos (h : 0 < value x) : ∃ m e hpos, x.toModel.unpack = .finite .positive m e hpos := by
  unfold value at h
  cases hu : x.toModel.unpack with
  | finite s m e hpos =>
    cases s with
    | positive => exact ⟨m, e, hpos, rfl⟩
    | negative =>
      rw [hu] at h
      have hvalue : (0 : ℚ) < m * 2 ^ e := by positivity
      exact absurd h (neg_neg_of_pos hvalue).not_gt
  | infinity s => rw [hu] at h; exact absurd h (lt_irrefl 0)
  | notANumber => rw [hu] at h; exact absurd h (lt_irrefl 0)
  | zero s => rw [hu] at h; exact absurd h (lt_irrefl 0)

theorem unpack_of_value_zero (hx : x.isFinite = true) (h : value x = 0) : ∃ s, x.toModel.unpack = .zero s := by
  obtain hzero | ⟨s, m, e, hpos, hu⟩ := unpack_of_isFinite hx
  · exact hzero
  · have hvalue : (m : ℚ) * 2 ^ e ≠ 0 := by positivity
    rw [value, hu] at h
    cases s with
    | positive => exact absurd h hvalue
    | negative => exact absurd (neg_eq_zero.mp h) hvalue

/-- No finite double is beyond the greatest one. -/
theorem value_le_greatest (x : Float) : value x ≤ (2 ^ 53 - 1) * 2 ^ (971 : ℤ) := by
  have hgreatest : (0 : ℚ) ≤ (2 ^ 53 - 1) * 2 ^ (971 : ℤ) := by norm_num
  rcases le_or_gt (value x) 0 with hneg | hpos
  · exact hneg.trans hgreatest
  · obtain ⟨m, e, hm, hu⟩ := unpack_of_pos hpos
    have hfits : (m : ℚ) ≤ 2 ^ 53 - 1 := by
      have hle : m ≤ 2 ^ 53 - 1 := Nat.le_pred_of_lt (canonical_of_unpack hu).fits
      calc (m : ℚ) ≤ ((2 ^ 53 - 1 : Nat) : ℚ) := Nat.cast_le.mpr hle
        _ = 2 ^ 53 - 1 := by norm_num
    rw [value_of_unpack hu]
    gcongr
    · norm_num
    · exact exponent_le_of_unpack hu

/-! ### Comparing -/

/-- A canonical mantissa has all bits unless the exponent is the least: one step of the exponent outweighs it. -/
theorem Canonical.lt_of_exponent_lt {m n : Nat} {e f : Int} (hm : Canonical m e) (hn : Canonical n f) (h : e < f) :
    (m : ℚ) * 2 ^ e < n * 2 ^ f := by
  have hmany : 2 ^ 52 ≤ n := hn.normal.resolve_right (by have := hm.low; omega)
  have hfits : (m : ℚ) < 2 ^ 53 := by exact_mod_cast hm.fits
  have hn' : (2 : ℚ) ^ 52 ≤ n := by exact_mod_cast hmany
  calc (m : ℚ) * 2 ^ e < 2 ^ 53 * 2 ^ e := by gcongr
    _ = 2 ^ 52 * 2 ^ (e + 1) := by rw [zpow_add_one₀ two_ne_zero]; ring
    _ ≤ n * 2 ^ f := by
      gcongr
      · norm_num
      · omega

/-- Among positive numbers in canonical form the exponent decides first. -/
theorem Canonical.lt_iff {m n : Nat} {e f : Int} (hm : Canonical m e) (hn : Canonical n f) :
    (compare e f).then (compare m n) = .lt ↔ (m : ℚ) * 2 ^ e < n * 2 ^ f := by
  rcases Int.lt_trichotomy e f with hlt | rfl | hgt
  · rw [Int.compare_eq_lt.mpr hlt]
    exact iff_of_true rfl (hm.lt_of_exponent_lt hn hlt)
  · rw [Int.compare_eq_eq.mpr rfl, Ordering.eq_then, Nat.compare_eq_lt, mul_lt_mul_iff_left₀ (two_zpow_pos e),
      Nat.cast_lt]
  · rw [Int.compare_eq_gt.mpr hgt]
    exact iff_of_false nofun (hn.lt_of_exponent_lt hm hgt).not_gt

theorem lt_iff_unpack : x < y ↔ UnpackedFloat.lt x.toModel.unpack y.toModel.unpack = true :=
  ⟨of_decide_eq_true, decide_eq_true⟩

/-- Finite doubles are in the order of their values. -/
theorem lt_iff_value (hx : x.isFinite = true) (hy : y.isFinite = true) : x < y ↔ value x < value y := by
  rw [lt_iff_unpack, value, value, UnpackedFloat.lt]
  have hpositive {m : Nat} (hpos : 0 < m) (e : Int) : (0 : ℚ) < m * 2 ^ e := by positivity
  obtain ⟨s, hu⟩ | ⟨s, m, e, hm, hu⟩ := unpack_of_isFinite hx
  · obtain ⟨s', hv⟩ | ⟨s', n, f, hn, hv⟩ := unpack_of_isFinite hy <;> rw [hu, hv]
    · exact iff_of_false (by cases s <;> cases s' <;> nofun) (lt_irrefl 0)
    · cases s' with
      | positive => exact iff_of_true rfl (hpositive hn f)
      | negative => exact iff_of_false nofun (neg_neg_of_pos (hpositive hn f)).not_gt
  · obtain ⟨s', hv⟩ | ⟨s', n, f, hn, hv⟩ := unpack_of_isFinite hy <;> rw [hu, hv]
    · cases s with
      | positive => exact iff_of_false nofun (hpositive hm e).not_gt
      | negative => exact iff_of_true rfl (neg_neg_of_pos (hpositive hm e))
    · have hleft := hpositive hm e
      have hright := hpositive hn f
      cases s <;> cases s'
      · -- among negative numbers the order is the other way round
        have hback := (canonical_of_unpack hv).lt_iff (canonical_of_unpack hu)
        have hswap : ((compare e f).then (compare m n)).swap = (compare f e).then (compare n m) := by
          rw [Ordering.swap_then, Int.compare_swap, Nat.compare_swap]
        simpa [UnpackedFloat.compare, unpackedValue, hswap] using hback
      · exact iff_of_true rfl ((neg_neg_of_pos hleft).trans hright)
      · exact iff_of_false nofun ((neg_neg_of_pos hright).trans hleft).not_gt
      · have hsame := (canonical_of_unpack hu).lt_iff (canonical_of_unpack hv)
        simpa [UnpackedFloat.compare, unpackedValue] using hsame

/-- A finite double is not greater than zero unless its value is. -/
theorem le_zero_of_value (hx : x.isFinite = true) (h : value x ≤ 0) : x ≤ 0.0 := by
  have hzero : (0.0 : Float).toModel.unpack = .zero .positive := rfl
  have hle : UnpackedFloat.le x.toModel.unpack (0.0 : Float).toModel.unpack = true → x ≤ 0.0 := decide_eq_true
  rw [hzero] at hle
  refine hle ?_
  rw [value] at h
  obtain ⟨s, hu⟩ | ⟨s, m, e, hm, hu⟩ := unpack_of_isFinite hx <;> rw [hu] at h ⊢
  · cases s <;> rfl
  · cases s with
    | negative => rfl
    | positive =>
      have hpositive : (0 : ℚ) < m * 2 ^ e := by positivity
      exact absurd h hpositive.not_ge

theorem lt_infinity (hx : x.isFinite = true) (hy : y.toModel.unpack = .infinity .positive) : x < y := by
  rw [lt_iff_unpack]
  obtain ⟨s, hu⟩ | ⟨s, m, e, hm, hu⟩ := unpack_of_isFinite hx <;> rw [hu, hy] <;> rfl

/-- The greater of two doubles has the greater value. -/
theorem value_greater (hx : x.isFinite = true) (hy : y.isFinite = true) :
    value (greater x y) = max (value x) (value y) := by
  unfold greater
  split
  · next hlt => rw [max_eq_right ((lt_iff_value hx hy).mp hlt).le]
  · next hnot => rw [max_eq_left (not_lt.mp fun hlt => hnot ((lt_iff_value hx hy).mpr hlt))]

/-! ### Integers -/

/-- What is behind the whole part of `m * 2 ^ e`, in units of its last place. -/
def fractionUnits (m : Nat) (e : Int) : Nat := if e < 0 then m % 2 ^ e.natAbs else 0

/-- What is behind the whole part of `m * 2 ^ e`. -/
def fraction (m : Nat) (e : Int) : ℚ := fractionUnits m e / 2 ^ e.natAbs

section Fraction

variable {m : Nat} {e : Int}

theorem fraction_nonneg : 0 ≤ fraction m e := by
  unfold fraction
  positivity

theorem fraction_lt_one : fraction m e < 1 := by
  have hunits : fractionUnits m e < 2 ^ e.natAbs := by
    unfold fractionUnits
    split
    · exact Nat.mod_lt _ (Nat.two_pow_pos _)
    · exact Nat.two_pow_pos _
  rw [fraction, div_lt_one (by positivity)]
  exact_mod_cast hunits

theorem fraction_le_half_iff : fraction m e ≤ 1 / 2 ↔ 2 * fractionUnits m e ≤ 2 ^ e.natAbs := by
  rw [fraction, div_le_div_iff₀ (by positivity) two_pos, one_mul, mul_comm]
  exact_mod_cast Iff.rfl

theorem half_le_fraction_iff : 1 / 2 ≤ fraction m e ↔ 2 ^ e.natAbs ≤ 2 * fractionUnits m e := by
  rw [fraction, div_le_div_iff₀ two_pos (by positivity), one_mul, mul_comm]
  exact_mod_cast Iff.rfl

theorem hasFraction_iff : hasFraction m e = true ↔ 0 < fraction m e := by
  have hpow : Nat.pow 2 e.natAbs = 2 ^ e.natAbs := rfl
  have hunits : hasFraction m e = true ↔ fractionUnits m e ≠ 0 := by
    unfold hasFraction fractionUnits
    rw [hpow]
    split <;> simp_all
  rw [hunits, fraction, div_pos_iff_of_pos_right (by positivity), Nat.cast_pos, Nat.pos_iff_ne_zero]

/-- A magnitude is its whole part and the fraction behind it. -/
theorem magnitude_eq (m : Nat) (e : Int) : (m : ℚ) * 2 ^ e = wholePart m e + fraction m e := by
  unfold wholePart fraction fractionUnits
  by_cases he : 0 ≤ e
  · rw [if_pos he, if_neg (not_lt.mpr he), Nat.shiftLeft_eq]
    obtain ⟨k, rfl⟩ := Int.eq_ofNat_of_zero_le he
    simp
  · rw [if_neg he, if_pos (not_le.mp he), Nat.shiftRight_eq_div_pow]
    obtain ⟨k, hk⟩ := Int.exists_eq_neg_ofNat (not_le.mp he).le
    subst hk
    have hunit : (2 : ℚ) ^ k ≠ 0 := by positivity
    have hdiv : ((2 ^ k * (m / 2 ^ k) + m % 2 ^ k : Nat) : ℚ) = m := by rw [Nat.div_add_mod]
    push_cast at hdiv
    simp only [Int.natAbs_neg, Int.natAbs_natCast, zpow_neg, zpow_natCast]
    field_simp
    linarith

end Fraction

theorem ceiling?_eq (hx : x.isFinite = true) : ceiling? x = some ⌈value x⌉ := by
  obtain ⟨negative, m, e, hexact⟩ := isFinite_iff.mp hx
  have hnonneg := fraction_nonneg (m := m) (e := e)
  have hless := fraction_lt_one (m := m) (e := e)
  rw [value_of_exact hexact, magnitude_eq, ceiling?, hexact]
  refine congrArg some (Int.ceil_eq_iff.mpr ?_).symm
  cases negative with
  | true =>
    simp only [negateIf, Bool.not_true, Bool.false_and, Bool.false_eq_true, if_true, if_false]
    push_cast
    constructor <;> linarith
  | false =>
    simp only [negateIf, Bool.not_false, Bool.true_and, Bool.false_eq_true, if_false]
    by_cases hfraction : hasFraction m e = true
    · have hpos := hasFraction_iff.mp hfraction
      rw [if_pos hfraction]
      push_cast
      constructor <;> linarith
    · have hzero : fraction m e ≤ 0 := not_lt.mp (mt hasFraction_iff.mpr hfraction)
      rw [if_neg hfraction]
      push_cast
      constructor <;> linarith

/-- An integer that no other one is nearer to a number than; of two that are as near it is the even one. -/
structure IsNearest (n : ℤ) (q : ℚ) : Prop where
  near : |n - q| ≤ 1 / 2
  even : |n - q| = 1 / 2 → Even n

namespace IsNearest

variable {n n' : ℤ} {q q' : ℚ}

theorem le_ceil (h : IsNearest n q) : n ≤ ⌈q⌉ := by
  have hless : (n : ℚ) < ⌈q⌉ + 1 := by linarith [(abs_le.mp h.near).2, Int.le_ceil q]
  exact Int.lt_add_one_iff.mp (by exact_mod_cast hless)

/-- Rounding to the nearest integer keeps the order. -/
theorem mono (h : IsNearest n q) (h' : IsNearest n' q') (hle : q ≤ q') : n ≤ n' := by
  by_contra hgt
  have hnext : (n' : ℚ) + 1 ≤ n := by exact_mod_cast not_le.mp hgt
  have hhigh := (abs_le.mp h.near).2
  have hlow := (abs_le.mp h'.near).1
  -- the numbers are the same, half way between the two integers
  have hhalf : |n - q| = 1 / 2 := by
    rw [abs_of_nonneg (by linarith)]
    linarith
  have hhalf' : |n' - q'| = 1 / 2 := by
    rw [abs_of_nonpos (by linarith)]
    linarith
  have hsucc : n = n' + 1 := by
    have hsame : (n : ℚ) = n' + 1 := by linarith
    exact_mod_cast hsame
  obtain ⟨k, hk⟩ := h.even hhalf
  obtain ⟨l, hl⟩ := h'.even hhalf'
  omega

theorem neg (h : IsNearest n q) : IsNearest (-n) (-q) := by
  have hsame : |((-n : ℤ) : ℚ) - -q| = |n - q| := by
    rw [← abs_neg]
    push_cast
    congr 1
    ring
  exact ⟨hsame ▸ h.near, fun hhalf => (h.even (hsame ▸ hhalf)).neg⟩

/-- Up to half way a number is rounded down. -/
theorem below {f : ℚ} (hf : 0 ≤ f) (hhalf : f ≤ 1 / 2) (heven : 1 / 2 ≤ f → Even n) : IsNearest n (n + f) := by
  have hdistance : |n - (n + f)| = f := by
    rw [abs_of_nonpos (by linarith)]
    ring
  exact ⟨hdistance.trans_le hhalf, fun h => heven (h.symm.trans hdistance).le⟩

/-- From half way on a number is rounded up. -/
theorem above {f : ℚ} (hf : f ≤ 1) (hhalf : 1 / 2 ≤ f) (heven : f ≤ 1 / 2 → Even (n + 1)) :
    IsNearest (n + 1) (n + f) := by
  have hdistance : |((n + 1 : ℤ) : ℚ) - (n + f)| = 1 - f := by
    push_cast
    rw [abs_of_nonneg (by linarith)]
    ring
  refine ⟨?_, fun h => heven ?_⟩
  · rw [hdistance]
    linarith
  · rw [hdistance] at h
    linarith

end IsNearest

/-- An integer is found for every finite double, and it is the nearest one. -/
theorem nearest?_eq_some (hx : x.isFinite = true) : ∃ n, nearest? x = some n ∧ IsNearest n (value x) := by
  obtain ⟨negative, m, e, hexact⟩ := isFinite_iff.mp hx
  -- the sign is put before the integer that is nearest to the magnitude
  obtain ⟨n, hn, hnearest⟩ : ∃ n : Nat, nearest? x = some (negateIf negative n) ∧ IsNearest n (m * 2 ^ e) := by
    simp only [nearest?, hexact]
    refine ⟨_, rfl, ?_⟩
    have htwice : (if e < 0 then 2 * (m % Nat.pow 2 e.natAbs) else 0) = 2 * fractionUnits m e := by
      unfold fractionUnits
      split <;> rfl
    have hpow : Nat.pow 2 e.natAbs = 2 ^ e.natAbs := rfl
    rw [htwice, hpow, magnitude_eq]
    split
    · next hup =>
      simp only [Bool.or_eq_true, Bool.and_eq_true, decide_eq_true_eq, beq_iff_eq] at hup
      have hlow : 1 / 2 ≤ fraction m e := half_le_fraction_iff.mpr (by omega)
      rw [Nat.cast_succ]
      refine IsNearest.above fraction_lt_one.le hlow fun hhalf => ?_
      have hle := fraction_le_half_iff.mp hhalf
      exact_mod_cast (Nat.odd_iff.mpr (hup.resolve_left (by omega)).2).add_one
    · next hdown =>
      simp only [Bool.or_eq_true, Bool.and_eq_true, decide_eq_true_eq, beq_iff_eq, not_or, not_and] at hdown
      have hle := not_lt.mp hdown.1
      refine IsNearest.below fraction_nonneg (fraction_le_half_iff.mpr hle) fun hhalf => ?_
      have hsame := le_antisymm hle (half_le_fraction_iff.mp hhalf)
      have hnegative : e < 0 := by
        by_contra hwhole
        rw [fractionUnits, if_neg hwhole] at hsame
        exact (Nat.two_pow_pos e.natAbs).ne hsame
      exact_mod_cast Nat.even_iff.mpr (Nat.mod_two_ne_one.mp (hdown.2 ⟨hsame, hnegative⟩))
  refine ⟨_, hn, ?_⟩
  rw [value_of_exact hexact]
  cases negative with
  | false => exact hnearest
  | true => exact hnearest.neg

end Value

end DesignTokens.Number
