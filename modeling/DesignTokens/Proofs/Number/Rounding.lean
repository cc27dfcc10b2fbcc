import DesignTokens.Proofs.Number.Value

/-!
# Sums and products of doubles

Sums and products are rounded once, to a nearest number that has 53 bits. What needs no more bits than that is kept as
it is, and what is beyond the greatest double by half a unit or more becomes an infinity. Rounding drops bits from a
mantissa: by those that are dropped one can tell how far the result is from the number (`roundedMantissa_shiftRight`).

* `Rounds.isFinite_iff`, `Rounds.abs_value_sub_le`, `Rounds.value_eq` — what rounding a positive number gives.
* `rounds_mul`, `rounds_add` — products and sums are rounded once.
* `isFinite_two_mul_iff`, `value_two_mul` — doubling.
-/

namespace DesignTokens.Number

open Float.Model Float.Model.UnpackedFloat

/-! ### Dropping bits -/

/-- Behind the bit that is dropped last stands whether any other dropped bit is set. -/
theorem stickyBit_shiftRight (m s : Nat) :
    (ExtendedMantissa.ofMantissaAndAccuracy m .exact >>> (s + 1)).stickyBit = (m % 2 ^ s != 0) := by
  induction s with
  | zero =>
    simp [HShiftRight.hShiftRight, Nat.repeat, ExtendedMantissa.shiftRightOne, ExtendedMantissa.ofMantissaAndAccuracy,
      Nat.mod_one]
  | succ s ih =>
    change ((ExtendedMantissa.ofMantissaAndAccuracy m .exact >>> (s + 1)).roundBit ||
      (ExtendedMantissa.ofMantissaAndAccuracy m .exact >>> (s + 1)).stickyBit) = _
    rw [roundBit_shiftRight, ih, Nat.mod_pow_succ]
    have hunit := Nat.two_pow_pos s
    rcases Nat.mod_two_eq_zero_or_one (m / 2 ^ s) with hbit | hbit <;> rw [hbit]
    · simp
    · simp

/-- Less than half a unit is dropped. -/
theorem roundedMantissa_of_less {em : ExtendedMantissa} (h : em.roundBit = false) :
    em.roundedMantissa = em.mantissa := by
  obtain ⟨m, round, sticky⟩ := em
  subst h
  cases sticky <;> rfl

/-- More than half a unit counts as a whole one. -/
theorem roundedMantissa_of_more {em : ExtendedMantissa} (h : em.roundBit = true) (h' : em.stickyBit = true) :
    em.roundedMantissa = em.mantissa + 1 := by
  obtain ⟨m, round, sticky⟩ := em
  subst h h'
  rfl

/-- A number is its whole units, the half unit behind them if there is one, and the rest. -/
theorem eq_units_add (m s : Nat) :
    m = m / 2 ^ (s + 1) * 2 ^ (s + 1) + m / 2 ^ s % 2 * 2 ^ s + m % 2 ^ s := by
  have hlow := Nat.mod_pow_succ (x := m) (b := 2) (k := s)
  have hwhole := Nat.div_add_mod' m (2 ^ (s + 1))
  rw [hlow] at hwhole
  linarith

/-- Dropping bits rounds to the nearest number, and loses nothing where there is nothing to drop. -/
theorem roundedMantissa_shiftRight (m s : Nat) :
    let rounded := (ExtendedMantissa.ofMantissaAndAccuracy m .exact >>> s).roundedMantissa * 2 ^ s
    2 * rounded ≤ 2 * m + 2 ^ s ∧ 2 * m ≤ 2 * rounded + 2 ^ s ∧ (2 ^ s ∣ m → rounded = m) := by
  cases s with
  | zero =>
    have hsame : (ExtendedMantissa.ofMantissaAndAccuracy m .exact >>> 0).roundedMantissa = m := rfl
    simp only [hsame]
    omega
  | succ s =>
    have hmantissa : (ExtendedMantissa.ofMantissaAndAccuracy m .exact >>> (s + 1)).mantissa = m / 2 ^ (s + 1) := by
      rw [mantissa_shiftRight, mantissa_ofAccuracy]
    have hround := roundBit_shiftRight m s
    have hsticky := stickyBit_shiftRight m s
    have hdown := le_roundedMantissa (ExtendedMantissa.ofMantissaAndAccuracy m .exact >>> (s + 1))
    have hup := roundedMantissa_le (ExtendedMantissa.ofMantissaAndAccuracy m .exact >>> (s + 1))
    have hunits := eq_units_add m s
    have hrest := Nat.mod_lt m (Nat.two_pow_pos s)
    have hnext : (m / 2 ^ (s + 1) + 1) * 2 ^ (s + 1) = m / 2 ^ (s + 1) * 2 ^ (s + 1) + 2 ^ (s + 1) := Nat.succ_mul ..
    have hdouble : 2 ^ (s + 1) = 2 * 2 ^ s := Nat.pow_succ'
    have hwhole : 2 ^ (s + 1) ∣ m → m / 2 ^ (s + 1) * 2 ^ (s + 1) = m := Nat.div_mul_cancel
    -- a half unit or none is dropped last, with or without a rest behind it
    rcases Nat.mod_two_eq_zero_or_one (m / 2 ^ s) with hbit | hbit
    · rw [hbit] at hround hunits
      rw [roundedMantissa_of_less hround, hmantissa]
      exact ⟨by omega, by omega, hwhole⟩
    · rw [hbit] at hround hunits
      by_cases hexact : m % 2 ^ s = 0
      · have heither : (ExtendedMantissa.ofMantissaAndAccuracy m .exact >>> (s + 1)).roundedMantissa = m / 2 ^ (s + 1) ∨
            (ExtendedMantissa.ofMantissaAndAccuracy m .exact >>> (s + 1)).roundedMantissa = m / 2 ^ (s + 1) + 1 := by
          omega
        rcases heither with hsame | hsame <;> rw [hsame] <;>
          exact ⟨by omega, by omega, fun h => by have := hwhole h; omega⟩
      · rw [roundedMantissa_of_more hround (by rw [hsticky, bne_iff_ne]; exact hexact), hmantissa]
        exact ⟨by omega, by omega, fun h => by have := hwhole h; omega⟩

/-- How many bits rounding drops. -/
def droppedBits (m : Nat) (e : Int) : Nat := (max ((m.log2 : Int) - 52 + e) (-1074) - e).toNat

/-- Packing a canonical number within range loses nothing. -/
theorem unpack_pack_canonical (s : Sign) {m : Nat} {e : Int} {hpos : 0 < m} (h : Canonical m e) (he : e ≤ 971) :
    UnpackedFloat.unpack Format.binary64 (UnpackedFloat.pack Format.binary64 (.finite s m e hpos)) =
      .finite s m e hpos := by
  have hfits := h.fits
  have hlow := h.low
  have hbiased : (e + (Format.exponentBias Format.binary64 : Int) +
      (Format.mantissaBitsWithoutImplicit Format.binary64 : Int)).toNat = (e + 1075).toNat := by
    simp only [Format.exponentBias]
    norm_num
    omega
  rw [UnpackedFloat.pack, hbiased, if_neg (by norm_num; omega)]
  by_cases hmany : 2 ^ 52 ≤ m
  · have hlog : m.log2 = 52 := (Nat.log2_eq_iff hpos.ne').mpr ⟨hmany, hfits⟩
    obtain ⟨hpos', hunpack⟩ := unpack_pack_normal s hlog hlow he
    rw [if_pos (by rw [hlog]; rfl)]
    exact hunpack
  · obtain rfl : e = -1074 := h.normal.resolve_left hmany
    have hsmall : m < 2 ^ 52 := not_le.mp hmany
    have hlog : m.log2 < 52 := (Nat.log2_lt hpos.ne').mpr hsmall
    have hmantissa : (BitVec.ofNat 52 m).toNat = m := by rw [BitVec.toNat_ofNat, Nat.mod_eq_of_lt hsmall]
    rw [if_neg (by change ¬ m.log2 + 1 = 53; omega)]
    have hne : BitVec.ofNat 52 m ≠ 0#52 := fun hzero => hpos.ne' (by rw [← hmantissa, hzero]; rfl)
    have hordinary : (0#11 : BitVec 11) ≠ -1#11 := by decide
    simp only [UnpackedFloat.unpack, unpackExponent_packComponents, unpackMantissa_packComponents,
      unpackSign_packComponents, Sign.ofBitVec_toBitVec, hordinary, hne, ↓reduceIte, ↓reduceDIte,
      UnpackedFloat.finite.injEq]
    exact ⟨trivial, hmantissa, rfl⟩

/-! ### Rounding -/

section Round

variable {m : Nat} {e : Int}

theorem shiftToTargetExponent_eq (m : Nat) (e : Int) :
    shiftToTargetExponent Format.binary64 m e .exact =
      (ExtendedMantissa.ofMantissaAndAccuracy m .exact >>> droppedBits m e, e + droppedBits m e) := by
  refine Prod.ext ?_ ?_
  · rw [shiftToTargetExponent_fst]
    rfl
  · rw [shiftToTargetExponent_snd, droppedBits]
    omega

/-- After the shift a number has all bits of a mantissa or the least exponent, provided that it had bits to drop. -/
theorem le_roundedMantissa_of_full (hpos : 0 < m) (hfull : 2 ^ 52 ≤ m ∨ e ≤ -1074) :
    2 ^ 52 ≤ (ExtendedMantissa.ofMantissaAndAccuracy m .exact >>> droppedBits m e).roundedMantissa ∨
      e + droppedBits m e = -1074 := by
  by_cases hleast : e + droppedBits m e = -1074
  · exact .inr hleast
  · have hlog : 2 ^ 52 ≤ m → 52 ≤ m.log2 := (Nat.le_log2 hpos.ne').mpr
    have hdropped : droppedBits m e = m.log2 - 52 ∧ 52 ≤ m.log2 := by
      unfold droppedBits at hleast ⊢
      omega
    refine .inl (le_trans ?_ (le_roundedMantissa _))
    rw [mantissa_shiftRight, mantissa_ofAccuracy, hdropped.1, Nat.le_div_iff_mul_le (Nat.two_pow_pos _), ← Nat.pow_add,
      Nat.add_sub_cancel' hdropped.2]
    exact Nat.log2_self_le hpos.ne'

/-- A rounded number that is finite has the value of its mantissa after the shift. -/
theorem value_round (hpos : 0 < m) (hfull : 2 ^ 52 ≤ m ∨ e ≤ -1074)
    (hfinite : (UnpackedFloat.unpack Format.binary64 (UnpackedFloat.pack Format.binary64
      (roundWithAccuracy Format.binary64 .positive m e .exact))).isFinite = true) :
    unpackedValue (UnpackedFloat.unpack Format.binary64 (UnpackedFloat.pack Format.binary64
      (roundWithAccuracy Format.binary64 .positive m e .exact))) =
      ((ExtendedMantissa.ofMantissaAndAccuracy m .exact >>> droppedBits m e).roundedMantissa : ℚ) *
        2 ^ (e + droppedBits m e) := by
  have hlow : -1074 ≤ e + droppedBits m e := by
    unfold droppedBits
    omega
  have hmany := le_roundedMantissa_of_full hpos hfull
  have hmost := mantissa_shiftToTarget_lt m e .exact
  rw [isFinite_unpack_pack_round_iff, shiftToTargetExponent_eq] at hfinite
  rw [shiftToTargetExponent_eq] at hmost
  rw [roundWithAccuracy_eq, shiftToTargetExponent_eq]
  have hup := roundedMantissa_le (ExtendedMantissa.ofMantissaAndAccuracy m .exact >>> droppedBits m e)
  dsimp only at hfinite hmost ⊢
  split
  · next hzero =>
    rw [hzero, UnpackedFloat.pack, UnpackedFloat.unpack_packedZero]
    simp [unpackedValue]
  split
  · next hnonzero hsmall =>
    rw [unpack_pack_canonical _ ⟨hsmall, hlow, hmany⟩ (by omega)]
    rfl
  · next hnonzero hcarry =>
    have hsame : (ExtendedMantissa.ofMantissaAndAccuracy m .exact >>> droppedBits m e).roundedMantissa = 2 ^ 53 := by
      omega
    rw [unpack_pack_canonical _ ⟨by decide, by omega, .inl le_rfl⟩ (by omega), hsame]
    simp only [unpackedValue]
    rw [zpow_add_one₀ two_ne_zero]
    push_cast
    ring

/-- A double is the rounded form of `m * 2 ^ e`, which has bits to drop unless it has the least exponent. -/
structure RoundedFrom (m : Nat) (e : Int) (x : Float) : Prop where
  pos : 0 < m
  full : 2 ^ 52 ≤ m ∨ e ≤ -1074
  unpack : x.toModel.unpack = UnpackedFloat.unpack Format.binary64 (UnpackedFloat.pack Format.binary64
    (roundWithAccuracy Format.binary64 .positive m e .exact))

/-- The first number that is nearer to an infinity than to the greatest double. -/
def overflowBound : ℚ := (2 ^ 54 - 1) * 2 ^ (970 : ℤ)

theorem overflows_iff : Overflows m e ↔ overflowBound ≤ (m : ℚ) * 2 ^ e := by
  have hscale : (2 : ℚ) ^ (970 : ℤ) * 2 ^ (e - 970).toNat = 2 ^ e * 2 ^ (970 - e).toNat := by
    rw [← zpow_natCast, ← zpow_natCast, ← zpow_add₀ two_ne_zero, ← zpow_add₀ two_ne_zero]
    congr 1
    omega
  have hbound : ((2 ^ 54 - 1 : Nat) : ℚ) = 2 ^ 54 - 1 := by norm_num
  have hunit : (0 : ℚ) < 2 ^ (e - 970).toNat := by positivity
  calc Overflows m e ↔ (2 ^ 54 - 1) * (2 : ℚ) ^ (970 - e).toNat ≤ m * 2 ^ (e - 970).toNat := by
        unfold Overflows
        rw [← @Nat.cast_le ℚ, Nat.cast_mul, Nat.cast_mul, Nat.cast_pow, Nat.cast_pow, hbound, Nat.cast_two]
    _ ↔ (2 ^ 54 - 1) * (2 : ℚ) ^ (970 - e).toNat * 2 ^ e ≤ m * 2 ^ (e - 970).toNat * 2 ^ e :=
        (mul_le_mul_iff_left₀ (two_zpow_pos e)).symm
    _ ↔ overflowBound * 2 ^ (e - 970).toNat ≤ m * 2 ^ e * 2 ^ (e - 970).toNat := by
        rw [overflowBound, mul_assoc _ ((2 : ℚ) ^ (970 : ℤ)), hscale, mul_right_comm (m : ℚ),
          mul_assoc _ _ ((2 : ℚ) ^ e), mul_comm ((2 : ℚ) ^ e)]
    _ ↔ overflowBound ≤ m * 2 ^ e := mul_le_mul_iff_left₀ hunit

namespace RoundedFrom

variable {x : Float}

theorem isFinite_iff (h : RoundedFrom m e x) : x.isFinite = true ↔ (m : ℚ) * 2 ^ e < overflowBound := by
  rw [← not_le, ← overflows_iff, ← isFinite_round_iff .positive h.pos h.full, ← h.unpack]
  rfl

theorem value_eq_rounded (h : RoundedFrom m e x) (hfinite : x.isFinite = true) :
    value x = ((ExtendedMantissa.ofMantissaAndAccuracy m .exact >>> droppedBits m e).roundedMantissa *
      2 ^ droppedBits m e : Nat) * (2 : ℚ) ^ e := by
  change x.toModel.unpack.isFinite = true at hfinite
  rw [h.unpack] at hfinite
  rw [value, h.unpack, value_round h.pos h.full hfinite, zpow_add₀ two_ne_zero, zpow_natCast]
  push_cast
  ring

/-- Rounding changes a number by half a unit of the last place at most. -/
theorem abs_value_sub_le (h : RoundedFrom m e x) (hfinite : x.isFinite = true) :
    2 * |value x - m * 2 ^ e| ≤ 2 ^ droppedBits m e * 2 ^ e := by
  obtain ⟨hup, hdown, -⟩ := roundedMantissa_shiftRight m (droppedBits m e)
  rw [h.value_eq_rounded hfinite, ← sub_mul, abs_mul, abs_of_pos (two_zpow_pos e), ← mul_assoc]
  refine mul_le_mul_of_nonneg_right ?_ (two_zpow_pos e).le
  generalize (ExtendedMantissa.ofMantissaAndAccuracy m .exact >>> droppedBits m e).roundedMantissa *
    2 ^ droppedBits m e = rounded at *
  have hup' : (2 * rounded : ℚ) ≤ 2 * m + 2 ^ droppedBits m e := by exact_mod_cast hup
  have hdown' : (2 * m : ℚ) ≤ 2 * rounded + 2 ^ droppedBits m e := by exact_mod_cast hdown
  rw [← abs_two, ← abs_mul, abs_two, abs_le]
  constructor <;> linarith

/-- A number is kept if no bit of it is dropped. -/
theorem value_eq (h : RoundedFrom m e x) (hfinite : x.isFinite = true) (hkept : 2 ^ droppedBits m e ∣ m) :
    value x = m * 2 ^ e := by
  rw [h.value_eq_rounded hfinite, (roundedMantissa_shiftRight m (droppedBits m e)).2.2 hkept]

end RoundedFrom

end Round

/-- A double is the rounded form of a positive number. -/
def Rounds (q : ℚ) (x : Float) : Prop := ∃ m e, RoundedFrom m e x ∧ (m : ℚ) * 2 ^ e = q

namespace Rounds

variable {q : ℚ} {x : Float}

theorem isFinite_iff (h : Rounds q x) : x.isFinite = true ↔ q < overflowBound := by
  obtain ⟨m, e, hrounded, rfl⟩ := h
  exact hrounded.isFinite_iff

/-- What overflows is an infinity with the sign of the number. -/
theorem infinity (h : Rounds q x) (hinfinite : x.isFinite = false) : x.toModel.unpack = .infinity .positive := by
  obtain ⟨m, e, hrounded, rfl⟩ := h
  change x.toModel.unpack.isFinite = false at hinfinite
  rw [hrounded.unpack, roundWithAccuracy_eq] at hinfinite ⊢
  split at hinfinite
  · rw [UnpackedFloat.pack, UnpackedFloat.unpack_packedZero] at hinfinite
    cases hinfinite
  · split at hinfinite <;>
      · rw [← Bool.not_eq_true, isFinite_unpack_pack_iff, not_le] at hinfinite
        simp_all only [unpack_pack_overflow, ↓reduceDIte, ↓reduceIte]

/-- Rounding changes a number by one unit in `2 ^ 53` at most, unless it is among the least. -/
theorem abs_value_sub_le (h : Rounds q x) (hfinite : x.isFinite = true) (hleast : 2 ^ (-1022 : ℤ) ≤ q) :
    |value x - q| ≤ q / 2 ^ 53 := by
  obtain ⟨m, e, hrounded, rfl⟩ := h
  have hhigh : (m : ℚ) < 2 ^ ((m.log2 : ℤ) + 1) := by exact_mod_cast Nat.lt_log2_self (n := m)
  have hlow : (2 : ℚ) ^ (m.log2 : ℤ) ≤ m := by exact_mod_cast Nat.log2_self_le hrounded.pos.ne'
  have hexponent : -1022 < (m.log2 : ℤ) + 1 + e := by
    rw [← zpow_lt_zpow_iff_right₀ (one_lt_two : (1 : ℚ) < 2), zpow_add₀ two_ne_zero _ e]
    exact hleast.trans_lt (mul_lt_mul_of_pos_right hhigh (two_zpow_pos e))
  have hlog : 2 ^ 52 ≤ m → 52 ≤ m.log2 := (Nat.le_log2 hrounded.pos.ne').mpr
  have hbits : 52 ≤ m.log2 := by
    rcases hrounded.full with hmany | he
    · exact hlog hmany
    · omega
  have hdropped : (droppedBits m e : ℤ) = m.log2 - 52 := by
    unfold droppedBits
    omega
  have hunit : (2 : ℚ) ^ droppedBits m e * 2 ^ 52 ≤ m := by
    rw [← zpow_natCast, hdropped, ← zpow_natCast, ← zpow_add₀ two_ne_zero]
    simpa using hlow
  have herror := hrounded.abs_value_sub_le hfinite
  have hscaled := mul_le_mul_of_nonneg_right hunit (two_zpow_pos e).le
  rw [le_div_iff₀ (by positivity)]
  linarith

/-- What fits in 53 bits is kept. -/
theorem value_eq (h : Rounds q x) {n : Nat} {f : Int} (hn : n < 2 ^ 53) (hf : -1074 ≤ f)
    (hq : q = n * 2 ^ f) (hfinite : x.isFinite = true) : value x = q := by
  obtain ⟨m, e, hrounded, hsame⟩ := h
  rw [← hsame]
  refine hrounded.value_eq hfinite ?_
  by_cases hdropped : droppedBits m e = 0
  · rw [hdropped]
    exact one_dvd m
  -- dropping begins at the unit that the number has, or above
  have hlow : (2 : ℚ) ^ (m.log2 : ℤ) ≤ m := by exact_mod_cast Nat.log2_self_le hrounded.pos.ne'
  have hfits : (n : ℚ) < 2 ^ (53 : ℤ) := by exact_mod_cast hn
  have hexponent : (m.log2 : ℤ) + e < 53 + f := by
    rw [← zpow_lt_zpow_iff_right₀ (one_lt_two : (1 : ℚ) < 2), zpow_add₀ two_ne_zero, zpow_add₀ two_ne_zero]
    calc (2 : ℚ) ^ (m.log2 : ℤ) * 2 ^ e ≤ m * 2 ^ e := mul_le_mul_of_nonneg_right hlow (two_zpow_pos e).le
      _ = n * 2 ^ f := hsame.trans hq
      _ < 2 ^ (53 : ℤ) * 2 ^ f := mul_lt_mul_of_pos_right hfits (two_zpow_pos f)
  obtain ⟨s, hs⟩ : ∃ s : Nat, f = e + s := ⟨(f - e).toNat, by unfold droppedBits at hdropped; omega⟩
  have hmultiple : m = n * 2 ^ s := by
    have hscaled : (m : ℚ) * 2 ^ e = n * 2 ^ s * 2 ^ e := by
      rw [hsame, hq, hs, zpow_add₀ two_ne_zero, zpow_natCast]
      ring
    exact_mod_cast mul_right_cancel₀ (two_zpow_pos e).ne' hscaled
  rw [hmultiple]
  refine Dvd.dvd.mul_left (Nat.pow_dvd_pow 2 ?_) n
  rw [← hmultiple]
  unfold droppedBits
  omega

end Rounds

/-! ### Sums and products -/

section Operations

variable {x y : Float}

/-- A product of positive doubles is rounded once. -/
theorem rounds_mul (hx : 0 < value x) (hy : 0 < value y) : Rounds (value x * value y) (x * y) := by
  obtain ⟨m, e, hm, hu⟩ := unpack_of_pos hx
  obtain ⟨n, f, hn, hv⟩ := unpack_of_pos hy
  have hfull := (canonical_of_unpack hu).full_mul (canonical_of_unpack hv) hm hn
  refine ⟨m * n, e + f, ⟨Nat.mul_pos hm hn, hfull, ?_⟩, ?_⟩
  · change UnpackedFloat.unpack Format.binary64 (UnpackedFloat.pack Format.binary64
      (UnpackedFloat.mul Format.binary64 x.toModel.unpack y.toModel.unpack)) = _
    rw [hu, hv]
    rfl
  · rw [value_of_unpack hu, value_of_unpack hv, zpow_add₀ two_ne_zero]
    push_cast
    ring

theorem value_shiftLeft (m : Nat) (e : Int) (s : Nat) : (m <<< s : Nat) * (2 : ℚ) ^ (e - s) = m * 2 ^ e := by
  rw [Nat.shiftLeft_eq, zpow_sub₀ two_ne_zero, zpow_natCast]
  push_cast
  field_simp

theorem value_decreaseExponent {m : Nat} {e t : Int} (h : t ≤ e) :
    (m <<< (e - t).toNat : Nat) * (2 : ℚ) ^ t = m * 2 ^ e := by
  have hexponent : e - (e - t).toNat = t := by omega
  simpa only [hexponent] using value_shiftLeft m e (e - t).toNat

/-- Before a sum is rounded, bits are added to it as long as it has too few. -/
theorem full_decreaseExponent {m : Nat} {e : Int} (hpos : 0 < m) :
    let shift := (e - Format.binary64.targetExponent (totalExponent m e)).toNat
    2 ^ 52 ≤ m <<< shift ∨ e - shift ≤ -1074 := by
  have hlow := Nat.log2_self_le hpos.ne'
  rw [targetExponent_eq]
  dsimp only
  by_cases hleast : (m.log2 : ℤ) - 52 + e ≤ -1074
  · exact .inr (by omega)
  · refine .inl ?_
    rw [Nat.shiftLeft_eq]
    calc 2 ^ 52 ≤ 2 ^ (m.log2 + (e - max ((m.log2 : ℤ) - 52 + e) (-1074)).toNat) :=
          Nat.pow_le_pow_right (by decide) (by omega)
      _ ≤ m * 2 ^ (e - max ((m.log2 : ℤ) - 52 + e) (-1074)).toNat := by
        rw [Nat.pow_add]
        exact Nat.mul_le_mul_right _ hlow

/-- Rounding a canonical number leaves it as it is. -/
theorem rounds_canonical {n : Nat} {f : Int} {hn : 0 < n} (h : Canonical n f)
    (hunpack : x.toModel.unpack = UnpackedFloat.unpack Format.binary64 (UnpackedFloat.pack Format.binary64
      (.finite .positive n f hn))) : Rounds (n * 2 ^ f) x := by
  refine ⟨n, f, ⟨hn, h.normal.imp_right Eq.le, hunpack.trans ?_⟩, rfl⟩
  have hrounded : (ExtendedMantissa.mk n false false).roundedMantissa = n := rfl
  rw [roundWithAccuracy_eq, shiftToTargetExponent_of_fits h.fits h.low]
  simp only [hrounded, hn.ne', h.fits, ↓reduceDIte, ↓reduceIte]

theorem rounds_round {m : Nat} {e : Int} (hpos : 0 < m)
    (hunpack : x.toModel.unpack = UnpackedFloat.unpack Format.binary64 (UnpackedFloat.pack Format.binary64
      (UnpackedFloat.round Format.binary64 .positive m e))) : Rounds (m * 2 ^ e) x := by
  exact ⟨_, _, ⟨Nat.shiftLeft_pos_iff.mpr hpos, full_decreaseExponent hpos, hunpack⟩, value_shiftLeft m e _⟩

/-- The sum of two positive numbers is taken at the lesser exponent. -/
theorem add_eq_round {m n : Nat} {e f : Int} {hm : 0 < m} {hn : 0 < n} :
    UnpackedFloat.add Format.binary64 (.finite .positive m e hm) (.finite .positive n f hn) =
      UnpackedFloat.round Format.binary64 .positive
        (m <<< (e - min e f).toNat + n <<< (f - min e f).toNat) (min e f) := by
  have hleft : 0 < m <<< (e - min e f).toNat := Nat.shiftLeft_pos_iff.mpr hm
  have hpositive : compare ((m <<< (e - min e f).toNat : Nat) + (n <<< (f - min e f).toNat : Nat) : ℤ) 0 = .gt :=
    Int.compare_eq_gt.mpr (by exact_mod_cast Nat.add_pos_left hleft _)
  simp only [UnpackedFloat.add, UnpackedFloat.normalize, decreaseExponent, Sign.apply, hpositive]
  rw [← Nat.cast_add, Int.toNat_natCast]

/-- A sum of a double that is not negative and a positive one is rounded once. -/
theorem rounds_add (hfinite : x.isFinite = true) (hx : 0 ≤ value x) (hy : 0 < value y) :
    Rounds (value x + value y) (x + y) := by
  obtain ⟨n, f, hn, hv⟩ := unpack_of_pos hy
  have hunpack : (x + y).toModel.unpack = UnpackedFloat.unpack Format.binary64 (UnpackedFloat.pack Format.binary64
      (UnpackedFloat.add Format.binary64 x.toModel.unpack y.toModel.unpack)) := rfl
  rw [hv] at hunpack
  rcases hx.eq_or_lt with hzero | hpos
  · obtain ⟨s, hu⟩ := unpack_of_value_zero hfinite hzero.symm
    rw [hu] at hunpack
    rw [← hzero, zero_add, value_of_unpack hv]
    exact rounds_canonical (canonical_of_unpack hv) hunpack
  · obtain ⟨m, e, hm, hu⟩ := unpack_of_pos hpos
    rw [hu, add_eq_round] at hunpack
    have hsum : 0 < m <<< (e - min e f).toNat + n <<< (f - min e f).toNat :=
      Nat.add_pos_left (Nat.shiftLeft_pos_iff.mpr hm) _
    have hvalue := rounds_round hsum hunpack
    rwa [Nat.cast_add, add_mul, value_decreaseExponent (min_le_left e f), value_decreaseExponent (min_le_right e f),
      ← value_of_unpack hu, ← value_of_unpack hv] at hvalue

/-- Something finite takes nothing away from an infinity. -/
theorem unpack_add_infinity {s : Sign} (hx : x.toModel.unpack = .infinity s) (hy : y.isFinite = true) :
    (x + y).toModel.unpack = .infinity s := by
  change UnpackedFloat.unpack Format.binary64 (UnpackedFloat.pack Format.binary64
    (UnpackedFloat.add Format.binary64 x.toModel.unpack y.toModel.unpack)) = _
  have hsum : UnpackedFloat.add Format.binary64 (.infinity s) y.toModel.unpack = .infinity s := by
    obtain ⟨s', hv⟩ | ⟨s', n, f, hn, hv⟩ := unpack_of_isFinite hy <;> rw [hv] <;> rfl
  rw [hx, hsum, UnpackedFloat.pack, unpack_packedInfinity]

/-! ### Doubling -/

theorem unpack_two : (2.0 : Float).toModel.unpack = .finite .positive (2 ^ 52) (-51) (by decide) := rfl

theorem value_two : value 2.0 = 2 := by
  rw [value_of_unpack unpack_two]
  norm_num

theorem unpack_two_mul_zero {s : Sign} (h : x.toModel.unpack = .zero s) :
    (2.0 * x).toModel.unpack = .zero s := by
  change UnpackedFloat.unpack Format.binary64 (UnpackedFloat.pack Format.binary64
    (UnpackedFloat.mul Format.binary64 (2.0 : Float).toModel.unpack x.toModel.unpack)) = _
  rw [unpack_two, h, UnpackedFloat.mul, UnpackedFloat.pack, UnpackedFloat.unpack_packedZero]
  cases s <;> rfl

/-- Whether a number and its double are within range is a question of the exponent: the last one is too much. -/
theorem Canonical.bounds_double {m : Nat} {e : Int} (h : Canonical m e) :
    (e ≤ 970 → (m : ℚ) * 2 ^ e < 2 ^ 1023 ∧ 2 * ((m : ℚ) * 2 ^ e) < overflowBound) ∧
      (970 < e → (2 : ℚ) ^ 1023 ≤ m * 2 ^ e ∧ overflowBound ≤ 2 * ((m : ℚ) * 2 ^ e)) := by
  have hlast : (2 : ℚ) ^ 1023 = 2 ^ 53 * 2 ^ (970 : ℤ) := by
    rw [← zpow_natCast, ← zpow_natCast, ← zpow_add₀ two_ne_zero]
    rfl
  have hnext : (2 : ℚ) ^ (970 + 1 : ℤ) = 2 ^ (970 : ℤ) * 2 := zpow_add_one₀ two_ne_zero 970
  have hunit := two_zpow_pos 970
  rw [hlast, overflowBound]
  constructor
  · intro he
    have hpow : (2 : ℚ) ^ e ≤ 2 ^ (970 : ℤ) := zpow_le_zpow_right₀ one_le_two he
    have hfits : (m : ℚ) ≤ 2 ^ 53 - 1 := by
      have hle : (m : ℚ) + 1 ≤ 2 ^ 53 := by exact_mod_cast h.fits
      linarith
    have hbound := mul_le_mul hfits hpow (two_zpow_pos e).le (by norm_num)
    generalize (2 : ℚ) ^ (970 : ℤ) = unit at hunit hbound ⊢
    constructor <;> linarith only [hunit, hbound]
  · intro he
    have hpow : (2 : ℚ) ^ (970 + 1 : ℤ) ≤ 2 ^ e := zpow_le_zpow_right₀ one_le_two he
    have hmany : (2 : ℚ) ^ 52 ≤ m := by exact_mod_cast h.normal.resolve_right (by omega)
    have hbound := mul_le_mul hmany hpow (two_zpow_pos _).le (Nat.cast_nonneg m)
    rw [hnext] at hbound
    generalize (2 : ℚ) ^ (970 : ℤ) = unit at hunit hbound ⊢
    constructor <;> linarith only [hunit, hbound]

/-- A number that is not negative can be doubled if it is below the last power of two. -/
theorem isFinite_two_mul_iff (hx : x.isFinite = true) (h : 0 ≤ value x) :
    (2.0 * x).isFinite = true ↔ value x < 2 ^ 1023 := by
  rcases h.eq_or_lt with hzero | hpos
  · obtain ⟨s, hu⟩ := unpack_of_value_zero hx hzero.symm
    refine iff_of_true ?_ (hzero ▸ by positivity)
    change (2.0 * x).toModel.unpack.isFinite = true
    rw [unpack_two_mul_zero hu]
    rfl
  · have hrounds := rounds_mul (value_two ▸ two_pos) hpos
    obtain ⟨m, e, hm, hu⟩ := unpack_of_pos hpos
    obtain ⟨hsmall, hgreat⟩ := (canonical_of_unpack hu).bounds_double
    rw [value_two] at hrounds
    rw [hrounds.isFinite_iff, value_of_unpack hu]
    rcases le_or_gt e 970 with he | he
    · exact iff_of_true (hsmall he).2 (hsmall he).1
    · exact iff_of_false (hgreat he).2.not_gt (hgreat he).1.not_gt

/-- Doubling loses nothing. -/
theorem value_two_mul (hx : x.isFinite = true) (h : 0 ≤ value x) (hfinite : (2.0 * x).isFinite = true) :
    value (2.0 * x) = 2 * value x := by
  rcases h.eq_or_lt with hzero | hpos
  · obtain ⟨s, hu⟩ := unpack_of_value_zero hx hzero.symm
    rw [value, unpack_two_mul_zero hu, ← hzero, mul_zero]
    rfl
  · have hrounds := rounds_mul (value_two ▸ two_pos) hpos
    obtain ⟨m, e, hm, hu⟩ := unpack_of_pos hpos
    have hcanonical := canonical_of_unpack hu
    rw [value_two] at hrounds
    refine hrounds.value_eq hcanonical.fits (f := e + 1) (by have := hcanonical.low; omega) ?_ hfinite
    rw [value_of_unpack hu, zpow_add_one₀ two_ne_zero]
    ring

end Operations

end DesignTokens.Number
