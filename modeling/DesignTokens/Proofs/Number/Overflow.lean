import DesignTokens.Proofs.Number.Magnitude

/-!
# Products beyond the range of doubles

A product of finite doubles is rounded once. It is an infinity exactly if the exact product is at least half way from
the greatest double to the next power of two (`Overflows`). Rounding drops bits down to 53. So at the last exponent that
doubles have it is one bit, the first of those that are dropped, that decides.

* `roundWithAccuracy_eq` — rounding as one shift and a carry.
* `isFinite_round_iff` — what overflows.
* `isFinite_mul_iff` — which products are finite.
* `Bounded.div` — quotients by numbers from a power of two on.
-/

namespace DesignTokens.Number

open Float.Model Float.Model.UnpackedFloat

/-- `mantissa * 2 ^ exponent` is nearer to an infinity than to any double. The greatest double is
`(2 ^ 54 - 2) * 2 ^ 970`. -/
def Overflows (m : Nat) (e : Int) : Prop :=
  (2 ^ 54 - 1) * 2 ^ (970 - e).toNat ≤ m * 2 ^ (e - 970).toNat

instance {m : Nat} {e : Int} : Decidable (Overflows m e) := inferInstanceAs (Decidable (_ ≤ _))

/-! ### Rounding -/

section Round

variable {m c s : Nat} {e : Int} {accuracy : Accuracy}

theorem targetExponent_eq (m : Nat) (e : Int) :
    Format.binary64.targetExponent (totalExponent m e) = max (m.log2 - 52 + e) (-1074) := by
  simp only [Format.targetExponent, totalExponent, Format.mantissaBits, Format.minExponent]
  norm_num
  omega

/-- A mantissa is rounded up to an even number from one less with the bit of a half set. -/
theorem roundedMantissa_lt_iff (em : ExtendedMantissa) (hc : c % 2 = 0) :
    em.roundedMantissa < c ↔ em.mantissa + 1 < c ∨ em.mantissa + 1 = c ∧ em.roundBit = false := by
  obtain ⟨m, round, sticky⟩ := em
  cases round <;> cases sticky <;>
    simp only [ExtendedMantissa.roundedMantissa, ExtendedMantissa.accuracy, Accuracy.roundToNearestEven,
      Bool.true_eq_false, and_false, or_false, and_true] <;> omega

theorem roundBit_shiftRight (m s : Nat) :
    (ExtendedMantissa.ofMantissaAndAccuracy m .exact >>> (s + 1)).roundBit = (m / 2 ^ s % 2 != 0) := by
  change ((ExtendedMantissa.ofMantissaAndAccuracy m .exact >>> s).mantissa % 2 != 0) = _
  rw [mantissa_shiftRight, mantissa_ofAccuracy]

/-- What is dropped is rounded up to an even number from half a unit below it. -/
theorem roundedMantissa_shiftRight_lt_iff (m s : Nat) (hc : c % 2 = 0) :
    (ExtendedMantissa.ofMantissaAndAccuracy m .exact >>> (s + 1)).roundedMantissa < c ↔ m < (2 * c - 1) * 2 ^ s := by
  have hhalf : m / 2 ^ (s + 1) = m / 2 ^ s / 2 := by rw [Nat.pow_succ, Nat.div_div_eq_div_mul]
  rw [roundedMantissa_lt_iff _ hc, roundBit_shiftRight, mantissa_shiftRight, mantissa_ofAccuracy, hhalf,
    ← Nat.div_lt_iff_lt_mul (Nat.two_pow_pos s)]
  generalize m / 2 ^ s = q
  simp only [bne_eq_false_iff_eq]
  omega

theorem le_roundedMantissa (em : ExtendedMantissa) : em.mantissa ≤ em.roundedMantissa := by
  obtain ⟨m, round, sticky⟩ := em
  cases round <;> cases sticky <;>
    simp only [ExtendedMantissa.roundedMantissa, ExtendedMantissa.accuracy, Accuracy.roundToNearestEven] <;> omega

theorem shiftToTargetExponent_snd (m : Nat) (e : Int) (accuracy : Accuracy) :
    (shiftToTargetExponent Format.binary64 m e accuracy).2 = max e (max (m.log2 - 52 + e) (-1074)) := by
  simp only [shiftToTargetExponent, shiftToExponent, targetExponent_eq]
  omega

theorem shiftToTargetExponent_fst (m : Nat) (e : Int) (accuracy : Accuracy) :
    (shiftToTargetExponent Format.binary64 m e accuracy).1 = ExtendedMantissa.ofMantissaAndAccuracy m accuracy >>>
      (max (m.log2 - 52 + e) (-1074) - e).toNat := by
  simp only [shiftToTargetExponent, shiftToExponent, targetExponent_eq]

/-- After the first shift a mantissa has 53 bits at most. -/
theorem mantissa_shiftToTarget_lt (m : Nat) (e : Int) (accuracy : Accuracy) :
    (shiftToTargetExponent Format.binary64 m e accuracy).1.mantissa < 2 ^ 53 := by
  rw [shiftToTargetExponent_fst, mantissa_shiftRight, mantissa_ofAccuracy]
  refine (Nat.div_lt_iff_lt_mul (Nat.two_pow_pos _)).mpr (Nat.lt_log2_self.trans_le ?_)
  rw [← Nat.pow_add]
  exact Nat.pow_le_pow_right (by decide) (by omega)

/-- A mantissa that fits is not shifted. -/
theorem shiftToTargetExponent_of_fits (hm : m < 2 ^ 53) (he : -1074 ≤ e) :
    shiftToTargetExponent Format.binary64 m e .exact = (⟨m, false, false⟩, e) := by
  have hlog : m.log2 ≤ 52 := by
    by_cases hzero : m = 0
    · simp [hzero]
    · exact Nat.lt_succ_iff.mp ((Nat.log2_lt hzero).mpr hm)
  refine Prod.ext ?_ ?_
  · rw [shiftToTargetExponent_fst, show (max ((m.log2 : Int) - 52 + e) (-1074) - e).toNat = 0 by omega]
    rfl
  · rw [shiftToTargetExponent_snd]
    omega

/-- A carry into a new bit is shifted away. -/
theorem shiftToTargetExponent_carry (he : -1074 ≤ e) :
    shiftToTargetExponent Format.binary64 (2 ^ 53) e .exact = (⟨2 ^ 52, false, false⟩, e + 1) := by
  have hlog : (2 ^ 53 : Nat).log2 = 53 := Nat.log2_two_pow
  refine Prod.ext ?_ ?_
  · rw [shiftToTargetExponent_fst, hlog, show (max (((53 : Nat) : Int) - 52 + e) (-1074) - e).toNat = 1 by omega]
    rfl
  · rw [shiftToTargetExponent_snd, hlog]
    omega

/-- Rounding by the mantissa after the first shift: it is zero, it fits, or it carries. -/
theorem roundWithAccuracy_eq (sign : Sign) (m : Nat) (e : Int) (accuracy : Accuracy) :
    roundWithAccuracy Format.binary64 sign m e accuracy =
      if h : (shiftToTargetExponent Format.binary64 m e accuracy).1.roundedMantissa = 0 then .zero sign
      else if (shiftToTargetExponent Format.binary64 m e accuracy).1.roundedMantissa < 2 ^ 53 then
        .finite sign _ (shiftToTargetExponent Format.binary64 m e accuracy).2 (Nat.pos_of_ne_zero h)
      else .finite sign (2 ^ 52) ((shiftToTargetExponent Format.binary64 m e accuracy).2 + 1) (by decide) := by
  have hlow : -1074 ≤ (shiftToTargetExponent Format.binary64 m e accuracy).2 := by
    rw [shiftToTargetExponent_snd]
    omega
  have hfits := mantissa_shiftToTarget_lt m e accuracy
  have hup := roundedMantissa_le (shiftToTargetExponent Format.binary64 m e accuracy).1
  rw [roundWithAccuracy]
  generalize shiftToTargetExponent Format.binary64 m e accuracy = first at *
  obtain ⟨em, f⟩ := first
  dsimp only at *
  by_cases hzero : em.roundedMantissa = 0
  · rw [hzero, shiftToTargetExponent_of_fits (by decide) hlow]
    rfl
  by_cases hsmall : em.roundedMantissa < 2 ^ 53
  · rw [shiftToTargetExponent_of_fits hsmall hlow]
    simp only [hzero, hsmall, ↓reduceDIte, ↓reduceIte]
  · rw [show em.roundedMantissa = 2 ^ 53 by omega, shiftToTargetExponent_carry hlow]
    rfl

/-! ### Overflow -/

theorem pack_overflow (sign : Sign) (hpos : 0 < m) (he : 971 < e) :
    UnpackedFloat.pack Format.binary64 (.finite sign m e hpos) = packedInfinity Format.binary64 sign := by
  have hoverflow : 2 ^ Format.binary64.exponentBits ≤
      (e + Format.binary64.exponentBias + Format.binary64.mantissaBitsWithoutImplicit).toNat + 1 := by
    simp only [Format.exponentBias]
    norm_num
    omega
  rw [UnpackedFloat.pack, if_pos hoverflow]

theorem unpack_pack_overflow (sign : Sign) (hpos : 0 < m) (he : 971 < e) :
    UnpackedFloat.unpack Format.binary64 (UnpackedFloat.pack Format.binary64 (.finite sign m e hpos)) =
      .infinity sign := by
  rw [pack_overflow sign hpos he, unpack_packedInfinity]

theorem isFinite_unpack_pack_iff (sign : Sign) (hpos : 0 < m) :
    (UnpackedFloat.unpack Format.binary64
      (UnpackedFloat.pack Format.binary64 (.finite sign m e hpos))).isFinite = true ↔ e ≤ 971 := by
  constructor
  · intro h
    by_contra hhigh
    rw [unpack_pack_overflow sign hpos (not_le.mp hhigh)] at h
    cases h
  · intro he
    rcases unpack_pack_finite sign hpos he with hsame | ⟨rest, hrest⟩
    · rw [hsame]
      rfl
    · rw [hrest]
      rcases unpack_subnormal sign rest with hzero | ⟨hpos', htiny⟩
      · rw [hzero]
        rfl
      · rw [htiny]
        rfl

/-- What is rounded does not overflow below the last exponent, nor at it without a carry. -/
theorem isFinite_unpack_pack_round_iff (sign : Sign) (m : Nat) (e : Int) (accuracy : Accuracy) :
    (UnpackedFloat.unpack Format.binary64 (UnpackedFloat.pack Format.binary64
      (roundWithAccuracy Format.binary64 sign m e accuracy))).isFinite = true ↔
      (shiftToTargetExponent Format.binary64 m e accuracy).2 ≤ 970 ∨
        (shiftToTargetExponent Format.binary64 m e accuracy).1.roundedMantissa = 0 ∨
        (shiftToTargetExponent Format.binary64 m e accuracy).2 = 971 ∧
          (shiftToTargetExponent Format.binary64 m e accuracy).1.roundedMantissa < 2 ^ 53 := by
  rw [roundWithAccuracy_eq]
  split
  · next hzero =>
    rw [UnpackedFloat.pack, UnpackedFloat.unpack_packedZero]
    exact iff_of_true rfl (.inr (.inl hzero))
  · next hnonzero =>
    split
    · next hsmall =>
      rw [isFinite_unpack_pack_iff]
      omega
    · next hcarry =>
      rw [isFinite_unpack_pack_iff]
      omega

/-- Rounding overflows exactly if the number does, provided that it only drops bits. -/
theorem isFinite_round_iff (sign : Sign) (hpos : 0 < m) (hfull : 2 ^ 52 ≤ m ∨ e ≤ -1074) :
    (UnpackedFloat.unpack Format.binary64 (UnpackedFloat.pack Format.binary64
      (roundWithAccuracy Format.binary64 sign m e .exact))).isFinite = true ↔ ¬ Overflows m e := by
  have hlow := Nat.log2_self_le hpos.ne'
  have hhigh := Nat.lt_log2_self (n := m)
  have hlog : 2 ^ 52 ≤ m → 52 ≤ m.log2 := (Nat.le_log2 hpos.ne').mpr
  rw [isFinite_unpack_pack_round_iff, shiftToTargetExponent_snd, shiftToTargetExponent_fst]
  unfold Overflows
  -- the cases are those of the exponent: with room for a carry, the last one, and beyond
  rcases lt_trichotomy ((m.log2 : Int) + e) 1023 with hless | hequal | hmore
  · refine iff_of_true (.inl (by omega)) (Nat.not_le_of_lt ?_)
    calc m * 2 ^ (e - 970).toNat < 2 ^ (m.log2 + 1) * 2 ^ (e - 970).toNat :=
          Nat.mul_lt_mul_of_pos_right hhigh (Nat.two_pow_pos _)
      _ ≤ 2 ^ 53 * 2 ^ (970 - e).toNat := by
        rw [← Nat.pow_add, ← Nat.pow_add]
        exact Nat.pow_le_pow_right (by decide) (by omega)
      _ ≤ (2 ^ 54 - 1) * 2 ^ (970 - e).toNat := Nat.mul_le_mul_right _ (by decide)
  · have hbits : 52 ≤ m.log2 := by omega
    obtain ⟨s, hs⟩ : ∃ s : Nat, e + s = 971 := ⟨m.log2 - 52, by omega⟩
    have hmantissa : (ExtendedMantissa.ofMantissaAndAccuracy m .exact >>> s).roundedMantissa < 2 ^ 53 ↔
        m * 2 ^ (e - 970).toNat < (2 ^ 54 - 1) * 2 ^ (970 - e).toNat := by
      cases s with
      | zero =>
        have hm : m < 2 ^ 53 := hhigh.trans_eq (by rw [show m.log2 = 52 by omega])
        rw [show (e - 970).toNat = 1 by omega, show (970 - e).toNat = 0 by omega]
        exact iff_of_true hm (by omega)
      | succ s =>
        rw [roundedMantissa_shiftRight_lt_iff m s (by decide), show (e - 970).toNat = 0 by omega,
          show (970 - e).toNat = s by omega, Nat.pow_zero, Nat.mul_one, show 2 * 2 ^ 53 - 1 = 2 ^ 54 - 1 from rfl]
    rw [Nat.not_le, ← hmantissa, show max ((m.log2 : Int) - 52 + e) (-1074) = 971 by omega,
      show (971 - e).toNat = s by omega]
    omega
  · have hbits : 52 ≤ m.log2 := by omega
    have hpositive : 0 < (ExtendedMantissa.ofMantissaAndAccuracy m .exact >>> (m.log2 - 52)).roundedMantissa := by
      refine Nat.lt_of_lt_of_le ?_ (le_roundedMantissa _)
      rw [mantissa_shiftRight, mantissa_ofAccuracy]
      exact Nat.div_pos (hlow.trans' (Nat.pow_le_pow_right (by decide) (by omega))) (Nat.two_pow_pos _)
    rw [show max ((m.log2 : Int) - 52 + e) (-1074) = m.log2 - 52 + e by omega,
      show ((m.log2 : Int) - 52 + e - e).toNat = m.log2 - 52 by omega]
    refine iff_of_false (by omega) (not_not.mpr ?_)
    calc (2 ^ 54 - 1) * 2 ^ (970 - e).toNat ≤ 2 ^ 54 * 2 ^ (970 - e).toNat := Nat.mul_le_mul_right _ (by decide)
      _ ≤ 2 ^ m.log2 * 2 ^ (e - 970).toNat := by
        rw [← Nat.pow_add, ← Nat.pow_add]
        exact Nat.pow_le_pow_right (by decide) (by omega)
      _ ≤ m * 2 ^ (e - 970).toNat := Nat.mul_le_mul_right _ hlow

/-- Numbers that are bounded below the last power of two do not overflow. -/
theorem WithinBits.not_overflows (h : WithinBits 1023 m e) : ¬ Overflows m e := by
  obtain ⟨he, hm⟩ := h
  refine Nat.not_le_of_lt ?_
  calc m * 2 ^ (e - 970).toNat ≤ 2 ^ ((1023 : Nat) - e).toNat * 2 ^ (e - 970).toNat := Nat.mul_le_mul_right _ hm
    _ = 2 ^ 53 * 2 ^ (970 - e).toNat := by
      rw [← Nat.pow_add, ← Nat.pow_add]
      congr 1
      omega
    _ < (2 ^ 54 - 1) * 2 ^ (970 - e).toNat := Nat.mul_lt_mul_of_pos_right (by decide) (Nat.two_pow_pos _)

end Round

/-! ### Finite doubles -/

section Doubles

variable {k j n : Nat} {f : Int} {x y : Float}

theorem Bounded.isFinite (h : Bounded k x) : x.isFinite = true := by
  obtain ⟨s, m, e, hexact, -⟩ := h.exact
  exact isFinite_iff.mpr ⟨s, m, e, hexact⟩

/-- The exponent of a double is within range. -/
theorem exponent_le_of_unpack {s : Sign} {m : Nat} {e : Int} {hpos : 0 < m}
    (h : x.toModel.unpack = .finite s m e hpos) : e ≤ 971 := by
  unfold Float.Model.unpack UnpackedFloat.unpack at h
  dsimp only at h
  have hfield := (@unpackExponent Format.binary64 x.toModel.toBits.toBitVec).isLt
  split at h
  · split at h <;> cases h
  · next hordinary =>
    have hne : (@unpackExponent Format.binary64 x.toModel.toBits.toBitVec).toNat ≠ 2047 :=
      fun hsame => hordinary (BitVec.eq_of_toNat_eq hsame)
    split at h
    · next hzero =>
      split at h
      · cases h
      · cases h
        rw [hzero]
        decide
    · cases h
      simp only [Format.exponentBias]
      norm_num at hfield ⊢
      omega

/-- A finite double is a zero or has a mantissa and an exponent. -/
theorem unpack_of_isFinite (h : x.isFinite = true) :
    (∃ s, x.toModel.unpack = .zero s) ∨ ∃ s m e hpos, x.toModel.unpack = .finite s m e hpos := by
  change x.toModel.unpack.isFinite = true at h
  cases hu : x.toModel.unpack with
  | infinity s => rw [hu] at h; cases h
  | notANumber => rw [hu] at h; cases h
  | zero s => exact .inl ⟨s, rfl⟩
  | finite s m e hpos => exact .inr ⟨s, m, e, hpos, rfl⟩

theorem bounded_of_isFinite (h : x.isFinite = true) : Bounded 1024 x := by
  unfold Bounded
  obtain ⟨s, hu⟩ | ⟨s, m, e, hpos, hu⟩ := unpack_of_isFinite h
  · rw [hu]
    exact .zero s
  · have he := exponent_le_of_unpack hu
    have hm := (canonical_of_unpack hu).fits
    rw [hu]
    exact .finite ⟨by omega, hm.le.trans (Nat.pow_le_pow_right (by decide) (by omega))⟩

theorem le_of_isLE_then {a b : Int} {o : Ordering} (h : ((compare a b).then o).isLE = true) : a ≤ b := by
  by_contra hgt
  rw [Int.compare_eq_gt.mpr (Int.not_le.mp hgt)] at h
  cases h

/-- A double between a negative and a positive number is bounded by the exponents of these. -/
theorem bounded_of_between {low high : Float} {m : Nat} {e : Int} {hm : 0 < m} {hn : 0 < n}
    (hlow : low.toModel.unpack = .finite .negative m e hm) (hhigh : high.toModel.unpack = .finite .positive n f hn)
    (he : e + 53 ≤ k) (hf : f + 53 ≤ k) (h : low ≤ x) (h' : x ≤ high) : Bounded k x := by
  have hle : UnpackedFloat.le low.toModel.unpack x.toModel.unpack = true := of_decide_eq_true h
  have hle' : UnpackedFloat.le x.toModel.unpack high.toModel.unpack = true := of_decide_eq_true h'
  rw [hlow] at hle
  rw [hhigh] at hle'
  unfold Bounded
  cases hu : x.toModel.unpack with
  | infinity s =>
    rw [hu] at hle hle'
    cases s with
    | positive => cases hle'
    | negative => cases hle
  | notANumber =>
    rw [hu] at hle
    cases hle
  | zero s => exact .zero s
  | finite s l g hl =>
    have hfits := (canonical_of_unpack hu).fits
    rw [hu] at hle hle'
    have hexponent : g + 53 ≤ k := by
      cases s with
      | positive =>
        have hgf : g ≤ f := le_of_isLE_then hle'
        omega
      | negative =>
        have horder : (((compare e g).then (compare m l)).swap).isLE = true := hle
        rw [Ordering.swap_then, Int.compare_swap] at horder
        have hge : g ≤ e := le_of_isLE_then horder
        omega
    exact .finite ⟨by omega, hfits.le.trans (Nat.pow_le_pow_right (by decide) (by omega))⟩

/-! ### Products -/

/-- The exact product of two finite doubles overflows. -/
def ProductOverflows (x y : Float) : Prop :=
  ∃ s m e s' n f, exact x = .finite s m e ∧ exact y = .finite s' n f ∧ Overflows (m * n) (e + f)

theorem not_overflows_zero (e : Int) : ¬ Overflows 0 e := by
  unfold Overflows
  rw [Nat.zero_mul, Nat.not_le]
  exact Nat.mul_pos (by decide) (Nat.two_pow_pos _)

theorem exact_of_zero {s : Sign} (h : x.toModel.unpack = .zero s) : ∃ negative, exact x = .finite negative 0 0 := by
  unfold exact
  rw [h]
  exact ⟨_, rfl⟩

theorem exact_of_finite {s : Sign} {m : Nat} {e : Int} {hpos : 0 < m} (h : x.toModel.unpack = .finite s m e hpos) :
    ∃ negative, exact x = .finite negative m e := by
  unfold exact
  rw [h]
  exact ⟨_, rfl⟩

/-- Overflow in terms of any two exact values. -/
theorem productOverflows_iff {s s' : Bool} {m n : Nat} {e f : Int} (hx : exact x = .finite s m e)
    (hy : exact y = .finite s' n f) : ProductOverflows x y ↔ Overflows (m * n) (e + f) := by
  constructor
  · rintro ⟨_, _, _, _, _, _, hx', hy', hover⟩
    cases hx.symm.trans hx'
    cases hy.symm.trans hy'
    exact hover
  · exact fun hover => ⟨s, m, e, s', n, f, hx, hy, hover⟩

theorem isFinite_of_mul_eq_zero {s : Sign}
    (h : UnpackedFloat.mul Format.binary64 x.toModel.unpack y.toModel.unpack = .zero s) : (x * y).isFinite = true := by
  change (UnpackedFloat.unpack Format.binary64 (UnpackedFloat.pack Format.binary64
    (UnpackedFloat.mul Format.binary64 x.toModel.unpack y.toModel.unpack))).isFinite = true
  rw [h, UnpackedFloat.pack, UnpackedFloat.unpack_packedZero]
  rfl

/-- A product of canonical numbers has bits to drop, unless both have the least exponent. -/
theorem Canonical.full_mul {m : Nat} {e : Int} (hx : Canonical m e) (hy : Canonical n f) (hm : 0 < m) (hn : 0 < n) :
    2 ^ 52 ≤ m * n ∨ e + f ≤ -1074 := by
  rcases hx.normal with hmany | he
  · exact .inl (hmany.trans (Nat.le_mul_of_pos_right m hn))
  · rcases hy.normal with hmany | hf
    · exact .inl (hmany.trans (Nat.le_mul_of_pos_left n hm))
    · exact .inr (by omega)

/-- A product of finite doubles is finite exactly if the exact product does not overflow. -/
theorem isFinite_mul_iff (hx : x.isFinite = true) (hy : y.isFinite = true) :
    (x * y).isFinite = true ↔ ¬ ProductOverflows x y := by
  obtain ⟨s, hu⟩ | ⟨s, m, e, hm, hu⟩ := unpack_of_isFinite hx
  · obtain ⟨_, hexact⟩ := exact_of_zero hu
    obtain ⟨s', hv⟩ | ⟨s', n, f, hn, hv⟩ := unpack_of_isFinite hy
    · obtain ⟨_, hexact'⟩ := exact_of_zero hv
      rw [productOverflows_iff hexact hexact', Nat.zero_mul]
      exact iff_of_true (isFinite_of_mul_eq_zero (by rw [hu, hv]; rfl)) (not_overflows_zero _)
    · obtain ⟨_, hexact'⟩ := exact_of_finite hv
      rw [productOverflows_iff hexact hexact', Nat.zero_mul]
      exact iff_of_true (isFinite_of_mul_eq_zero (by rw [hu, hv]; rfl)) (not_overflows_zero _)
  · obtain ⟨_, hexact⟩ := exact_of_finite hu
    obtain ⟨s', hv⟩ | ⟨s', n, f, hn, hv⟩ := unpack_of_isFinite hy
    · obtain ⟨_, hexact'⟩ := exact_of_zero hv
      rw [productOverflows_iff hexact hexact', Nat.mul_zero]
      exact iff_of_true (isFinite_of_mul_eq_zero (by rw [hu, hv]; rfl)) (not_overflows_zero _)
    · obtain ⟨_, hexact'⟩ := exact_of_finite hv
      have hfull := (canonical_of_unpack hu).full_mul (canonical_of_unpack hv) hm hn
      rw [productOverflows_iff hexact hexact', ← isFinite_round_iff (s * s') (Nat.mul_pos hm hn) hfull]
      change (UnpackedFloat.unpack Format.binary64 (UnpackedFloat.pack Format.binary64
        (UnpackedFloat.mul Format.binary64 x.toModel.unpack y.toModel.unpack))).isFinite = true ↔ _
      rw [hu, hv]
      rfl

/-- Products of bounded numbers do not overflow. -/
theorem Bounded.not_productOverflows (hx : Bounded k x) (hy : Bounded j y) (hkj : k + j ≤ 1023) :
    ¬ ProductOverflows x y := by
  obtain ⟨s, m, e, hexact, hm⟩ := hx.exact
  obtain ⟨s', n, f, hexact', hn⟩ := hy.exact
  rw [productOverflows_iff hexact hexact']
  exact ((hm.mul hn).mono hkj).not_overflows

/-! ### Quotients -/

theorem exponent_of_round {sign sign' : Sign} {m m' : Nat} {e e' : Int} {accuracy : Accuracy} {hpos : 0 < m'}
    (h : roundWithAccuracy Format.binary64 sign m e accuracy = .finite sign' m' e' hpos) :
    e' ≤ max e (m.log2 - 52 + e) + 1 ∨ e' ≤ -1073 := by
  have hexponent := shiftToTargetExponent_snd m e accuracy
  rw [roundWithAccuracy_eq] at h
  split at h
  · cases h
  · split at h <;> cases h <;> omega

/-- Dividing by a number from a power of two on takes away as many bits. -/
theorem WithinBits.divCore {m n : Nat} {e f : Int} (h : WithinBits k m e) (hn : 2 ^ 52 ≤ n)
    (hj : f + 52 = j) (hjk : j ≤ k) :
    WithinBits (k - j) (divCore Format.binary64 m e n f).1 (divCore Format.binary64 m e n f).2.1 ∧
      (divCore Format.binary64 m e n f).2.1 ≤ max ((k : Int) - j - 52) (-1074) := by
  have hlog := h.log2_le
  have hnlog : 52 ≤ n.log2 := (Nat.le_log2 (by omega)).mpr hn
  simp only [UnpackedFloat.divCore]
  have htarget : Format.binary64.targetExponent (totalExponent m e - totalExponent n f) ≤
      max ((k : Int) - j - 52) (-1074) := by
    simp only [Format.targetExponent, totalExponent, Format.mantissaBits, Format.minExponent]
    norm_num
    omega
  generalize ht : min (e - f) _ = t
  have hte : t ≤ e - f := ht ▸ min_le_left _ _
  have htop : t ≤ max ((k : Int) - j - 52) (-1074) := (ht ▸ min_le_right _ _ : t ≤ _).trans htarget
  refine ⟨⟨by omega, ?_⟩, htop⟩
  have he := h.1
  calc m <<< (e - f - t).toNat / n ≤ m <<< (e - f - t).toNat / 2 ^ 52 := Nat.div_le_div_left hn (by decide)
    _ ≤ 2 ^ (((k - j : Nat) : Int) - t).toNat := by
      refine Nat.div_le_of_le_mul ?_
      rw [Nat.shiftLeft_eq, ← Nat.pow_add]
      refine (Nat.mul_le_mul_right _ h.2).trans ?_
      rw [← Nat.pow_add]
      exact Nat.pow_le_pow_right (by decide) (by omega)

/-- A quotient by a number from `2 ^ j` on. -/
theorem Bounded.div (hx : Bounded k x) {hpos : 0 < n} (hy : y.toModel.unpack = .finite .positive n f hpos)
    (hn : 2 ^ 52 ≤ n) (hj : f + 52 = j) (hjk : j ≤ k) (hk : k ≤ 1022 + j) : Bounded (k - j + 1) (x / y) := by
  change UnpackedWithin _ (UnpackedFloat.unpack Format.binary64 (UnpackedFloat.pack Format.binary64
    (UnpackedFloat.div Format.binary64 x.toModel.unpack y.toModel.unpack)))
  rw [hy]
  obtain ⟨s, hu⟩ | ⟨s, m, e, hm, hu⟩ := unpack_of_isFinite hx.isFinite
  · rw [hu]
    simp only [UnpackedFloat.div, UnpackedFloat.pack, UnpackedFloat.unpack_packedZero]
    exact .zero _
  · unfold Bounded at hx
    rw [hu] at hx ⊢
    cases hx with
    | finite hbits =>
      obtain ⟨hquotient, hexponent⟩ := hbits.divCore hn hj hjk
      simp only [UnpackedFloat.div]
      generalize UnpackedFloat.divCore Format.binary64 m e n f = quotient at hquotient hexponent ⊢
      obtain ⟨q, t, accuracy⟩ := quotient
      refine unpackedWithin_unpack_pack_of_exponent (unpackedWithin_roundWithAccuracy hquotient _ _) ?_
      intro s' m' e' hpos' hround
      have hlog := hquotient.log2_le
      dsimp only at hlog hexponent hround
      rcases exponent_of_round hround with he | he <;> omega

end Doubles

end DesignTokens.Number
