import DesignTokens.Proofs.Number.Magnitude

/-!
# Doubles between zero and a whole number

Rounding does not pass a number that needs no rounding. A double between zero and a whole number of moderate size
stays below what the exact result stays below, with nothing to pay for its rounding: products of numbers up to one
are up to one, and so is what is left of one.

What is rounded is a mantissa with bits behind it, and these count: a mantissa is below a number that it does not
reach, and at that number only with nothing behind it (`AtMost`).

* `upTo_roundWithAccuracy` — rounding stays below a whole number.
* `InRange.mul`, `InRange.of_nat_sub`, `InRange.div`, `InRange.fraction` — what operations do with ranges.
* `inRange_iff`, `inRange_of_not_lt` — ranges and comparisons.
* `InRange.truncate?`, `InRange.nearest?` — integer parts.
-/

namespace DesignTokens.Number

open Float.Model Float.Model.UnpackedFloat

/-- `mantissa * 2 ^ exponent` is a fraction that is at most `n`. -/
def UpTo (n m : Nat) (e : Int) : Prop :=
  e ≤ 0 ∧ m ≤ n * 2 ^ e.natAbs

instance {n m : Nat} {e : Int} : Decidable (UpTo n m e) := inferInstanceAs (Decidable (_ ∧ _))

namespace UpTo

variable {n k m l : Nat} {e f t : Int}

theorem mul (hm : UpTo n m e) (hl : UpTo k l f) : UpTo (n * k) (m * l) (e + f) := by
  obtain ⟨he, hm⟩ := hm
  obtain ⟨hf, hl⟩ := hl
  refine ⟨by omega, ?_⟩
  rw [show (e + f).natAbs = e.natAbs + f.natAbs by omega, Nat.pow_add, Nat.mul_mul_mul_comm]
  exact Nat.mul_le_mul hm hl

/-- The unit of a smaller exponent goes into that of a greater one. -/
theorem unit_mul (he : e ≤ 0) (ht : t ≤ e) : 2 ^ e.natAbs * 2 ^ (e - t).toNat = 2 ^ t.natAbs := by
  rw [← Nat.pow_add]
  congr 1
  omega

/-- A number keeps its value when it is written with a smaller exponent. -/
theorem decrease (h : UpTo n m e) (ht : t ≤ e) : UpTo n (m <<< (e - t).toNat) t := by
  obtain ⟨he, hm⟩ := h
  refine ⟨ht.trans he, ?_⟩
  rw [Nat.shiftLeft_eq, ← unit_mul he ht, ← Nat.mul_assoc]
  exact Nat.mul_le_mul_right _ hm

theorem log2_le (h : UpTo n m e) (hn : n ≤ 2 ^ 52) : m.log2 ≤ 52 + e.natAbs := by
  by_cases hzero : m = 0
  · simp [hzero]
  · refine (Nat.pow_le_pow_iff_right (by decide : 1 < 2)).mp ((Nat.log2_self_le hzero).trans (h.2.trans ?_))
    rw [Nat.pow_add]
    exact Nat.mul_le_mul_right _ hn

theorem wholePart_eq (he : e ≤ 0) : wholePart m e = m / 2 ^ e.natAbs := by
  unfold wholePart
  split
  · obtain rfl : e = 0 := by omega
    simp
  · rw [Nat.shiftRight_eq_div_pow]

/-- The whole part and the fraction behind it. -/
theorem wholePart_mul_le (he : e ≤ 0) : wholePart m e * 2 ^ e.natAbs ≤ m ∧ m < (wholePart m e + 1) * 2 ^ e.natAbs := by
  rw [wholePart_eq he]
  exact ⟨Nat.div_mul_le_self .., Nat.lt_mul_of_div_lt (Nat.lt_succ_self _) (Nat.two_pow_pos _)⟩

theorem wholePart_le (h : UpTo n m e) : wholePart m e ≤ n := by
  rw [wholePart_eq h.1]
  exact Nat.div_le_of_le_mul (by rw [Nat.mul_comm]; exact h.2)

end UpTo

/-- A mantissa with the bits behind it is at most `c`. -/
def AtMost (c : Nat) (em : ExtendedMantissa) : Prop :=
  em.mantissa < c ∨ em = ⟨c, false, false⟩

namespace AtMost

variable {c m s : Nat} {em : ExtendedMantissa}

theorem exact (h : m ≤ c) : AtMost c (.ofMantissaAndAccuracy m .exact) := by
  rcases Nat.lt_or_eq_of_le h with hlt | rfl
  · exact .inl hlt
  · exact .inr rfl

theorem mantissa_le (h : AtMost c em) : em.mantissa ≤ c := by
  rcases h with hlt | rfl
  · exact hlt.le
  · exact le_rfl

theorem roundedMantissa_le (h : AtMost c em) : em.roundedMantissa ≤ c := by
  rcases h with hlt | rfl
  · exact (Number.roundedMantissa_le em).trans hlt
  · exact le_rfl

theorem shiftRight (h : AtMost (c * 2 ^ s) em) : AtMost c (em >>> s) := by
  induction s generalizing c with
  | zero => simpa [HShiftRight.hShiftRight, Nat.repeat] using h
  | succ s ih =>
    have hhalf : AtMost (c * 2) (em >>> s) := ih (by rwa [Nat.mul_assoc, ← Nat.pow_succ'])
    change AtMost c (em >>> s).shiftRightOne
    rcases hhalf with hlt | heq
    · exact .inl (Nat.div_lt_of_lt_mul (by rwa [Nat.mul_comm] at hlt))
    · rw [heq]
      refine .inr ?_
      simp [ExtendedMantissa.shiftRightOne]

end AtMost

section Round

variable {n m : Nat} {e : Int} {accuracy : Accuracy}

theorem AtMost.shiftToTarget (h : AtMost (n * 2 ^ e.natAbs) (.ofMantissaAndAccuracy m accuracy)) (he : e ≤ 0)
    (hn : n ≤ 2 ^ 52) :
    (shiftToTargetExponent Format.binary64 m e accuracy).2 ≤ 0 ∧
      AtMost (n * 2 ^ (shiftToTargetExponent Format.binary64 m e accuracy).2.natAbs)
        (shiftToTargetExponent Format.binary64 m e accuracy).1 := by
  have htarget : Format.binary64.targetExponent (totalExponent m e) ≤ 0 := by
    have hm := h.mantissa_le
    rw [mantissa_ofAccuracy] at hm
    have hlog : m.log2 ≤ 52 + e.natAbs := UpTo.log2_le ⟨he, hm⟩ hn
    simp only [Format.targetExponent, totalExponent, Format.mantissaBits, Format.minExponent]
    norm_num
    omega
  simp only [shiftToTargetExponent, shiftToExponent]
  refine ⟨by omega, .shiftRight ?_⟩
  rw [Nat.mul_assoc, ← Nat.pow_add]
  convert h using 3
  omega

/-- An unpacked number between zero and `n`. -/
inductive UnpackedUpTo (n : Nat) : UnpackedFloat → Prop where
  | zero (s : Sign) : UnpackedUpTo n (.zero s)
  | finite {m : Nat} {e : Int} {hpos : 0 < m} (h : UpTo n m e) : UnpackedUpTo n (.finite .positive m e hpos)

instance {n : Nat} : (u : UnpackedFloat) → Decidable (UnpackedUpTo n u)
  | .zero s => isTrue (.zero s)
  | .finite .positive m e _ => decidable_of_iff (UpTo n m e) ⟨.finite, fun | .finite h => h⟩
  | .finite .negative _ _ _ => isFalse nofun
  | .infinity _ => isFalse nofun
  | .notANumber => isFalse nofun

/-- Rounding stays below a whole number. -/
theorem upTo_roundWithAccuracy (h : AtMost (n * 2 ^ e.natAbs) (.ofMantissaAndAccuracy m accuracy)) (he : e ≤ 0)
    (hn : n ≤ 2 ^ 52) : UnpackedUpTo n (roundWithAccuracy Format.binary64 .positive m e accuracy) := by
  obtain ⟨hexponent, hmantissa⟩ := h.shiftToTarget he hn
  -- Rounding up may carry into a new bit, so the mantissa is shifted once more.
  obtain ⟨hexponent', hmantissa'⟩ := (AtMost.exact hmantissa.roundedMantissa_le).shiftToTarget hexponent hn
  unfold roundWithAccuracy
  dsimp only
  split
  · exact .zero _
  · exact .finite ⟨hexponent', hmantissa'.mantissa_le⟩

theorem upTo_round (h : UpTo n m e) (hn : n ≤ 2 ^ 52) :
    UnpackedUpTo n (UnpackedFloat.round Format.binary64 .positive m e) := by
  unfold UnpackedFloat.round decreaseExponent
  dsimp only
  generalize (e - Format.binary64.targetExponent (totalExponent m e)).toNat = s
  have hless := h.decrease (t := e - s) (by omega)
  rw [show (e - (e - s : Int)).toNat = s by omega] at hless
  exact upTo_roundWithAccuracy (.exact hless.2) hless.1 hn

theorem upTo_normalize {m : Int} (hm : 0 ≤ m) (h : UpTo n m.toNat e) (hn : n ≤ 2 ^ 52) (s : Sign) :
    UnpackedUpTo n (UnpackedFloat.normalize Format.binary64 m e s) := by
  unfold UnpackedFloat.normalize
  split
  · next hneg =>
    rw [compare_lt_iff_lt] at hneg
    omega
  · exact .zero _
  · exact upTo_round h hn

/-! ### Operations -/

section Operations

variable {n k m l : Nat} {e f : Int} {u v : UnpackedFloat}

theorem UnpackedUpTo.mul (hu : UnpackedUpTo n u) (hv : UnpackedUpTo k v) (hn : n * k ≤ 2 ^ 52) :
    UnpackedUpTo (n * k) (UnpackedFloat.mul Format.binary64 u v) := by
  cases hu with
  | zero s => cases hv <;> exact .zero _
  | finite hm =>
    cases hv with
    | zero s => exact .zero _
    | finite hl =>
      have hproduct := hm.mul hl
      exact upTo_roundWithAccuracy (.exact hproduct.2) hproduct.1 hn

/-- A difference of positive numbers, the second of which is not greater. -/
theorem upTo_sub {hm : 0 < m} {hl : 0 < l} (hle : l <<< (f - min e f).toNat ≤ m <<< (e - min e f).toNat)
    (hrest : UpTo n (m <<< (e - min e f).toNat - l <<< (f - min e f).toNat) (min e f)) (hn : n ≤ 2 ^ 52) :
    UnpackedUpTo n (UnpackedFloat.sub Format.binary64 (.finite .positive m e hm) (.finite .positive l f hl)) := by
  simp only [UnpackedFloat.sub, decreaseExponent, Sign.apply]
  refine upTo_normalize (by omega) ?_ hn _
  rwa [Int.toNat_sub]

/-- A fraction of at most `n` and what has been found to be behind it. -/
theorem AtMost.div {c d : Nat} (h : m ≤ d * c) (hd : 0 < d) :
    AtMost c (.ofMantissaAndAccuracy (m / d) (accuracyOfFraction (m % d) d)) := by
  rcases Nat.lt_or_eq_of_le h with hlt | rfl
  · left
    rw [mantissa_ofAccuracy]
    exact Nat.div_lt_of_lt_mul hlt
  · right
    rw [Nat.mul_div_cancel_left c hd, Nat.mul_mod_right, accuracyOfFraction, if_pos rfl]
    rfl

theorem UnpackedUpTo.div {hpos : 0 < k * 2 ^ f.natAbs} (hu : UnpackedUpTo (n * k) u) (hf : f ≤ 0)
    (hcanonical : Canonical (k * 2 ^ f.natAbs) f) (hnormal : 2 ^ 52 ≤ k * 2 ^ f.natAbs) (hn : n * k ≤ 2 ^ 52) :
    UnpackedUpTo n (UnpackedFloat.div Format.binary64 u (.finite .positive (k * 2 ^ f.natAbs) f hpos)) := by
  cases hu with
  | zero s => exact .zero _
  | @finite m e hpos' hm =>
    have he := hm.1
    have hk : 0 < k := Nat.pos_of_mul_pos_right hpos
    have htop : m.log2 ≤ 52 + e.natAbs := hm.log2_le hn
    have hbottom : 52 ≤ (k * 2 ^ f.natAbs).log2 := (Nat.le_log2 (by omega)).mpr hnormal
    have hunit : f.natAbs < 53 :=
      (Nat.pow_lt_pow_iff_right (by decide : 1 < 2)).mp ((Nat.le_mul_of_pos_left _ hk).trans_lt hcanonical.fits)
    simp only [UnpackedFloat.div, divCore]
    generalize ht : min (e - f) _ = t
    have hte : t ≤ e - f := ht ▸ min_le_left _ _
    -- The quotient is not written with a unit above one, so that `n` is a number of such units.
    have hnegative : t ≤ 0 := by
      rw [← ht]
      refine (min_le_right _ _).trans ?_
      simp only [Format.targetExponent, totalExponent, Format.mantissaBits, Format.minExponent]
      norm_num
      omega
    refine upTo_roundWithAccuracy (.div ?_ hpos) hnegative ((Nat.le_mul_of_pos_right n hk).trans hn)
    calc m <<< (e - f - t).toNat = m * 2 ^ (e - f - t).toNat := Nat.shiftLeft_eq ..
      _ ≤ n * k * 2 ^ e.natAbs * 2 ^ (e - f - t).toNat := Nat.mul_le_mul_right _ hm.2
      _ = n * k * (2 ^ f.natAbs * 2 ^ t.natAbs) := by
        rw [Nat.mul_assoc, ← Nat.pow_add, ← Nat.pow_add]
        congr 2
        omega
      _ = k * 2 ^ f.natAbs * (n * 2 ^ t.natAbs) := by ring

end Operations

theorem upTo_unpack_pack {u : UnpackedFloat} (h : UnpackedUpTo n u) :
    UnpackedUpTo n (UnpackedFloat.unpack Format.binary64 (UnpackedFloat.pack Format.binary64 u)) := by
  cases h with
  | zero s =>
    rw [UnpackedFloat.pack, UnpackedFloat.unpack_packedZero]
    exact .zero s
  | @finite m e hpos h =>
    have he : e ≤ 971 := h.1.trans (by decide)
    rcases unpack_pack_finite .positive hpos he with hsame | ⟨rest, hrest⟩
    · rw [hsame]
      exact .finite h
    · rw [hrest]
      rcases unpack_subnormal .positive rest with hzero | ⟨hpos', htiny⟩
      · rw [hzero]
        exact .zero _
      · have hn : 0 < n := Nat.pos_of_mul_pos_right (hpos.trans_le h.2)
        have hunit : 2 ^ 52 ≤ n * 2 ^ (-1074 : Int).natAbs :=
          (Nat.pow_le_pow_right (by decide) (by decide)).trans (Nat.le_mul_of_pos_left _ hn)
        rw [htiny]
        exact .finite ⟨by decide, rest.isLt.le.trans hunit⟩

end Round

/-! ### Doubles -/

/-- A double between zero and `n`. -/
def InRange (n : Nat) (x : Float) : Prop := UnpackedUpTo n x.toModel.unpack

instance {n : Nat} {x : Float} : Decidable (InRange n x) := inferInstanceAs (Decidable (UnpackedUpTo n _))

/-- The double of a whole number. -/
def IsNat (n : Nat) (x : Float) : Prop :=
  ∃ e hpos, x.toModel.unpack = .finite .positive (n * 2 ^ e.natAbs) e hpos ∧ e ≤ 0 ∧ 2 ^ 52 ≤ n * 2 ^ e.natAbs

theorem isNat_one : IsNat 1 1.0 := ⟨-52, by decide, rfl, by decide, by decide⟩

theorem isNat_six : IsNat 6 6.0 := ⟨-50, by decide, rfl, by decide, by decide⟩

theorem isNat_255 : IsNat 255 255.0 := ⟨-45, by decide, rfl, by decide, by decide⟩

theorem inRange_ofModel_pack {n : Nat} {u : UnpackedFloat} (h : UnpackedUpTo n u) :
    InRange n (.ofModel (Float.Model.pack u)) := upTo_unpack_pack h

/-- A double in a range is zero, or positive and up to the number. -/
theorem InRange.unpack {n : Nat} {x : Float} (h : InRange n x) : (∃ s, x.toModel.unpack = .zero s) ∨
    ∃ m e hpos, x.toModel.unpack = .finite .positive m e hpos ∧ UpTo n m e := by
  unfold InRange at h
  generalize x.toModel.unpack = u at h
  cases h with
  | zero s => exact .inl ⟨s, rfl⟩
  | finite h => exact .inr ⟨_, _, _, rfl, h⟩

section Order

variable {n m : Nat} {e f : Int} {x y : Float}

/-- Among positive numbers in canonical form the exponent decides first. -/
theorem upTo_iff_order (hm : Canonical m e) (hn : Canonical (n * 2 ^ f.natAbs) f) (hnormal : 2 ^ 52 ≤ n * 2 ^ f.natAbs)
    (hf : f ≤ 0) : UpTo n m e ↔ ((compare e f).then (compare m (n * 2 ^ f.natAbs))).isLE = true := by
  have hscale {a b : Nat} (hab : a < b) : 2 * (n * 2 ^ a) ≤ n * 2 ^ b := by
    rw [← Nat.mul_left_comm, ← Nat.pow_succ']
    exact Nat.mul_le_mul_left _ (Nat.pow_le_pow_right (by decide) hab)
  -- A canonical mantissa has all bits unless the exponent is the least: one step of the exponent outweighs it.
  rcases Int.lt_trichotomy e f with hlt | rfl | hgt
  · have htwice : 2 * (n * 2 ^ f.natAbs) ≤ n * 2 ^ e.natAbs := hscale (by omega)
    have hfits := hm.fits
    rw [Int.compare_eq_lt.mpr hlt]
    exact iff_of_true ⟨by omega, by omega⟩ rfl
  · rw [Int.compare_eq_eq.mpr rfl, Ordering.eq_then, Nat.isLE_compare]
    exact ⟨fun h => h.2, fun h => ⟨hf, h⟩⟩
  · rw [Int.compare_eq_gt.mpr hgt]
    refine iff_of_false ?_ nofun
    rintro ⟨he, hle⟩
    have htwice : 2 * (n * 2 ^ e.natAbs) ≤ n * 2 ^ f.natAbs := hscale (by omega)
    have hfits := hn.fits
    have hlow := hn.low
    rcases hm.normal with hmany | htiny
    · omega
    · omega

theorem inRange_iff (hy : IsNat n y) : InRange n x ↔ 0.0 ≤ x ∧ x ≤ y := by
  obtain ⟨f, hpos, hy, hf, hnormal⟩ := hy
  have hlow : 0.0 ≤ x ↔ UnpackedFloat.le (.zero .positive) x.toModel.unpack = true :=
    ⟨of_decide_eq_true, decide_eq_true⟩
  have hhigh : x ≤ y ↔ UnpackedFloat.le x.toModel.unpack (.finite .positive (n * 2 ^ f.natAbs) f hpos) = true := by
    rw [← hy]
    exact ⟨of_decide_eq_true, decide_eq_true⟩
  constructor
  · intro h
    rw [hlow, hhigh]
    obtain ⟨s, hu⟩ | ⟨m, e, hpos', hu, hm⟩ := h.unpack
    · rw [hu]
      exact ⟨rfl, rfl⟩
    · rw [hu]
      exact ⟨rfl, (upTo_iff_order (canonical_of_unpack hu) (canonical_of_unpack hy) hnormal hf).mp hm⟩
  · rintro ⟨hnonneg, hle⟩
    rw [hhigh] at hle
    unfold InRange
    rcases unpack_of_nonneg hnonneg with hu | ⟨s, hu⟩ | ⟨m, e, hpos', hu, hm⟩
    · rw [hu] at hle
      cases hle
    · rw [hu]
      exact .zero s
    · rw [hu] at hle ⊢
      exact .finite ((upTo_iff_order hm (canonical_of_unpack hy) hnormal hf).mpr hle)

theorem IsNat.inRange (hy : IsNat n y) : InRange n y := by
  obtain ⟨f, hpos, hy, hf, -⟩ := hy
  unfold InRange
  rw [hy]
  exact .finite ⟨hf, le_rfl⟩

/-- What is not negative and does not exceed a whole number is in its range. -/
theorem inRange_of_not_lt (hy : IsNat n y) (hnonneg : 0.0 ≤ x) (h : ¬ y < x) : InRange n x := by
  refine (inRange_iff hy).mpr ⟨hnonneg, ?_⟩
  obtain ⟨f, hpos, hy, -, -⟩ := hy
  have hlt : ¬ UnpackedFloat.lt (.finite .positive (n * 2 ^ f.natAbs) f hpos) x.toModel.unpack = true := by
    rw [← hy]
    exact fun hlt => h (decide_eq_true hlt)
  refine decide_eq_true ?_
  change UnpackedFloat.le x.toModel.unpack y.toModel.unpack = true
  rw [hy]
  rcases unpack_of_nonneg hnonneg with hu | ⟨s, hu⟩ | ⟨m, e, hpos', hu, -⟩
  · rw [hu] at hlt
    exact absurd rfl hlt
  · rw [hu]
    rfl
  · rw [hu] at hlt ⊢
    change ((compare e f).then (compare m (n * 2 ^ f.natAbs))).isLE = true
    rw [← Int.compare_swap, ← Nat.compare_swap, ← Ordering.swap_then]
    simp only [UnpackedFloat.lt, UnpackedFloat.compare] at hlt
    cases horder : (compare f e).then (compare (n * 2 ^ f.natAbs) m) with
    | lt =>
      rw [horder] at hlt
      exact absurd rfl hlt
    | eq => rfl
    | gt => rfl

end Order

theorem inRange_zero {n : Nat} : InRange n 0.0 := .zero .positive

namespace InRange

variable {n k : Nat} {x y : Float}

/-- A range in terms of magnitudes. -/
theorem bounded (h : InRange (2 ^ k) x) : Bounded k x := by
  unfold Bounded
  obtain ⟨s, hu⟩ | ⟨m, e, hpos, hu, he, hm⟩ := h.unpack
  · rw [hu]
    exact .zero s
  · rw [hu]
    refine .finite ⟨by omega, hm.trans_eq ?_⟩
    rw [← Nat.pow_add]
    congr 1
    omega

theorem mono (h : InRange n x) (hn : n ≤ k) : InRange k x := by
  unfold InRange
  obtain ⟨s, hu⟩ | ⟨m, e, hpos, hu, he, hm⟩ := h.unpack
  · rw [hu]
    exact .zero s
  · rw [hu]
    exact .finite ⟨he, hm.trans (Nat.mul_le_mul_right _ hn)⟩

theorem mul (hx : InRange n x) (hy : InRange k y) (hn : n * k ≤ 2 ^ 52) : InRange (n * k) (x * y) :=
  inRange_ofModel_pack (UnpackedUpTo.mul hx hy hn)

theorem div (hx : InRange (n * k) x) (hy : IsNat k y) (hn : n * k ≤ 2 ^ 52) : InRange n (x / y) := by
  obtain ⟨f, hpos, hy, hf, hnormal⟩ := hy
  refine inRange_ofModel_pack ?_
  rw [hy]
  exact UnpackedUpTo.div hx hf (canonical_of_unpack hy) hnormal hn

/-- What is left of a whole number. -/
theorem of_nat_sub (hx : InRange n x) (hy : IsNat n y) (hn : n ≤ 2 ^ 52) : InRange n (y - x) := by
  have hrange : InRange n y := hy.inRange
  obtain ⟨f, hpos, hy, hf, -⟩ := hy
  refine inRange_ofModel_pack ?_
  unfold InRange at hrange
  rw [hy] at hrange ⊢
  obtain ⟨s, hu⟩ | ⟨m, e, hpos', hu, hm⟩ := hx.unpack
  · rw [hu]
    exact hrange
  · have hm' := hm.decrease (min_le_right f e)
    have hwhole : (n * 2 ^ f.natAbs) <<< (f - min f e).toNat = n * 2 ^ (min f e).natAbs := by
      rw [Nat.shiftLeft_eq, Nat.mul_assoc, UpTo.unit_mul hf (min_le_left f e)]
    rw [hu]
    refine upTo_sub ?_ ⟨hm'.1, ?_⟩ hn
    · rw [hwhole]
      exact hm'.2
    · rw [hwhole]
      exact Nat.sub_le ..

/-- Mantissa and exponent of a number in a range. -/
theorem exact (h : InRange n x) : ∃ s m e, exact x = .finite s m e ∧ UpTo n m e ∧ (s = true → m = 0) := by
  unfold Number.exact
  obtain ⟨s, hu⟩ | ⟨m, e, hpos, hu, hm⟩ := h.unpack
  · rw [hu]
    exact ⟨_, 0, 0, rfl, ⟨le_rfl, Nat.zero_le _⟩, fun _ => rfl⟩
  · rw [hu]
    exact ⟨false, m, e, rfl, hm, nofun⟩

theorem truncate? (h : InRange n x) : ∃ k : Nat, truncate? x = some (k : Int) ∧ k ≤ n := by
  obtain ⟨s, m, e, hexact, hm, hsign⟩ := h.exact
  have hwhole := hm.wholePart_le
  refine ⟨wholePart m e, ?_, hwhole⟩
  cases s with
  | false => simp [Number.truncate?, hexact, negateIf]
  | true =>
    obtain rfl := hsign rfl
    simp [Number.truncate?, hexact, negateIf, UpTo.wholePart_eq hm.1]

/-- The nearest integer is the whole part or the next one, and that only if something is behind the whole part. -/
theorem nearest?_eq {s : Bool} {m : Nat} {e : Int} (hexact : Number.exact x = .finite s m e) (he : e ≤ 0) :
    ∃ up : Bool, Number.nearest? x = some (negateIf s (if up then wholePart m e + 1 else wholePart m e)) ∧
      (up = true → wholePart m e * 2 ^ e.natAbs < m) := by
  simp only [Number.nearest?, hexact]
  refine ⟨_, rfl, fun hup => ?_⟩
  refine lt_of_le_of_ne (UpTo.wholePart_mul_le he).1 fun hsame => ?_
  have hrest : m % 2 ^ e.natAbs = 0 := by
    rw [← hsame]
    exact Nat.mul_mod_left ..
  have hunit : 0 ≠ 2 ^ e.natAbs := (Nat.two_pow_pos _).ne
  simp [hrest, hunit] at hup

/-- The nearest integer is in the range as well. -/
theorem nearest? (h : InRange n x) : ∃ k : Nat, nearest? x = some (k : Int) ∧ k ≤ n := by
  obtain ⟨s, m, e, hexact, hm, hsign⟩ := h.exact
  obtain ⟨up, hnearest, hup⟩ := nearest?_eq hexact hm.1
  rw [hnearest]
  cases up with
  | false =>
    refine ⟨wholePart m e, ?_, hm.wholePart_le⟩
    cases s with
    | false => rfl
    | true =>
      obtain rfl := hsign rfl
      simp [negateIf, UpTo.wholePart_eq hm.1]
  | true =>
    have hbehind := hup rfl
    refine ⟨wholePart m e + 1, ?_, Nat.lt_of_mul_lt_mul_right (hbehind.trans_le hm.2)⟩
    cases s with
    | false => rfl
    | true =>
      obtain rfl := hsign rfl
      exact absurd hbehind (Nat.not_lt_zero _)

end InRange

/-- A number that fits in a mantissa is converted and scaled. -/
theorem ofNat_eq {n : Nat} (hn : n < 2 ^ 53) : Float.ofNat n = n.toUInt64.toFloat * 1.0 := by
  change Float.ofScientific n false 0 = _
  rw [Float.ofScientific, dif_pos ⟨hn, by decide⟩]
  rfl

theorem toNat_toUInt64 {n : Nat} (hn : n < 2 ^ 53) : n.toUInt64.toNat = n := by
  rw [Nat.toUInt64_eq, UInt64.toNat_ofNat']
  omega

theorem inRange_ofNat {k l : Nat} (hl : l ≤ k) (hk : k ≤ 2 ^ 52) : InRange k (Float.ofNat l) := by
  have hlt : l < 2 ^ 53 := by omega
  have hconverted : InRange k l.toUInt64.toFloat := by
    refine inRange_ofModel_pack (upTo_normalize (Int.natCast_nonneg _) ⟨le_rfl, ?_⟩ hk .positive)
    rw [Int.toNat_natCast, toNat_toUInt64 hlt]
    simpa using hl
  rw [ofNat_eq hlt, ← Nat.mul_one k]
  exact hconverted.mul isNat_one.inRange (by omega)

/-- Small integers are exact. -/
theorem isNat_ofInt {k : Nat} (hk : 0 < k) (hsix : k ≤ 6) : IsNat k ((ofInt? k).getD 0.0) := by
  interval_cases k
  · exact ⟨-52, by decide, rfl, by decide, by decide⟩
  · exact ⟨-51, by decide, rfl, by decide, by decide⟩
  · exact ⟨-51, by decide, rfl, by decide, by decide⟩
  · exact ⟨-50, by decide, rfl, by decide, by decide⟩
  · exact ⟨-50, by decide, rfl, by decide, by decide⟩
  · exact ⟨-50, by decide, rfl, by decide, by decide⟩

/-- What is behind the whole part of a positive number is up to one. -/
theorem upTo_sub_wholePart {m : Nat} {e : Int} {hpos : 0 < m} {y : Float} (he : e ≤ 0) (hy : IsNat (wholePart m e) y) :
    UnpackedUpTo 1 (UnpackedFloat.sub Format.binary64 (.finite .positive m e hpos) y.toModel.unpack) := by
  obtain ⟨f, hpos', hy, hf, -⟩ := hy
  rw [hy]
  obtain ⟨hlow, hhigh⟩ := UpTo.wholePart_mul_le (m := m) he
  have hwhole : (wholePart m e * 2 ^ f.natAbs) <<< (f - min e f).toNat =
      wholePart m e * 2 ^ e.natAbs * 2 ^ (e - min e f).toNat := by
    rw [Nat.shiftLeft_eq, Nat.mul_assoc, Nat.mul_assoc, UpTo.unit_mul hf (min_le_right e f),
      UpTo.unit_mul he (min_le_left e f)]
  refine upTo_sub ?_ ⟨(min_le_left e f).trans he, ?_⟩ (by decide)
  · rw [hwhole, Nat.shiftLeft_eq]
    exact Nat.mul_le_mul_right _ hlow
  · rw [hwhole, Nat.shiftLeft_eq, ← Nat.sub_mul, ← UpTo.unit_mul he (min_le_left e f), ← Nat.mul_assoc]
    refine Nat.mul_le_mul_right _ ?_
    rw [Nat.succ_mul] at hhigh
    omega

/-- What is behind the integer part of a number is up to one. -/
theorem InRange.fraction {x : Float} {k : Nat} (hx : InRange 6 x) (hk : Number.truncate? x = some (k : Int)) :
    InRange 1 (x - (ofInt? k).getD 0.0) := by
  have hsmall : k ≤ 6 := by
    obtain ⟨k', hk', hle⟩ := hx.truncate?
    rw [hk] at hk'
    cases hk'
    exact hle
  refine inRange_ofModel_pack ?_
  unfold Number.truncate? Number.exact at hk
  obtain ⟨s, hu⟩ | ⟨m, e, hpos, hu, hm⟩ := hx.unpack
  · rw [hu] at hk ⊢
    obtain rfl : k = 0 := by
      have hwhole := Option.some.inj hk
      cases s <;> simp [negateIf, wholePart] at hwhole <;> omega
    change UnpackedUpTo 1 (UnpackedFloat.sub Format.binary64 (.zero s) (.zero .positive))
    simp only [UnpackedFloat.sub]
    split <;> exact .zero _
  · rw [hu] at hk ⊢
    obtain rfl : wholePart m e = k := Int.ofNat.inj (Option.some.inj hk)
    rcases Nat.eq_zero_or_pos (wholePart m e) with hzero | hpositive
    · rw [hzero]
      change UnpackedUpTo 1 (.finite .positive m e hpos)
      have hless := (UpTo.wholePart_mul_le (m := m) hm.1).2
      rw [hzero] at hless
      exact .finite ⟨hm.1, hless.le⟩
    · exact upTo_sub_wholePart hm.1 (isNat_ofInt hpositive hsmall)

end DesignTokens.Number
