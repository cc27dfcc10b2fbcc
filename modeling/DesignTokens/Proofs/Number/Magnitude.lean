import Mathlib
import DesignTokens.Number.Double

/-!
# The magnitude of doubles

A double that is at most a power of two in magnitude stays within reach of the next powers through products, because
rounding adds at most one unit in the last place. The bounds are generous: every operation pays for its rounding with
one more power. That is enough to see that a computation on small numbers neither overflows nor meets with something
that is no number.

Bounds are kept on mantissa and exponent (`WithinBits`), so that no step leaves the integers, and are carried through
the operations on unpacked numbers and through packing.

* `Bounded.mul`, `Bounded.nearest?` — what operations do with bounds.
* `unpack_pack_finite`, `canonical_of_unpack` — what is packed, and in which form.
* `isNaN_mul`, `isNaN_add` — finite numbers have a product, and something finite can be added to any number.
-/

namespace DesignTokens.Number

open Float.Model Float.Model.UnpackedFloat

/-- `mantissa * 2 ^ exponent` is at most `2 ^ k`. -/
def WithinBits (k : Nat) (mantissa : Nat) (exponent : Int) : Prop :=
  exponent ≤ k ∧ mantissa ≤ 2 ^ (k - exponent).toNat

instance {k m : Nat} {e : Int} : Decidable (WithinBits k m e) := inferInstanceAs (Decidable (_ ∧ _))

namespace WithinBits

variable {k j : Nat} {m n : Nat} {e f : Int}

theorem mono (h : WithinBits k m e) (hkj : k ≤ j) : WithinBits j m e :=
  ⟨by have := h.1; omega, h.2.trans (Nat.pow_le_pow_right (by decide) (by omega))⟩

theorem mono_mantissa (h : WithinBits k m e) (hn : n ≤ m) : WithinBits k n e := ⟨h.1, hn.trans h.2⟩

/-- Dropping bits does not make a number greater. -/
theorem shiftRight (h : WithinBits k m e) {s : Nat} (hs : e + s ≤ k) : WithinBits k (m / 2 ^ s) (e + s) := by
  refine ⟨hs, ?_⟩
  have hpow : 2 ^ (k - e).toNat = 2 ^ (k - (e + s)).toNat * 2 ^ s := by
    rw [← Nat.pow_add]
    congr 1
    omega
  rw [Nat.div_le_iff_le_mul_add_pred (Nat.two_pow_pos s)]
  have hm := h.2
  rw [hpow, Nat.mul_comm] at hm
  omega

theorem shiftLeft (h : WithinBits k m e) (s : Nat) : WithinBits k (m <<< s) (e - s) := by
  obtain ⟨he, hm⟩ := h
  refine ⟨by omega, ?_⟩
  rw [Nat.shiftLeft_eq, show (k - (e - s)).toNat = (k - e).toNat + s by omega, Nat.pow_add]
  exact Nat.mul_le_mul_right _ hm

theorem succ (h : WithinBits k m e) : WithinBits (k + 1) (m + 1) e := by
  obtain ⟨he, hm⟩ := h
  refine ⟨by omega, ?_⟩
  rw [show ((k + 1 : Nat) - e).toNat = (k - e).toNat + 1 by omega, Nat.pow_succ]
  have := Nat.two_pow_pos (k - e).toNat
  omega

theorem mul (hm : WithinBits k m e) (hn : WithinBits j n f) : WithinBits (k + j) (m * n) (e + f) := by
  obtain ⟨he, hm⟩ := hm
  obtain ⟨hf, hn⟩ := hn
  refine ⟨by omega, ?_⟩
  rw [show ((k + j : Nat) - (e + f)).toNat = (k - e).toNat + (j - f).toNat by omega, Nat.pow_add]
  exact Nat.mul_le_mul hm hn

theorem log2_le (h : WithinBits k m e) : m.log2 + e ≤ k := by
  obtain ⟨he, hm⟩ := h
  by_cases hzero : m = 0
  · simp [hzero, he]
  · have hlog := (Nat.pow_le_pow_iff_right (by decide : 1 < 2)).mp ((Nat.log2_self_le hzero).trans hm)
    omega

/-- The whole part of a bounded number. -/
theorem wholePart_le (h : WithinBits k m e) : wholePart m e ≤ 2 ^ k := by
  unfold wholePart
  split
  · have hshift := h.shiftLeft e.toNat
    have hm := hshift.2
    rwa [show (k - (e - e.toNat)).toNat = k by omega] at hm
  · next he =>
    have hshift := h.shiftRight (s := e.natAbs) (by omega)
    have hm := hshift.2
    rw [Nat.shiftRight_eq_div_pow]
    rwa [show (k - (e + e.natAbs)).toNat = k by omega] at hm

end WithinBits

/-! ### Unpacked numbers -/

/-- An unpacked number that is at most `2 ^ k` in magnitude. -/
inductive UnpackedWithin (k : Nat) : UnpackedFloat → Prop where
  | zero (s : Sign) : UnpackedWithin k (.zero s)
  | finite {s : Sign} {m : Nat} {e : Int} {hpos : 0 < m} (h : WithinBits k m e) : UnpackedWithin k (.finite s m e hpos)

instance {k : Nat} : (u : UnpackedFloat) → Decidable (UnpackedWithin k u)
  | .zero s => isTrue (.zero s)
  | .finite _ m e _ => decidable_of_iff (WithinBits k m e) ⟨.finite, fun | .finite h => h⟩
  | .infinity _ => isFalse nofun
  | .notANumber => isFalse nofun

theorem UnpackedWithin.mono {k j : Nat} {u : UnpackedFloat} (h : UnpackedWithin k u) (hkj : k ≤ j) :
    UnpackedWithin j u := by
  cases h with
  | zero s => exact .zero s
  | finite h => exact .finite (h.mono hkj)

section Round

theorem mantissa_shiftRight (em : ExtendedMantissa) (s : Nat) : (em >>> s).mantissa = em.mantissa / 2 ^ s := by
  induction s with
  | zero => simp [HShiftRight.hShiftRight, Nat.repeat]
  | succ s ih =>
    change (em >>> s).mantissa / 2 = _
    rw [ih, Nat.div_div_eq_div_mul, Nat.pow_succ]

theorem mantissa_ofAccuracy (m : Nat) (accuracy : Accuracy) :
    (ExtendedMantissa.ofMantissaAndAccuracy m accuracy).mantissa = m := by
  cases accuracy with
  | exact => rfl
  | inexact order => cases order <;> rfl

theorem roundedMantissa_le (em : ExtendedMantissa) : em.roundedMantissa ≤ em.mantissa + 1 := by
  obtain ⟨m, round, sticky⟩ := em
  cases round <;> cases sticky <;>
    simp only [ExtendedMantissa.roundedMantissa, ExtendedMantissa.accuracy, Accuracy.roundToNearestEven] <;> omega

variable {k : Nat} {m : Nat} {e : Int}

/-- Shifting to the exponent that the format asks for keeps within bounds. -/
theorem WithinBits.shiftToTarget (h : WithinBits k m e) (accuracy : Accuracy) :
    WithinBits k (shiftToTargetExponent Format.binary64 m e accuracy).1.mantissa
      (shiftToTargetExponent Format.binary64 m e accuracy).2 := by
  have htarget : Format.binary64.targetExponent (totalExponent m e) ≤ k := by
    have hlog := h.log2_le
    simp only [Format.targetExponent, totalExponent, Format.mantissaBits, Format.minExponent]
    norm_num
    omega
  have he := h.1
  simp only [shiftToTargetExponent, shiftToExponent, mantissa_shiftRight, mantissa_ofAccuracy]
  exact h.shiftRight (by omega)

theorem unpackedWithin_roundWithAccuracy (h : WithinBits k m e) (s : Sign) (accuracy : Accuracy) :
    UnpackedWithin (k + 1) (roundWithAccuracy Format.binary64 s m e accuracy) := by
  have hfirst := (h.shiftToTarget accuracy).succ.mono_mantissa (roundedMantissa_le _)
  have hlast := hfirst.shiftToTarget .exact
  unfold roundWithAccuracy
  dsimp only
  split
  · exact .zero s
  · exact .finite hlast

end Round

namespace UnpackedWithin

variable {k j : Nat} {u v : UnpackedFloat}

theorem mul (hu : UnpackedWithin k u) (hv : UnpackedWithin j v) :
    UnpackedWithin (k + j + 1) (UnpackedFloat.mul Format.binary64 u v) := by
  cases hu with
  | zero s => cases hv <;> exact .zero _
  | finite hm =>
    cases hv with
    | zero s => exact .zero _
    | finite hn => exact unpackedWithin_roundWithAccuracy (hm.mul hn) _ _

end UnpackedWithin

/-! ### Packing -/

section Pack

variable {k : Nat}

theorem unpack_packedInfinity (s : Sign) :
    UnpackedFloat.unpack Format.binary64 (packedInfinity Format.binary64 s) = .infinity s := by
  simp [UnpackedFloat.unpack, packedInfinity]

/-- A packed number with nothing in its exponent is tiny. -/
theorem unpack_subnormal (s : Sign) (m : BitVec 52) :
    UnpackedFloat.unpack Format.binary64 (packComponents Format.binary64 s 0#11 m) = .zero s ∨
      ∃ hpos, UnpackedFloat.unpack Format.binary64 (packComponents Format.binary64 s 0#11 m) =
        .finite s m.toNat (-1074) hpos := by
  simp only [UnpackedFloat.unpack, unpackExponent_packComponents, unpackMantissa_packComponents,
    unpackSign_packComponents, Sign.ofBitVec_toBitVec]
  split
  · next h => cases h
  · simp only [↓reduceIte]
    split
    · exact .inl rfl
    · next hne => exact .inr ⟨Nat.pos_of_ne_zero fun hzero => hne (BitVec.eq_of_toNat_eq hzero), rfl⟩

/-- A packed normal number has a mantissa of 53 bits. -/
theorem unpack_packComponents_normal (s : Sign) {exponent : BitVec 11} (mantissa : BitVec 52)
    (hnonzero : exponent ≠ 0#11) (hordinary : exponent ≠ -1#11) :
    ∃ hpos, UnpackedFloat.unpack Format.binary64 (packComponents Format.binary64 s exponent mantissa) =
      .finite s (2 ^ 52 + mantissa.toNat) (exponent.toNat - 1075) hpos := by
  have hmantissa : (1#1 ++ mantissa).toNat = 2 ^ 52 + mantissa.toNat := by
    rw [BitVec.toNat_append, ← Nat.shiftLeft_add_eq_or_of_lt mantissa.isLt]
    rfl
  refine ⟨by omega, ?_⟩
  simp only [UnpackedFloat.unpack, unpackExponent_packComponents, unpackMantissa_packComponents,
    unpackSign_packComponents, Sign.ofBitVec_toBitVec, hordinary, hnonzero, ↓reduceIte, UnpackedFloat.finite.injEq]
  exact ⟨trivial, hmantissa, rfl⟩

/-- Packing a normal number loses nothing. -/
theorem unpack_pack_normal (s : Sign) {m : Nat} {e : Int} (hlog : m.log2 = 52) (hlow : -1074 ≤ e) (hhigh : e ≤ 971) :
    ∃ hpos, UnpackedFloat.unpack Format.binary64 (packComponents Format.binary64 s
      (BitVec.ofNat 11 (e + 1075).toNat) (BitVec.ofNat 52 m)) = .finite s m e hpos := by
  have hm : 2 ^ 52 ≤ m ∧ m < 2 ^ 53 := (Nat.log2_eq_iff (by rintro rfl; simp at hlog)).mp hlog
  have hexponent : (BitVec.ofNat 11 (e + 1075).toNat).toNat = (e + 1075).toNat := by
    rw [BitVec.toNat_ofNat, Nat.mod_eq_of_lt (by omega)]
  have hne {other : BitVec 11} (h : (e + 1075).toNat ≠ other.toNat) : BitVec.ofNat 11 (e + 1075).toNat ≠ other :=
    fun hsame => h (by rw [← hexponent, hsame])
  obtain ⟨hpos, hunpack⟩ := unpack_packComponents_normal s (BitVec.ofNat 52 m)
    (hne (by rw [BitVec.toNat_ofNat]; omega)) (hne (by rw [show (-1#11 : BitVec 11).toNat = 2047 from rfl]; omega))
  have hmantissa : 2 ^ 52 + (BitVec.ofNat 52 m).toNat = m := by
    rw [BitVec.toNat_ofNat]
    omega
  have hsame : ((BitVec.ofNat 11 (e + 1075).toNat).toNat : Int) - 1075 = e := by
    rw [hexponent]
    omega
  simp only [hmantissa, hsame] at hunpack
  exact ⟨by omega, hunpack⟩

/-- Packing a number that does not overflow loses nothing, or leaves something tiny. -/
theorem unpack_pack_finite (s : Sign) {m : Nat} {e : Int} (hpos : 0 < m) (he : e ≤ 971) :
    UnpackedFloat.unpack Format.binary64 (UnpackedFloat.pack Format.binary64 (.finite s m e hpos)) =
        .finite s m e hpos ∨
      ∃ rest, UnpackedFloat.unpack Format.binary64 (UnpackedFloat.pack Format.binary64 (.finite s m e hpos)) =
        UnpackedFloat.unpack Format.binary64 (packComponents Format.binary64 s 0#11 rest) := by
  simp only [UnpackedFloat.pack]
  split
  · next hoverflow =>
    simp only [Format.exponentBias] at hoverflow
    norm_num at hoverflow
    omega
  split
  · next hnormal =>
    have hlog : m.log2 = 52 := by
      simp only [Format.mantissaBits] at hnormal
      omega
    by_cases hlow : -1074 ≤ e
    · obtain ⟨hpos', hunpack⟩ := unpack_pack_normal s hlog hlow (by omega)
      have hsame : e + (Format.exponentBias Format.binary64 : Int) + (52 : Nat) = e + 1075 := by
        simp only [Format.exponentBias]
        norm_num
        omega
      rw [hsame, hunpack]
      exact .inl rfl
    · have hzero : (e + (Format.exponentBias Format.binary64 : Int) + (52 : Nat)).toNat = 0 := by
        simp only [Format.exponentBias]
        norm_num
        omega
      rw [hzero]
      exact .inr ⟨_, rfl⟩
  · exact .inr ⟨_, rfl⟩

/-- Packing keeps bounds as long as the exponent is one of those that doubles have. -/
theorem unpackedWithin_unpack_pack_of_exponent {u : UnpackedFloat} (h : UnpackedWithin k u)
    (hexponent : ∀ s m e hpos, u = .finite s m e hpos → e ≤ 971) :
    UnpackedWithin k (UnpackedFloat.unpack Format.binary64 (UnpackedFloat.pack Format.binary64 u)) := by
  cases h with
  | zero s =>
    rw [UnpackedFloat.pack, UnpackedFloat.unpack_packedZero]
    exact .zero s
  | @finite s m e hpos h =>
    rcases unpack_pack_finite s hpos (hexponent s m e hpos rfl) with hsame | ⟨rest, hrest⟩
    · rw [hsame]
      exact .finite h
    · rw [hrest]
      rcases unpack_subnormal s rest with hzero | ⟨hpos', htiny⟩
      · rw [hzero]
        exact .zero s
      · have hpow : 2 ^ 52 ≤ 2 ^ (k - -1074 : Int).toNat := Nat.pow_le_pow_right (by decide) (by omega)
        rw [htiny]
        exact .finite ⟨by omega, rest.isLt.le.trans hpow⟩

theorem unpackedWithin_unpack_pack {u : UnpackedFloat} (hk : k ≤ 900) (h : UnpackedWithin k u) :
    UnpackedWithin k (UnpackedFloat.unpack Format.binary64 (UnpackedFloat.pack Format.binary64 u)) := by
  refine unpackedWithin_unpack_pack_of_exponent h ?_
  rintro s m e hpos rfl
  cases h with
  | finite h =>
    have he := h.1
    omega

end Pack

/-! ### Doubles -/

/-- A double that is at most `2 ^ k` in magnitude. -/
def Bounded (k : Nat) (x : Float) : Prop := UnpackedWithin k x.toModel.unpack

instance {k : Nat} {x : Float} : Decidable (Bounded k x) := inferInstanceAs (Decidable (UnpackedWithin k _))

theorem bounded_ofModel_pack {k : Nat} {u : UnpackedFloat} (h : UnpackedWithin k u) (hk : k ≤ 900) :
    Bounded k (.ofModel (Float.Model.pack u)) := unpackedWithin_unpack_pack hk h

namespace Bounded

variable {k j : Nat} {x y : Float}

theorem mono (h : Bounded k x) (hkj : k ≤ j) : Bounded j x := UnpackedWithin.mono h hkj

theorem mul (hx : Bounded k x) (hy : Bounded j y) (hkj : k + j < 900) : Bounded (k + j + 1) (x * y) :=
  bounded_ofModel_pack (UnpackedWithin.mul hx hy) hkj

theorem exact (h : Bounded k x) : ∃ s m e, exact x = .finite s m e ∧ WithinBits k m e := by
  unfold Number.exact
  generalize hu : x.toModel.unpack = u
  rw [Bounded, hu] at h
  cases h with
  | zero s => exact ⟨_, 0, 0, rfl, by omega, Nat.zero_le _⟩
  | @finite s m e hpos h => exact ⟨_, m, e, rfl, h⟩

theorem nearest? (h : Bounded k x) : ∃ n, nearest? x = some n ∧ n.natAbs ≤ 2 ^ k + 1 := by
  obtain ⟨s, m, e, hexact, hbits⟩ := h.exact
  have hwhole := hbits.wholePart_le
  have hbound (up : Bool) : (negateIf s (if up then wholePart m e + 1 else wholePart m e)).natAbs ≤ 2 ^ k + 1 := by
    unfold negateIf
    split <;> split <;> omega
  simp only [Number.nearest?, hexact]
  exact ⟨_, rfl, hbound _⟩

end Bounded

theorem bounded_255 : Bounded 8 255.0 := by decide

/-! ### Canonical form -/

/-- The mantissa is as great as it can be. -/
structure Canonical (m : Nat) (e : Int) : Prop where
  fits : m < 2 ^ 53
  low : -1074 ≤ e
  normal : 2 ^ 52 ≤ m ∨ e = -1074

theorem canonical_of_unpack {x : Float} {s : Sign} {m : Nat} {e : Int} {hpos : 0 < m}
    (h : x.toModel.unpack = .finite s m e hpos) : Canonical m e := by
  unfold Float.Model.unpack UnpackedFloat.unpack at h
  dsimp only at h
  have hfield := (@unpackMantissa Format.binary64 x.toModel.toBits.toBitVec).isLt
  split at h
  · split at h <;> cases h
  · split at h
    · next hzero =>
      split at h
      · cases h
      · cases h
        rw [hzero]
        exact ⟨hfield.trans (by decide), by decide, .inr (by decide)⟩
    · next hnonzero =>
      cases h
      have hexponent : (@unpackExponent Format.binary64 x.toModel.toBits.toBitVec).toNat ≠ 0 :=
        fun hzero => hnonzero (BitVec.eq_of_toNat_eq hzero)
      refine ⟨BitVec.isLt _, ?_, .inl ?_⟩
      · simp only [Format.exponentBias]
        norm_num
        omega
      · rw [BitVec.toNat_append, ← Nat.shiftLeft_add_eq_or_of_lt hfield]
        exact Nat.le_add_right ..

/-- What is not negative is positive infinity, a zero or a positive number. -/
theorem unpack_of_nonneg {x : Float} (h : 0.0 ≤ x) :
    x.toModel.unpack = .infinity .positive ∨ (∃ s, x.toModel.unpack = .zero s) ∨
      ∃ m e hpos, x.toModel.unpack = .finite .positive m e hpos ∧ Canonical m e := by
  have hle : UnpackedFloat.le (.zero .positive) x.toModel.unpack = true := of_decide_eq_true h
  cases hu : x.toModel.unpack with
  | infinity s =>
    rw [hu] at hle
    cases s with
    | negative => cases hle
    | positive => exact .inl rfl
  | notANumber =>
    rw [hu] at hle
    cases hle
  | zero s => exact .inr (.inl ⟨s, rfl⟩)
  | finite s m e hpos =>
    rw [hu] at hle
    cases s with
    | negative => cases hle
    | positive => exact .inr (.inr ⟨m, e, hpos, rfl, canonical_of_unpack hu⟩)

/-! ### Numbers that are none -/

theorem isFinite_iff {x : Float} : x.isFinite = true ↔ ∃ s m e, exact x = .finite s m e := by
  change x.toModel.unpack.isFinite = true ↔ _
  unfold exact
  cases x.toModel.unpack <;> simp [UnpackedFloat.isFinite]

theorem isNaN_packComponents (s : Sign) {exponent : BitVec 11} (mantissa : BitVec 52) (h : exponent ≠ -1#11) :
    (UnpackedFloat.unpack Format.binary64 (packComponents Format.binary64 s exponent mantissa)).isNaN = false := by
  simp only [UnpackedFloat.unpack, unpackExponent_packComponents, unpackMantissa_packComponents, h, ↓reduceIte]
  split
  · split <;> rfl
  · rfl

theorem isNaN_unpack_pack {u : UnpackedFloat} (h : u.isNaN = false) :
    (UnpackedFloat.unpack Format.binary64 (UnpackedFloat.pack Format.binary64 u)).isNaN = false := by
  cases u with
  | notANumber => cases h
  | infinity s =>
    rw [UnpackedFloat.pack, unpack_packedInfinity]
    rfl
  | zero s =>
    rw [UnpackedFloat.pack, UnpackedFloat.unpack_packedZero]
    rfl
  | finite s m e hpos =>
    simp only [UnpackedFloat.pack]
    split
    · rw [unpack_packedInfinity]
      rfl
    · next hfits =>
      split
      · refine isNaN_packComponents s _ fun hsame => ?_
        have hfield := congrArg BitVec.toNat hsame
        rw [BitVec.toNat_ofNat, Nat.mod_eq_of_lt (by omega), show (-1#11 : BitVec 11).toNat = 2047 from rfl] at hfield
        omega
      · exact isNaN_packComponents s _ (by decide)

theorem isNaN_roundWithAccuracy (s : Sign) (m : Nat) (e : Int) (accuracy : Accuracy) :
    (roundWithAccuracy Format.binary64 s m e accuracy).isNaN = false := by
  unfold roundWithAccuracy
  dsimp only
  split <;> rfl

theorem isNaN_normalize (m e : Int) (s : Sign) :
    (UnpackedFloat.normalize Format.binary64 m e s).isNaN = false := by
  unfold UnpackedFloat.normalize
  split
  · exact isNaN_roundWithAccuracy ..
  · rfl
  · exact isNaN_roundWithAccuracy ..

theorem isNaN_unpacked_mul {u v : UnpackedFloat} (hu : u.isFinite = true) (hv : v.isFinite = true) :
    (UnpackedFloat.mul Format.binary64 u v).isNaN = false := by
  cases u with
  | infinity s => cases hu
  | notANumber => cases hu
  | zero s =>
    cases v with
    | infinity s => cases hv
    | notANumber => cases hv
    | zero s => rfl
    | finite s m e hpos => rfl
  | finite s m e hpos =>
    cases v with
    | infinity s => cases hv
    | notANumber => cases hv
    | zero s => rfl
    | finite s m e hpos => exact isNaN_roundWithAccuracy ..

theorem isNaN_unpacked_add {u v : UnpackedFloat} (hu : u.isNaN = false) (hv : v.isFinite = true) :
    (UnpackedFloat.add Format.binary64 u v).isNaN = false := by
  cases v with
  | infinity s => cases hv
  | notANumber => cases hv
  | zero s =>
    cases u with
    | infinity s => rfl
    | notANumber => cases hu
    | zero s =>
      simp only [UnpackedFloat.add]
      split <;> rfl
    | finite s m e hpos => rfl
  | finite s m e hpos =>
    cases u with
    | infinity s => rfl
    | notANumber => cases hu
    | zero s => rfl
    | finite s m e hpos => exact isNaN_normalize ..

section NaN

variable {x y : Float}

/-- Finite numbers have a product. -/
theorem isNaN_mul (hx : x.isFinite = true) (hy : y.isFinite = true) : (x * y).isNaN = false :=
  isNaN_unpack_pack (isNaN_unpacked_mul hx hy)

/-- Something finite can be added to any number. -/
theorem isNaN_add (hx : x.isNaN = false) (hy : y.isFinite = true) : (x + y).isNaN = false :=
  isNaN_unpack_pack (isNaN_unpacked_add hx hy)

end NaN

end DesignTokens.Number
