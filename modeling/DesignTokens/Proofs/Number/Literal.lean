import DesignTokens.Proofs.Number.Rounding
import DesignTokens.Proofs.Number.Spelling

/-!
# Which texts are numbers

A text that is spelled as a decimal literal is always a number, an infinite one at worst. One that is spelled as a
hexadecimal literal is a number if it is not beyond the range of doubles, with one exception: the digits of its exponent
may come from any script, but only ASCII ones can be converted. The others do not make the literal unreadable; they end
the reading with a fault.

A sign in front of an unsigned text changes the sign of the number and nothing else, since rounding treats both signs
alike (`ofBinary_signed`).

* `isFinite_ofBinary_iff` — which binary numbers are within the range of doubles.
* `Literal.number_of_literals` — which texts are numbers, which are not, and which end in a fault.
-/

namespace DesignTokens.Number

open Float.Model Float.Model.UnpackedFloat

/-! ### Both signs alike -/

section Signs

variable {m n : Nat} {e f : Int}

/-- What rounding leaves of a number does not depend on the sign. -/
theorem roundWithAccuracy_cases (hpos : 0 < m) (hfull : 2 ^ 52 ≤ m ∨ e ≤ -1074) :
    (∀ s, roundWithAccuracy Format.binary64 s m e .exact = .zero s) ∨
      ∃ n f hn, Canonical n f ∧ ∀ s, roundWithAccuracy Format.binary64 s m e .exact = .finite s n f hn := by
  have hmany := le_roundedMantissa_of_full hpos hfull
  have hlow : -1074 ≤ e + droppedBits m e := by
    unfold droppedBits
    omega
  simp only [roundWithAccuracy_eq, shiftToTargetExponent_eq]
  by_cases hzero : (ExtendedMantissa.ofMantissaAndAccuracy m .exact >>> droppedBits m e).roundedMantissa = 0
  · exact .inl fun s => dif_pos hzero
  by_cases hsmall : (ExtendedMantissa.ofMantissaAndAccuracy m .exact >>> droppedBits m e).roundedMantissa < 2 ^ 53
  · exact .inr ⟨_, _, Nat.pos_of_ne_zero hzero, ⟨hsmall, hlow, hmany⟩, fun s => by rw [dif_neg hzero, if_pos hsmall]⟩
  · exact .inr ⟨2 ^ 52, e + droppedBits m e + 1, by decide, ⟨by decide, by omega, .inl le_rfl⟩, fun s => by
      rw [dif_neg hzero, if_neg hsmall]⟩

theorem round_cases (hpos : 0 < m) :
    (∀ s, UnpackedFloat.round Format.binary64 s m e = .zero s) ∨
      ∃ n f hn, Canonical n f ∧ ∀ s, UnpackedFloat.round Format.binary64 s m e = .finite s n f hn :=
  roundWithAccuracy_cases (Nat.shiftLeft_pos_iff.mpr hpos) (full_decreaseExponent hpos)

theorem neg_pack_zero (s : Sign) :
    -Float.ofModel (Float.Model.pack (.zero s)) = Float.ofModel (Float.Model.pack (.zero (-s))) := by
  change Float.ofModel (Float.Model.pack (UnpackedFloat.neg (UnpackedFloat.unpack Format.binary64
    (packedZero Format.binary64 s)))) = _
  rw [UnpackedFloat.unpack_packedZero, UnpackedFloat.neg]

/-- A packed number is negated in its sign, also if it overflows. -/
theorem neg_pack_finite {hn : 0 < n} (s : Sign) (h : Canonical n f) :
    -Float.ofModel (Float.Model.pack (.finite s n f hn)) = Float.ofModel (Float.Model.pack (.finite (-s) n f hn)) := by
  change Float.ofModel (Float.Model.pack (UnpackedFloat.neg (UnpackedFloat.unpack Format.binary64
    (UnpackedFloat.pack Format.binary64 (.finite s n f hn))))) = _
  rcases le_or_gt f 971 with hlast | hbeyond
  · rw [unpack_pack_canonical s h hlast]
    rfl
  · rw [unpack_pack_overflow s hn hbeyond]
    unfold Float.Model.pack
    simp only [UnpackedFloat.neg, pack_overflow (-s) hn hbeyond]
    rfl

theorem signed_false (x : Float) : signed false x = x := rfl

/-- A binary number is rounded without its sign. -/
theorem ofBinary_signed (negative : Bool) (m : Nat) (e : Int) :
    ofBinary negative m e = signed negative (ofBinary false m e) := by
  cases negative with
  | false => exact (signed_false _).symm
  | true =>
    simp only [ofBinary, signed, Bool.false_eq_true, ↓reduceIte]
    split
    · rfl
    next hzero =>
    split
    · rfl
    split
    · rfl
    rcases round_cases (e := e) (Nat.pos_of_ne_zero hzero) with hround | ⟨n, f, hn, hcanonical, hround⟩
    · simp only [hround]
      exact (neg_pack_zero .positive).symm
    · simp only [hround]
      exact (neg_pack_finite .positive hcanonical).symm

end Signs

/-! ### The range of doubles -/

theorem overflowBound_between : 1 < overflowBound ∧ overflowBound ≤ 2 ^ (1024 : ℤ) := by
  have hone : (1 : ℚ) ≤ 2 ^ (970 : ℤ) := one_le_zpow₀ one_le_two (by decide)
  have hproduct : (2 : ℚ) ^ (1024 : ℤ) = 2 ^ 54 * 2 ^ (970 : ℤ) := by
    rw [← zpow_natCast, ← zpow_add₀ two_ne_zero]
    rfl
  rw [overflowBound, hproduct]
  generalize (2 : ℚ) ^ (970 : ℤ) = unit at hone ⊢
  constructor <;> linarith

/-- A number is within the range of doubles exactly if it is nearer to the greatest double than to an infinity. -/
theorem isFinite_ofBinary_iff (negative : Bool) (m : Nat) (e : Int) :
    (ofBinary negative m e).isFinite = true ↔ (m : ℚ) * 2 ^ e < overflowBound := by
  obtain ⟨hone, hmost⟩ := overflowBound_between
  unfold ofBinary
  dsimp only
  split
  · next hzero =>
    rw [hzero, Nat.cast_zero, zero_mul]
    exact iff_of_true (by cases negative <;> rfl) (by linarith)
  next hzero =>
  have hlow : (2 : ℚ) ^ (e + m.log2) ≤ m * 2 ^ e := by
    rw [add_comm, zpow_add₀ two_ne_zero]
    exact mul_le_mul_of_nonneg_right (by exact_mod_cast Nat.log2_self_le hzero) (two_zpow_pos e).le
  have hhigh : (m : ℚ) * 2 ^ e < 2 ^ (e + m.log2 + 1) := by
    rw [add_assoc, add_comm, zpow_add₀ two_ne_zero]
    exact mul_lt_mul_of_pos_right (by exact_mod_cast Nat.lt_log2_self (n := m)) (two_zpow_pos e)
  split
  · next hgreat =>
    refine iff_of_false (by cases negative <;> decide) (not_lt.mpr ?_)
    calc overflowBound ≤ 2 ^ (1024 : ℤ) := hmost
      _ ≤ 2 ^ (e + m.log2) := zpow_le_zpow_right₀ one_le_two (by omega)
      _ ≤ m * 2 ^ e := hlow
  split
  · next hsmall =>
    refine iff_of_true (by cases negative <;> rfl) ?_
    calc (m : ℚ) * 2 ^ e < 2 ^ (e + m.log2 + 1) := hhigh
      _ ≤ 1 := zpow_le_one_of_nonpos₀ one_le_two (by omega)
      _ < overflowBound := hone
  · have hround := isFinite_round_iff (if negative then .negative else .positive)
      (Nat.shiftLeft_pos_iff.mpr (Nat.pos_of_ne_zero hzero)) (full_decreaseExponent (e := e) (Nat.pos_of_ne_zero hzero))
    rw [overflows_iff, value_shiftLeft, not_le] at hround
    exact hround

namespace Literal

/-! ### What a literal is worth -/

/-- The exponent of a hexadecimal literal as far as its digits are ASCII. -/
def asciiExponent (negative : Bool) (digits : List Char) : Int :=
  negateIf negative (ofDigits 10 (decimalValues (digits.takeWhile Char.isDigit)))

/-- The number that a hexadecimal literal stands for, without its sign. -/
def magnitude (whole fraction : List Nat) (exponent : Int) : ℚ :=
  ofDigits 16 (whole ++ fraction) * 2 ^ (exponent - 4 * fraction.length)

/-- A hexadecimal literal whose exponent has digits that are not ASCII. -/
def HasForeignDigits : Literal → Prop
  | .decimal .. => False
  | .hexadecimal _ _ _ _ digits => ∃ d ∈ digits, d.isDigit = false

/-- A hexadecimal literal that is nearer to an infinity than to the greatest double. Its exponent must begin with an
ASCII digit, and counts up to the first digit that is none. -/
def BeyondRange : Literal → Prop
  | .decimal .. => False
  | .hexadecimal _ whole fraction exponentNegative digits =>
    (∀ d ∈ digits.head?, d.isDigit = true) ∧
      overflowBound ≤ magnitude whole fraction (asciiExponent exponentNegative digits)

section Values

variable {digits : List Char}

theorem takeWhile_isEmpty_iff :
    ((digits.takeWhile Char.isDigit).isEmpty && !digits.isEmpty) = true ↔ ¬ ∀ d ∈ digits.head?, d.isDigit = true := by
  cases digits with
  | nil => simp
  | cons d digits => cases hd : d.isDigit <;> simp [hd]

theorem takeWhile_length_iff :
    (digits.takeWhile Char.isDigit).length = digits.length ↔ ∀ d ∈ digits, d.isDigit = true := by
  rw [← List.takeWhile_eq_self_iff]
  exact ⟨(List.takeWhile_prefix _).eq_of_length, congrArg List.length⟩

/-- The sign is left out of account, up to the number itself. -/
theorem binaryValue?_eq (negative : Bool) (m : Nat) (e : Int) :
    binaryValue? negative m e =
      if (m : ℚ) * 2 ^ e < overflowBound then some (ofBinary negative m e) else none := by
  unfold binaryValue?
  simp only [isFinite_ofBinary_iff]

/-- Whether the exponent can begin is seen before the number is rounded, and whether it goes on thereafter. -/
theorem value?_hexadecimal (token : String) (negative : Bool) (whole fraction : List Nat) (exponentNegative : Bool) :
    (Literal.hexadecimal negative whole fraction exponentNegative digits).value? token =
      if ¬ ∀ d ∈ digits.head?, d.isDigit = true then .error (.exponentNotAscii token)
      else if overflowBound ≤ magnitude whole fraction (asciiExponent exponentNegative digits) then .ok none
      else if ∀ d ∈ digits, d.isDigit = true then
        .ok (some (ofBinary negative (ofDigits 16 (whole ++ fraction))
          (asciiExponent exponentNegative digits - 4 * fraction.length)))
      else .error (.exponentNotAscii token) := by
  simp only [value?, takeWhile_isEmpty_iff, takeWhile_length_iff, binaryValue?_eq, magnitude, asciiExponent, ← not_le,
    ite_not]
  split_ifs <;> rfl

theorem value?_cases (token : String) (literal : Literal) :
    literal.BeyondRange ∧ literal.value? token = .ok none ∨
      ¬ literal.BeyondRange ∧ literal.HasForeignDigits ∧ literal.value? token = .error (.exponentNotAscii token) ∨
      ¬ literal.BeyondRange ∧ ¬ literal.HasForeignDigits ∧ ∃ x, literal.value? token = .ok (some x) := by
  cases literal with
  | decimal => exact .inr (.inr ⟨id, id, _, rfl⟩)
  | hexadecimal negative whole fraction exponentNegative digits =>
    have hforeign : (∃ d ∈ digits, d.isDigit = false) ↔ ¬ ∀ d ∈ digits, d.isDigit = true := by simp
    have hfirst (h : ∀ d ∈ digits, d.isDigit = true) : ∀ d ∈ digits.head?, d.isDigit = true :=
      fun d hd => h d (List.mem_of_mem_head? hd)
    simp only [BeyondRange, HasForeignDigits, hforeign, not_not, value?_hexadecimal]
    by_cases hhead : ∀ d ∈ digits.head?, d.isDigit = true
    · simp only [eq_true hhead, not_true_eq_false, ↓reduceIte, true_and]
      split_ifs with hbeyond hascii
      · exact .inl ⟨hbeyond, rfl⟩
      · exact .inr (.inr ⟨hbeyond, hascii, _, rfl⟩)
      · exact .inr (.inl ⟨hbeyond, hascii, rfl⟩)
    · exact .inr (.inl ⟨fun h => hhead h.1, mt hfirst hhead, if_pos hhead⟩)

end Values

/-! ### Signs in front -/

/-- The literal with the sign given by `negative`. -/
def withSign (negative : Bool) : Literal → Literal
  | .decimal _ whole fraction exponent => .decimal negative whole fraction exponent
  | .hexadecimal _ whole fraction exponentNegative digits =>
    .hexadecimal negative whole fraction exponentNegative digits

theorem decimal?_withSign (negative : Bool) (cs : List Char) :
    decimal? negative cs = (decimal? false cs).map (withSign negative) := by
  unfold decimal?
  cases mantissa? Text.decimalValue? cs with
  | none => rfl
  | some parts =>
    obtain ⟨whole, fraction, rest⟩ := parts
    cases hexponent : exponent? (fun c => c == 'e' || c == 'E') rest <;> simp [hexponent, withSign]

theorem hexadecimal?_withSign (negative : Bool) (cs : List Char) :
    hexadecimal? negative cs = (hexadecimal? false cs).map (withSign negative) := by
  unfold hexadecimal?
  split
  · next mark rest =>
    split
    · cases mantissa? hexValue? rest with
      | none => rfl
      | some parts =>
        obtain ⟨whole, fraction, rest⟩ := parts
        cases hexponent : exponent? (fun c => c == 'p' || c == 'P') rest <;> simp [hexponent, withSign]
    · rfl
  · rfl

theorem read?_signed {text : String} {cs : List Char} {negative : Bool} (h : signAndRest text.toList = (negative, cs)) :
    read? text = (decimal? false cs <|> hexadecimal? false cs).map (withSign negative) := by
  simp only [read?, h]
  rw [decimal?_withSign, hexadecimal?_withSign]
  cases decimal? false cs <;> rfl

/-- A signed literal has the signed number, and is no number or ends in a fault where the literal does. -/
theorem toOption_value?_withSign (token token' : String) (negative : Bool) (literal : Literal) :
    ((literal.withSign negative).value? token).toOption =
      ((literal.withSign false).value? token').toOption.map (Option.map (signed negative)) := by
  cases literal with
  | decimal => rfl
  | hexadecimal =>
    simp only [withSign, value?_hexadecimal, ofBinary_signed negative]
    split_ifs <;> rfl

theorem toOption_number?_signed {text prefixed : String} {negative : Bool} (h : Unsigned text.toList)
    (hsigned : signAndRest prefixed.toList = (negative, text.toList)) :
    (number? prefixed).toOption = (number? text).toOption.map (Option.map (signed negative)) := by
  rw [number?, number?, read?_signed hsigned, read?_signed (signAndRest_unsigned h)]
  cases (decimal? false text.toList <|> hexadecimal? false text.toList) with
  | none => rfl
  | some literal => exact toOption_value?_withSign prefixed text negative literal

theorem number?_plus {text : String} (h : Unsigned text.toList) :
    (number? ("+" ++ text)).toOption = (number? text).toOption := by
  have hplus : signAndRest ("+" ++ text).toList = (false, text.toList) := by
    rw [String.toList_append]
    exact signAndRest_append .plus h
  have hsame : Option.map (signed false) = id := Option.map_id
  rw [toOption_number?_signed h hplus, hsame, Option.map_id, id]

theorem number?_minus {text : String} (h : Unsigned text.toList) :
    (number? ("-" ++ text)).toOption = (number? text).toOption.map (Option.map (- ·)) := by
  have hminus : signAndRest ("-" ++ text).toList = (true, text.toList) := by
    rw [String.toList_append]
    exact signAndRest_append .minus h
  exact toOption_number?_signed h hminus

/-! ### Numbers and literals -/

section Outcomes

variable {text : String} {literal : Literal}

theorem number?_of_spells (h : Spells text.toList literal) : number? text = literal.value? text := by
  rw [number?, spells_iff_read.mp h]

/-- A text is spelled as no literal, or as a single one, which is worth nothing, a fault or a number. -/
theorem number?_cases (text : String) :
    (∀ literal, ¬ Spells text.toList literal) ∧ number? text = .ok none ∨
    ∃ literal, (∀ other, Spells text.toList other ↔ other = literal) ∧
      (literal.BeyondRange ∧ number? text = .ok none ∨
        ¬ literal.BeyondRange ∧ literal.HasForeignDigits ∧ number? text = .error (.exponentNotAscii text) ∨
        ¬ literal.BeyondRange ∧ ¬ literal.HasForeignDigits ∧ ∃ x, number? text = .ok (some x)) := by
  cases hread : read? text with
  | none =>
    refine .inl ⟨fun literal hspelled => ?_, number?_of_read?_eq_none hread⟩
    exact Option.some_ne_none literal ((spells_iff_read.mp hspelled).symm.trans hread)
  | some literal =>
    refine .inr ⟨literal, fun other => ?_, number?_of_spells (spells_iff_read.mpr hread) ▸ literal.value?_cases text⟩
    rw [spells_iff_read, hread, Option.some.injEq, eq_comm]

/-- The numbers are the literals, hexadecimal ones as long as they are within the range of doubles and have ASCII digits
in their exponents. Of the others those beyond the range are no numbers, like all that is no literal, and the rest ends
in a fault. A plus in front changes nothing, and a minus the sign. -/
theorem number_of_literals (text : String) :
    ((∃ x, number? text = .ok (some x)) ↔
      ∃ literal, Spells text.toList literal ∧ ¬ literal.BeyondRange ∧ ¬ literal.HasForeignDigits) ∧
    (number? text = .ok none ↔
      (∀ literal, ¬ Spells text.toList literal) ∨ ∃ literal, Spells text.toList literal ∧ literal.BeyondRange) ∧
    (∀ fault, number? text = .error fault ↔ fault = .exponentNotAscii text ∧
      ∃ literal, Spells text.toList literal ∧ ¬ literal.BeyondRange ∧ literal.HasForeignDigits) ∧
    (Unsigned text.toList →
      (number? ("+" ++ text)).toOption = (number? text).toOption ∧
      (number? ("-" ++ text)).toOption = (number? text).toOption.map (Option.map (- ·))) := by
  refine ⟨?_, ?_, ?_, fun h => ⟨number?_plus h, number?_minus h⟩⟩
  all_goals
    rcases number?_cases text with ⟨hnot, hcase⟩ | ⟨literal, hspelled, ⟨hbeyond, hcase⟩ | ⟨hwithin, hforeign, hcase⟩ |
      ⟨hwithin, hascii, x, hcase⟩⟩
  -- which texts are numbers
  · simp [hcase, hnot]
  · simp [hcase, hspelled, hbeyond]
  · simp [hcase, hspelled, hforeign]
  · simp [hcase, hspelled, hwithin, hascii]
  -- which are none
  · simp [hcase, hnot]
  · simp [hcase, hspelled, hbeyond]
  · simp [hcase, hspelled, hwithin]
  · simp [hcase, hspelled, hwithin]
  -- which end in a fault
  · simp [hcase, hnot]
  · simp [hcase, hspelled, hbeyond]
  · simp [hcase, hspelled, hwithin, hforeign, eq_comm]
  · simp [hcase, hspelled, hascii]

/-- Half of eight, with the binary point and a binary exponent. -/
theorem number_of_literals_scaled :
    Unsigned "0x.8p3".toList ∧ (number? ("-" ++ "0x.8p3")).toOption = some (some (-4.0)) :=
  ⟨by simp [Unsigned], ((number_of_literals "0x.8p3").2.2.2 (by simp [Unsigned])).2.trans rfl⟩

/-- A three of another script is a digit of the exponent, but ends the reading in a fault. -/
theorem not_always_number_or_none : ¬ ∀ text : String, ∃ number, number? text = .ok number := by
  intro h
  obtain ⟨number, hnumber⟩ := h "0x1p٣"
  have hfault : number? "0x1p٣" = .error (.exponentNotAscii "0x1p٣") := rfl
  cases hfault.symm.trans hnumber

end Outcomes

end Literal

end DesignTokens.Number
