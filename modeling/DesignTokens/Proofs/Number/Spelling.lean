import Mathlib
import DesignTokens.Number.Literal

/-!
# How number literals are spelled

The grammar of number literals, apart from the way they are read: an optional sign, digits with at most one point among
them, and an optional exponent of a mark, an optional sign and at least one decimal digit. The reader takes all the
digits there are before it looks at what follows. Nothing is lost that way, because neither a point nor a sign nor an
exponent mark is a digit.

* `Literal.spells_iff_read` — a text is read as a literal exactly if it is spelled as one.
-/

namespace DesignTokens.Number.Literal

/-! ### The grammar -/

/-- A sign or none, and whether it is a minus. -/
inductive SignText : List Char → Bool → Prop where
  | absent : SignText [] false
  | plus : SignText ['+'] false
  | minus : SignText ['-'] true

/-- Characters that are digits of these values. -/
def DigitText (digit? : Char → Option Nat) (cs : List Char) (values : List Nat) : Prop :=
  cs.map digit? = values.map some

/-- Digits without a point, or on at least one side of one. -/
inductive MantissaText (digit? : Char → Option Nat) : List Char → List Nat → List Nat → Prop where
  | whole {cs : List Char} {whole : List Nat} (digits : DigitText digit? cs whole) (nonempty : cs ≠ []) :
      MantissaText digit? cs whole []
  | point {cs ds : List Char} {whole fraction : List Nat} (before : DigitText digit? cs whole)
      (behind : DigitText digit? ds fraction) (nonempty : cs ≠ [] ∨ ds ≠ []) :
      MantissaText digit? (cs ++ '.' :: ds) whole fraction

/-- No exponent, or a mark, a sign or none, and the digits of one. -/
inductive ExponentText (isMark : Char → Bool) : List Char → Bool → List Char → Prop where
  | absent : ExponentText isMark [] false []
  | present {mark : Char} {sign digits : List Char} {negative : Bool} (marked : isMark mark = true)
      (signed : SignText sign negative) (nonempty : digits ≠ []) (decimal : ∀ d ∈ digits, Text.isDecimal d = true) :
      ExponentText isMark (mark :: (sign ++ digits)) negative digits

/-- The literals and their texts. -/
inductive Spells : List Char → Literal → Prop where
  | decimal {sign mantissa exponent digits : List Char} {negative exponentNegative : Bool} {whole fraction : List Nat}
      (signed : SignText sign negative) (counted : MantissaText Text.decimalValue? mantissa whole fraction)
      (raised : ExponentText (fun c => c == 'e' || c == 'E') exponent exponentNegative digits) :
      Spells (sign ++ (mantissa ++ exponent))
        (.decimal negative whole fraction (negateIf exponentNegative (ofDigits 10 (decimalValues digits))))
  | hexadecimal {sign mantissa exponent digits : List Char} {mark : Char} {negative exponentNegative : Bool}
      {whole fraction : List Nat} (signed : SignText sign negative) (marked : mark = 'x' ∨ mark = 'X')
      (counted : MantissaText hexValue? mantissa whole fraction)
      (raised : ExponentText (fun c => c == 'p' || c == 'P') exponent exponentNegative digits) :
      Spells (sign ++ '0' :: mark :: (mantissa ++ exponent))
        (.hexadecimal negative whole fraction exponentNegative digits)

/-! ### Signs -/

/-- A text does not begin with a sign. -/
def Unsigned (cs : List Char) : Prop := ∀ c ∈ cs.head?, c ≠ '+' ∧ c ≠ '-'

instance {cs : List Char} : Decidable (Unsigned cs) := inferInstanceAs (Decidable (∀ c ∈ cs.head?, _))

theorem signAndRest_sound {cs rest : List Char} {negative : Bool} (h : signAndRest cs = (negative, rest)) :
    ∃ sign, SignText sign negative ∧ cs = sign ++ rest := by
  unfold signAndRest at h
  split at h
  all_goals obtain ⟨rfl, rfl⟩ := Prod.mk.inj h
  · exact ⟨_, .minus, rfl⟩
  · exact ⟨_, .plus, rfl⟩
  · exact ⟨_, .absent, rfl⟩

theorem signAndRest_unsigned {cs : List Char} (h : Unsigned cs) : signAndRest cs = (false, cs) := by
  unfold signAndRest
  split
  · exact absurd rfl (h _ rfl).2
  · exact absurd rfl (h _ rfl).1
  · rfl

theorem signAndRest_append {sign cs : List Char} {negative : Bool} (hsign : SignText sign negative) (h : Unsigned cs) :
    signAndRest (sign ++ cs) = (negative, cs) := by
  cases hsign with
  | absent => exact signAndRest_unsigned h
  | plus => rfl
  | minus => rfl

/-! ### Digits -/

section Digits

variable {digit? : Char → Option Nat} {cs ds rest : List Char} {values whole fraction : List Nat}

theorem DigitText.eq_nil_iff (h : DigitText digit? cs values) : values = [] ↔ cs = [] := by
  have hlength : values.length = cs.length := by simpa using (congrArg List.length h).symm
  rw [← List.length_eq_zero_iff, hlength, List.length_eq_zero_iff]

theorem exists_digitText_iff : (∃ values, DigitText digit? cs values) ↔ ∀ c ∈ cs, (digit? c).isSome := by
  induction cs with
  | nil => exact iff_of_true ⟨[], rfl⟩ (by simp)
  | cons c cs ih =>
    rw [List.forall_mem_cons, ← ih]
    constructor
    · rintro ⟨_ | ⟨value, values⟩, h⟩
      · cases h
      · obtain ⟨hc, hcs⟩ := List.cons.inj h
        exact ⟨Option.isSome_of_eq_some hc, values, hcs⟩
    · rintro ⟨hc, values, hcs⟩
      obtain ⟨value, hvalue⟩ := Option.isSome_iff_exists.mp hc
      exact ⟨value :: values, congrArg₂ List.cons hvalue hcs⟩

theorem DigitText.isSome (h : DigitText digit? cs values) : ∀ c ∈ cs, (digit? c).isSome :=
  exists_digitText_iff.mp ⟨values, h⟩

/-- The run of digits ends where something else follows. -/
theorem digitRun_append (h : DigitText digit? ds values) (hrest : ∀ c ∈ rest.head?, digit? c = none) :
    digitRun digit? (ds ++ rest) = (values, rest) := by
  induction ds generalizing values with
  | nil =>
    obtain rfl : values = [] := h.eq_nil_iff.mpr rfl
    cases rest with
    | nil => rfl
    | cons c rest => simp only [List.nil_append, digitRun, hrest c rfl]
  | cons d ds ih =>
    cases values with
    | nil => cases h
    | cons value values =>
      obtain ⟨hd, hds⟩ := List.cons.inj h
      simp only [List.cons_append, digitRun, hd, ih hds]

theorem digitRun_sound (digit? : Char → Option Nat) (cs : List Char) :
    ∃ ds, DigitText digit? ds (digitRun digit? cs).1 ∧ cs = ds ++ (digitRun digit? cs).2 := by
  induction cs with
  | nil => exact ⟨[], rfl, rfl⟩
  | cons c cs ih =>
    obtain ⟨ds, hdigits, hsplit⟩ := ih
    cases hc : digit? c with
    | none =>
      simp only [digitRun, hc]
      exact ⟨[], rfl, rfl⟩
    | some value =>
      simp only [digitRun, hc]
      exact ⟨c :: ds, congrArg₂ List.cons hc hdigits, congrArg (List.cons c) hsplit⟩

/-- A mantissa is read to its end if neither a digit nor a point follows. -/
theorem mantissa?_append (hpoint : digit? '.' = none) (h : MantissaText digit? cs whole fraction)
    (hrest : ∀ c ∈ rest.head?, digit? c = none ∧ c ≠ '.') :
    mantissa? digit? (cs ++ rest) = some (whole, fraction, rest) := by
  cases h with
  | whole hdigits hne =>
    unfold mantissa?
    rw [digitRun_append hdigits fun c hc => (hrest c hc).1]
    split
    · next heq => exact absurd (hdigits.eq_nil_iff.mp (Prod.mk.inj heq).1) hne
    · next heq => exact absurd (hdigits.eq_nil_iff.mp (Prod.mk.inj heq).1) hne
    · next heq =>
      obtain ⟨-, rfl⟩ := Prod.mk.inj heq
      exact absurd rfl (hrest _ rfl).2
    · next heq =>
      obtain ⟨rfl, rfl⟩ := Prod.mk.inj heq
      rfl
  | @point cs ds _ _ hbefore hbehind hne =>
    have hrun : digitRun digit? (cs ++ '.' :: (ds ++ rest)) = (whole, '.' :: (ds ++ rest)) := by
      refine digitRun_append hbefore ?_
      rintro c ⟨⟩
      exact hpoint
    have hrun' := digitRun_append hbehind fun c hc => (hrest c hc).1
    unfold mantissa?
    rw [List.append_assoc, List.cons_append, hrun]
    cases whole with
    | cons value whole => simp only [hrun']
    | nil =>
      have hfraction : fraction ≠ [] := fun hnil =>
        hne.elim (absurd (hbefore.eq_nil_iff.mp rfl)) (absurd (hbehind.eq_nil_iff.mp hnil))
      simp only [hrun']

theorem mantissa?_sound (h : mantissa? digit? cs = some (whole, fraction, rest)) :
    ∃ mantissa, MantissaText digit? mantissa whole fraction ∧ cs = mantissa ++ rest := by
  obtain ⟨ds, hdigits, hsplit⟩ := digitRun_sound digit? cs
  unfold mantissa? at h
  split at h
  · next tail heq =>
    obtain ⟨es, hbehind, hsplit'⟩ := digitRun_sound digit? tail
    rw [heq] at hdigits hsplit
    split at h
    · cases h
    · next fraction' rest' hne heq' =>
      cases h
      rw [heq'] at hbehind hsplit'
      refine ⟨ds ++ '.' :: es, .point hdigits hbehind (.inr ?_), ?_⟩
      · exact mt hbehind.eq_nil_iff.mpr hne
      · rw [hsplit, hsplit', List.append_assoc, List.cons_append]
  · cases h
  · next whole' tail hne heq =>
    obtain ⟨es, hbehind, hsplit'⟩ := digitRun_sound digit? tail
    cases h
    rw [heq] at hdigits hsplit
    refine ⟨ds ++ '.' :: es, .point hdigits hbehind (.inl ?_), ?_⟩
    · exact mt hdigits.eq_nil_iff.mpr hne
    · rw [List.append_assoc, List.cons_append, ← hsplit', ← hsplit]
  · next whole' tail hne hpoint heq =>
    cases h
    rw [heq] at hdigits hsplit
    exact ⟨ds, .whole hdigits (mt hdigits.eq_nil_iff.mpr hne), hsplit⟩

/-- A mantissa begins with a digit or a point. -/
theorem MantissaText.head_cases (h : MantissaText digit? cs whole fraction) :
    ∃ c tail, cs = c :: tail ∧ ((digit? c).isSome ∨ c = '.') := by
  cases h with
  | whole hdigits hne =>
    cases cs with
    | nil => exact absurd rfl hne
    | cons c cs => exact ⟨c, cs, rfl, .inl (hdigits.isSome c (List.mem_cons_self ..))⟩
  | @point cs ds _ _ hbefore hbehind hne =>
    cases cs with
    | nil => exact ⟨'.', ds, rfl, .inr rfl⟩
    | cons c cs => exact ⟨c, _, rfl, .inl (hbefore.isSome c (List.mem_cons_self ..))⟩

/-- A mantissa begins with no sign, if signs are no digits. -/
theorem MantissaText.unsigned (hplus : digit? '+' = none) (hminus : digit? '-' = none)
    (h : MantissaText digit? cs whole fraction) : Unsigned (cs ++ rest) := by
  obtain ⟨c, tail, rfl, hc⟩ := h.head_cases
  rintro _ ⟨⟩
  constructor <;> rintro rfl <;> simp_all

end Digits

/-! ### Exponents -/

section Exponent

variable {isMark : Char → Bool} {cs digits : List Char} {negative : Bool}

theorem unsigned_of_decimal (h : ∀ d ∈ digits, Text.isDecimal d = true) : Unsigned digits := by
  intro c hc
  have hdecimal := h c (List.mem_of_mem_head? hc)
  constructor <;> rintro rfl <;> exact absurd hdecimal (by decide)

theorem exponentText_iff : ExponentText isMark cs negative digits ↔ exponent? isMark cs = some (negative, digits) := by
  constructor
  · intro h
    cases h with
    | absent => rfl
    | present hmark hsign hne hdecimal =>
      simpa [exponent?, signAndRest_append hsign (unsigned_of_decimal hdecimal), hmark, hne] using hdecimal
  · intro h
    cases cs with
    | nil =>
      obtain ⟨rfl, rfl⟩ := Prod.mk.inj (Option.some.inj h)
      exact .absent
    | cons mark cs =>
      rcases hread : signAndRest cs with ⟨negative', digits'⟩
      obtain ⟨sign, hsign, rfl⟩ := signAndRest_sound hread
      simp only [exponent?, hread, Option.ite_none_right_eq_some, Bool.and_eq_true, Bool.not_eq_true',
        List.isEmpty_eq_false_iff, List.all_eq_true, Option.some.injEq, Prod.mk.injEq] at h
      obtain ⟨⟨⟨hmark, hne⟩, hdecimal⟩, rfl, rfl⟩ := h
      exact .present hmark hsign hne hdecimal

/-- An exponent begins with its mark. -/
theorem ExponentText.head (h : ExponentText isMark cs negative digits) : ∀ c ∈ cs.head?, isMark c = true := by
  cases h with
  | absent => simp
  | present hmark =>
    rintro _ ⟨⟩
    exact hmark

end Exponent

/-! ### Literals -/

section Literals

variable {cs mantissa exponent digits : List Char} {negative exponentNegative : Bool} {whole fraction : List Nat}
  {literal : Literal}

theorem decimal?_complete (hmantissa : MantissaText Text.decimalValue? mantissa whole fraction)
    (hexponent : ExponentText (fun c => c == 'e' || c == 'E') exponent exponentNegative digits) :
    decimal? negative (mantissa ++ exponent) =
      some (.decimal negative whole fraction (negateIf exponentNegative (ofDigits 10 (decimalValues digits)))) := by
  have hrest : ∀ c ∈ exponent.head?, Text.decimalValue? c = none ∧ c ≠ '.' := by
    intro c hc
    have hmark := hexponent.head c hc
    simp only [Bool.or_eq_true, beq_iff_eq] at hmark
    rcases hmark with rfl | rfl <;> decide
  simp [decimal?, mantissa?_append (by decide) hmantissa hrest, exponentText_iff.mp hexponent]

theorem decimal?_sound (h : decimal? negative cs = some literal) :
    ∃ mantissa exponent whole fraction exponentNegative digits,
      MantissaText Text.decimalValue? mantissa whole fraction ∧
      ExponentText (fun c => c == 'e' || c == 'E') exponent exponentNegative digits ∧ cs = mantissa ++ exponent ∧
      literal = .decimal negative whole fraction (negateIf exponentNegative (ofDigits 10 (decimalValues digits))) := by
  simp only [decimal?, Option.bind_eq_bind, Option.bind_eq_some_iff, Option.pure_def, Option.some.injEq] at h
  obtain ⟨⟨whole, fraction, rest⟩, hmantissa, ⟨exponentNegative, digits⟩, hexponent, rfl⟩ := h
  obtain ⟨mantissa, hcounted, rfl⟩ := mantissa?_sound hmantissa
  exact ⟨mantissa, rest, whole, fraction, exponentNegative, digits, hcounted, exponentText_iff.mpr hexponent, rfl, rfl⟩

theorem hexadecimal?_complete {mark : Char} (hmark : mark = 'x' ∨ mark = 'X')
    (hmantissa : MantissaText hexValue? mantissa whole fraction)
    (hexponent : ExponentText (fun c => c == 'p' || c == 'P') exponent exponentNegative digits) :
    hexadecimal? negative ('0' :: mark :: (mantissa ++ exponent)) =
      some (.hexadecimal negative whole fraction exponentNegative digits) := by
  have hrest : ∀ c ∈ exponent.head?, hexValue? c = none ∧ c ≠ '.' := by
    intro c hc
    have hmark := hexponent.head c hc
    simp only [Bool.or_eq_true, beq_iff_eq] at hmark
    rcases hmark with rfl | rfl <;> decide
  simp [hexadecimal?, hmark, mantissa?_append (by decide) hmantissa hrest, exponentText_iff.mp hexponent]

theorem hexadecimal?_sound (h : hexadecimal? negative cs = some literal) :
    ∃ mark mantissa exponent whole fraction exponentNegative digits, (mark = 'x' ∨ mark = 'X') ∧
      MantissaText hexValue? mantissa whole fraction ∧
      ExponentText (fun c => c == 'p' || c == 'P') exponent exponentNegative digits ∧
      cs = '0' :: mark :: (mantissa ++ exponent) ∧
      literal = .hexadecimal negative whole fraction exponentNegative digits := by
  unfold hexadecimal? at h
  split at h
  · next mark rest =>
    split at h
    · next hmark =>
      simp only [Option.bind_eq_bind, Option.bind_eq_some_iff, Option.pure_def, Option.some.injEq] at h
      obtain ⟨⟨whole, fraction, rest⟩, hmantissa, ⟨exponentNegative, digits⟩, hexponent, rfl⟩ := h
      obtain ⟨mantissa, hcounted, rfl⟩ := mantissa?_sound hmantissa
      exact ⟨mark, mantissa, rest, whole, fraction, exponentNegative, digits, hmark, hcounted,
        exponentText_iff.mpr hexponent, rfl, rfl⟩
    · cases h
  · cases h

/-- What begins as a hexadecimal literal is no decimal one. -/
theorem decimal?_of_marked {mark : Char} (hmark : mark = 'x' ∨ mark = 'X') :
    decimal? negative ('0' :: mark :: cs) = none := by
  have hzero : Text.decimalValue? '0' = some 0 := by decide
  rcases hmark with rfl | rfl
  · have hletter : Text.decimalValue? 'x' = none := by decide
    simp [decimal?, mantissa?, digitRun, exponent?, hzero, hletter]
  · have hletter : Text.decimalValue? 'X' = none := by decide
    simp [decimal?, mantissa?, digitRun, exponent?, hzero, hletter]

/-- A text is read as a literal exactly if it is spelled as one. -/
theorem spells_iff_read {text : String} : Spells text.toList literal ↔ read? text = some literal := by
  simp only [read?, Option.orElse_eq_some]
  constructor
  · intro h
    generalize htext : text.toList = cs at h
    cases h with
    | decimal hsign hmantissa hexponent =>
      rw [signAndRest_append hsign (hmantissa.unsigned (by decide) (by decide))]
      exact .inl (decimal?_complete hmantissa hexponent)
    | hexadecimal hsign hmark hmantissa hexponent =>
      rw [signAndRest_append hsign (by rintro _ ⟨⟩; decide)]
      exact .inr ⟨decimal?_of_marked hmark, hexadecimal?_complete hmark hmantissa hexponent⟩
  · rcases hread : signAndRest text.toList with ⟨negative, rest⟩
    obtain ⟨sign, hsign, hsplit⟩ := signAndRest_sound hread
    rw [hsplit]
    rintro (h | ⟨-, h⟩)
    · obtain ⟨mantissa, exponent, whole, fraction, exponentNegative, digits, hmantissa, hexponent, rfl, rfl⟩ :=
        decimal?_sound h
      exact .decimal hsign hmantissa hexponent
    · obtain ⟨mark, mantissa, exponent, whole, fraction, exponentNegative, digits, hmark, hmantissa, hexponent, rfl,
        rfl⟩ := hexadecimal?_sound h
      exact .hexadecimal hsign hmark hmantissa hexponent

end Literals

end DesignTokens.Number.Literal
