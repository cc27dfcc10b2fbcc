import Mathlib.Data.List.DropRight
import DesignTokens.Proofs.Json.Legible

/-!
# Reading what is written

The reader of documents reads a legible value from the text that it is written as, in every arrangement. The doubles
in it are left to a premise: what is assumed of a double is that the reader reads it from its own text, and nothing
about text around it.

Scalars are read in two ways. A word or a number may stand in front of anything that does not continue a number
(`Ends`), so what is read from a text alone is read from it in front of other text too (`Reader.scalar?_append`). That
carries the doubles over; integers, words and texts are read character by character. Lists and objects follow by
induction on the value, and inside it by induction on the items. The bound on the steps is the length of the text.

* `Json.Reader.character?_escapedChar` — a character is read from its escape.
* `Json.Reader.scalar?_int` — an integer is read from its digits.
* `Json.value?_write` — a value is read from its text in front of other text.
* `Json.read?_write` — and from its text alone.
* `Json.hasHalf_write` — a legible value is written as Unicode text.
-/

namespace DesignTokens.Json

open Text (Unicode)

mutual

/-- The doubles in a value, in order. -/
def floats : Json → List Float
  | .float x _ => [x]
  | .list items => itemFloats items
  | .object members => memberFloats members
  | _ => []

def itemFloats : List Json → List Float
  | [] => []
  | item :: rest => floats item ++ itemFloats rest

def memberFloats : List (String × Json) → List Float
  | [] => []
  | (_, value) :: rest => floats value ++ memberFloats rest

end

theorem mem_floats_list {x : Float} {items : List Json} {item : Json} (hmem : item ∈ items) (hx : x ∈ item.floats) :
    x ∈ (Json.list items).floats := by
  rw [floats]
  induction items with
  | nil => cases hmem
  | cons first rest ih =>
    rw [itemFloats, List.mem_append]
    rcases List.mem_cons.mp hmem with rfl | hrest
    · exact .inl hx
    · exact .inr (ih hrest)

theorem mem_floats_object {x : Float} {members : List (String × Json)} {member : String × Json}
    (hmem : member ∈ members) (hx : x ∈ member.2.floats) : x ∈ (Json.object members).floats := by
  rw [floats]
  induction members with
  | nil => cases hmem
  | cons first rest ih =>
    obtain ⟨name, value⟩ := first
    rw [memberFloats, List.mem_append]
    rcases List.mem_cons.mp hmem with rfl | hrest
    · exact .inl hx
    · exact .inr (ih hrest)

/-- A finite double that is read from the text that it is written as. -/
structure ReadsBack (x : Float) : Prop where
  isFinite : x.isFinite = true
  read : read? .document (Number.Layout.dump.text x) = some (.float x)

namespace Reader

/-! ### Text behind a value -/

/-- Text that does not go on with a number before it. -/
def Ends (rest : List Char) : Prop :=
  ∀ c ∈ rest.head?, c.isDigit = false ∧ c ≠ '.' ∧ c ≠ 'e' ∧ c ≠ 'E'

theorem ends_nil : Ends [] := by simp [Ends]

theorem ends_cons {c : Char} {rest : List Char} :
    Ends (c :: rest) ↔ c.isDigit = false ∧ c ≠ '.' ∧ c ≠ 'e' ∧ c ≠ 'E' := by
  simp [Ends]

variable {dialect : Dialect} {cs rest : List Char}

theorem after?_self (word : String) (rest : List Char) : after? word (word.toList ++ rest) = some rest := by
  simp [after?, ← String.length_toList]

theorem after?_append {word : String} {left : List Char} (h : after? word cs = some left) :
    after? word (cs ++ rest) = some (left ++ rest) := by
  unfold after? at h ⊢
  split at h
  · next hprefix =>
    cases h
    obtain ⟨behind, rfl⟩ := List.isPrefixOf_iff_prefix.mp hprefix
    simp [← String.length_toList]
  · cases h

theorem digits_of_forall {ds : List Char} (hds : ∀ c ∈ ds, c.isDigit = true) (hrest : Ends rest) :
    digits (ds ++ rest) = (ds, rest) := by
  unfold digits
  rw [List.span_eq_takeWhile_dropWhile, List.takeWhile_append_of_pos hds, List.dropWhile_append_of_pos hds]
  cases rest with
  | nil => simp
  | cons c rest => simp [(ends_cons.mp hrest).1]

theorem digits_append_ends (hrest : Ends rest) : digits (cs ++ rest) = ((digits cs).1, (digits cs).2 ++ rest) := by
  induction cs with
  | nil => exact digits_of_forall (List.forall_mem_nil _) hrest
  | cons c cs ih =>
    unfold digits at ih ⊢
    simp only [List.span_eq_takeWhile_dropWhile, List.cons_append] at ih ⊢
    cases hc : c.isDigit with
    | false => simp [hc]
    | true =>
      obtain ⟨htake, hdrop⟩ := Prod.mk.inj ih
      simp [hc, htake, hdrop]

theorem fraction?_append {result left : List Char} (h : fraction? cs = some (result, left)) (hrest : Ends rest) :
    fraction? (cs ++ rest) = some (result, left ++ rest) := by
  cases cs with
  | nil =>
    cases h
    cases rest with
    | nil => rfl
    | cons c rest =>
      have hc := (ends_cons.mp hrest).2.1
      unfold fraction?
      split
      · next heq =>
        cases heq
        exact absurd rfl hc
      · rfl
  | cons c cs =>
    by_cases hc : c = '.'
    · subst hc
      simp only [fraction?, List.cons_append, digits_append_ends hrest] at h ⊢
      generalize digits cs = found at h ⊢
      obtain ⟨ds, behind⟩ := found
      cases ds with
      | nil => cases h
      | cons d ds =>
        cases h
        rfl
    · unfold fraction? at h ⊢
      split at h
      · next heq => exact absurd (List.cons.inj heq).1 hc
      · cases h
        split
        · next heq => exact absurd (List.cons.inj heq).1 hc
        · rfl

theorem exponent?_ends (hrest : Ends rest) : exponent? rest = some (none, rest) := by
  cases rest with
  | nil => rfl
  | cons c rest =>
    have hc := (ends_cons.mp hrest).2.2
    simp [exponent?, hc.1, hc.2]

theorem exponent?_append {result : Option Int} {left : List Char} (h : exponent? cs = some (result, left))
    (hrest : Ends rest) : exponent? (cs ++ rest) = some (result, left ++ rest) := by
  cases cs with
  | nil =>
    cases h
    exact exponent?_ends hrest
  | cons mark cs =>
    simp only [exponent?, List.cons_append] at h ⊢
    by_cases hmark : mark = 'e' ∨ mark = 'E'
    · rw [if_pos hmark] at h ⊢
      cases cs with
      | nil => cases h
      | cons sign cs =>
        have hsign : Number.Literal.signAndRest (sign :: cs ++ rest) =
            ((Number.Literal.signAndRest (sign :: cs)).1, (Number.Literal.signAndRest (sign :: cs)).2 ++ rest) := by
          unfold Number.Literal.signAndRest
          split <;> simp_all
        rw [hsign]
        simp only [digits_append_ends hrest] at h ⊢
        generalize digits (Number.Literal.signAndRest (sign :: cs)).2 = found at h ⊢
        obtain ⟨ds, behind⟩ := found
        cases ds with
        | nil => cases h
        | cons d ds =>
          cases h
          rfl
    · rw [if_neg hmark] at h ⊢
      cases h
      rfl

theorem number?_append {negative : Bool} {v : Datum} {left : List Char}
    (h : number? dialect negative cs = some (v, left)) (hrest : Ends rest) :
    number? dialect negative (cs ++ rest) = some (v, left ++ rest) := by
  unfold number? at h ⊢
  dsimp only at h ⊢
  rw [digits_append_ends hrest]
  split at h
  · cases h
  · next hwhole =>
    rw [if_neg hwhole]
    obtain ⟨⟨fraction, behind⟩, hfraction, h⟩ := Option.bind_eq_some_iff.mp h
    obtain ⟨⟨exponent, behind'⟩, hexponent, h⟩ := Option.bind_eq_some_iff.mp h
    refine Option.bind_eq_some_iff.mpr ⟨_, fraction?_append hfraction hrest, ?_⟩
    refine Option.bind_eq_some_iff.mpr ⟨_, exponent?_append hexponent hrest, ?_⟩
    dsimp only at h ⊢
    split at h
    · cases h
    · next hdigits =>
      rw [if_neg hdigits]
      split at h
      · next hinteger =>
        rw [if_pos hinteger]
        cases h
        rfl
      · next hinteger =>
        rw [if_neg hinteger]
        cases h
        rfl

theorem scalar?_of_isDigit {c : Char} (hc : c.isDigit = true) :
    scalar? dialect (c :: cs) = number? dialect false (c :: cs) := by
  unfold scalar?
  split <;> first | rfl | (next heq => cases heq; exact absurd hc (by decide))

theorem scalar?_minus {c : Char} (hc : c ≠ 'I') :
    scalar? dialect ('-' :: c :: cs) = number? dialect true (c :: cs) := by
  unfold scalar?
  split <;> simp_all

/-- A number starts with a digit. -/
theorem isDigit_of_number? {negative : Bool} {c : Char} {v : Datum} {left : List Char}
    (h : number? dialect negative (c :: cs) = some (v, left)) : c.isDigit = true := by
  cases hc : c.isDigit with
  | true => rfl
  | false =>
    unfold number? digits at h
    simp [List.span_eq_takeWhile_dropWhile, hc] at h

/-- A word or a number that is read from a text is read from it in front of other text. -/
theorem scalar?_append {v : Datum} {left : List Char} (h : scalar? dialect cs = some (v, left)) (hrest : Ends rest) :
    scalar? dialect (cs ++ rest) = some (v, left ++ rest) := by
  have word {word : String} {value : Datum} {cs left : List Char}
      (h : (after? word cs).map (value, ·) = some (v, left)) :
      (after? word (cs ++ rest)).map (value, ·) = some (v, left ++ rest) := by
    obtain ⟨behind, hafter, heq⟩ := Option.map_eq_some_iff.mp h
    cases heq
    rw [after?_append hafter]
    rfl
  unfold scalar? at h
  split at h
  · exact word h
  · exact word h
  · exact word h
  · exact word h
  · exact word h
  · exact word h
  · next cs hinfinite =>
    cases cs with
    | nil => cases h
    | cons c cs =>
      have hc : c ≠ 'I' := by
        rintro rfl
        exact hinfinite _ rfl
      rw [List.cons_append, List.cons_append, scalar?_minus hc]
      exact number?_append h hrest
  · cases cs with
    | nil => cases h
    | cons c cs =>
      rw [List.cons_append, scalar?_of_isDigit (isDigit_of_number? h)]
      exact number?_append h hrest

/-! ### Integers -/

theorem isDigit_toDigits {n : Nat} {c : Char} (h : c ∈ Nat.toDigits 10 n) : c.isDigit = true :=
  Nat.isDigit_of_mem_toDigits (by decide) (by decide) h

theorem decimalValue?_of_isDigit {c : Char} (h : c.isDigit = true) :
    Text.decimalValue? c = some (c.toNat - '0'.toNat) := by
  simp only [Char.isDigit, Bool.and_eq_true, decide_eq_true_eq] at h
  have hrange : ('0' ≤ c && c ≤ '9') = true := by
    simp only [Bool.and_eq_true, decide_eq_true_eq, Char.le_def]
    exact h
  rw [Text.decimalValue?, if_pos hrange]

/-- Digits stand for the number that they are written for. -/
theorem ofDigits_toDigits (n : Nat) :
    Number.Literal.ofDigits 10 (Number.Literal.decimalValues (Nat.toDigits 10 n)) = n := by
  have hvalue {cs : List Char} (h : ∀ c ∈ cs, c.isDigit = true) (total : Nat) :
      (Number.Literal.decimalValues cs).foldl (fun total digit => total * 10 + digit) total =
        Nat.ofDigitChars 10 cs total := by
    induction cs generalizing total with
    | nil => rfl
    | cons c cs ih =>
      obtain ⟨hc, hcs⟩ := List.forall_mem_cons.mp h
      have hcons : Number.Literal.decimalValues (c :: cs) =
          (c.toNat - '0'.toNat) :: Number.Literal.decimalValues cs := by
        simp [Number.Literal.decimalValues, decimalValue?_of_isDigit hc]
      rw [hcons, List.foldl_cons, ih hcs, Nat.ofDigitChars_cons, Nat.mul_comm]
  exact (hvalue (fun _ => isDigit_toDigits) 0).trans Nat.ofDigitChars_ten_toDigits

/-- Only zero is written with a zero in front. -/
theorem eq_zero_of_head?_toDigits {n : Nat} (h : (Nat.toDigits 10 n).head? = some '0') : n = 0 := by
  induction n using Nat.strongRecOn with
  | ind n ih =>
    rw [Nat.toDigits_eq_if (by decide)] at h
    split at h
    · next hlt =>
      have hdigit : ∀ d < 10, d.digitChar = '0' → d = 0 := by decide
      exact hdigit n hlt (Option.some.inj h)
    · next hge =>
      rw [List.head?_append_of_ne_nil _ Nat.toDigits_ne_nil] at h
      have hzero := ih (n / 10) (by omega) h
      omega

theorem number?_toDigits {n : Nat} (negative : Bool) (hn : n < 10 ^ Number.maximalDigits) (hrest : Ends rest) :
    number? dialect negative (Nat.toDigits 10 n ++ rest) = some (.int (Number.negateIf negative n), rest) := by
  have hlength : (Nat.toDigits 10 n).length ≤ Number.maximalDigits :=
    (Nat.length_toDigits_le_iff (by decide) (by decide)).mpr hn
  have hfraction : fraction? rest = some ([], rest) := fraction?_append (show fraction? [] = some ([], []) from rfl) hrest
  have hlead : ((Nat.toDigits 10 n).isEmpty ||
      ((Nat.toDigits 10 n).length != 1 && (Nat.toDigits 10 n).head? == some '0')) = false := by
    have hnonempty : (Nat.toDigits 10 n).isEmpty = false := by simp
    rw [hnonempty, Bool.false_or, Bool.and_eq_false_iff]
    cases hhead : (Nat.toDigits 10 n).head? == some '0' with
    | false => exact .inr rfl
    | true =>
      rw [eq_zero_of_head?_toDigits (beq_iff_eq.mp hhead)]
      exact .inl rfl
  unfold number?
  dsimp only
  rw [digits_of_forall (fun _ => isDigit_toDigits) hrest]
  simp only [hlead, hfraction, exponent?_ends hrest, ofDigits_toDigits, Bool.false_eq_true, if_false,
    Option.bind_eq_bind, Option.bind_some, List.isEmpty_nil, Option.isNone_none, Bool.true_or, Bool.true_and,
    decide_eq_true_eq, if_neg (Nat.not_lt.mpr hlength), if_true]

/-- An integer is written in its digits, behind a minus if it is negative. -/
theorem toList_toString (n : Int) :
    (toString n).toList = if n < 0 then '-' :: Nat.toDigits 10 n.natAbs else Nat.toDigits 10 n.natAbs := by
  cases n <;> simp [toString, Int.repr, Int.negSucc_lt_zero]

/-- An integer is read from its digits. -/
theorem scalar?_int {n : Int} (hn : n.natAbs < 10 ^ Number.maximalDigits) (hrest : Ends rest) :
    scalar? dialect ((toString n).toList ++ rest) = some (.int n, rest) := by
  have hnumber (negative : Bool) :
      number? dialect negative (Nat.toDigits 10 n.natAbs ++ rest) =
        some (.int (Number.negateIf negative n.natAbs), rest) := number?_toDigits negative hn hrest
  obtain ⟨c, ds, hds⟩ := List.exists_cons_of_ne_nil (Nat.toDigits_ne_nil (n := n.natAbs) (b := 10))
  have hc : c.isDigit = true := isDigit_toDigits (n := n.natAbs) (hds ▸ List.mem_cons_self ..)
  rw [toList_toString]
  split
  · next hnegative =>
    have hminus : c ≠ 'I' := by
      rintro rfl
      cases hc
    have hvalue : Number.negateIf true n.natAbs = n := by
      simp only [Number.negateIf, if_true]
      omega
    rw [List.cons_append, hds, List.cons_append, scalar?_minus hminus, ← List.cons_append, ← hds, hnumber, hvalue]
  · next hpositive =>
    have hvalue : Number.negateIf false n.natAbs = n := Int.natAbs_of_nonneg (Int.not_lt.mp hpositive)
    rw [hds, List.cons_append, scalar?_of_isDigit hc, ← List.cons_append, ← hds, hnumber, hvalue]

/-! ### Texts -/

theorem unit?_of_length {ds : List Char} {n : Nat} (hlength : ds.length = 4)
    (hvalue : (ds.mapM Number.Literal.hexValue?).map (Number.Literal.ofDigits 16) = some n) :
    unit? (ds ++ rest) = some (n, rest) := by
  match ds, hlength with
  | [a, b, c, d], _ =>
    obtain ⟨values, hvalues, hn⟩ := Option.map_eq_some_iff.mp hvalue
    simp only [unit?, List.cons_append, List.nil_append, hvalues, Option.bind_eq_bind, Option.bind_some, hn]
    rfl

theorem half?_of_lt {c : Char} (h : c.toNat < 128) : Text.half? c = none := by
  have hfirst : ¬(Text.firstStandIn ≤ c.toNat ∧ c.toNat < Text.firstStandIn + 0x800) := by
    simp only [Text.firstStandIn]
    omega
  rw [Text.half?, if_neg hfirst]

/-- A control character is read from its number. -/
theorem unicodeEscape?_hexText {c : Char} (hc : c.toNat < 32) :
    unicodeEscape? dialect (Text.hexText 4 c.toNat ++ rest) = some (c, rest) := by
  have hlength : ∀ n < 32, (Text.hexText 4 n).length = 4 := by decide
  have hvalue : ∀ n < 32,
      ((Text.hexText 4 n).mapM Number.Literal.hexValue?).map (Number.Literal.ofDigits 16) = some n := by
    decide
  have hunit : unit? (Text.hexText 4 c.toNat ++ rest) = some (c.toNat, rest) :=
    unit?_of_length (hlength _ hc) (hvalue _ hc)
  have hcode : Text.ofCode? c.toNat = some c := by
    have hhalf : Text.isHalfCode c.toNat = false := by
      simp only [Text.isHalfCode, Bool.and_eq_false_iff, decide_eq_false_iff_not]
      omega
    rw [Text.ofCode?, hhalf, if_neg Bool.false_ne_true, if_pos (show c.toNat.isValidChar from c.valid),
      Char.ofNat_toNat]
  have hpair : unitCharacter? c.toNat rest = some (c, rest) := by
    rw [unitCharacter?, if_neg (by omega), hcode]
    rfl
  simp [unicodeEscape?, hunit, hpair, half?_of_lt (Nat.lt_trans hc (by decide : 32 < 128))]

/-- A character is read from its escape. -/
theorem character?_escapedChar (c : Char) : character? dialect (escapedChar c ++ rest) = some (c, rest) := by
  unfold escapedChar
  split
  · next h =>
    subst h
    rfl
  split
  · next h =>
    subst h
    rfl
  split
  · next h =>
    subst h
    rfl
  split
  · next h =>
    subst h
    rfl
  split
  · next h =>
    subst h
    rfl
  split
  · next h =>
    have hc : c = '\x08' := Char.toNat_inj.mp h
    subst hc
    rfl
  split
  · next h =>
    have hc : c = '\x0c' := Char.toNat_inj.mp h
    subst hc
    rfl
  split
  · next h => exact unicodeEscape?_hexText h
  · next hbackslash _ _ _ _ _ hcontrol =>
    unfold character?
    split
    · next heq => exact absurd (List.cons.inj heq).1 hbackslash
    · next heq => exact absurd (List.cons.inj heq).1 hbackslash
    · next heq =>
      cases heq
      rw [if_neg (not_or.mpr ⟨hcontrol, hbackslash⟩)]
      rfl
    · next heq => cases heq

/-- No escape starts with a quote. -/
theorem exists_escapedChar (c : Char) : ∃ first others, escapedChar c = first :: others ∧ first ≠ '"' := by
  unfold escapedChar
  by_cases hquote : c = '"'
  · exact ⟨'\\', ['"'], if_pos hquote, by decide⟩
  · rw [if_neg hquote]
    split_ifs <;> first | exact ⟨_, _, rfl, by decide⟩ | exact ⟨_, _, rfl, hquote⟩

/-- The body of a string is read from the escapes of its characters. -/
theorem stringBody_escaped {steps : Nat} {before cs : List Char} (h : cs.length ≤ steps) :
    stringBody dialect steps before (cs.flatMap escapedChar ++ '"' :: rest) =
      some (String.ofList (before.reverse ++ cs), rest) := by
  induction cs generalizing steps before with
  | nil =>
    unfold stringBody
    simp
  | cons c cs ih =>
    obtain ⟨steps, rfl⟩ := Nat.exists_eq_add_of_le' (Nat.one_le_of_lt h)
    obtain ⟨first, others, hescape, hquote⟩ := exists_escapedChar c
    have hbody : stringBody dialect steps (c :: before) (cs.flatMap escapedChar ++ '"' :: rest) =
        some (String.ofList ((c :: before).reverse ++ cs), rest) := ih (Nat.le_of_succ_le_succ h)
    have hcharacter : character? dialect ((c :: cs).flatMap escapedChar ++ '"' :: rest) =
        some (c, cs.flatMap escapedChar ++ '"' :: rest) := by
      rw [List.flatMap_cons, List.append_assoc, character?_escapedChar]
    unfold stringBody
    split
    · next heq =>
      rw [List.flatMap_cons, hescape] at heq
      exact absurd (List.cons.inj heq).1 hquote
    · next heq _ => cases heq
    · next heq _ =>
      cases heq
      rw [hcharacter]
      simpa using hbody

theorem toList_stringText (s : String) : (stringText s).toList = '"' :: s.toList.flatMap escapedChar ++ ['"'] := by
  simp [stringText]

theorem length_le_flatMap_escapedChar (cs : List Char) : cs.length ≤ (cs.flatMap escapedChar).length := by
  induction cs with
  | nil => exact Nat.zero_le _
  | cons c cs ih =>
    obtain ⟨first, others, hescape, -⟩ := exists_escapedChar c
    rw [List.flatMap_cons, hescape, List.length_append, List.length_cons, List.length_cons]
    omega

/-! ### Spaces -/

theorem skipSpaces_skipSpaces (cs : List Char) : skipSpaces (skipSpaces cs) = skipSpaces cs :=
  List.dropWhile_idempotent isSpace cs

theorem skipSpaces_cons {c : Char} (hc : isSpace c = false) : skipSpaces (c :: cs) = c :: cs := by
  simp [skipSpaces, hc]

theorem skipSpaces_append_of_eq_nil (h : skipSpaces cs = []) : skipSpaces (cs ++ rest) = skipSpaces rest := by
  unfold skipSpaces at h ⊢
  rw [List.dropWhile_append, h]
  rfl

theorem skipSpaces_append_of_ne_nil (h : skipSpaces cs ≠ []) : skipSpaces (cs ++ rest) = skipSpaces cs ++ rest := by
  unfold skipSpaces at h ⊢
  rw [List.dropWhile_append, if_neg (mt List.isEmpty_iff.mp h)]

/-- The spaces in front of a value do not matter. -/
theorem value?_congr {steps depth : Nat} {others : List Char} (h : skipSpaces cs = skipSpaces others) :
    value? dialect steps depth cs = value? dialect steps depth others := by
  cases steps with
  | zero => rfl
  | succ steps => simp only [value?, h]

theorem items?_congr {steps depth : Nat} {others : List Char} (h : skipSpaces cs = skipSpaces others) :
    items? dialect steps depth cs = items? dialect steps depth others := by
  cases steps with
  | zero => rfl
  | succ steps => simp only [items?, value?_congr h]

theorem members?_congr {steps depth : Nat} {others : List Char} (h : skipSpaces cs = skipSpaces others) :
    members? dialect steps depth cs = members? dialect steps depth others := by
  cases steps with
  | zero => rfl
  | succ steps => simp only [members?, h]

theorem separator?_congr {closing : Char} {others : List Char} (h : skipSpaces cs = skipSpaces others) :
    separator? closing cs = separator? closing others := by
  simp only [separator?, h]

/-- What starts a line is space. -/
theorem skipSpaces_lineStart (a : Arrangement) (cs : List Char) :
    skipSpaces (a.lineStart.toList ++ cs) = skipSpaces cs := by
  cases a with
  | compact => rfl
  | indented width level =>
    have hspace : ∀ c ∈ (Arrangement.indented width level).lineStart.toList, isSpace c = true := by
      intro c hc
      simp only [Arrangement.lineStart, String.toList_ofList, List.mem_cons, List.mem_replicate] at hc
      obtain rfl | ⟨-, rfl⟩ := hc <;> decide
    exact List.dropWhile_append_of_pos hspace

theorem ends_lineStart (a : Arrangement) {c : Char} (hc : Ends (c :: rest)) :
    Ends (a.lineStart.toList ++ c :: rest) := by
  cases a with
  | compact => exact hc
  | indented width level =>
    have hline : (Arrangement.indented width level).lineStart.toList = '\n' :: List.replicate (width * level) ' ' := by
      simp [Arrangement.lineStart]
    rw [hline, List.cons_append, ends_cons]
    decide

/-! ### Scalars inside text -/

theorem scalar?_eq_none {c : Char} (hc : c ∈ [' ', '\n', '\t', '\r', '"', '[', '\x7b', ']']) :
    scalar? dialect (c :: cs) = none := by
  simp only [List.mem_cons, List.not_mem_nil, or_false] at hc
  rcases hc with rfl | rfl | rfl | rfl | rfl | rfl | rfl | rfl <;> rfl

/-- What is read as a scalar is no other value. -/
theorem value?_of_scalar? {steps depth : Nat} {v : Datum} {left : List Char} (h : scalar? dialect cs = some (v, left)) :
    value? dialect (steps + 1) depth cs = some (v, left) := by
  cases cs with
  | nil => cases h
  | cons c cs =>
    have hc : c ∉ [' ', '\n', '\t', '\r', '"', '[', '\x7b', ']'] := by
      intro hmem
      rw [scalar?_eq_none hmem] at h
      cases h
    simp only [List.mem_cons, List.not_mem_nil, or_false, not_or] at hc
    have hspace : isSpace c = false := by simp [isSpace, hc]
    unfold value?
    rw [skipSpaces_cons hspace]
    split
    · next heq => exact absurd (List.cons.inj heq).1 hc.2.2.2.2.1
    · next heq => exact absurd (List.cons.inj heq).1 hc.2.2.2.2.2.1
    · next heq => exact absurd (List.cons.inj heq).1 hc.2.2.2.2.2.2.1
    · exact h

/-- A double is read as a scalar. -/
theorem scalar?_of_value? {steps depth : Nat} {x : Float} {origin : Option Nat} {left : List Char}
    (h : value? dialect steps depth cs = some (.float x origin, left)) :
    scalar? dialect (skipSpaces cs) = some (.float x origin, left) := by
  cases steps with
  | zero => cases h
  | succ steps =>
    unfold value? at h
    split at h
    · obtain ⟨_, -, heq⟩ := Option.map_eq_some_iff.mp h
      cases heq
    · split at h
      · cases h
      · cases h
      · obtain ⟨_, -, heq⟩ := Option.map_eq_some_iff.mp h
        cases heq
    · split at h
      · cases h
      · cases h
      · obtain ⟨_, -, heq⟩ := Option.map_eq_some_iff.mp h
        cases heq
    · exact h

end Reader

open Json.Reader

/-! ### Values -/

/-- A value is read from the text that it is written as, in front of text that ends a number; the spaces behind it
may be left out. -/
def Recovered (depth : Nat) (v : Json) : Prop :=
  ∀ (a : Arrangement) (steps : Nat) (rest : List Char), (write a v).length ≤ steps → Ends rest →
    ∃ left, value? .document steps depth ((write a v).toList ++ rest) = some (Datum.ofJson v, left) ∧
      skipSpaces left = skipSpaces rest

variable {depth : Nat}

theorem recovered_of_scalar? {v : Json} {text : String} (hwrite : ∀ a, write a v = text)
    (h : ∀ rest, Ends rest → scalar? .document (text.toList ++ rest) = some (Datum.ofJson v, rest)) :
    Recovered depth v := by
  intro a steps rest hsteps hrest
  rw [hwrite a] at hsteps ⊢
  have hnonempty : text.toList ≠ [] := by
    intro hempty
    have hnone := h [] ends_nil
    rw [hempty] at hnone
    cases hnone
  have hpos : 0 < text.length := by
    rw [← String.length_toList]
    exact List.length_pos_iff.mpr hnonempty
  obtain ⟨steps, rfl⟩ := Nat.exists_eq_add_of_le' (Nat.lt_of_lt_of_le hpos hsteps)
  exact ⟨rest, value?_of_scalar? (h rest hrest), rfl⟩

/-- What the reader takes from the text of a double is a scalar between spaces. -/
theorem ReadsBack.scalar? {x : Float} (h : ReadsBack x) :
    ∃ left, Reader.scalar? .document (skipSpaces (Number.Layout.dump.text x).toList) = some (.float x, left) ∧
      skipSpaces left = [] := by
  obtain ⟨⟨v, left⟩, hread, hleft⟩ := Option.bind_eq_some_iff.mp h.read
  dsimp only at hleft
  split at hleft
  · next hempty =>
    cases hleft
    exact ⟨left, scalar?_of_value? hread, List.isEmpty_iff.mp hempty⟩
  · cases hleft

theorem recovered_float {x : Float} (h : ReadsBack x) : Recovered depth (.float x) := by
  intro a steps rest hsteps hrest
  obtain ⟨left, hscalar, hleft⟩ := h.scalar?
  have hnonempty : skipSpaces (Number.Layout.dump.text x).toList ≠ [] := by
    intro hnil
    rw [hnil] at hscalar
    cases hscalar
  have hpos : 0 < (Number.Layout.dump.text x).length := by
    rw [← String.length_toList, List.length_pos_iff]
    intro hnil
    rw [hnil] at hnonempty
    exact hnonempty rfl
  rw [write, if_pos h.isFinite] at hsteps ⊢
  obtain ⟨steps, rfl⟩ := Nat.exists_eq_add_of_le' (Nat.lt_of_lt_of_le hpos hsteps)
  have hskip : skipSpaces ((Number.Layout.dump.text x).toList ++ rest) =
      skipSpaces (Number.Layout.dump.text x).toList ++ rest := skipSpaces_append_of_ne_nil hnonempty
  refine ⟨left ++ rest, ?_, skipSpaces_append_of_eq_nil hleft⟩
  rw [← value?_congr (skipSpaces_skipSpaces _), hskip]
  exact value?_of_scalar? (scalar?_append hscalar hrest)

theorem recovered_string (s : String) : Recovered depth (.string s) := by
  intro a steps rest hsteps _
  rw [write, ← String.length_toList, toList_stringText] at hsteps
  have hlength := length_le_flatMap_escapedChar s.toList
  simp only [List.length_append, List.length_cons, List.length_nil] at hsteps
  obtain ⟨steps, rfl⟩ := Nat.exists_eq_add_of_le' (show 1 ≤ steps by omega)
  refine ⟨rest, ?_, rfl⟩
  have hbody : stringBody .document steps [] (s.toList.flatMap escapedChar ++ '"' :: rest) = some (s, rest) := by
    rw [stringBody_escaped (by omega)]
    simp
  rw [write, toList_stringText]
  unfold value?
  simp [skipSpaces_cons (show isSpace '"' = false by decide), hbody, Datum.ofJson]

/-! ### Lists and objects -/

/-- The text between brackets: each part on its line, with commas between them. -/
def inside (a : Arrangement) (parts : List String) : String := ",".intercalate (parts.map (a.lineStart ++ ·))

theorem toList_inside_singleton (a : Arrangement) (part : String) :
    (inside a [part]).toList = a.lineStart.toList ++ part.toList := by
  simp [inside]

theorem toList_inside_cons_cons (a : Arrangement) (part next : String) (parts : List String) :
    (inside a (part :: next :: parts)).toList =
      a.lineStart.toList ++ (part.toList ++ ',' :: (inside a (next :: parts)).toList) := by
  simp [inside, String.intercalate_cons_cons]

theorem toList_bracketed (a : Arrangement) (opening closing : String) {parts : List String} (h : parts ≠ []) :
    (a.bracketed opening closing parts).toList =
      opening.toList ++ ((inside a.inner parts).toList ++ (a.lineStart.toList ++ closing.toList)) := by
  simp [Arrangement.bracketed, inside, h]

theorem writeItems_eq_map (a : Arrangement) (items : List Json) : writeItems a items = items.map (write a) := by
  induction items with
  | nil => rfl
  | cons item rest ih => rw [writeItems, ih, List.map_cons]

theorem separator?_comma {closing : Char} {left rest : List Char} (h : skipSpaces left = skipSpaces (',' :: rest)) :
    separator? closing left = some (true, rest) := by
  rw [separator?_congr h]
  rfl

/-- A value is read on a line of its own. -/
theorem Recovered.onLine {v : Json} (h : Recovered depth v) (a : Arrangement) {steps : Nat} {rest : List Char}
    (hsteps : (write a v).toList.length ≤ steps) (hrest : Ends rest) :
    ∃ left, value? .document steps depth (a.lineStart.toList ++ ((write a v).toList ++ rest)) =
      some (Datum.ofJson v, left) ∧ skipSpaces left = skipSpaces rest := by
  rw [value?_congr (skipSpaces_lineStart a _)]
  exact h a steps rest (by rwa [String.length_toList] at hsteps) hrest

/-- Items are read up to the bracket behind them. -/
theorem items?_inside {a : Arrangement} {items : List Json} (hne : items ≠ [])
    (h : ∀ item ∈ items, Recovered depth item) {steps : Nat} {behind rest : List Char}
    (hsteps : (inside a (items.map (write a))).toList.length < steps) (hends : Ends behind)
    (hbehind : separator? ']' behind = some (false, rest)) :
    items? .document steps depth ((inside a (items.map (write a))).toList ++ behind) =
      some (Datum.ofItems items, rest) := by
  induction items generalizing steps with
  | nil => exact absurd rfl hne
  | cons item others ih =>
    obtain ⟨hitem, hothers⟩ := List.forall_mem_cons.mp h
    obtain ⟨steps, rfl⟩ := Nat.exists_eq_add_of_le' (Nat.one_le_of_lt hsteps)
    cases others with
    | nil =>
      rw [List.map_singleton, toList_inside_singleton] at hsteps ⊢
      rw [List.length_append] at hsteps
      obtain ⟨left, hvalue, hleft⟩ := hitem.onLine a (show (write a item).toList.length ≤ steps by omega) hends
      rw [List.append_assoc, items?, hvalue]
      simp [(separator?_congr hleft).trans hbehind, Datum.ofItems]
    | cons next others =>
      rw [List.map_cons, List.map_cons, toList_inside_cons_cons, ← List.map_cons] at hsteps ⊢
      rw [List.length_append, List.length_append, List.length_cons] at hsteps
      have hrest : items? .document steps depth ((inside a ((next :: others).map (write a))).toList ++ behind) =
          some (Datum.ofItems (next :: others), rest) := ih (List.cons_ne_nil _ _) hothers (by omega)
      have hcomma : Ends (',' :: ((inside a ((next :: others).map (write a))).toList ++ behind)) :=
        ends_cons.mpr (by decide)
      obtain ⟨left, hvalue, hleft⟩ := hitem.onLine a (show (write a item).toList.length ≤ steps by omega) hcomma
      rw [List.append_assoc, List.append_assoc, List.cons_append, items?, hvalue]
      simp [separator?_comma hleft, hrest, Datum.ofItems, -List.map_cons]

/-- A member of an object as text. -/
def memberText (a : Arrangement) (member : String × Json) : String :=
  stringText member.1 ++ a.colon ++ write a member.2

theorem writeMembers_eq_map (a : Arrangement) (members : List (String × Json)) :
    writeMembers a members = members.map (memberText a) := by
  induction members with
  | nil => rfl
  | cons member rest ih => rw [writeMembers, ih, List.map_cons, memberText]

theorem skipSpaces_colon (a : Arrangement) (cs : List Char) :
    ∃ behind, skipSpaces (a.colon.toList ++ cs) = ':' :: behind ∧ skipSpaces behind = skipSpaces cs := by
  cases a with
  | compact => exact ⟨cs, rfl, rfl⟩
  | indented width level => exact ⟨' ' :: cs, by simp [Arrangement.colon, skipSpaces_cons (c := ':') rfl], rfl⟩

/-- The first member of an object is read on a line of its own; how the object goes on is settled by what is behind
its value. -/
theorem members?_onLine {member : String × Json} (h : Recovered depth member.2) (a : Arrangement) {steps : Nat}
    {rest : List Char} (hsteps : (memberText a member).toList.length ≤ steps) (hrest : Ends rest) :
    ∃ left, skipSpaces left = skipSpaces rest ∧
      members? .document (steps + 1) depth (a.lineStart.toList ++ ((memberText a member).toList ++ rest)) =
        (separator? '\x7d' left).bind fun (more, rest) =>
          if more then (members? .document steps depth rest).map fun (members, rest) =>
            ((.string member.1, Datum.ofJson member.2) :: members, rest)
          else some ([(.string member.1, Datum.ofJson member.2)], rest) := by
  obtain ⟨name, v⟩ := member
  dsimp only at h
  have htext : (memberText a (name, v)).toList ++ rest =
      '"' :: (name.toList.flatMap escapedChar ++ '"' :: (a.colon.toList ++ ((write a v).toList ++ rest))) := by
    simp [memberText, toList_stringText]
  have hlength := length_le_flatMap_escapedChar name.toList
  simp only [memberText, String.toList_append, toList_stringText, List.length_append, List.length_cons,
    List.length_nil] at hsteps
  have hname : stringBody .document steps []
      (name.toList.flatMap escapedChar ++ '"' :: (a.colon.toList ++ ((write a v).toList ++ rest))) =
      some (name, a.colon.toList ++ ((write a v).toList ++ rest)) := by
    rw [stringBody_escaped (by omega)]
    simp
  obtain ⟨behind, hcolon, hbehind⟩ := skipSpaces_colon a ((write a v).toList ++ rest)
  obtain ⟨left, hvalue, hleft⟩ := h a steps rest (by rw [← String.length_toList]; omega) hrest
  refine ⟨left, hleft, ?_⟩
  rw [htext, members?, skipSpaces_lineStart, skipSpaces_cons (by decide)]
  simp [hname, hcolon, value?_congr hbehind, hvalue, Option.map_eq_bind, Function.comp_def]

/-- Members are read up to the bracket behind them. -/
theorem members?_inside {a : Arrangement} {members : List (String × Json)} (hne : members ≠ [])
    (h : ∀ member ∈ members, Recovered depth member.2) {steps : Nat} {behind rest : List Char}
    (hsteps : (inside a (members.map (memberText a))).toList.length < steps) (hends : Ends behind)
    (hbehind : separator? '\x7d' behind = some (false, rest)) :
    members? .document steps depth ((inside a (members.map (memberText a))).toList ++ behind) =
      some (Datum.ofMembers members, rest) := by
  induction members generalizing steps with
  | nil => exact absurd rfl hne
  | cons member others ih =>
    obtain ⟨hmember, hothers⟩ := List.forall_mem_cons.mp h
    obtain ⟨steps, rfl⟩ := Nat.exists_eq_add_of_le' (Nat.one_le_of_lt hsteps)
    cases others with
    | nil =>
      rw [List.map_singleton, toList_inside_singleton] at hsteps ⊢
      rw [List.length_append] at hsteps
      obtain ⟨left, hleft, hread⟩ :=
        members?_onLine hmember a (show (memberText a member).toList.length ≤ steps by omega) hends
      rw [List.append_assoc, hread]
      simp [(separator?_congr hleft).trans hbehind, Datum.ofMembers]
    | cons next others =>
      rw [List.map_cons, List.map_cons, toList_inside_cons_cons, ← List.map_cons] at hsteps ⊢
      rw [List.length_append, List.length_append, List.length_cons] at hsteps
      have hrest : members? .document steps depth
          ((inside a ((next :: others).map (memberText a))).toList ++ behind) =
          some (Datum.ofMembers (next :: others), rest) := ih (List.cons_ne_nil _ _) hothers (by omega)
      have hcomma : Ends (',' :: ((inside a ((next :: others).map (memberText a))).toList ++ behind)) :=
        ends_cons.mpr (by decide)
      obtain ⟨left, hleft, hread⟩ :=
        members?_onLine hmember a (show (memberText a member).toList.length ≤ steps by omega) hcomma
      rw [List.append_assoc, List.append_assoc, List.cons_append, hread]
      simp [separator?_comma hleft, hrest, Datum.ofMembers, -List.map_cons]

/-- No item is read in front of the bracket that closes a list. -/
theorem items?_closing {steps : Nat} {cs rest : List Char} (h : skipSpaces cs = ']' :: rest) :
    items? .document steps depth cs = none := by
  have hvalue {steps : Nat} : value? .document steps depth cs = none := by
    cases steps with
    | zero => rfl
    | succ steps =>
      rw [value?, h]
      rfl
  cases steps with
  | zero => rfl
  | succ steps =>
    rw [items?, hvalue]
    rfl

theorem members?_closing {steps : Nat} {cs rest : List Char} (h : skipSpaces cs = '\x7d' :: rest) :
    members? .document steps depth cs = none := by
  cases steps with
  | zero => rfl
  | succ steps =>
    rw [members?, h]
    rfl

theorem value?_list {steps : Nat} {cs left : List Char} {items : List Datum}
    (h : items? .document steps depth cs = some (items, left)) :
    value? .document (steps + 1) (depth + 1) ('[' :: cs) = some (.list items, left) := by
  have hclosing (rest : List Char) : skipSpaces cs ≠ ']' :: rest := by
    intro hskip
    rw [items?_closing hskip] at h
    cases h
  simp [value?, skipSpaces_cons (c := '[') rfl, items?_congr (skipSpaces_skipSpaces cs), h]

theorem value?_object {steps : Nat} {cs left : List Char} {members : List (Datum × Datum)}
    (h : members? .document steps depth cs = some (members, left)) :
    value? .document (steps + 1) (depth + 1) ('\x7b' :: cs) = some (.map members, left) := by
  have hclosing (rest : List Char) : skipSpaces cs ≠ '\x7d' :: rest := by
    intro hskip
    rw [members?_closing hskip] at h
    cases h
  simp [value?, skipSpaces_cons (c := '\x7b') rfl, members?_congr (skipSpaces_skipSpaces cs), h]

/-- Behind the parts of a list or an object is a bracket that closes it. -/
theorem separator?_closing (a : Arrangement) {closing : Char} (hspace : isSpace closing = false)
    (hcomma : closing ≠ ',') (rest : List Char) :
    separator? closing (a.lineStart.toList ++ closing :: rest) = some (false, rest) := by
  rw [separator?, skipSpaces_lineStart, skipSpaces_cons hspace]
  split
  · next heq => exact absurd (List.cons.inj heq).1 hcomma
  · next heq =>
    cases heq
    exact if_pos rfl
  · next heq => cases heq

theorem recovered_noItems : Recovered depth (.list []) := by
  intro a steps rest hsteps _
  have htext : (write a (.list [])).toList = ['[', ']'] := by simp [write, writeItems, Arrangement.bracketed]
  rw [← String.length_toList, htext] at hsteps
  obtain ⟨steps, rfl⟩ := Nat.exists_eq_add_of_le' (Nat.le_of_succ_le hsteps)
  refine ⟨rest, ?_, rfl⟩
  simp [htext, value?, skipSpaces_cons (c := '[') rfl, skipSpaces_cons (c := ']') rfl, Datum.ofJson, Datum.ofItems]

theorem recovered_noMembers : Recovered depth (.object []) := by
  intro a steps rest hsteps _
  have htext : (write a (.object [])).toList = ['\x7b', '\x7d'] := by simp [write, writeMembers, Arrangement.bracketed]
  rw [← String.length_toList, htext] at hsteps
  obtain ⟨steps, rfl⟩ := Nat.exists_eq_add_of_le' (Nat.le_of_succ_le hsteps)
  refine ⟨rest, ?_, rfl⟩
  simp [htext, value?, skipSpaces_cons (c := '\x7b') rfl, skipSpaces_cons (c := '\x7d') rfl, Datum.ofJson,
    Datum.ofMembers]

theorem recovered_list {items : List Json} (h : ∀ item ∈ items, Recovered depth item) :
    Recovered (depth + 1) (.list items) := by
  by_cases hitems : items = []
  · subst hitems
    exact recovered_noItems
  · intro a steps rest hsteps hrest
    have htext : (write a (.list items)).toList =
        '[' :: ((inside a.inner (items.map (write a.inner))).toList ++ (a.lineStart.toList ++ [']'])) := by
      rw [write, writeItems_eq_map, toList_bracketed a "[" "]" (by simpa using hitems)]
      rfl
    rw [← String.length_toList, htext] at hsteps
    rw [htext]
    simp only [List.length_cons, List.length_append, List.length_nil] at hsteps
    obtain ⟨steps, rfl⟩ := Nat.exists_eq_add_of_le' (show 1 ≤ steps by omega)
    have hends : Ends (a.lineStart.toList ++ ']' :: rest) := ends_lineStart a (ends_cons.mpr (by decide))
    have hread := items?_inside hitems h (a := a.inner) (show _ < steps by omega) hends
      (separator?_closing a (by decide) (by decide) rest)
    refine ⟨rest, ?_, rfl⟩
    rw [List.cons_append, List.append_assoc, List.append_assoc, List.singleton_append]
    exact value?_list hread

theorem recovered_object {members : List (String × Json)} (h : ∀ member ∈ members, Recovered depth member.2) :
    Recovered (depth + 1) (.object members) := by
  by_cases hmembers : members = []
  · subst hmembers
    exact recovered_noMembers
  · intro a steps rest hsteps hrest
    have htext : (write a (.object members)).toList =
        '\x7b' :: ((inside a.inner (members.map (memberText a.inner))).toList ++ (a.lineStart.toList ++ ['\x7d'])) := by
      rw [write, writeMembers_eq_map, toList_bracketed a "\x7b" "\x7d" (by simpa using hmembers)]
      rfl
    rw [← String.length_toList, htext] at hsteps
    rw [htext]
    simp only [List.length_cons, List.length_append, List.length_nil] at hsteps
    obtain ⟨steps, rfl⟩ := Nat.exists_eq_add_of_le' (show 1 ≤ steps by omega)
    have hends : Ends (a.lineStart.toList ++ '\x7d' :: rest) := ends_lineStart a (ends_cons.mpr (by decide))
    have hread := members?_inside hmembers h (a := a.inner) (show _ < steps by omega) hends
      (separator?_closing a (by decide) (by decide) rest)
    refine ⟨rest, ?_, rfl⟩
    rw [List.cons_append, List.append_assoc, List.append_assoc, List.singleton_append]
    exact value?_object hread

theorem recovered_word {v : Json} (word : String) (hwrite : ∀ a, write a v = word)
    (hscalar : ∀ rest, Reader.scalar? .document (word.toList ++ rest) =
      (after? word (word.toList ++ rest)).map (Datum.ofJson v, ·)) : Recovered depth v := by
  refine recovered_of_scalar? hwrite fun rest _ => ?_
  rw [hscalar, after?_self]
  rfl

/-- A legible value is read from its text in front of other text if the doubles in it are read from theirs. -/
theorem value?_write {v : Json} (h : Legible depth v) (hfloats : ∀ x ∈ v.floats, ReadsBack x) : Recovered depth v := by
  induction h with
  | null => exact recovered_word "null" (fun _ => rfl) fun _ => rfl
  | bool b =>
    cases b with
    | false => exact recovered_word "false" (fun _ => rfl) fun _ => rfl
    | true => exact recovered_word "true" (fun _ => rfl) fun _ => rfl
  | int hn => exact recovered_of_scalar? (fun _ => rfl) fun rest hrest => scalar?_int hn hrest
  | float x => exact recovered_float (hfloats x (List.mem_singleton_self x))
  | string _ => exact recovered_string _
  | noItems => exact recovered_noItems
  | noMembers => exact recovered_noMembers
  | list _ ih => exact recovered_list fun item hmem => ih item hmem fun x hx => hfloats x (mem_floats_list hmem hx)
  | object _ _ ih =>
    exact recovered_object fun member hmem => ih member hmem fun x hx => hfloats x (mem_floats_object hmem hx)

/-- A value is read from the whole text that it is written as. -/
theorem read?_write {v : Json} (h : Legible Dialect.document.depth v) (hfloats : ∀ x ∈ v.floats, ReadsBack x)
    (a : Arrangement) : read? .document (write a v) = some (Datum.ofJson v) := by
  obtain ⟨left, hvalue, hleft⟩ := value?_write h hfloats a (2 * (write a v).toList.length + 2) []
    (by rw [String.length_toList]; omega) ends_nil
  have hspaces : skipSpaces left = [] := hleft
  rw [List.append_nil] at hvalue
  simp [read?, hvalue, hspaces]

/-! ### Unicode text -/

theorem half?_of_isDigit {c : Char} (h : c.isDigit = true) : Text.half? c = none := by
  simp only [Char.isDigit, Bool.and_eq_true, decide_eq_true_eq] at h
  have hle : c.toNat ≤ 57 := UInt32.le_iff_toNat_le.mp h.2
  exact half?_of_lt (Nat.lt_of_le_of_lt hle (by decide))

theorem unicode_toDigits (n : Nat) : Unicode (Nat.toDigits 10 n) :=
  fun _ hmem => half?_of_isDigit (isDigit_toDigits hmem)

theorem unicode_zeros (n : Nat) : Unicode (List.replicate n '0') := by
  intro c hmem
  rw [List.eq_of_mem_replicate hmem]
  rfl

theorem unicode_pointed {whole fraction : List Char} (hwhole : Unicode whole) (hfraction : Unicode fraction) :
    Unicode (Number.Layout.pointed whole fraction) := by
  have hpart {cs : List Char} (h : Unicode cs) : Unicode (if cs.isEmpty then ['0'] else cs) := by
    split
    · exact unicode_zeros 1
    · exact h
  exact Text.unicode_append.mpr ⟨hpart hwhole, Text.unicode_cons.mpr ⟨rfl, hpart hfraction⟩⟩

theorem unicode_positional {digits : List Char} (h : Unicode digits) (magnitude : Int) :
    Unicode (Number.Layout.positional digits magnitude) := by
  unfold Number.Layout.positional
  split
  · exact unicode_pointed (List.forall_mem_nil _) (Text.unicode_append.mpr ⟨unicode_zeros _, h⟩)
  · have hpadded := Text.unicode_append.mpr ⟨h, unicode_zeros (magnitude.toNat + 1 - digits.length)⟩
    exact unicode_pointed (fun c hmem => hpadded c (List.mem_of_mem_take hmem))
      (hpadded.of_suffix (List.drop_suffix _ _))

theorem unicode_exponential {layout : Number.Layout} {digits : List Char} (h : Unicode digits) (magnitude : Int) :
    Unicode (layout.exponential digits magnitude) := by
  have hsign : Unicode ['e', if magnitude < 0 then '-' else '+'] := by
    split <;> decide
  unfold Number.Layout.exponential
  simp only [Text.unicode_append]
  refine ⟨⟨⟨?_, hsign⟩, unicode_zeros _⟩, unicode_toDigits _⟩
  split
  · exact unicode_zeros 1
  · exact h
  · obtain ⟨hfirst, hrest⟩ := Text.unicode_cons.mp h
    exact Text.unicode_cons.mpr ⟨hfirst, Text.unicode_cons.mpr ⟨rfl, hrest⟩⟩

theorem unicode_decimal (layout : Number.Layout) (d : Number.Decimal) : Unicode (layout.decimal d) := by
  have hdigits : Unicode ((Number.Layout.digitText d.digits).reverse.dropWhile (· == '0')).reverse := by
    intro c hmem
    have hreverse := (List.dropWhile_suffix _).subset (List.mem_reverse.mp hmem)
    exact unicode_toDigits _ c (List.mem_reverse.mp hreverse)
  unfold Number.Layout.decimal
  dsimp only
  split
  · exact unicode_positional hdigits _
  · exact unicode_exponential hdigits _

/-- A double is written in Unicode text. -/
theorem unicode_number (x : Float) : Unicode (Number.Layout.dump.text x).toList := by
  have hsign (negative : Bool) : Unicode (if negative then "-" else "").toList := by
    cases negative <;> decide
  unfold Number.Layout.text
  dsimp only
  split
  · decide
  · rw [String.toList_append, Text.unicode_append]
    exact ⟨hsign _, by decide⟩
  · rw [String.toList_append, Text.unicode_append]
    exact ⟨hsign _, by decide⟩
  · rw [String.toList_append, Text.unicode_append, String.toList_ofList]
    exact ⟨hsign _, unicode_decimal _ _⟩

theorem unicode_escapedChar {c : Char} (h : Text.half? c = none) : Unicode (escapedChar c) := by
  have hhex : ∀ n < 32, Unicode (Text.hexText 4 n) := by decide
  unfold escapedChar
  by_cases hcontrol : c.toNat < 32
  · have hnumber : Unicode ('\\' :: 'u' :: Text.hexText 4 c.toNat) :=
      Text.unicode_cons.mpr ⟨rfl, Text.unicode_cons.mpr ⟨rfl, hhex _ hcontrol⟩⟩
    rw [if_pos hcontrol]
    split_ifs <;> first | exact hnumber | decide
  · rw [if_neg hcontrol]
    split_ifs <;> first | decide | exact Text.unicode_cons.mpr ⟨h, List.forall_mem_nil _⟩

theorem unicode_stringText {s : String} (h : Text.hasHalf s = false) : Unicode (stringText s).toList := by
  have hbody : Unicode (s.toList.flatMap escapedChar) := by
    intro c hmem
    obtain ⟨d, hd, hc⟩ := List.mem_flatMap.mp hmem
    exact unicode_escapedChar (Text.hasHalf_eq_false_iff.mp h d hd) c hc
  rw [toList_stringText, Text.unicode_append, Text.unicode_cons]
  exact ⟨⟨rfl, hbody⟩, by decide⟩

theorem unicode_lineStart (a : Arrangement) : Unicode a.lineStart.toList := by
  cases a with
  | compact => exact List.forall_mem_nil _
  | indented width level =>
    intro c hmem
    simp only [Arrangement.lineStart, String.toList_ofList, List.mem_cons, List.mem_replicate] at hmem
    obtain rfl | ⟨-, rfl⟩ := hmem <;> decide

theorem unicode_inside (a : Arrangement) {parts : List String} (h : ∀ part ∈ parts, Unicode part.toList) :
    Unicode (inside a parts).toList := by
  induction parts with
  | nil => exact List.forall_mem_nil _
  | cons part parts ih =>
    obtain ⟨hpart, hparts⟩ := List.forall_mem_cons.mp h
    cases parts with
    | nil =>
      rw [toList_inside_singleton, Text.unicode_append]
      exact ⟨unicode_lineStart a, hpart⟩
    | cons next parts =>
      rw [toList_inside_cons_cons, Text.unicode_append, Text.unicode_append, Text.unicode_cons]
      exact ⟨unicode_lineStart a, hpart, rfl, ih hparts⟩

theorem unicode_bracketed (a : Arrangement) {opening closing : String} {parts : List String}
    (hopening : Unicode opening.toList) (hclosing : Unicode closing.toList)
    (h : ∀ part ∈ parts, Unicode part.toList) : Unicode (a.bracketed opening closing parts).toList := by
  by_cases hparts : parts = []
  · subst hparts
    simp only [Arrangement.bracketed, List.isEmpty_nil, if_true, String.toList_append]
    exact Text.unicode_append.mpr ⟨hopening, hclosing⟩
  · rw [toList_bracketed a opening closing hparts]
    simp only [Text.unicode_append]
    exact ⟨hopening, unicode_inside _ h, unicode_lineStart a, hclosing⟩

/-- A legible value is written as Unicode text. -/
theorem unicode_write {v : Json} (h : Legible depth v) (a : Arrangement) : Unicode (write a v).toList := by
  induction h generalizing a with
  | null => exact (by decide : Unicode "null".toList)
  | bool b =>
    cases b with
    | false => exact (by decide : Unicode "false".toList)
    | true => exact (by decide : Unicode "true".toList)
  | @int _ n _ =>
    rw [write, toList_toString]
    split
    · exact Text.unicode_cons.mpr ⟨rfl, unicode_toDigits _⟩
    · exact unicode_toDigits _
  | float x =>
    rw [write]
    split
    · exact unicode_number x
    · exact (by decide : Unicode "null".toList)
  | string h => exact unicode_stringText h
  | noItems => exact unicode_bracketed a (by decide) (by decide) (List.forall_mem_nil _)
  | noMembers => exact unicode_bracketed a (by decide) (by decide) (List.forall_mem_nil _)
  | list _ ih =>
    rw [write, writeItems_eq_map]
    refine unicode_bracketed a (by decide) (by decide) ?_
    exact List.forall_mem_map.mpr fun item hmem => ih item hmem _
  | object hnames _ ih =>
    have hcolon (a : Arrangement) : Unicode a.colon.toList := by
      cases a with
      | compact => exact (by decide : Unicode ":".toList)
      | indented width level => exact (by decide : Unicode ": ".toList)
    rw [write, writeMembers_eq_map]
    refine unicode_bracketed a (by decide) (by decide) ?_
    refine List.forall_mem_map.mpr fun member hmem => ?_
    rw [memberText, String.toList_append, String.toList_append, Text.unicode_append, Text.unicode_append]
    exact ⟨⟨unicode_stringText (hnames member hmem), hcolon _⟩, ih member hmem _⟩

theorem hasHalf_write {v : Json} (h : Legible depth v) (a : Arrangement) : Text.hasHalf (write a v) = false :=
  Text.hasHalf_eq_false_iff.mpr (unicode_write h a)

end DesignTokens.Json
