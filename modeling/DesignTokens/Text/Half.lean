/-!
# Halves of surrogate pairs

An escape in YAML or JSON text may name one half of a surrogate pair, U+D800 to U+DFFF, without the other.
No character is such a half, so 2048 characters of the last private area stand for them inside a text. A text
with a half is no Unicode text: where Unicode text is needed, each half reads as three replacement
characters, one for each byte that it would take.

* `half?_ofHalf` — the character that stands for a half stands for that half alone.
* `lossy_eq_self` — a text without halves reads as it is.
-/

namespace DesignTokens.Text

/-- Whether a code is a half of a surrogate pair. -/
def isHalfCode (code : Nat) : Bool := 0xd800 ≤ code && code < 0xe000

/-- The code of the character that stands for the first half. -/
def firstStandIn : Nat := 0x10f000

/-- The character that stands for a half. -/
def ofHalf (code : Nat) : Char := Char.ofNat (firstStandIn + (code - 0xd800))

/-- The half that a character stands for. -/
def half? (c : Char) : Option Nat :=
  if firstStandIn ≤ c.toNat ∧ c.toNat < firstStandIn + 0x800 then some (0xd800 + (c.toNat - firstStandIn))
  else none

theorem toNat_ofHalf {code : Nat} (h : isHalfCode code = true) :
    (ofHalf code).toNat = firstStandIn + (code - 0xd800) := by
  simp only [isHalfCode, Bool.and_eq_true, decide_eq_true_eq] at h
  have hvalid : (firstStandIn + (code - 0xd800)).isValidChar :=
    Or.inr (by simp only [firstStandIn]; omega)
  rw [ofHalf, Char.ofNat, dif_pos hvalid]
  rfl

theorem half?_ofHalf {code : Nat} (h : isHalfCode code = true) : half? (ofHalf code) = some code := by
  unfold half?
  rw [toNat_ofHalf h]
  simp only [isHalfCode, Bool.and_eq_true, decide_eq_true_eq] at h
  rw [if_pos (by omega), Nat.add_sub_cancel_left, Nat.add_sub_cancel' h.1]

/-- The character of a code, or the one that stands for it; none if the code is of neither sort. -/
def ofCode? (code : Nat) : Option Char :=
  if isHalfCode code then some (ofHalf code)
  else if code.isValidChar then some (Char.ofNat code)
  else none

/-- Whether there is a half in a text. -/
def hasHalf (s : String) : Bool := s.toList.any fun c => (half? c).isSome

theorem hasHalf_append (s t : String) : hasHalf (s ++ t) = (hasHalf s || hasHalf t) := by
  simp [hasHalf]

/-- The replacement for a half in Unicode text. -/
def replacement : List Char := List.replicate 3 '\ufffd'

/-- A text as Unicode text. -/
def lossy (s : String) : String :=
  if hasHalf s then
    String.ofList (s.toList.flatMap fun c => if (half? c).isSome then replacement else [c])
  else s

theorem lossy_eq_self {s : String} (h : hasHalf s = false) : lossy s = s := by
  simp [lossy, h]

end DesignTokens.Text
