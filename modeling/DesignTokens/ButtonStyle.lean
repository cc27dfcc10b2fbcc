import DesignTokens.Image
import DesignTokens.TextAttributes

/-!
# Button styles

The elements of a button in each of its states, with what all states share. A valid style that declares
nothing equals the one that stands for an invalid style.
-/

namespace DesignTokens

inductive ButtonState where
  | normal | highlighted | disabled | selected
  deriving DecidableEq, Repr

def ButtonState.name : ButtonState → String
  | .normal => "normal"
  | .highlighted => "highlighted"
  | .disabled => "disabled"
  | .selected => "selected"

/-- The elements of a button in one state. -/
structure ButtonElements where
  titleAttributes : Option TextAttributes := none
  titleImage : Option Image := none
  backgroundImage : Option Image := none

/-- Without any element. -/
def ButtonElements.isEmpty (e : ButtonElements) : Bool :=
  e.titleAttributes.isNone && e.titleImage.isNone && e.backgroundImage.isNone

structure ButtonStyle where
  states : List (ButtonState × ButtonElements)
  contentInsets : Option Insets
  tintColor : Option Color
  reverseIconSide : Bool

namespace ButtonStyle

/-- The style that stands for a style that cannot be resolved: one that declares nothing. -/
def invalid : ButtonStyle := ⟨[], none, none, false⟩

/-- Whether a style declares nothing. -/
def declaresNothing (s : ButtonStyle) : Bool :=
  s.states.isEmpty && s.contentInsets.isNone && s.tintColor.isNone && !s.reverseIconSide

end ButtonStyle

end DesignTokens
