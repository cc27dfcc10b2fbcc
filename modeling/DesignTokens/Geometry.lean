/-!
# Points, sizes and insets

* `Insets.ofList?_isSome_iff` — insets take exactly four values.
-/

namespace DesignTokens

structure Point where
  x : Float
  y : Float

structure Size where
  width : Float
  height : Float

/-- Distances from the four edges of a rectangle. -/
structure Insets where
  top : Float
  left : Float
  bottom : Float
  right : Float

namespace Insets

/-- The same distance from every edge. -/
def all (distance : Float) : Insets := ⟨distance, distance, distance, distance⟩

/-- The distances in the order top, left, bottom, right. -/
def toList (i : Insets) : List Float := [i.top, i.left, i.bottom, i.right]

/-- The insets of four distances. -/
def ofList? : List Float → Option Insets
  | [top, left, bottom, right] => some ⟨top, left, bottom, right⟩
  | _ => none

theorem ofList?_isSome_iff {values : List Float} : (ofList? values).isSome ↔ values.length = 4 := by
  unfold ofList?
  split
  · simp
  · next h =>
    simp only [Option.isSome_none, Bool.false_eq_true, false_iff]
    intro hl
    match values, hl with
    | [a, b, c, d], _ => exact h a b c d rfl

end Insets

end DesignTokens
