import DesignTokens.Proofs.Json.KeyPath
import DesignTokens.Proofs.Number.Spelling

/-!
# What a key path leads to

A segment matches an object that has a member of this name, and a list that has an item at this position. A key path
leads to a value if its segments match one after the other; where one does not match, it leads nowhere.

There is a third case. Segments that are made of hyphens and digits are meant as positions, and the digits may be of any
sort. But an integer is written with one hyphen at most, with decimal digits only and not too many of them. At a list,
a segment that is meant as a position and is no integer ends the walk in a fault.

* `KeyPath.unreadableIndex_iff` — which of the segments that are meant as positions are no integers.
* `KeyPath.walk_eq_some_iff`, `KeyPath.walk_eq_none_iff`, `KeyPath.walk_eq_error_iff` — how a walk ends.
-/

namespace DesignTokens.KeyPath

open Number.Literal (DigitText exists_digitText_iff ofDigits)

/-! ### Positions -/

/-- The integers as segments: decimal digits, not too many, with a hyphen before them if it is negative. -/
inductive Position : String → Int → Prop where
  | front {segment : String} {values : List Nat} (digits : DigitText Text.decimalValue? segment.toList values)
      (nonempty : segment.toList ≠ []) (short : segment.toList.length ≤ Number.maximalDigits) :
      Position segment (ofDigits 10 values)
  | back {segment : String} {ds : List Char} {values : List Nat} (spelled : segment.toList = '-' :: ds)
      (digits : DigitText Text.decimalValue? ds values) (nonempty : ds ≠ [])
      (short : ds.length ≤ Number.maximalDigits) : Position segment (-(ofDigits 10 values : Int))

/-- Hyphens and then digits of any sort. -/
structure MeansPosition (segment : String) (hyphens : Nat) (digits : List Char) : Prop where
  spelled : segment.toList = List.replicate hyphens '-' ++ digits
  nonempty : digits ≠ []
  anyDigits : ∀ d ∈ digits, Text.isAnyDigit d = true

/-- A segment that is meant as a position, but has several hyphens, a digit that is not decimal or too many digits. -/
def UnreadableIndex (segment : String) : Prop :=
  ∃ hyphens digits, MeansPosition segment hyphens digits ∧
    (1 < hyphens ∨ (∃ d ∈ digits, Text.isDecimal d = false) ∨ Number.maximalDigits < digits.length)

section Positions

variable {segment : String} {hyphens n : Nat} {digits cs : List Char} {i : Int}

theorem dropWhile_replicate (h : digits.head? ≠ some '-') :
    (List.replicate hyphens '-' ++ digits).dropWhile (· == '-') = digits := by
  induction hyphens with
  | zero =>
    cases digits with
    | nil => rfl
    | cons d digits =>
      have hd : ¬ d = '-' := by simpa using h
      simp [hd]
  | succ hyphens ih => simpa [List.replicate_succ] using ih

theorem isPosition_iff : isPosition segment = true ↔ ∃ hyphens digits, MeansPosition segment hyphens digits := by
  constructor
  · intro h
    simp only [isPosition, Bool.and_eq_true, Bool.not_eq_true', List.isEmpty_eq_false_iff, List.all_eq_true] at h
    refine ⟨(segment.toList.takeWhile (· == '-')).length, segment.toList.dropWhile (· == '-'), ?_, h.1, h.2⟩
    have hhyphens : segment.toList.takeWhile (· == '-') =
        List.replicate (segment.toList.takeWhile (· == '-')).length '-' :=
      List.eq_replicate_of_mem fun c hc => by simpa using List.mem_takeWhile_imp hc
    rw [← hhyphens, List.takeWhile_append_dropWhile]
  · rintro ⟨hyphens, digits, hspelled, hne, hdigits⟩
    have hhead : digits.head? ≠ some '-' := fun h =>
      absurd (hdigits '-' (List.mem_of_mem_head? h)) (by decide)
    simp [isPosition, hspelled, dropWhile_replicate hhead, hne]
    exact hdigits

/-- Decimal digits are counted one after the other. -/
def countDigit (total : Option Nat) (c : Char) : Option Nat := do
  let t ← total
  let v ← Text.decimalValue? c
  return t * 10 + v

theorem foldl_countDigit_none : cs.foldl countDigit none = none := by
  induction cs with
  | nil => rfl
  | cons c cs ih => exact ih

theorem foldl_countDigit_eq_some_iff {total : Nat} : cs.foldl countDigit (some total) = some n ↔
    ∃ values, DigitText Text.decimalValue? cs values ∧
      n = values.foldl (fun total digit => total * 10 + digit) total := by
  induction cs generalizing total with
  | nil =>
    constructor
    · intro h
      exact ⟨[], rfl, (Option.some.inj h).symm⟩
    · rintro ⟨values, hvalues, rfl⟩
      rw [hvalues.eq_nil_iff.mpr rfl]
      rfl
  | cons c cs ih =>
    rw [List.foldl_cons]
    cases hc : Text.decimalValue? c with
    | none =>
      have hnone : countDigit (some total) c = none := by simp [countDigit, hc]
      rw [hnone, foldl_countDigit_none]
      refine iff_of_false (by simp) ?_
      rintro ⟨values, hvalues, -⟩
      simpa [hc] using hvalues.isSome c (List.mem_cons_self ..)
    | some value =>
      have hsome : countDigit (some total) c = some (total * 10 + value) := by simp [countDigit, hc]
      rw [hsome, ih]
      constructor
      · rintro ⟨values, hvalues, rfl⟩
        exact ⟨value :: values, congrArg₂ List.cons hc hvalues, rfl⟩
      · rintro ⟨_ | ⟨first, values⟩, hvalues, rfl⟩
        · cases hvalues
        · obtain ⟨hfirst, hrest⟩ := List.cons.inj hvalues
          obtain rfl : value = first := Option.some.inj (hc.symm.trans hfirst)
          exact ⟨values, hrest, rfl⟩

theorem decimalRun?_eq_some_iff : decimalRun? cs = some n ↔
    cs ≠ [] ∧ ∃ values, DigitText Text.decimalValue? cs values ∧ n = ofDigits 10 values := by
  cases cs with
  | nil => simp [decimalRun?]
  | cons c cs =>
    exact foldl_countDigit_eq_some_iff.trans (and_iff_right (List.cons_ne_nil c cs)).symm

theorem magnitude_eq_some_iff :
    ((if cs.length ≤ Number.maximalDigits then decimalRun? cs else none) >>= fun n => pure (n : Int)) = some i ↔
      cs.length ≤ Number.maximalDigits ∧ cs ≠ [] ∧
        ∃ values, DigitText Text.decimalValue? cs values ∧ i = ofDigits 10 values := by
  simp only [Option.bind_eq_bind, Option.bind_eq_some_iff, Option.ite_none_right_eq_some, Option.pure_def,
    Option.some.injEq, decimalRun?_eq_some_iff]
  constructor
  · rintro ⟨n, ⟨hshort, hne, values, hvalues, rfl⟩, rfl⟩
    exact ⟨hshort, hne, values, hvalues, rfl⟩
  · rintro ⟨hshort, hne, values, hvalues, rfl⟩
    exact ⟨_, ⟨hshort, hne, values, hvalues, rfl⟩, rfl⟩

theorem position?_eq_some_iff : position? segment = some i ↔ Position segment i := by
  unfold position?
  constructor
  · intro h
    split at h
    · next ds hspelled =>
      obtain ⟨n, hn, rfl⟩ := Option.map_eq_some_iff.mp h
      obtain ⟨hshort, hne, values, hvalues, rfl⟩ := magnitude_eq_some_iff.mp hn
      exact .back hspelled hvalues hne hshort
    · obtain ⟨n, hn, rfl⟩ := Option.map_eq_some_iff.mp h
      obtain ⟨hshort, hne, values, hvalues, rfl⟩ := magnitude_eq_some_iff.mp hn
      exact .front hvalues hne hshort
  · intro h
    cases h with
    | front hvalues hne hshort =>
      split
      · next ds hspelled =>
        have hhyphen := hvalues.isSome '-' (by rw [hspelled]; exact List.mem_cons_self ..)
        exact absurd hhyphen (by decide)
      · exact Option.map_eq_some_iff.mpr ⟨_, magnitude_eq_some_iff.mpr ⟨hshort, hne, _, hvalues, rfl⟩, rfl⟩
    | back hspelled hvalues hne hshort =>
      rw [hspelled]
      exact Option.map_eq_some_iff.mpr ⟨_, magnitude_eq_some_iff.mpr ⟨hshort, hne, _, hvalues, rfl⟩, rfl⟩

theorem isAnyDigit_of_decimal {c : Char} (h : (Text.decimalValue? c).isSome) : Text.isAnyDigit c = true := by
  simp [Text.isAnyDigit, Text.isDecimal, h]

theorem Position.isPosition (h : Position segment i) : isPosition segment = true := by
  rw [isPosition_iff]
  cases h with
  | front hvalues hne => exact ⟨0, _, rfl, hne, fun d hd => isAnyDigit_of_decimal (hvalues.isSome d hd)⟩
  | back hspelled hvalues hne => exact ⟨1, _, hspelled, hne, fun d hd => isAnyDigit_of_decimal (hvalues.isSome d hd)⟩

/-- The unreadable positions are those that are no integers. -/
theorem unreadableIndex_iff :
    UnreadableIndex segment ↔ isPosition segment = true ∧ ∀ i, ¬ Position segment i := by
  rw [isPosition_iff]
  constructor
  · rintro ⟨hyphens, digits, hmeans, hreason⟩
    refine ⟨⟨hyphens, digits, hmeans⟩, fun i hposition => ?_⟩
    obtain ⟨hspelled, hne, hdigits⟩ := hmeans
    have hnone : ¬ (Text.decimalValue? '-').isSome := by decide
    cases hposition with
    | front hvalues _ hshort =>
      cases hyphens with
      | zero =>
        rw [hspelled] at hvalues hshort
        rcases hreason with hmany | ⟨d, hd, hforeign⟩ | hlong
        · exact absurd hmany (by decide)
        · exact absurd (hvalues.isSome d hd) (by simpa [Text.isDecimal] using hforeign)
        · exact absurd hshort (not_le.mpr hlong)
      | succ hyphens =>
        exact hnone (hvalues.isSome '-' (by rw [hspelled]; exact List.mem_cons_self ..))
    | @back ds _ hspelled' hvalues _ hshort =>
      rw [hspelled'] at hspelled
      match hyphens with
      | 0 =>
        rw [List.replicate_zero, List.nil_append] at hspelled
        exact absurd (hdigits '-' (hspelled ▸ List.mem_cons_self ..)) (by decide)
      | 1 =>
        obtain rfl : ds = digits := (List.cons.inj hspelled).2
        rcases hreason with hmany | ⟨d, hd, hforeign⟩ | hlong
        · exact absurd hmany (by decide)
        · exact absurd (hvalues.isSome d hd) (by simpa [Text.isDecimal] using hforeign)
        · exact absurd hshort (not_le.mpr hlong)
      | hyphens + 2 =>
        obtain rfl : ds = '-' :: (List.replicate hyphens '-' ++ digits) := (List.cons.inj hspelled).2
        exact hnone (hvalues.isSome '-' (List.mem_cons_self ..))
  · rintro ⟨⟨hyphens, digits, hmeans⟩, hno⟩
    refine ⟨hyphens, digits, hmeans, ?_⟩
    by_contra hreason
    simp only [not_or, not_lt, not_exists, not_and, Bool.not_eq_false] at hreason
    obtain ⟨hfew, hdecimal, hshort⟩ := hreason
    obtain ⟨values, hvalues⟩ := exists_digitText_iff.mpr hdecimal
    obtain ⟨hspelled, hne, -⟩ := hmeans
    match hyphens with
    | 0 =>
      obtain rfl : segment.toList = digits := hspelled
      exact hno _ (.front hvalues hne hshort)
    | 1 => exact hno _ (.back hspelled hvalues hne hshort)

end Positions

/-! ### Steps -/

/-- The item at a position; negative ones are counted from the end. -/
inductive ItemAt (items : List Json) : Int → Json → Prop where
  | front {n : Nat} {item : Json} (found : items[n]? = some item) : ItemAt items n item
  | back {n : Nat} {item : Json} (found : items.reverse[n]? = some item) : ItemAt items (-(n + 1 : Nat)) item

/-- A segment names a member of an object, or it is the position of an item. -/
inductive Matches : Json → String → Json → Prop where
  | member {members : List (String × Json)} {segment : String} {inner : Json}
      (found : members.lookup segment = some inner) : Matches (.object members) segment inner
  | item {items : List Json} {segment : String} {i : Int} {inner : Json} (position : Position segment i)
      (found : ItemAt items i inner) : Matches (.list items) segment inner

/-- A segment that is no integer, but meant as a position, at a list. -/
def Blocks (value : Json) (segment : String) : Prop := ∃ items, value = .list items ∧ UnreadableIndex segment

section Steps

variable {value inner : Json} {segment : String} {items : List Json} {i : Int} {fault : Fault}

theorem item?_natCast (items : List Json) (n : Nat) : item? items n = items[n]? := by
  simp [item?]

theorem item?_negative (items : List Json) (n : Nat) : item? items (-(n + 1 : Nat)) = items.reverse[n]? := by
  have hnegative : ¬ 0 ≤ (-(n + 1 : Nat) : Int) := by omega
  have habs : (-(n + 1 : Nat) : Int).natAbs = n + 1 := by omega
  rw [item?, if_neg hnegative, habs]
  split
  · next hle =>
    have hindex : items.length - (n + 1) = items.length - 1 - n := by omega
    rw [List.getElem?_reverse (by omega), hindex]
  · next hgt =>
    rw [List.getElem?_eq_none (by rw [List.length_reverse]; omega)]

theorem item?_eq_some_iff : item? items i = some inner ↔ ItemAt items i inner := by
  constructor
  · intro h
    cases i with
    | ofNat n => exact .front (item?_natCast items n ▸ h)
    | negSucc n => exact .back (item?_negative items n ▸ h)
  · intro h
    cases h with
    | front hfound => exact (item?_natCast items _).trans hfound
    | back hfound => exact (item?_negative items _).trans hfound

/-- At a list a segment is a position, or it is unreadable as one, or it is not meant as one. -/
theorem step_list (items : List Json) (segment : String) :
    (∃ i, Position segment i ∧ step (.list items) segment = .ok (item? items i)) ∨
      (UnreadableIndex segment ∧ step (.list items) segment = .error (.indexNotInteger segment)) ∨
      (isPosition segment = false ∧ step (.list items) segment = .ok none) := by
  dsimp only [step]
  by_cases hmeans : isPosition segment = true
  · rw [if_pos hmeans]
    cases hposition : position? segment with
    | some i => exact .inl ⟨i, position?_eq_some_iff.mp hposition, rfl⟩
    | none =>
      refine .inr (.inl ⟨unreadableIndex_iff.mpr ⟨hmeans, fun i hi => ?_⟩, rfl⟩)
      exact Option.some_ne_none i ((position?_eq_some_iff.mpr hi).symm.trans hposition)
  · exact .inr (.inr ⟨by simpa using hmeans, if_neg hmeans⟩)

theorem Position.unique {j : Int} (h : Position segment i) (h' : Position segment j) : i = j :=
  Option.some.inj ((position?_eq_some_iff.mpr h).symm.trans (position?_eq_some_iff.mpr h'))

theorem step_eq_some_iff : step value segment = .ok (some inner) ↔ Matches value segment inner := by
  cases value with
  | object members =>
    constructor
    · intro h
      exact .member (Except.ok.inj h)
    · intro h
      cases h with
      | member hfound => exact congrArg Except.ok hfound
  | list items =>
    rcases step_list items segment with ⟨i, hi, hstep⟩ | ⟨hunreadable, hstep⟩ | ⟨hother, hstep⟩ <;> rw [hstep]
    · rw [Except.ok.injEq, item?_eq_some_iff]
      constructor
      · exact .item hi
      · intro h
        cases h with
        | item hj hfound => exact hi.unique hj ▸ hfound
    · refine iff_of_false (by simp) fun h => ?_
      cases h with
      | item hj _ => exact (unreadableIndex_iff.mp hunreadable).2 _ hj
    · refine iff_of_false (by simp) fun h => ?_
      cases h with
      | item hj _ => exact Bool.false_ne_true (hother.symm.trans hj.isPosition)
  | _ => exact iff_of_false (by simp [step]) (fun h => by cases h)

theorem step_eq_error_iff :
    step value segment = .error fault ↔ Blocks value segment ∧ fault = .indexNotInteger segment := by
  cases value with
  | list items =>
    have hblocks : Blocks (.list items) segment ↔ UnreadableIndex segment :=
      ⟨fun ⟨_, _, h⟩ => h, fun h => ⟨items, rfl, h⟩⟩
    rw [hblocks]
    rcases step_list items segment with ⟨i, hi, hstep⟩ | ⟨hunreadable, hstep⟩ | ⟨hother, hstep⟩ <;> rw [hstep]
    · exact iff_of_false (by simp) fun h => (unreadableIndex_iff.mp h.1).2 i hi
    · rw [Except.error.injEq, and_iff_right hunreadable, eq_comm]
    · exact iff_of_false (by simp) fun h =>
        Bool.false_ne_true (hother.symm.trans (unreadableIndex_iff.mp h.1).1)
  | _ => exact iff_of_false (by simp [step]) (fun ⟨⟨_, h, _⟩, _⟩ => by cases h)

end Steps

/-! ### Walks -/

/-- The segments match one after the other, from a value to another one. -/
inductive Leads : Json → List String → Json → Prop where
  | here {value : Json} : Leads value [] value
  | step {value inner target : Json} {segment : String} {rest : List String} (matched : Matches value segment inner)
      (onward : Leads inner rest target) : Leads value (segment :: rest) target

/-- The segments lead to a value, and this one comes next. -/
def Halts (value : Json) (segments : List String) (inner : Json) (segment : String) : Prop :=
  ∃ before after, segments = before ++ segment :: after ∧ Leads value before inner

section Walks

variable {value inner target : Json} {segment : String} {segments rest : List String} {fault : Fault}

theorem walk_eq_some_iff : walk value segments = .ok (some target) ↔ Leads value segments target := by
  induction segments generalizing value with
  | nil =>
    constructor
    · intro h
      obtain rfl := Option.some.inj (Except.ok.inj h)
      exact .here
    · rintro ⟨⟩
      rfl
  | cons segment rest ih =>
    constructor
    · intro h
      unfold walk at h
      split at h
      · cases h
      · cases h
      · next inner hstep => exact .step (step_eq_some_iff.mp hstep) (ih.mp h)
    · intro h
      cases h with
      | step hmatched honward =>
        rw [walk, step_eq_some_iff.mpr hmatched]
        exact ih.mpr honward

/-- The walk goes on from where the segments before have led. -/
theorem walk_of_halts (h : Halts value segments inner segment) :
    ∃ after, walk value segments = walk inner (segment :: after) := by
  obtain ⟨before, after, rfl, hleads⟩ := h
  exact ⟨after, by rw [walk_append, walk_eq_some_iff.mpr hleads]⟩

theorem Halts.step (hmatched : Matches value segment inner) {next : Json} {other : String}
    (h : Halts inner rest next other) : Halts value (segment :: rest) next other := by
  obtain ⟨before, after, rfl, hleads⟩ := h
  exact ⟨segment :: before, after, rfl, .step hmatched hleads⟩

theorem walk_eq_error_iff : walk value segments = .error fault ↔
    ∃ inner segment, Halts value segments inner segment ∧ Blocks inner segment ∧ fault = .indexNotInteger segment := by
  constructor
  · intro h
    induction segments generalizing value with
    | nil => cases h
    | cons segment rest ih =>
      unfold walk at h
      split at h
      · next hstep =>
        cases h
        exact ⟨value, segment, ⟨[], rest, rfl, .here⟩, step_eq_error_iff.mp hstep⟩
      · cases h
      · next inner hstep =>
        obtain ⟨next, other, hhalts, hblocks⟩ := ih h
        exact ⟨next, other, hhalts.step (step_eq_some_iff.mp hstep), hblocks⟩
  · rintro ⟨inner, segment, hhalts, hblocks⟩
    obtain ⟨after, hwalk⟩ := walk_of_halts hhalts
    rw [hwalk, walk, step_eq_error_iff.mpr hblocks]

/-- A walk leads nowhere if a segment does not match, and is not meant as a position where it could be one. -/
theorem walk_eq_none_iff : walk value segments = .ok none ↔
    ∃ inner segment, Halts value segments inner segment ∧ ¬ Blocks inner segment ∧
      ∀ next, ¬ Matches inner segment next := by
  constructor
  · intro h
    induction segments generalizing value with
    | nil => cases h
    | cons segment rest ih =>
      unfold walk at h
      split at h
      · cases h
      · next hstep =>
        refine ⟨value, segment, ⟨[], rest, rfl, .here⟩, fun hblocks => ?_, fun next hmatches => ?_⟩
        · cases hstep.symm.trans (step_eq_error_iff.mpr ⟨hblocks, rfl⟩)
        · cases hstep.symm.trans (step_eq_some_iff.mpr hmatches)
      · next inner hstep =>
        obtain ⟨next, other, hhalts, hno⟩ := ih h
        exact ⟨next, other, hhalts.step (step_eq_some_iff.mp hstep), hno⟩
  · rintro ⟨inner, segment, hhalts, hopen, hno⟩
    obtain ⟨after, hwalk⟩ := walk_of_halts hhalts
    rw [hwalk, walk]
    split
    · next hstep => exact absurd (step_eq_error_iff.mp hstep).1 hopen
    · rfl
    · next next hstep => exact absurd (step_eq_some_iff.mp hstep) (hno next)

end Walks

end DesignTokens.KeyPath
