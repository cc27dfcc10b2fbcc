import DesignTokens.Json.KeyPath
import Mathlib.Data.String.Basic

/-!
# Walks along joined key paths

Joining two key paths puts a dot between them, and splitting the joined path gives the segments of both. This is so for
every text: a segment may be empty, whereas a part that is empty as a whole leaves no trace. The walk along the joined
path is then the walk along the one and, from where it ended, along the other.

A key path that leads nowhere is read as null. Null has no members and no items, so nothing is lost when a walk is cut
in two where it has already failed.

* `split_join` — the segments of a joined path.
* `valueOrNull_join` — the value at a joined path.
-/

namespace DesignTokens

/-! ### Splitting a text at one character -/

open String in
/-- Splitting a text at a separator of one character goes through its characters. In the middle of it, the parts that
are complete are kept in reverse, and what has been read since the last separator stands between the two positions. -/
theorem splitOnAux_singleton (c : Char) (l m r : List Char) (parts : List String) :
    (ofList (l ++ m ++ r)).splitOnAux (singleton c) ⟨utf8Len l⟩ ⟨utf8Len l + utf8Len m⟩ 0 parts =
      parts.reverse ++ (List.splitOnPPrepend (· == c) r m.reverse).map ofList := by
  have hfirst : Pos.Raw.get (singleton c) 0 = c := by
    simpa using get_of_valid [] [c]
  have hnext : Pos.Raw.next (singleton c) 0 = ⟨c.utf8Size⟩ := by
    simpa using next_of_valid [] c []
  have hend : Pos.Raw.atEnd (singleton c) ⟨c.utf8Size⟩ = true := by
    simpa using atEnd_of_valid [c] []
  induction r generalizing l m parts with
  | nil =>
    have hlast : Pos.Raw.atEnd (ofList (l ++ m ++ [])) ⟨utf8Len l + utf8Len m⟩ = true := by
      simpa using atEnd_of_valid (l ++ m) []
    rw [splitOnAux, if_pos hlast]
    simpa using extract_of_valid l m []
  | cons d r ih =>
    have hmore : ¬ Pos.Raw.atEnd (ofList (l ++ m ++ d :: r)) ⟨utf8Len l + utf8Len m⟩ = true := by
      have hend := atEnd_of_valid (l ++ m) (d :: r)
      rw [utf8Len_append] at hend
      simp only [hend, reduceCtorEq, not_false_eq_true]
    have hget : Pos.Raw.get (ofList (l ++ m ++ d :: r)) ⟨utf8Len l + utf8Len m⟩ = d := by
      simpa only [utf8Len_append, List.headD_cons] using get_of_valid (l ++ m) (d :: r)
    have hstep : Pos.Raw.next (ofList (l ++ m ++ d :: r)) ⟨utf8Len l + utf8Len m⟩ =
        ⟨utf8Len l + utf8Len m + d.utf8Size⟩ := by
      simpa only [utf8Len_append] using next_of_valid (l ++ m) d r
    rw [splitOnAux, if_neg hmore, hget, hfirst, List.splitOnPPrepend_cons_eq_if]
    by_cases hd : d = c
    · -- The separator ends a part, which reaches back to where it was begun.
      subst hd
      have hback : (⟨utf8Len l + utf8Len m + d.utf8Size⟩ : Pos.Raw).unoffsetBy ⟨d.utf8Size⟩ =
          ⟨utf8Len l + utf8Len m⟩ := by
        simp [Pos.Raw.unoffsetBy]
      simp only [beq_self_eq_true, if_true, hstep, hnext, hend, hback, extract_of_valid l m (d :: r)]
      have hrest := ih (l ++ m ++ [d]) [] (ofList m :: parts)
      simpa [Nat.add_assoc] using hrest
    · have hback : (⟨utf8Len l + utf8Len m⟩ : Pos.Raw).unoffsetBy 0 = ⟨utf8Len l + utf8Len m⟩ := by
        simp [Pos.Raw.unoffsetBy]
      have hrest := ih l (m ++ [d]) parts
      simp only [beq_iff_eq, hd, if_false, hback, hstep]
      simpa [Nat.add_assoc] using hrest

theorem splitOn_singleton (c : Char) (s : String) :
    s.splitOn (String.singleton c) = (s.toList.splitOn c).map String.ofList := by
  have hsep : (String.singleton c == "") = false := by simp
  have h := splitOnAux_singleton c [] [] s.toList []
  rw [List.append_nil, List.nil_append, String.ofList_toList] at h
  rw [String.splitOn, hsep, if_neg Bool.false_ne_true]
  exact h

namespace KeyPath

/-! ### The segments of a joined path -/

/-- A key path that is not empty has the segments between its dots. -/
theorem split_eq {path : String} (h : path ≠ "") : split path = (path.toList.splitOn '.').map String.ofList := by
  have hempty : path.isEmpty = false := by simpa using h
  rw [split, hempty, if_neg Bool.false_ne_true]
  exact splitOn_singleton '.' path

theorem join_pair (p q : String) :
    join [p, q] = if p = "" then q else if q = "" then p else p ++ "." ++ q := by
  unfold join
  by_cases hp : p = "" <;> by_cases hq : q = "" <;> simp [hp, hq]

theorem join_join (a b c : String) : join [join [a, b], c] = join [a, join [b, c]] := by
  simp only [join_pair]
  by_cases ha : a = ""
  · simp [ha]
  by_cases hb : b = ""
  · simp [ha, hb]
  by_cases hc : c = ""
  · simp [ha, hb, hc]
  · simp [ha, hb, hc, String.append_assoc]

theorem join_ne_empty {p : String} (hp : p ≠ "") (q : String) : join [p, q] ≠ "" := by
  rw [join_pair, if_neg hp]
  split
  · exact hp
  · simp

theorem split_join (p q : String) : split (join [p, q]) = split p ++ split q := by
  rw [join_pair]
  by_cases hp : p = ""
  · rw [if_pos hp, hp]
    rfl
  by_cases hq : q = ""
  · rw [if_neg hp, if_pos hq, hq]
    exact (List.append_nil _).symm
  rw [if_neg hp, if_neg hq, split_eq (by simp), split_eq hp, split_eq hq, ← List.map_append]
  have hlist : (p ++ "." ++ q).toList = p.toList ++ '.' :: q.toList := by simp
  rw [hlist, List.splitOn, List.splitOnP_append_cons _ _ (by simp)]
  rfl

/-! ### The value at a joined path -/

/-- The value at a key path, and null where the path leads nowhere. -/
def valueOrNull (value : Json) (path : String) : Except Fault Json :=
  return (← valueAt value path).getD .null

/-- From null there is a way only along the empty path, which leads to null again. -/
theorem valueOrNull_null (path : String) : valueOrNull .null path = .ok .null := by
  unfold valueOrNull valueAt
  cases split path <;> rfl

theorem valueOrNull_join (value : Json) (p q : String) :
    valueOrNull value (join [p, q]) = (valueOrNull value p >>= fun inner => valueOrNull inner q) := by
  have hwalk : valueAt value (join [p, q]) =
      (valueAt value p >>= fun reached => reached.elim (.ok none) fun inner => valueAt inner q) := by
    rw [valueAt, split_join, walk_append, valueAt]
    cases walk value (split p) with
    | error fault => rfl
    | ok reached => cases reached <;> rfl
  cases hp : valueAt value p with
  | error fault =>
    rw [valueOrNull, valueOrNull, hwalk, hp]
    rfl
  | ok reached =>
    cases reached with
    | none =>
      have hnowhere : valueOrNull value p = .ok .null := by rw [valueOrNull, hp]; rfl
      rw [hnowhere]
      show _ = valueOrNull .null q
      rw [valueOrNull_null, valueOrNull, hwalk, hp]
      rfl
    | some inner =>
      rw [valueOrNull, valueOrNull, hwalk, hp]
      rfl

end KeyPath

end DesignTokens
