import DesignTokens.Proofs.Json.KeyPath
import DesignTokens.Proofs.Resolution.Calls

/-!
# Scopes of accessors

An accessor shows a part of a parameter. The accessor of a part of that part shows what is at the joined key path, and
reading there is reading at the joined path from the start. The text at the first path may be the name of a parameter;
the accessor then leaves for that parameter, and the two have nothing in common.

A reader looks at two things only, the value at the whole key path and that path itself, which it names in its notices
(`readValue_congr`). Both are the same for the part and for the whole. On the way to the part the value there is looked
at, which can only fail where the reader would have failed in the same way (`object_fault_join`).

* `Accessor.accessor_eq` — the accessor of a part that does not name a parameter.
* `Accessor.scopes_compose` — readers and accessors of parts.
-/

namespace DesignTokens

open Resolve

/-! ### Readers with their values -/

/-- What a reader answers with. -/
def Reader.Value : Reader → Type
  | .object => Json
  | .string | .assetName => Option String
  | .number => Option Float
  | .integer => Option Int
  | .numbers _ => Option (List Float)
  | .point => Option Point
  | .size => Option Size
  | .insets => Option Insets
  | .color => Option Color

namespace Accessor

variable {r : Reading} {a b : Accessor} {p q keyPath other : String} {fault : Fault}

/-- What a reader answers with at a key path. -/
def readValue (r : Reading) (a : Accessor) (keyPath : String) : (reader : Reader) → Resolve reader.Value
  | .object => a.object keyPath
  | .string => a.string keyPath
  | .number => a.number r keyPath
  | .integer => a.integer r keyPath
  | .numbers count => a.numbers r keyPath count
  | .point => a.point r keyPath
  | .size => a.size r keyPath
  | .insets => a.insets r keyPath
  | .color => a.color r keyPath
  | .assetName => a.assetName keyPath

/-- A call of a reader leaves out what the reader answers with. -/
theorem read_eq_readValue (reader : Reader) :
    a.read r keyPath reader = (do let _ ← a.readValue r keyPath reader) := by
  cases reader <;> rfl

section Readers

variable (hobject : a.object keyPath = b.object other) (hpath : a.path keyPath = b.path other)

include hobject in
theorem string_congr : a.string keyPath = b.string other := by
  rw [string, string, hobject]

include hpath in
theorem expecting_congr : a.expecting keyPath = b.expecting other := by
  unfold expecting
  rw [hpath]

include hobject hpath in
theorem number_congr : a.number r keyPath = b.number r other := by
  rw [number, number, hobject, expecting_congr hpath]

include hobject hpath in
theorem numbers_congr (count : Option Int) : a.numbers r keyPath count = b.numbers r other count := by
  rw [numbers, numbers, hobject, expecting_congr hpath]

include hobject hpath in
/-- A reader looks at the value at the whole key path and at this path, and at nothing else of the accessor. -/
theorem readValue_congr (reader : Reader) : a.readValue r keyPath reader = b.readValue r other reader := by
  cases reader with
  | object => exact hobject
  | string => exact string_congr hobject
  | assetName => exact string_congr hobject
  | number => exact number_congr hobject hpath
  | numbers count => exact numbers_congr hobject hpath count
  | integer =>
    show a.integer r keyPath = b.integer r other
    rw [integer, integer, number_congr hobject hpath]
  | point =>
    show a.point r keyPath = b.point r other
    rw [point, point, numbers_congr hobject hpath]
  | size =>
    show a.size r keyPath = b.size r other
    rw [size, size, numbers_congr hobject hpath]
  | insets =>
    show a.insets r keyPath = b.insets r other
    rw [insets, insets, numbers_congr hobject hpath]
  | color =>
    show a.color r keyPath = b.color r other
    rw [color, color, string_congr hobject, hpath]

end Readers

/-- A reader fails where there is no telling the value at the key path. -/
theorem readValue_of_fault (h : a.object keyPath = throw fault) (reader : Reader) :
    a.readValue r keyPath reader = throw fault := by
  cases reader <;>
    simp only [readValue, string, assetName, number, integer, numbers, point, size, insets, color, h] <;> rfl

/-! ### The accessor of a part -/

/-- The same parameter with the part at a key path in view. -/
def within (a : Accessor) (keyPath : String) : Accessor := { a with scope := a.path keyPath }

theorem path_within (a : Accessor) (p q : String) : (a.within p).path q = a.path (KeyPath.join [p, q]) :=
  KeyPath.join_join a.scope p q

theorem object_eq (a : Accessor) (keyPath : String) :
    a.object keyPath = lift (KeyPath.valueOrNull a.value (a.path keyPath)) := by
  unfold object KeyPath.valueOrNull
  cases KeyPath.valueAt a.value (a.path keyPath) <;> rfl

theorem object_within (a : Accessor) (p q : String) : (a.within p).object q = a.object (KeyPath.join [p, q]) := by
  rw [object_eq, object_eq, path_within]
  rfl

/-- A walk that fails on the way to a part fails on the way to anything in it. -/
theorem object_fault_join (h : KeyPath.valueAt a.value (a.path p) = .error fault) (q : String) :
    a.object (KeyPath.join [p, q]) = throw fault := by
  have hwhole : KeyPath.valueOrNull a.value (a.path p) = .error fault := by
    rw [KeyPath.valueOrNull, h]
    rfl
  rw [object_eq, ← path_within, within, path, KeyPath.valueOrNull_join, hwhole]
  rfl

/-- Unless the text at a key path names a parameter, the accessor of the part there is that of the same parameter. -/
theorem accessor_eq (hp : p ≠ "")
    (hleaf : ∀ name, KeyPath.valueAt a.value (a.path p) = .ok (some (.string name)) →
      r.document.sections.parameters.find? name = none) :
    a.accessor r p = do
      let _ ← lift (KeyPath.valueAt a.value (a.path p))
      return a.within p := by
  have hempty : p.isEmpty = false := by simpa using hp
  rw [accessor, hempty, if_neg Bool.false_ne_true]
  cases hvalue : KeyPath.valueAt a.value (a.path p) with
  | error fault =>
    simp only [string, object, hvalue]
    rfl
  | ok reached =>
    simp only [string, object, hvalue]
    cases reached with
    | none => rfl
    | some value =>
      cases value with
      | string name =>
        have hstep : (lift (.ok (some (.string name))) : Resolve (Option Json)) = pure (some (.string name)) := rfl
        simp only [hstep, pure_bind, Option.getD_some, hleaf name hvalue]
        rfl
      | _ => rfl

/-- An accessor goes by the value at the whole key path. -/
theorem accessor_congr (hvalue : a.value = b.value) (hpath : a.path p = b.path q) (hp : p ≠ "") (hq : q ≠ "") :
    a.accessor r p = b.accessor r q := by
  have hempty : p.isEmpty = false := by simpa using hp
  have hempty' : q.isEmpty = false := by simpa using hq
  have hstring : a.string p = b.string q := string_congr (by rw [object_eq, object_eq, hvalue, hpath])
  rw [accessor, accessor, hempty, hempty', if_neg Bool.false_ne_true, if_neg Bool.false_ne_true, hstring, hvalue, hpath]

/-- An accessor of a part fails where there is no telling the value there. -/
theorem accessor_of_fault (hp : p ≠ "") (h : a.object p = throw fault) : a.accessor r p = throw fault := by
  have hempty : p.isEmpty = false := by simpa using hp
  rw [accessor, hempty, if_neg Bool.false_ne_true, string, h]
  rfl

/-- Cutting a key path in two changes nothing. The walk along the joined path is the walk along both; and unless the
text at the first path names a parameter, readers of the part there answer what readers of the whole answer at the
joined path, and accessors likewise. -/
theorem scopes_compose :
    (∀ (value : Json) (p q : String), KeyPath.valueOrNull value (KeyPath.join [p, q]) =
      (KeyPath.valueOrNull value p >>= fun inner => KeyPath.valueOrNull inner q)) ∧
    ∀ (r : Reading) (a : Accessor) (p q : String), p ≠ "" →
      (∀ name, KeyPath.valueAt a.value (a.path p) = .ok (some (.string name)) →
        r.document.sections.parameters.find? name = none) →
      (∀ reader, (do (← a.accessor r p).readValue r q reader) = a.readValue r (KeyPath.join [p, q]) reader) ∧
      (do (← a.accessor r p).accessor r q) = a.accessor r (KeyPath.join [p, q]) := by
  refine ⟨KeyPath.valueOrNull_join, fun r a p q hp hleaf => ?_⟩
  have hjoined : KeyPath.join [p, q] ≠ "" := KeyPath.join_ne_empty hp q
  rw [accessor_eq hp hleaf]
  cases hvalue : KeyPath.valueAt a.value (a.path p) with
  | error fault =>
    have hfault := object_fault_join hvalue q
    exact ⟨fun reader => (readValue_of_fault hfault reader).symm, (accessor_of_fault hjoined hfault).symm⟩
  | ok reached =>
    have hstep : (lift (.ok reached) : Resolve (Option Json)) = pure reached := rfl
    refine ⟨fun reader => ?_, ?_⟩
    · simp only [hstep, pure_bind]
      exact readValue_congr (object_within a p q) (path_within a p q) reader
    · simp only [hstep, pure_bind]
      by_cases hq : q = ""
      · subst hq
        have hjoin : KeyPath.join [p, ""] = p := by rw [KeyPath.join_pair, if_neg hp, if_pos rfl]
        rw [hjoin, accessor_eq hp hleaf, hvalue]
        rfl
      · exact accessor_congr rfl (path_within a p q) hq hjoined

/-- A parameter with a list whose last text is the name of a parameter. -/
def listedParameters : Reading where
  document := {
    version := none
    sections := {
      parameters := ⟨[("card", .object [("items", .list [.string "first", .string "last"])]), ("last", .null)],
        (by decide : ["card", "last"].Nodup)⟩ }
    hasEmptyGroups := false }
  surroundings := { storage := none, catalog := .builtIn, files := .empty }

/-- The accessor of the list, and the accessor of its last text, which leaves for the parameter of this name. -/
theorem scopes_compose_listed :
    let a : Accessor := { value := .object [("items", .list [.string "first", .string "last"])] }
    "items" ≠ "" ∧ KeyPath.valueAt a.value (a.path "items") = .ok (some (.list [.string "first", .string "last"])) ∧
      (do (← a.accessor listedParameters "items").readValue listedParameters "-1" .string) =
        a.readValue listedParameters (KeyPath.join ["items", "-1"]) .string ∧
      (do (← a.accessor listedParameters "items").accessor listedParameters "-1") =
        a.accessor listedParameters (KeyPath.join ["items", "-1"]) := by
  intro a
  have hlist : KeyPath.valueAt a.value (a.path "items") = .ok (some (.list [.string "first", .string "last"])) := by
    have hsplit : KeyPath.split "items" = ["items"] := by
      rw [KeyPath.split_eq (by decide)]
      decide
    rw [path, KeyPath.join_pair, KeyPath.valueAt, if_pos rfl, hsplit]
    rfl
  obtain ⟨hread, haccessor⟩ := scopes_compose.2 listedParameters a "items" "-1" (by decide) fun name hname => by
    rw [hlist] at hname
    cases hname
  exact ⟨by decide, hlist, hread .string, haccessor⟩

end Accessor

end DesignTokens
