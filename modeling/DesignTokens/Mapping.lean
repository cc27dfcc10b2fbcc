/-!
# Mappings in insertion order

A mapping from names to values that keeps the order in which the names first came. Setting a name that is
present replaces its value and leaves its place.

* `find?_insert` — a name finds what was set last under it.
* `keys_insert` — setting adds a name at the end, or none if it was there.
* `find?_isSome_iff` — a name finds something exactly if it is a key.
* `find?_of_mem` — a name finds what it is paired with.
-/

namespace DesignTokens

/-- Names with values, in insertion order, each name once. -/
structure Mapping (α : Type) where
  toList : List (String × α)
  nodup : (toList.map Prod.fst).Nodup := by simp

namespace Mapping

variable {α β : Type}

/-- The mapping without names. -/
def empty : Mapping α := ⟨[], by simp⟩

instance : EmptyCollection (Mapping α) := ⟨empty⟩
instance : Inhabited (Mapping α) := ⟨empty⟩

/-- The names, in order. -/
def keys (m : Mapping α) : List String := m.toList.map Prod.fst

def values (m : Mapping α) : List α := m.toList.map Prod.snd

def isEmpty (m : Mapping α) : Bool := m.toList.isEmpty

/-- The value under a name. -/
def find? (m : Mapping α) (name : String) : Option α := m.toList.lookup name

def contains (m : Mapping α) (name : String) : Bool := (m.find? name).isSome

/-- The pairs with the value under `name` replaced. -/
def replaced (name : String) (value : α) (pairs : List (String × α)) : List (String × α) :=
  pairs.map fun pair => if pair.1 = name then (name, value) else pair

theorem keys_replaced (name : String) (value : α) (pairs : List (String × α)) :
    (replaced name value pairs).map Prod.fst = pairs.map Prod.fst := by
  induction pairs with
  | nil => rfl
  | cons pair rest ih =>
    simp only [replaced, List.map_cons, List.cons.injEq] at ih ⊢
    refine ⟨?_, ih⟩
    split <;> simp_all

theorem lookup_isSome_iff {name : String} {pairs : List (String × α)} :
    (pairs.lookup name).isSome ↔ name ∈ pairs.map Prod.fst := by
  induction pairs with
  | nil => simp
  | cons pair rest ih =>
    obtain ⟨key, value⟩ := pair
    simp only [List.lookup_cons, List.map_cons, List.mem_cons]
    by_cases h : name = key
    · simp [h]
    · have : (name == key) = false := by simpa using h
      simp [this, h, ih]

theorem find?_isSome_iff {m : Mapping α} {name : String} : (m.find? name).isSome ↔ name ∈ m.keys :=
  lookup_isSome_iff

theorem find?_eq_none_iff {m : Mapping α} {name : String} : m.find? name = none ↔ name ∉ m.keys := by
  rw [← find?_isSome_iff]; simp

theorem mem_of_find? {m : Mapping α} {name : String} {value : α} (h : m.find? name = some value) :
    (name, value) ∈ m.toList := by
  obtain ⟨before, after, hpairs, -⟩ := List.lookup_eq_some_iff.mp h
  rw [hpairs]
  simp

theorem lookup_of_mem {pairs : List (String × α)} {name : String} {value : α} (hnodup : (pairs.map Prod.fst).Nodup)
    (h : (name, value) ∈ pairs) : pairs.lookup name = some value := by
  induction pairs with
  | nil => cases h
  | cons pair rest ih =>
    obtain ⟨key, first⟩ := pair
    obtain ⟨hnew, hrest⟩ := List.nodup_cons.mp hnodup
    rw [List.lookup_cons]
    rcases List.mem_cons.mp h with hown | hmem
    · cases hown
      rw [beq_self_eq_true]
    · have hother : (name == key) = false := by
        refine beq_eq_false_iff_ne.mpr fun hsame => hnew ?_
        exact List.mem_map.mpr ⟨(name, value), hmem, hsame⟩
      rw [hother]
      exact ih hrest hmem

theorem find?_of_mem {m : Mapping α} {name : String} {value : α} (h : (name, value) ∈ m.toList) :
    m.find? name = some value := lookup_of_mem m.nodup h

/-- The mapping with `value` under `name`: in the place of the name, or at the end if it is new. -/
def insert (m : Mapping α) (name : String) (value : α) : Mapping α :=
  if h : name ∈ m.toList.map Prod.fst then
    ⟨replaced name value m.toList, by rw [keys_replaced]; exact m.nodup⟩
  else
    ⟨m.toList ++ [(name, value)], by
      rw [List.map_append, List.nodup_append]
      refine ⟨m.nodup, by simp, ?_⟩
      intro a ha b hb
      simp only [List.map_cons, List.map_nil, List.mem_singleton] at hb
      subst hb
      rintro rfl
      exact h ha⟩

/-- The mapping without `name`. -/
def erase (m : Mapping α) (name : String) : Mapping α :=
  ⟨m.toList.filter (·.1 != name), (List.Sublist.map Prod.fst List.filter_sublist).nodup m.nodup⟩

/-- The mapping of pairs in which a later value under a name replaces the earlier one. -/
def ofList (pairs : List (String × α)) : Mapping α :=
  pairs.foldl (fun m pair => m.insert pair.1 pair.2) empty

/-- The mapping with all pairs of another one set in order. -/
def union (m other : Mapping α) : Mapping α :=
  other.toList.foldl (fun m pair => m.insert pair.1 pair.2) m

/-- The mapping with each value changed. -/
def map (f : α → β) (m : Mapping α) : Mapping β :=
  ⟨m.toList.map fun pair => (pair.1, f pair.2), by simpa [Function.comp_def] using m.nodup⟩

theorem lookup_append (pairs others : List (String × α)) (name : String) :
    (pairs ++ others).lookup name = (pairs.lookup name).or (others.lookup name) := by
  induction pairs with
  | nil => simp
  | cons pair rest ih =>
    obtain ⟨key, value⟩ := pair
    simp only [List.cons_append, List.lookup_cons]
    cases name == key <;> simp [ih]

theorem lookup_replaced {name : String} {value : α} {pairs : List (String × α)} {other : String} :
    (replaced name value pairs).lookup other =
      if other = name then (pairs.lookup name).map fun _ => value else pairs.lookup other := by
  induction pairs with
  | nil => simp [replaced]
  | cons pair rest ih =>
    obtain ⟨key, v⟩ := pair
    simp only [replaced, List.map_cons] at ih ⊢
    by_cases hk : key = name
    · subst hk
      by_cases ho : other = key
      · subst ho; simp
      · have : (other == key) = false := by simpa using ho
        simp only [↓reduceIte, List.lookup_cons, this, ho] at ih ⊢
        exact ih
    · simp only [hk, ↓reduceIte, List.lookup_cons]
      by_cases ho : other = key
      · subst ho; simp [hk]
      · have : (other == key) = false := by simpa using ho
        simp only [this, ih]
        by_cases hn : other = name
        · subst hn; simp [this]
        · simp [hn]

theorem find?_insert (m : Mapping α) (name : String) (value : α) (other : String) :
    (m.insert name value).find? other = if other = name then some value else m.find? other := by
  unfold insert find?
  split
  · next h =>
    simp only [lookup_replaced]
    split
    · obtain ⟨v, hv⟩ := Option.isSome_iff_exists.1 (lookup_isSome_iff.2 h)
      simp [hv]
    · rfl
  · next h =>
    have hnone : m.toList.lookup name = none := by
      rw [← Option.not_isSome_iff_eq_none, lookup_isSome_iff]; exact h
    simp only [lookup_append, List.lookup_cons, List.lookup_nil]
    by_cases ho : other = name
    · subst ho; simp [hnone]
    · have : (other == name) = false := by simpa using ho
      simp [this, ho]

theorem keys_insert (m : Mapping α) (name : String) (value : α) :
    (m.insert name value).keys = if name ∈ m.keys then m.keys else m.keys ++ [name] := by
  unfold insert keys
  split <;> simp_all [keys_replaced]

end Mapping

end DesignTokens
