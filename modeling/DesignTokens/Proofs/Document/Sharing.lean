import DesignTokens.Proofs.Document.Records

/-!
# Data with parts, decoded as trees

Data may refer to parts, each of them in many places. What it holds is then the value that is written out when every
part is put where it is referred to. A part that is inside itself cannot be written out, and no data with one holds a
value: values are finite, and each part holds one value at most. So the decoder, which stops where it meets a part
inside itself, never stops in data that holds a value, because what is under way is always larger than what is next. It
makes of such data what it makes of the value.

A document also depends on whether integers beyond all doubles are numbers. `Json.factors` are the integers of a value
that this can matter for.

* `Datum.Holds.unique` — data holds one value at most.
* `Datum.Unfolds.insideValue`, `Datum.Unfolds.insideDocument` — data that holds a value is not met inside itself.
* `Datum.alike_jsonWithin` — free-form values are decoded alike from data and from what it holds.
* `Kind.alike_entry` — so are entries of every kind.
* `Document.alike_within`, `Document.decode_holds` — so are documents with their groups.
-/

namespace DesignTokens

open Datum (Context ofJson ofItems ofMembers)

namespace Datum

/-! ### Data that holds a value -/

section Holds

variable {parts : Array Datum}

mutual

/-- Data holds a value: each list and each object in it may be a part, all else stands for itself. -/
def Holds (parts : Array Datum) : Datum → Json → Prop
  | d, .list items => ∃ data, d.whole parts = .list data ∧ HoldsItems parts data items
  | d, .object members => ∃ data, d.whole parts = .map data ∧ HoldsMembers parts data members
  | d, scalar => d = ofJson scalar

def HoldsItems (parts : Array Datum) : List Datum → List Json → Prop
  | [], [] => True
  | d :: data, item :: items => Holds parts d item ∧ HoldsItems parts data items
  | _, _ => False

def HoldsMembers (parts : Array Datum) : List (Datum × Datum) → List (String × Json) → Prop
  | [], [] => True
  | (key, d) :: data, (name, value) :: members =>
    key = .string name ∧ Holds parts d value ∧ HoldsMembers parts data members
  | _, _ => False

end

/-- Whether data is a value that is no list and no object. -/
def isScalar : Datum → Json → Bool
  | .null, .null => true
  | .bool b, .bool b' => b = b'
  | .int n, .int n' => n = n'
  | .float x origin, .float x' origin' => x = x' ∧ origin = origin'
  | .string s, .string s' => s = s'
  | _, _ => false

mutual

/-- Whether data holds a value, from the value down. -/
def checkHolds (parts : Array Datum) : Datum → Json → Bool
  | d, .list items =>
    match d.whole parts with
    | .list data => checkItems parts data items
    | _ => false
  | d, .object members =>
    match d.whole parts with
    | .map data => checkMembers parts data members
    | _ => false
  | d, scalar => isScalar d scalar

def checkItems (parts : Array Datum) : List Datum → List Json → Bool
  | [], [] => true
  | d :: data, item :: items => checkHolds parts d item && checkItems parts data items
  | _, _ => false

def checkMembers (parts : Array Datum) : List (Datum × Datum) → List (String × Json) → Bool
  | [], [] => true
  | (.string key, d) :: data, (name, value) :: members =>
    key = name && checkHolds parts d value && checkMembers parts data members
  | _, _ => false

end

mutual

theorem checkHolds_iff : ∀ {d : Datum} {j : Json}, checkHolds parts d j = true ↔ Holds parts d j
  | d, .list items => by
    rw [checkHolds, Holds]
    split
    · next data hwhole => simp [hwhole, checkItems_iff]
    · next hother =>
      refine iff_of_false Bool.false_ne_true ?_
      rintro ⟨data, hwhole, -⟩
      exact hother data hwhole
  | d, .object members => by
    rw [checkHolds, Holds]
    split
    · next data hwhole => simp [hwhole, checkMembers_iff]
    · next hother =>
      refine iff_of_false Bool.false_ne_true ?_
      rintro ⟨data, hwhole, -⟩
      exact hother data hwhole
  | d, .null => by cases d <;> simp [checkHolds, isScalar, Holds, ofJson]
  | d, .bool b => by cases d <;> simp [checkHolds, isScalar, Holds, ofJson]
  | d, .int n => by cases d <;> simp [checkHolds, isScalar, Holds, ofJson]
  | d, .float x origin => by cases d <;> simp [checkHolds, isScalar, Holds, ofJson]
  | d, .string s => by cases d <;> simp [checkHolds, isScalar, Holds, ofJson]

theorem checkItems_iff : ∀ {data : List Datum} {items : List Json},
    checkItems parts data items = true ↔ HoldsItems parts data items
  | [], [] => by simp [checkItems, HoldsItems]
  | d :: data, item :: items => by simp [checkItems, HoldsItems, checkHolds_iff, checkItems_iff]
  | [], item :: items => by simp [checkItems, HoldsItems]
  | d :: data, [] => by simp [checkItems, HoldsItems]

theorem checkMembers_iff : ∀ {data : List (Datum × Datum)} {members : List (String × Json)},
    checkMembers parts data members = true ↔ HoldsMembers parts data members
  | [], [] => by simp [checkMembers, HoldsMembers]
  | (key, d) :: data, (name, value) :: members => by
    cases key <;> simp [checkMembers, HoldsMembers, checkHolds_iff, checkMembers_iff, and_assoc]
  | [], member :: members => by simp [checkMembers, HoldsMembers]
  | (key, d) :: data, [] => by simp [checkMembers, HoldsMembers]

end

instance (d : Datum) (j : Json) : Decidable (Holds parts d j) := decidable_of_iff _ checkHolds_iff

theorem holdsItems_iff {data : List Datum} {items : List Json} :
    HoldsItems parts data items ↔ List.Forall₂ (Holds parts) data items := by
  induction data generalizing items with
  | nil => cases items <;> simp [HoldsItems]
  | cons d data ih => cases items <;> simp [HoldsItems, ih]

theorem holdsMembers_iff {data : List (Datum × Datum)} {members : List (String × Json)} :
    HoldsMembers parts data members ↔
      List.Forall₂ (fun (d : Datum × Datum) member => d.1 = .string member.1 ∧ Holds parts d.2 member.2) data
        members := by
  induction data generalizing members with
  | nil => cases members <;> simp [HoldsMembers]
  | cons d data ih => cases members <;> simp [HoldsMembers, ih, and_assoc]

mutual

/-- Data without parts hold the value that they are. -/
theorem holds_ofJson : ∀ j : Json, Holds parts (ofJson j) j
  | .list items => ⟨_, rfl, holdsItems_ofItems items⟩
  | .object members => ⟨_, rfl, holdsMembers_ofMembers members⟩
  | .null | .bool _ | .int _ | .float _ _ | .string _ => rfl

theorem holdsItems_ofItems : ∀ items : List Json, HoldsItems parts (ofItems items) items
  | [] => trivial
  | item :: rest => ⟨holds_ofJson item, holdsItems_ofItems rest⟩

theorem holdsMembers_ofMembers : ∀ members : List (String × Json), HoldsMembers parts (ofMembers members) members
  | [] => trivial
  | (_, value) :: rest => ⟨rfl, holds_ofJson value, holdsMembers_ofMembers rest⟩

end

/-- Data that may hold a list or an object. -/
def IsCollection : Datum → Prop
  | .list _ | .map _ | .part _ => True
  | _ => False

theorem isCollection_of_whole_list {d : Datum} {data : List Datum} (h : d.whole parts = .list data) :
    d.IsCollection := by
  cases d <;> trivial

theorem isCollection_of_whole_map {d : Datum} {data : List (Datum × Datum)} (h : d.whole parts = .map data) :
    d.IsCollection := by
  cases d <;> trivial

/-- What holds a value that is no list and no object is that value, and what holds one of these is a collection. -/
theorem Holds.eq_or_isCollection {d : Datum} {j : Json} (h : Holds parts d j) :
    d = ofJson j ∨ d.IsCollection ∧ (ofJson j).IsCollection := by
  cases j with
  | list items =>
    obtain ⟨data, hwhole, -⟩ := h
    exact .inr ⟨isCollection_of_whole_list hwhole, trivial⟩
  | object members =>
    obtain ⟨data, hwhole, -⟩ := h
    exact .inr ⟨isCollection_of_whole_map hwhole, trivial⟩
  | _ => exact .inl h

/-- What is seen of data that holds a value, once the part at the top is opened. -/
inductive Shows (parts : Array Datum) : Datum → Json → Prop where
  | list {data : List Datum} {items : List Json} (h : HoldsItems parts data items) :
      Shows parts (.list data) (.list items)
  | map {data : List (Datum × Datum)} {members : List (String × Json)} (h : HoldsMembers parts data members) :
      Shows parts (.map data) (.object members)
  | scalar {j : Json} (h : ¬ (ofJson j).IsCollection) : Shows parts (ofJson j) j

theorem Holds.shows {d : Datum} {j : Json} (h : Holds parts d j) : Shows parts (d.whole parts) j := by
  cases j with
  | list items =>
    obtain ⟨data, hwhole, hitems⟩ := h
    rw [hwhole]
    exact .list hitems
  | object members =>
    obtain ⟨data, hwhole, hmembers⟩ := h
    rw [hwhole]
    exact .map hmembers
  | _ =>
    obtain rfl := h
    exact .scalar id

/-- A value that is no list and no object is the only one that its data holds. -/
theorem Holds.eq_of_scalar {d : Datum} {j k : Json} (hj : ¬ (ofJson j).IsCollection) (h : Holds parts d j)
    (hk : Holds parts d k) : j = k := by
  rcases h.eq_or_isCollection with rfl | ⟨-, hcollection⟩
  · rcases hk.eq_or_isCollection with hsame | ⟨hcollection, -⟩
    · cases j <;> cases k <;> simp_all [ofJson, IsCollection]
    · exact absurd hcollection hj
  · exact absurd hcollection hj

mutual

/-- Data holds one value at most. -/
theorem Holds.unique {d : Datum} : ∀ {j k : Json}, Holds parts d j → Holds parts d k → j = k
  | .list items, k, h, hk => by
    obtain ⟨data, hwhole, hitems⟩ := h
    cases k with
    | list others =>
      obtain ⟨data', hwhole', hothers⟩ := hk
      cases hwhole.symm.trans hwhole'
      rw [HoldsItems.unique hitems hothers]
    | object members =>
      obtain ⟨data', hwhole', -⟩ := hk
      cases hwhole.symm.trans hwhole'
    | _ =>
      cases hk
      cases hwhole
  | .object members, k, h, hk => by
    obtain ⟨data, hwhole, hmembers⟩ := h
    cases k with
    | list others =>
      obtain ⟨data', hwhole', -⟩ := hk
      cases hwhole.symm.trans hwhole'
    | object others =>
      obtain ⟨data', hwhole', hothers⟩ := hk
      cases hwhole.symm.trans hwhole'
      rw [HoldsMembers.unique hmembers hothers]
    | _ =>
      cases hk
      cases hwhole
  | .null, k, h, hk => h.eq_of_scalar id hk
  | .bool b, k, h, hk => h.eq_of_scalar id hk
  | .int n, k, h, hk => h.eq_of_scalar id hk
  | .float x origin, k, h, hk => h.eq_of_scalar id hk
  | .string s, k, h, hk => h.eq_of_scalar id hk

theorem HoldsItems.unique : ∀ {data : List Datum} {items others : List Json}, HoldsItems parts data items →
    HoldsItems parts data others → items = others
  | [], [], [], _, _ => rfl
  | _ :: _, item :: items, _ :: _, h, hothers => by rw [Holds.unique h.1 hothers.1, HoldsItems.unique h.2 hothers.2]

theorem HoldsMembers.unique : ∀ {data : List (Datum × Datum)} {members others : List (String × Json)},
    HoldsMembers parts data members → HoldsMembers parts data others → members = others
  | [], [], [], _, _ => rfl
  | (_, _) :: _, (name, value) :: members, (_, _) :: _, h, hothers => by
    cases h.1.symm.trans hothers.1
    rw [Holds.unique h.2.1 hothers.2.1, HoldsMembers.unique h.2.2 hothers.2.2]

end

end Holds

end Datum

/-! ### Values inside values -/

namespace Json

/-- The items of a list and the values of an object. -/
def children : Json → List Json
  | .list items => items
  | .object members => members.map Prod.snd
  | _ => []

theorem sizeOf_lt_of_mem_children {j k : Json} (h : k ∈ j.children) : sizeOf k < sizeOf j := by
  cases j with
  | list items =>
    have hlt : sizeOf k < sizeOf items := List.sizeOf_lt_of_mem h
    rw [Json.list.sizeOf_spec]
    omega
  | object members =>
    obtain ⟨⟨name, value⟩, hmem, rfl⟩ := List.mem_map.mp h
    have hlt := List.sizeOf_lt_of_mem hmem
    rw [Prod.mk.sizeOf_spec] at hlt
    rw [Json.object.sizeOf_spec]
    dsimp only
    omega
  | _ => cases h

/-- The integer that a value is, if it is a member that a record reads as a number. -/
def ownFactor (name : String) : Json → List Int
  | .int n => if name = "multiplier" ∨ name = "constant" then [n] else []
  | _ => []

mutual

/-- The integers inside a value that stand where a record may want a number. -/
def factors : Json → List Int
  | .list items => itemFactors items
  | .object members => memberFactors members
  | _ => []

def itemFactors : List Json → List Int
  | [] => []
  | item :: rest => factors item ++ itemFactors rest

def memberFactors : List (String × Json) → List Int
  | [] => []
  | (name, value) :: rest => ownFactor name value ++ factors value ++ memberFactors rest

end

theorem factors_subset_itemFactors {item : Json} {items : List Json} (h : item ∈ items) :
    item.factors ⊆ itemFactors items := by
  induction items with
  | nil => cases h
  | cons other rest ih =>
    rw [itemFactors]
    rcases List.mem_cons.mp h with rfl | h
    · exact List.subset_append_left _ _
    · exact List.Subset.trans (ih h) (List.subset_append_right _ _)

theorem factors_subset_memberFactors {name : String} {value : Json} {members : List (String × Json)}
    (h : (name, value) ∈ members) : ownFactor name value ++ value.factors ⊆ memberFactors members := by
  induction members with
  | nil => cases h
  | cons member rest ih =>
    rw [memberFactors]
    rcases List.mem_cons.mp h with rfl | h
    · exact List.subset_append_left _ _
    · exact List.Subset.trans (ih h) (List.subset_append_right _ _)

theorem factors_subset_of_mem_children {j k : Json} (h : k ∈ j.children) : k.factors ⊆ j.factors := by
  cases j with
  | list items => exact factors_subset_itemFactors h
  | object members =>
    obtain ⟨⟨name, value⟩, hmem, rfl⟩ := List.mem_map.mp h
    exact List.Subset.trans (List.subset_append_right _ _) (factors_subset_memberFactors hmem)
  | _ => cases h

end Json

/-! ### Contexts -/

namespace Datum

/-- Data in one context holds a value that is decoded without parts in the other one. What is under way in the first
context holds larger values, so that nothing is met again inside itself. -/
structure Unfolds (c c' : Context) (d : Datum) (j : Json) : Prop where
  holds : Holds c.parts d j
  depth : c.depth = c'.depth
  numbers : ∀ n ∈ j.factors, Scalar.number c.saturates (.int n) = Scalar.number c'.saturates (.int n)
  documents : ∀ n ∈ c.documents, ∃ k, Holds c.parts (.part n) k ∧ sizeOf j < sizeOf k
  values : ∀ n ∈ c.values, ∃ k, Holds c.parts (.part n) k ∧ sizeOf j < sizeOf k

/-- What is inside a value is decoded in one context as in the other one. -/
structure Opens (c c' : Context) (j : Json) : Prop where
  numbers : ∀ n ∈ j.factors, Scalar.number c.saturates (.int n) = Scalar.number c'.saturates (.int n)
  child : ∀ ⦃d k⦄, k ∈ j.children → Holds c.parts d k → Unfolds c c' d k

section Contexts

variable {c c' : Context} {d : Datum} {j : Json}

theorem Unfolds.opens (h : Unfolds c c' d j) : Opens c c' j where
  numbers := h.numbers
  child _ _ hk he :=
    have hlt := Json.sizeOf_lt_of_mem_children hk
    { holds := he
      depth := h.depth
      numbers := fun n hn => h.numbers n (Json.factors_subset_of_mem_children hk hn)
      documents := fun n hn =>
        have ⟨around, haround, hsize⟩ := h.documents n hn
        ⟨around, haround, hlt.trans hsize⟩
      values := fun n hn =>
        have ⟨around, haround, hsize⟩ := h.values n hn
        ⟨around, haround, hlt.trans hsize⟩ }

/-- No part is larger than itself. -/
theorem not_mem_of_holds {parts : Array Datum} {number : Nat} {numbers : List Nat} (h : Holds parts (.part number) j)
    (hnumbers : ∀ n ∈ numbers, ∃ k, Holds parts (.part n) k ∧ sizeOf j < sizeOf k) : number ∉ numbers := by
  intro hmem
  obtain ⟨k, hk, hlt⟩ := hnumbers number hmem
  rw [h.unique hk] at hlt
  exact Nat.lt_irrefl _ hlt

/-- What is inside a free-form value may be decoded. -/
theorem Unfolds.insideValue (h : Unfolds c c' d j) :
    ∃ inside, c.insideValue? d = some inside ∧ inside.parts = c.parts ∧ Opens inside c' j := by
  cases d with
  | part number =>
    have hnew := not_mem_of_holds h.holds h.values
    refine ⟨{ c with values := number :: c.values }, by simp [Context.insideValue?, hnew], rfl, h.numbers, ?_⟩
    intro e k hk he
    have hchild := h.opens.child hk he
    refine ⟨he, hchild.depth, hchild.numbers, hchild.documents, fun n hn => ?_⟩
    rcases List.mem_cons.mp hn with rfl | hn
    · exact ⟨j, h.holds, Json.sizeOf_lt_of_mem_children hk⟩
    · exact hchild.values n hn
  | _ => exact ⟨c, rfl, rfl, h.opens⟩

/-- What is inside a document may be decoded. -/
theorem Unfolds.insideDocument (h : Unfolds c c' d j) :
    ∃ inside, c.insideDocument? d = some inside ∧ inside.parts = c.parts ∧ Opens inside c' j := by
  cases d with
  | part number =>
    have hnew := not_mem_of_holds h.holds h.documents
    refine ⟨{ c with documents := number :: c.documents }, by simp [Context.insideDocument?, hnew], rfl, h.numbers, ?_⟩
    intro e k hk he
    have hchild := h.opens.child hk he
    refine ⟨he, hchild.depth, hchild.numbers, fun n hn => ?_, hchild.values⟩
    rcases List.mem_cons.mp hn with rfl | hn
    · exact ⟨j, h.holds, Json.sizeOf_lt_of_mem_children hk⟩
    · exact hchild.documents n hn
  | _ => exact ⟨c, rfl, rfl, h.opens⟩

end Contexts

/-! ### Decoders -/

/-- A decoder of data and one of trees come to the same. -/
def Alike {α : Type} (c c' : Context) (decode decode' : Datum → Checked α) : Prop :=
  ∀ ⦃d j⦄, Unfolds c c' d j → decode d = decode' (ofJson j)

section Decoders

variable {α : Type} {c c' : Context} {decode decode' : Datum → Checked α}

/-- A decoder that refuses all collections for one reason does not look into parts. -/
theorem alike_of_refuses (mismatch : Mismatch) (h : ∀ d : Datum, d.IsCollection → decode d = .fail mismatch) :
    Alike c c' decode decode := by
  intro d j hj
  rcases hj.holds.eq_or_isCollection with rfl | ⟨hd, hcollection⟩
  · rfl
  · rw [h d hd, h _ hcollection]

theorem alike_text : Alike c c' Scalar.text Scalar.text := by
  refine alike_of_refuses .notString fun d hd => ?_
  cases d <;> first | rfl | cases hd

theorem alike_flag : Alike c c' Scalar.flag Scalar.flag := by
  refine alike_of_refuses .notFlag fun d hd => ?_
  cases d <;> first | rfl | cases hd

theorem alike_choice (ofText? : String → Option α) : Alike c c' (choice ofText?) (choice ofText?) := by
  refine alike_of_refuses .notChoice fun d hd => ?_
  cases d <;> first | rfl | cases hd

theorem alike_spelling (ofText? : String → Option α) (rule : String → Rule) :
    Alike c c' (spelling ofText? rule) (spelling ofText? rule) := by
  refine alike_of_refuses .notChoice fun d hd => ?_
  cases d <;> first | rfl | cases hd

theorem alike_integer : Alike c c' (Scalar.optional Scalar.integer) (Scalar.optional Scalar.integer) := by
  refine alike_of_refuses .notInteger fun d hd => ?_
  cases d <;> first | rfl | cases hd

/-- A number is read alike unless it is an integer, which may depend on the context. -/
theorem number_eq {d : Datum} {j : Json} (h : Holds c.parts d j)
    (hint : ∀ n, j = .int n → Scalar.number c.saturates (.int n) = Scalar.number c'.saturates (.int n)) :
    Scalar.number c.saturates d = Scalar.number c'.saturates (ofJson j) := by
  rcases h.eq_or_isCollection with rfl | ⟨hd, hcollection⟩
  · cases j with
    | int n => exact hint n rfl
    | _ => rfl
  · have hrefuses (saturates : Bool) (d : Datum) (hd : d.IsCollection) :
        Scalar.number saturates d = .fail .notNumber := by
      cases d <;> first | rfl | cases hd
    rw [hrefuses _ d hd, hrefuses _ _ hcollection]

/-! ### Lists and mappings -/

theorem HoldsItems.forall₂ {parts : Array Datum} {P : Datum → Json → Prop} {data : List Datum} {items : List Json}
    (h : HoldsItems parts data items) (hP : ∀ d, ∀ item ∈ items, Holds parts d item → P d item) :
    List.Forall₂ P data items := by
  rw [holdsItems_iff] at h
  induction h with
  | nil => exact .nil
  | cons hfirst _ ih =>
    refine .cons (hP _ _ (List.mem_cons_self ..) hfirst) (ih fun d item hmem => ?_)
    exact hP d item (List.mem_cons_of_mem _ hmem)

theorem HoldsMembers.forall₂ {parts : Array Datum} {P : Datum → String × Json → Prop} {data : List (Datum × Datum)}
    {members : List (String × Json)} (h : HoldsMembers parts data members)
    (hP : ∀ d, ∀ member ∈ members, Holds parts d member.2 → P d member) :
    List.Forall₂ (fun (d : Datum × Datum) member => d.1 = .string member.1 ∧ P d.2 member) data members := by
  rw [holdsMembers_iff] at h
  induction h with
  | nil => exact .nil
  | cons hfirst _ ih =>
    refine .cons ⟨hfirst.1, hP _ _ (List.mem_cons_self ..) hfirst.2⟩ (ih fun d member hmem => ?_)
    exact hP d member (List.mem_cons_of_mem _ hmem)

/-- Values that are decoded alike one by one are so at their positions. -/
theorem listedValues_congr {data others : List Datum}
    (h : List.Forall₂ (fun d other => decode d = decode' other) data others) :
    listedValues decode data = listedValues decode' others := by
  refine congrArg Checked.all (List.ext_getElem (by simp [h.length_eq]) fun i hi hi' => ?_)
  rw [List.length_mapIdx] at hi hi'
  have heach := h.get hi hi'
  simp only [List.get_eq_getElem] at heach
  rw [List.getElem_mapIdx, List.getElem_mapIdx, heach]

/-- So they are under the same names. -/
theorem namedValues_congr {data others : List (Datum × Datum)}
    (h : List.Forall₂ (fun d other => d.1 = other.1 ∧ decode d.2 = decode' other.2) data others) :
    namedValues decode data = namedValues decode' others := by
  refine congrArg (fun values => (Checked.all values).map Mapping.ofList) ?_
  induction h with
  | nil => rfl
  | cons hfirst _ ih =>
    rw [List.map_cons, List.map_cons, ih]
    dsimp only
    rw [hfirst.1, hfirst.2]

theorem listedValues_alike {data : List Datum} {items : List Json} (hdata : HoldsItems c.parts data items)
    (hopens : Opens c c' (.list items)) (h : Alike c c' decode decode') :
    listedValues decode data = listedValues decode' (ofItems items) := by
  rw [ofItems_eq_map]
  refine listedValues_congr (List.forall₂_map_right_iff.mpr ?_)
  exact hdata.forall₂ fun d item hmem hd => h (hopens.child hmem hd)

theorem namedValues_alike {data : List (Datum × Datum)} {members : List (String × Json)}
    (hdata : HoldsMembers c.parts data members) (hopens : Opens c c' (.object members))
    (h : Alike c c' decode decode') :
    namedValues decode data = namedValues decode' (ofMembers members) := by
  rw [ofMembers_eq_map]
  refine namedValues_congr (List.forall₂_map_right_iff.mpr ?_)
  exact hdata.forall₂ fun d member hmem hd => h (hopens.child (List.mem_map_of_mem hmem) hd)

theorem alike_items (h : Alike c c' decode decode') : Alike c c' (items c decode) (items c' decode') := by
  intro d j hj
  have hshows := hj.holds.shows
  rw [items, items, whole_ofJson]
  generalize d.whole c.parts = e at hshows ⊢
  cases hshows with
  | list hdata => exact listedValues_alike hdata hj.opens h
  | map => rfl
  | scalar hscalar => cases j <;> first | rfl | exact absurd trivial hscalar

theorem alike_mapping (h : Alike c c' decode decode') : Alike c c' (mapping c decode) (mapping c' decode') := by
  intro d j hj
  have hshows := hj.holds.shows
  rw [mapping, mapping, whole_ofJson]
  generalize d.whole c.parts = e at hshows ⊢
  cases hshows with
  | list => rfl
  | map hdata => exact namedValues_alike hdata hj.opens h
  | scalar hscalar => cases j <;> first | rfl | exact absurd trivial hscalar

theorem alike_jsonWithin (depth : Nat) : Alike c c' (jsonWithin depth c) (jsonWithin depth c') := by
  induction depth generalizing c with
  | zero => exact fun d j _ => rfl
  | succ depth ih =>
    intro d j hj
    obtain ⟨inside, hinside, hparts, hopens⟩ := hj.insideValue
    have hshows := (hparts ▸ hj.holds : Holds inside.parts d j).shows
    rw [jsonWithin_ofJson, jsonWithin, hinside]
    dsimp only
    generalize d.whole inside.parts = e at hshows ⊢
    cases hshows with
    | list hdata =>
      dsimp only
      rw [listedValues_alike hdata hopens ih]
    | map hdata =>
      dsimp only
      rw [namedValues_alike hdata hopens ih]
    | scalar hscalar => cases j <;> first | rfl | exact absurd trivial hscalar

theorem alike_json : Alike c c' (json c) (json c') := by
  intro d j hj
  rw [json, json, hj.depth]
  exact alike_jsonWithin _ hj

end Decoders

end Datum

/-! ### Records -/

namespace Record

open Datum

variable {α : Type} {c c' : Context} {data : Record} {members : List (String × Json)}

/-- The last member under a name is the same member. -/
theorem lastNamed?_holds {parts : Array Datum} (h : HoldsMembers parts data members) (name : String) :
    (data.lastNamed? name = none ∧ lastNamed? name (ofMembers members) = none) ∨
      ∃ d j, data.lastNamed? name = some d ∧ lastNamed? name (ofMembers members) = some (ofJson j) ∧
        (name, j) ∈ members ∧ Holds parts d j := by
  induction data generalizing members with
  | nil =>
    cases members with
    | nil => exact .inl ⟨rfl, rfl⟩
    | cons => cases h
  | cons entry rest ih =>
    obtain ⟨key, d⟩ := entry
    cases members with
    | nil => cases h
    | cons member others =>
      obtain ⟨own, j⟩ := member
      obtain ⟨rfl, hd, hrest⟩ := h
      simp only [ofMembers, lastNamed?]
      rcases ih hrest with ⟨hnone, hnone'⟩ | ⟨e, k, hsome, hsome', hmem, he⟩
      · rw [hnone, hnone']
        by_cases hname : own = name
        · subst hname
          exact .inr ⟨d, j, if_pos rfl, if_pos rfl, List.mem_cons_self .., hd⟩
        · exact .inl ⟨if_neg hname, if_neg hname⟩
      · rw [hsome, hsome']
        exact .inr ⟨e, k, rfl, rfl, List.mem_cons_of_mem _ hmem, he⟩

/-- A field is the same member. -/
theorem field?_holds {parts : Array Datum} (h : HoldsMembers parts data members) (name : FieldName) :
    (data.field? name = none ∧ field? (ofMembers members) name = none) ∨
      ∃ spelling d j, data.field? name = some (spelling, d) ∧
        field? (ofMembers members) name = some (spelling, ofJson j) ∧
        (spelling = name.joined ∨ spelling = name.underscored) ∧ (spelling, j) ∈ members ∧ Holds parts d j := by
  unfold field?
  rcases lastNamed?_holds h name.joined with ⟨hnone, hnone'⟩ | ⟨d, j, hsome, hsome', hmem, hd⟩
  · rw [hnone, hnone']
    rcases lastNamed?_holds h name.underscored with ⟨hnone, hnone'⟩ | ⟨d, j, hsome, hsome', hmem, hd⟩
    · rw [hnone, hnone']
      exact .inl ⟨rfl, rfl⟩
    · rw [hsome, hsome']
      exact .inr ⟨_, d, j, rfl, rfl, .inr rfl, hmem, hd⟩
  · rw [hsome, hsome']
    exact .inr ⟨_, d, j, rfl, rfl, .inl rfl, hmem, hd⟩

/-- The members of a record, as data and as values. -/
structure Unfolds (c c' : Context) (data : Record) (members : List (String × Json)) : Prop where
  holds : HoldsMembers c.parts data members
  opens : Opens c c' (.object members)

namespace Unfolds

variable {decode decode' : Datum → Checked α}

theorem getD_of_member (h : Unfolds c c' data members) (name : FieldName) (default : α)
    (hmember : ∀ spelling d j, spelling = name.joined ∨ spelling = name.underscored → (spelling, j) ∈ members →
      Holds c.parts d j → decode d = decode' (ofJson j)) :
    data.getD name decode default = getD (ofMembers members) name decode' default := by
  rcases field?_holds h.holds name with ⟨hnone, hnone'⟩ | ⟨spelling, d, j, hsome, hsome', hspelling, hmem, hd⟩
  · simp only [getD, hnone, hnone']
  · simp only [getD, hsome, hsome', hmember spelling d j hspelling hmem hd]

theorem getD (h : Unfolds c c' data members) (hdecode : Alike c c' decode decode') (name : FieldName) (default : α) :
    data.getD name decode default = Record.getD (ofMembers members) name decode' default :=
  h.getD_of_member name default fun _ _ _ _ hmem hd => hdecode (h.opens.child (List.mem_map_of_mem hmem) hd)

theorem optional (h : Unfolds c c' data members) (hdecode : Alike c c' decode decode') (name : FieldName) :
    data.optional name decode = Record.optional (ofMembers members) name decode' := by
  refine h.getD (fun d j hj => ?_) name none
  rcases hj.holds.eq_or_isCollection with rfl | ⟨hd, hcollection⟩
  · cases j with
    | null => rfl
    | _ => exact congrArg (Checked.map some) (hdecode hj)
  · have hsome : (decode d).map some = (decode' (ofJson j)).map some := by rw [hdecode hj]
    cases d <;> cases j <;> first | exact hsome | exact False.elim hd | exact False.elim hcollection

theorem required (h : Unfolds c c' data members) (hdecode : Alike c c' decode decode') (name : FieldName) :
    data.required name decode = Record.required (ofMembers members) name decode' := by
  rcases field?_holds h.holds name with ⟨hnone, hnone'⟩ | ⟨spelling, d, j, hsome, hsome', -, hmem, hd⟩
  · simp only [Record.required, hnone, hnone']
  · simp only [Record.required, hsome, hsome', hdecode (h.opens.child (List.mem_map_of_mem hmem) hd)]

/-- A number in a record, under one of the names of numbers. -/
theorem number (h : Unfolds c c' data members) {name : FieldName} (hjoined : name.joined ∈ ["multiplier", "constant"])
    (hunderscored : name.underscored ∈ ["multiplier", "constant"]) (default : Number.Figure) :
    data.getD name (Scalar.number c.saturates) default =
      Record.getD (ofMembers members) name (Scalar.number c'.saturates) default := by
  refine h.getD_of_member name default fun spelling d j hspelling hmem hd => number_eq hd ?_
  rintro n rfl
  refine h.opens.numbers n (Json.factors_subset_memberFactors hmem (List.mem_append_left _ ?_))
  have hname : spelling ∈ ["multiplier", "constant"] := by
    rcases hspelling with rfl | rfl
    · exact hjoined
    · exact hunderscored
  rw [Json.ownFactor, if_pos (by simpa using hname)]
  exact List.mem_singleton_self n

end Unfolds

end Record

namespace Datum

/-- Records are read alike, and what is done with their members may rest on that. -/
theorem record_andThen {α : Type} {c c' : Context} {d : Datum} {j : Json} (hholds : Holds c.parts d j)
    (hopens : Opens c c' j) {f f' : Record → Checked α}
    (hf : ∀ ⦃data members⦄, Record.Unfolds c c' data members → f data = f' (ofMembers members)) :
    (record c d).andThen f = (record c' (ofJson j)).andThen f' := by
  have hshows := hholds.shows
  rw [record, record, whole_ofJson]
  generalize d.whole c.parts = e at hshows ⊢
  cases hshows with
  | list => rfl
  | map hdata => exact hf ⟨hdata, hopens⟩
  | scalar hscalar => cases j <;> first | rfl | exact absurd trivial hscalar

theorem alike_record {α : Type} {c c' : Context} {f f' : Record → Checked α}
    (hf : ∀ ⦃data members⦄, Record.Unfolds c c' data members → f data = f' (ofMembers members)) :
    Alike c c' (fun d => (record c d).andThen f) (fun d => (record c' d).andThen f') :=
  fun _ _ hj => record_andThen hj.holds hj.opens hf

end Datum

open Datum

/-! ### Entries -/

section Entries

variable {c c' : Context}

theorem FontEntry.alike : Alike c c' (FontEntry.decode c) (FontEntry.decode c') :=
  alike_record fun _ _ h => by simp only [h.optional alike_text, h.optional alike_json]

theorem TextAttributesEntry.alike : Alike c c' (TextAttributesEntry.decode c) (TextAttributesEntry.decode c') :=
  alike_record fun _ _ h => by simp only [h.optional alike_text, h.optional alike_json]

theorem RelativeDimension.alike : Alike c c' (RelativeDimension.decode c) (RelativeDimension.decode c') :=
  alike_record fun _ _ h => by
    have hmultiplier := h.number (by decide : FieldName.joined ⟨"multiplier", []⟩ ∈ _) (by decide) ⟨1.0, none⟩
    have hconstant := h.number (by decide : FieldName.joined ⟨"constant", []⟩ ∈ _) (by decide) ⟨0.0, none⟩
    simp only [h.required (alike_choice _), h.getD (alike_spelling _ _), h.required alike_text, hmultiplier, hconstant]

theorem PlacementEntry.alike : Alike c c' (PlacementEntry.decode c) (PlacementEntry.decode c') :=
  alike_record fun _ _ h => by
    simp only [h.optional alike_text, h.optional (alike_items RelativeDimension.alike), h.optional (alike_choice _)]

theorem Background.alike : Alike c c' (Background.decode c) (Background.decode c') :=
  alike_record fun _ _ h => by simp only [h.optional alike_text]

theorem ImageEntry.alike : Alike c c' (ImageEntry.decode c) (ImageEntry.decode c') :=
  alike_record fun _ _ h => by
    simp only [h.optional alike_text, h.optional Background.alike, h.optional (alike_choice _),
      h.optional (alike_spelling _ _)]

theorem ElementNames.alike : Alike c c' (ElementNames.decode c) (ElementNames.decode c') :=
  alike_record fun _ _ h => by simp only [h.optional alike_text]

theorem ButtonStyleEntry.alike : Alike c c' (ButtonStyleEntry.decode c) (ButtonStyleEntry.decode c') :=
  alike_record fun _ _ h => by
    simp only [h.optional alike_text, h.optional ElementNames.alike, h.optional alike_flag]

/-- Entries of every kind are decoded alike. -/
theorem Kind.alike_entry (k : Kind) : Alike c c' (k.decodeEntry c) (k.decodeEntry c') := by
  cases k with
  | metric => exact alike_text
  | color => exact alike_text
  | font => exact FontEntry.alike
  | textAttributes => exact TextAttributesEntry.alike
  | placement => exact PlacementEntry.alike
  | image => exact ImageEntry.alike
  | buttonStyle => exact ButtonStyleEntry.alike
  | customParameters => exact alike_json

theorem Kind.alike_entries (k : Kind) : Alike c c' (k.decodeEntries c) (k.decodeEntries c') := by
  intro d j hj
  rw [Kind.decodeEntries, Kind.decodeEntries, alike_mapping k.alike_entry hj]

theorem Sections.decode_alike {data : Record} {members : List (String × Json)} (h : Record.Unfolds c c' data members) :
    Sections.decode c data = Sections.decode c' (ofMembers members) := by
  simp only [Sections.decode, h.getD (Kind.alike_entries _)]

/-- Documents are decoded alike, and so are their groups. -/
theorem Document.alike_within (depth : Nat) :
    Alike c c' (Document.decodeWithin depth c) (Document.decodeWithin depth c') := by
  induction depth generalizing c c' with
  | zero => exact fun d j _ => rfl
  | succ depth ih =>
    intro d j hj
    have hdepth : Unfolds { c with depth } { c' with depth } d j :=
      ⟨hj.holds, rfl, hj.numbers, hj.documents, hj.values⟩
    obtain ⟨inside, hinside, hparts, hopens⟩ := hdepth.insideDocument
    have hholds := hj.holds
    rw [← show inside.parts = c.parts from hparts] at hholds
    rw [Document.decodeWithin, Document.decodeWithin, hinside, insideDocument?_ofJson]
    refine record_andThen hholds hopens fun data members h => ?_
    simp only [decodeVersion, h.getD alike_integer, Sections.decode_alike h, h.optional (alike_mapping ih)]

/-- A document is decoded alike from data with parts and from the value that it holds. -/
theorem Document.decode_holds {d : Datum} {j : Json} (hholds : Datum.Holds c.parts d j) (hdepth : c.depth = c'.depth)
    (hnumbers : ∀ n ∈ j.factors, Scalar.number c.saturates (.int n) = Scalar.number c'.saturates (.int n))
    (hdocuments : c.documents = []) (hvalues : c.values = []) :
    Document.decode c d = Document.decode c' (ofJson j) := by
  rw [Document.decode, Document.decode, hdepth]
  exact Document.alike_within _ ⟨hholds, hdepth, hnumbers, by simp [hdocuments], by simp [hvalues]⟩

end Entries

end DesignTokens
