import DesignTokens.Proofs.Document.Names
import DesignTokens.Proofs.Json.Legible

/-!
# Entries decoded again

An entry is not always written as it was given: aliases become names, coerced values are written in their own type,
unset fields become null, and fields that no record has are gone. What was decoded once is decoded again from what it
is written as, though. `Datum.Faithful` says that of a decoder and a writer, together with what a text needs to hold
the value: what is written is legible if what was given is, provided that the place leaves room for the records in it.

Records are faithful field by field, so each has a lemma that says what its fields decode to, and a proof made of the
laws of the decoders of the fields.

* `Datum.faithful_text`, `Datum.faithful_number`, `Datum.faithful_choice` and their like — single values.
* `Datum.faithful_json` — free-form values.
* `Datum.Faithful.items`, `Datum.Faithful.optional_again` — lists and fields.
* `Kind.faithful_entry` — the entries of every kind.
-/

namespace DesignTokens

open Json (Legible)

/-! ### Data from values -/

namespace Datum

theorem ofItems_eq_map (items : List Json) : ofItems items = items.map ofJson := by
  induction items with
  | nil => rfl
  | cons item rest ih => rw [ofItems, ih, List.map_cons]

theorem ofMembers_eq_map (members : List (String × Json)) :
    ofMembers members = members.map fun member => (.string member.1, ofJson member.2) := by
  induction members with
  | nil => rfl
  | cons member rest ih => rw [ofMembers, ih, List.map_cons]

theorem ofJson_eq_null_iff {j : Json} : ofJson j = .null ↔ j = .null := by
  cases j <;> simp [ofJson]

theorem whole_ofJson (parts : Array Datum) (j : Json) : (ofJson j).whole parts = ofJson j := by
  cases j <;> rfl

theorem insideValue?_ofJson (c : Context) (j : Json) : c.insideValue? (ofJson j) = some c := by
  cases j <;> rfl

theorem insideDocument?_ofJson (c : Context) (j : Json) : c.insideDocument? (ofJson j) = some c := by
  cases j <;> rfl

theorem record_ofJson {c : Context} {j : Json} {r : Record} (h : record c (ofJson j) = .ok r) :
    ∃ members, j = .object members ∧ r = ofMembers members := by
  rw [record, whole_ofJson] at h
  cases j with
  | object members =>
    cases h
    exact ⟨members, rfl, rfl⟩
  | _ => cases h

variable {α : Type}

/-- A list of values decodes exactly if each of them does. -/
theorem listedValues_eq_ok_iff {decode : Datum → Checked α} {values : List Datum} {xs : List α} :
    listedValues decode values = .ok xs ↔ List.Forall₂ (fun value x => decode value = .ok x) values xs := by
  have hall (step : Nat → Step) :
      Checked.all (values.mapIdx fun i value => (decode value).below (step i)) = .ok xs ↔
        List.Forall₂ (fun value x => decode value = .ok x) values xs := by
    rw [Checked.all_eq_ok_iff]
    induction values generalizing xs step with
    | nil => cases xs <;> simp
    | cons value values ih =>
      cases xs with
      | nil => simp
      | cons x xs =>
        rw [List.mapIdx_cons, List.map_cons, List.cons.injEq, List.forall₂_cons, Checked.below_eq_ok_iff,
          ← ih fun i => step (i + 1)]
  exact hall fun i => .index i

theorem namedValues_eq_ok_iff {decode : Datum → Checked α} {members : List (Datum × Datum)} {m : Mapping α} :
    namedValues decode members = .ok m ↔ ∃ xs, Members decode members xs ∧ Mapping.ofList xs = m := by
  have hmapping : namedValues decode members = (pairs {} decode (.map members)).map Mapping.ofList := rfl
  rw [hmapping, Checked.map_eq_ok_iff]
  simp only [pairs_eq_ok_iff, whole, Datum.map.injEq, exists_eq_left']

/-- A mapping decodes to itself from its values under its names. -/
theorem namedValues_again {decode : Datum → Checked α} {encode : α → Json} {m : Mapping α}
    (h : ∀ pair ∈ m.toList, decode (ofJson (encode pair.2)) = .ok pair.2) :
    namedValues decode (ofMembers (m.toList.map fun pair => (pair.1, encode pair.2))) = .ok m := by
  refine namedValues_eq_ok_iff.mpr ⟨m.toList, ?_, Mapping.toList_injective (Mapping.toList_ofList m.nodup)⟩
  rw [ofMembers_eq_map, List.map_map, Members, List.forall₂_map_left_iff, List.forall₂_same]
  exact fun pair hmem => ⟨rfl, h pair hmem⟩

/-- Every value of a mapping is decoded from a member under its name. -/
theorem exists_of_mem_namedValues {decode : Datum → Checked α} {members : List (String × Json)} {m : Mapping α}
    (h : namedValues decode (ofMembers members) = .ok m) {pair : String × α} (hmem : pair ∈ m.toList) :
    ∃ j, (pair.1, j) ∈ members ∧ decode (ofJson j) = .ok pair.2 := by
  obtain ⟨xs, hxs, rfl⟩ := namedValues_eq_ok_iff.mp h
  rw [ofMembers_eq_map, Members, List.forall₂_map_left_iff] at hxs
  obtain ⟨⟨name, j⟩, hmember, hname, hvalue⟩ := exists_mem_of_forall₂ hxs (Mapping.mem_of_mem_ofList hmem)
  cases hname
  exact ⟨j, hmember, hvalue⟩

/-! ### Faithful decoders -/

/-- A decoder that gives a value again that another one gave before, from what the value is written as. What is
written takes no more room than what was given if there is room for `least` lists and objects around one another; and
only null is written as null. -/
structure Faithful (least : Nat) (encode : α → Json) (before decode : Datum → Checked α) : Prop where
  again : ∀ {j a}, before (ofJson j) = .ok a → decode (ofJson (encode a)) = .ok a
  legible : ∀ {j a n}, before (ofJson j) = .ok a → Legible (n + least) j → Legible (n + least) (encode a)
  eq_null : ∀ {j a}, before (ofJson j) = .ok a → encode a = .null → j = .null

theorem Faithful.mono {least more : Nat} {encode : α → Json} {before decode : Datum → Checked α}
    (h : Faithful least encode before decode) (hle : least ≤ more) : Faithful more encode before decode where
  again := h.again
  legible {j a n} ha hj := by
    obtain ⟨extra, rfl⟩ := Nat.exists_eq_add_of_le hle
    rw [Nat.add_comm least, ← Nat.add_assoc] at hj ⊢
    exact h.legible ha hj
  eq_null := h.eq_null

theorem faithful_text : Faithful 0 Json.string Scalar.text Scalar.text where
  again _ := rfl
  legible {j _ _} h hj := by
    cases j with
    | string s =>
      cases h
      exact hj
    | _ => cases h
  eq_null _ h := nomatch h

theorem faithful_flag : Faithful 0 Json.bool Scalar.flag Scalar.flag where
  again _ := rfl
  legible _ _ := .bool _
  eq_null _ h := nomatch h

theorem faithful_number (saturates saturates' : Bool) :
    Faithful 0 (fun figure : Number.Figure => .float figure.value figure.origin) (Scalar.number saturates)
      (Scalar.number saturates') where
  again _ := rfl
  legible {j figure n} h hj := by
    have horigin : figure.origin = none := by
      cases hj with
      | null => cases h
      | bool b =>
        cases h
        rfl
      | int _ =>
        simp only [ofJson, Scalar.number] at h
        split at h
        · cases h
          rfl
        · cases h
      | float x =>
        cases h
        rfl
      | @string _ s _ =>
        simp only [ofJson, Scalar.number, Scalar.ofText, Scalar.numberOfText] at h
        split at h
        · cases h
        · split at h
          · cases h
            rfl
          · cases h
      | _ => cases h
    rw [horigin]
    exact .float _
  eq_null _ h := nomatch h

/-- A choice is read from the name that it is written as. -/
theorem faithful_choice {ofText? : String → Option α} {name : α → String} (hname : ∀ a, ofText? (name a) = some a)
    (hhalf : ∀ a, Text.hasHalf (name a) = false) :
    Faithful 0 (fun a => .string (name a)) (choice ofText?) (choice ofText?) where
  again _ := by simp [ofJson, choice, Scalar.ofText, hhalf, hname]
  legible _ _ := .string (hhalf _)
  eq_null _ h := nomatch h

theorem faithful_spelling {ofText? : String → Option α} {rule : String → Rule} {name : α → String}
    (hname : ∀ a, ofText? (name a) = some a) (hhalf : ∀ a, Text.hasHalf (name a) = false) :
    Faithful 0 (fun a => .string (name a)) (spelling ofText? rule) (spelling ofText? rule) where
  again _ := by simp [ofJson, spelling, hname]
  legible _ _ := .string (hhalf _)
  eq_null _ h := nomatch h

theorem faithful_contentMode :
    Faithful 0 (fun m : ContentMode => .string m.name) (choice ContentMode.ofName?) (choice ContentMode.ofName?) :=
  faithful_choice (fun m => by cases m <;> rfl) fun m => by cases m <;> rfl

theorem faithful_renderMode :
    Faithful 0 (fun m : RenderMode => .string m.name) (spelling RenderMode.ofText? .unknownRenderMode)
      (spelling RenderMode.ofText? .unknownRenderMode) :=
  faithful_spelling (fun m => by cases m <;> rfl) fun m => by cases m <;> rfl

theorem faithful_dimension :
    Faithful 0 (fun d : Dimension => .string d.name) (choice Dimension.ofText?) (choice Dimension.ofText?) :=
  faithful_choice (fun d => by cases d <;> rfl) fun d => by cases d <;> rfl

theorem faithful_relation :
    Faithful 0 (fun r : Relation => .string r.name) (spelling Relation.ofText? .unknownRelation)
      (spelling Relation.ofText? .unknownRelation) :=
  faithful_spelling (fun r => by cases r <;> rfl) fun r => by cases r <;> rfl

/-! ### Free-form values -/

/-- A value is a free-form value as it is, but for the parts of it. -/
theorem jsonWithin_ofJson (depth : Nat) (c : Context) (j : Json) :
    jsonWithin (depth + 1) c (ofJson j) =
      match j with
      | .list items => ((listedValues (jsonWithin depth c) (ofItems items)).map Json.list).below (.name "list")
      | .object members =>
        ((namedValues (jsonWithin depth c) (ofMembers members)).map (Json.object ·.toList)).below (.name "dict")
      | scalar => .ok scalar := by
  rw [jsonWithin, insideValue?_ofJson]
  cases j <;> rfl

theorem jsonWithin_again {depth deeper : Nat} {c c' : Context} {j v : Json}
    (h : jsonWithin depth c (ofJson j) = .ok v) (hle : depth ≤ deeper) :
    jsonWithin deeper c' (ofJson v) = .ok v := by
  induction depth generalizing deeper c c' j v with
  | zero => cases h
  | succ depth ih =>
    obtain ⟨deeper, rfl⟩ := Nat.exists_eq_add_of_le' (Nat.one_le_of_lt hle)
    have hdepth : depth ≤ deeper := Nat.le_of_succ_le_succ hle
    rw [jsonWithin_ofJson] at h
    cases j with
    | list items =>
      obtain ⟨values, hvalues, rfl⟩ := Checked.map_eq_ok_iff.mp (Checked.below_eq_ok_iff.mp h)
      rw [ofItems_eq_map, listedValues_eq_ok_iff, List.forall₂_map_left_iff] at hvalues
      have hagain : listedValues (jsonWithin deeper c') (ofItems values) = .ok values := by
        rw [ofItems_eq_map, listedValues_eq_ok_iff, List.forall₂_map_left_iff, List.forall₂_same]
        intro value hmem
        obtain ⟨item, -, hitem⟩ := exists_mem_of_forall₂ hvalues hmem
        exact ih hitem hdepth
      rw [jsonWithin_ofJson]
      exact Checked.below_eq_ok_iff.mpr (Checked.map_eq_ok_iff.mpr ⟨values, hagain, rfl⟩)
    | object members =>
      obtain ⟨m, hm, rfl⟩ := Checked.map_eq_ok_iff.mp (Checked.below_eq_ok_iff.mp h)
      have hvalue : ∀ pair ∈ m.toList, jsonWithin deeper c' (ofJson (id pair.2)) = .ok pair.2 := by
        intro pair hmem
        obtain ⟨_, _, hpair⟩ := exists_of_mem_namedValues hm hmem
        exact ih hpair hdepth
      have hagain : namedValues (jsonWithin deeper c') (ofMembers m.toList) = .ok m := by
        simpa using namedValues_again hvalue
      rw [jsonWithin_ofJson]
      exact Checked.below_eq_ok_iff.mpr (Checked.map_eq_ok_iff.mpr ⟨m, hagain, rfl⟩)
    | _ =>
      cases h
      rfl

theorem jsonWithin_legible {depth n : Nat} {c : Context} {j v : Json} (h : jsonWithin depth c (ofJson j) = .ok v)
    (hj : Legible n j) : Legible n v := by
  induction depth generalizing n c j v with
  | zero => cases h
  | succ depth ih =>
    rw [jsonWithin_ofJson] at h
    cases j with
    | list items =>
      obtain ⟨values, hvalues, rfl⟩ := Checked.map_eq_ok_iff.mp (Checked.below_eq_ok_iff.mp h)
      rw [ofItems_eq_map, listedValues_eq_ok_iff, List.forall₂_map_left_iff] at hvalues
      cases hj with
      | noItems =>
        cases hvalues
        exact .noItems
      | list hitems =>
        refine .list fun value hmem => ?_
        obtain ⟨item, hitem, hvalue⟩ := exists_mem_of_forall₂ hvalues hmem
        exact ih hvalue (hitems item hitem)
    | object members =>
      obtain ⟨m, hm, rfl⟩ := Checked.map_eq_ok_iff.mp (Checked.below_eq_ok_iff.mp h)
      cases hj with
      | noMembers =>
        cases hm
        exact .noMembers
      | object hnames hmembers =>
        refine .object (fun pair hmem => ?_) fun pair hmem => ?_
        · obtain ⟨value, hvalue, -⟩ := exists_of_mem_namedValues hm hmem
          exact hnames (pair.1, value) hvalue
        · obtain ⟨value, hvalue, hdecode⟩ := exists_of_mem_namedValues hm hmem
          exact ih hdecode (hmembers (pair.1, value) hvalue)
    | _ =>
      cases h
      exact hj

theorem eq_null_of_jsonWithin {depth : Nat} {c : Context} {j : Json} (h : jsonWithin depth c (ofJson j) = .ok .null) :
    j = .null := by
  cases depth with
  | zero => cases h
  | succ depth =>
    rw [jsonWithin_ofJson] at h
    cases j with
    | null => rfl
    | list items =>
      obtain ⟨_, -, heq⟩ := Checked.map_eq_ok_iff.mp (Checked.below_eq_ok_iff.mp h)
      cases heq
    | object members =>
      obtain ⟨_, -, heq⟩ := Checked.map_eq_ok_iff.mp (Checked.below_eq_ok_iff.mp h)
      cases heq
    | _ => cases h

theorem faithful_json {c c' : Context} (hdepth : c.depth ≤ c'.depth) : Faithful 0 id (json c) (json c') where
  again h := jsonWithin_again h hdepth
  legible h hj := jsonWithin_legible h hj
  eq_null h hv := eq_null_of_jsonWithin (h.trans (congrArg _ hv))

/-! ### Lists and fields -/

theorem Faithful.items {least : Nat} {encode : α → Json} {before decode : Datum → Checked α}
    (h : Faithful least encode before decode) (c c' : Context) :
    Faithful (least + 1) (fun xs => .list (xs.map encode)) (Datum.items c before) (Datum.items c' decode) := by
  -- a value that JSON text holds is no set and no pair
  have hlist {j : Json} {xs : List α} (hj : Datum.items c before (ofJson j) = .ok xs) :
      ∃ js, j = .list js ∧ List.Forall₂ (fun item x => before (ofJson item) = .ok x) js xs := by
    rw [Datum.items, whole_ofJson] at hj
    cases j with
    | list js =>
      refine ⟨js, rfl, ?_⟩
      rwa [ofJson, ofItems_eq_map, listedValues_eq_ok_iff, List.forall₂_map_left_iff] at hj
    | _ => cases hj
  refine ⟨fun {j xs} hxs => ?_, fun {j xs n} hxs hj => ?_, fun _ hnull => nomatch hnull⟩
  · obtain ⟨js, rfl, hjs⟩ := hlist hxs
    rw [Datum.items, whole_ofJson, ofJson]
    dsimp only
    rw [ofItems_eq_map, List.map_map, listedValues_eq_ok_iff, List.forall₂_map_left_iff, List.forall₂_same]
    intro x hmem
    obtain ⟨item, -, hitem⟩ := exists_mem_of_forall₂ hjs hmem
    exact h.again hitem
  · obtain ⟨js, rfl, hjs⟩ := hlist hxs
    have hitems := Json.Legible.list_iff.mp hj
    refine .list (List.forall_mem_map.mpr fun x hmem => ?_)
    obtain ⟨item, hitem, hx⟩ := exists_mem_of_forall₂ hjs hmem
    exact h.legible hx (hitems item hitem)

end Datum

namespace Record

open Datum (ofMembers ofJson)

variable {members : List (String × Json)} {name : FieldName}

theorem mem_of_lastNamed? {name : String} {r : Record} {value : Datum} (h : r.lastNamed? name = some value) :
    (.string name, value) ∈ r := by
  induction r with
  | nil => cases h
  | cons member rest ih =>
    obtain ⟨key, first⟩ := member
    unfold lastNamed? at h
    split at h
    · next found hfound =>
      cases h
      exact List.mem_cons_of_mem _ (ih hfound)
    · split at h
      · split at h
        · next hname =>
          cases h
          exact hname ▸ List.mem_cons_self ..
        · cases h
      · cases h

theorem exists_of_field? {spelling : String} {value : Datum}
    (h : field? (ofMembers members) name = some (spelling, value)) :
    ∃ j, (spelling, j) ∈ members ∧ value = ofJson j := by
  have hmem : (Datum.string spelling, value) ∈ ofMembers members := by
    unfold field? at h
    split at h
    · next hjoined =>
      cases h
      exact mem_of_lastNamed? hjoined
    · obtain ⟨_, hunderscored, heq⟩ := Option.map_eq_some_iff.mp h
      cases heq
      exact mem_of_lastNamed? hunderscored
  rw [Datum.ofMembers_eq_map] at hmem
  obtain ⟨⟨key, j⟩, hmember, heq⟩ := List.mem_map.mp hmem
  cases heq
  exact ⟨j, hmember, rfl⟩

/-- What a field gives is decoded from a member that is not null. -/
theorem exists_of_optional {α : Type} {decode : Datum → Checked α} {a : α}
    (h : optional (ofMembers members) name decode = .ok (some a)) :
    ∃ member ∈ members, member.2 ≠ .null ∧ decode (ofJson member.2) = .ok a := by
  unfold optional getD at h
  split at h
  · next spelling value hfield =>
    obtain ⟨j, hmem, rfl⟩ := exists_of_field? hfield
    rw [Checked.below_eq_ok_iff] at h
    dsimp only at h
    split at h
    · cases h
    · next hnull =>
      obtain ⟨_, hdecode, heq⟩ := Checked.map_eq_ok_iff.mp h
      cases heq
      exact ⟨(spelling, j), hmem, fun hj => hnull (Datum.ofJson_eq_null_iff.mpr hj), hdecode⟩
  · cases h

theorem required_eq_ok_iff {α : Type} {r : Record} {decode : Datum → Checked α} {a : α} :
    r.required name decode = .ok a ↔
      ∃ spelling value, r.field? name = some (spelling, value) ∧ decode value = .ok a := by
  unfold required
  cases r.field? name with
  | none => simp [Checked.fail, Checked.below]
  | some field =>
    obtain ⟨spelling, value⟩ := field
    simp [Checked.below_eq_ok_iff]

end Record

namespace Datum.Faithful

variable {α : Type} {least : Nat} {encode : α → Json} {before decode : Datum → Checked α}
  {members : List (String × Json)} {name : FieldName} {r : Record} {spelling : String}

/-- A field that may be null gives again what it is written for. -/
theorem optional_again (h : Faithful least encode before decode) {x : Option α}
    (hx : Record.optional (ofMembers members) name before = .ok x)
    (hfield : r.field? name = some (spelling, ofJson (.orNull encode x))) : r.optional name decode = .ok x := by
  unfold Record.optional Record.getD
  rw [hfield]
  dsimp only
  rw [Checked.below_eq_ok_iff]
  cases x with
  | none => rfl
  | some a =>
    obtain ⟨member, -, hnull, ha⟩ := Record.exists_of_optional hx
    split
    · next heq => exact absurd (h.eq_null ha (ofJson_eq_null_iff.mp heq)) hnull
    · exact Checked.map_eq_ok_iff.mpr ⟨a, h.again ha, rfl⟩

theorem optional_legible (h : Faithful least encode before decode) {x : Option α} {n : Nat}
    (hx : Record.optional (ofMembers members) name before = .ok x)
    (hmembers : ∀ member ∈ members, Text.hasHalf member.1 = false ∧ Legible (n + least) member.2) :
    Legible (n + least) (.orNull encode x) := by
  cases x with
  | none => exact .null
  | some a =>
    obtain ⟨member, hmem, -, ha⟩ := Record.exists_of_optional hx
    exact h.legible ha (hmembers member hmem).2

/-- A field that is always written gives again what it is written for. -/
theorem required_again (h : Faithful least encode before decode) {a : α}
    (ha : Record.required (ofMembers members) name before = .ok a)
    (hfield : r.field? name = some (spelling, ofJson (encode a))) : r.required name decode = .ok a := by
  obtain ⟨_, value, hvalue, hdecode⟩ := Record.required_eq_ok_iff.mp ha
  obtain ⟨j, -, rfl⟩ := Record.exists_of_field? hvalue
  exact Record.required_eq_ok_iff.mpr ⟨spelling, _, hfield, h.again hdecode⟩

theorem required_legible (h : Faithful least encode before decode) {a : α} {n : Nat}
    (ha : Record.required (ofMembers members) name before = .ok a)
    (hmembers : ∀ member ∈ members, Text.hasHalf member.1 = false ∧ Legible (n + least) member.2) :
    Legible (n + least) (encode a) := by
  obtain ⟨_, value, hvalue, hdecode⟩ := Record.required_eq_ok_iff.mp ha
  obtain ⟨j, hmem, rfl⟩ := Record.exists_of_field? hvalue
  exact h.legible hdecode (hmembers _ hmem).2

/-- So does a field with a default, which is written as any other value. -/
theorem getD_again (h : Faithful least encode before decode) {a default : α}
    (ha : Record.getD (ofMembers members) name before default = .ok a)
    (hdefault : decode (ofJson (encode default)) = .ok default)
    (hfield : r.field? name = some (spelling, ofJson (encode a))) : r.getD name decode default = .ok a := by
  have hdecode : decode (ofJson (encode a)) = .ok a := by
    unfold Record.getD at ha
    split at ha
    · next hvalue =>
      obtain ⟨j, -, rfl⟩ := Record.exists_of_field? hvalue
      exact h.again (Checked.below_eq_ok_iff.mp ha)
    · cases ha
      exact hdefault
  unfold Record.getD
  rw [hfield]
  exact Checked.below_eq_ok_iff.mpr hdecode

theorem getD_legible (h : Faithful least encode before decode) {a default : α} {n : Nat}
    (ha : Record.getD (ofMembers members) name before default = .ok a)
    (hdefault : Legible (n + least) (encode default))
    (hmembers : ∀ member ∈ members, Text.hasHalf member.1 = false ∧ Legible (n + least) member.2) :
    Legible (n + least) (encode a) := by
  unfold Record.getD at ha
  split at ha
  · next hvalue =>
    obtain ⟨j, hmem, rfl⟩ := Record.exists_of_field? hvalue
    exact h.legible (Checked.below_eq_ok_iff.mp ha) (hmembers _ hmem).2
  · cases ha
    exact hdefault

end Datum.Faithful

/-! ### Records -/

open Datum (Context Faithful ofJson ofMembers faithful_text faithful_json)
open Scalar (text)

theorem FontEntry.decode_eq_ok_iff {c : Context} {data : Datum} {e : FontEntry} :
    decode c data = .ok e ↔ ∃ r : Record, data.record c = .ok r ∧
      r.optional ⟨"based", ["on"]⟩ text = .ok e.basedOn ∧
      r.optional ⟨"family", []⟩ text = .ok e.family ∧
      r.optional ⟨"face", []⟩ text = .ok e.face ∧
      r.optional ⟨"size", []⟩ text = .ok e.size ∧
      r.optional ⟨"attributes", []⟩ (Datum.json c) = .ok e.attributes := by
  simp only [decode, Checked.andThen_eq_ok_iff, Checked.seq_eq_ok_iff, Checked.fmap_eq_ok_iff]
  refine exists_congr fun r => and_congr_right fun _ => ?_
  constructor
  · rintro ⟨_, _, ⟨_, _, ⟨_, _, ⟨_, _, ⟨_, h₁, rfl⟩, h₂, rfl⟩, h₃, rfl⟩, h₄, rfl⟩, h₅, rfl⟩
    exact ⟨h₁, h₂, h₃, h₄, h₅⟩
  · rintro ⟨h₁, h₂, h₃, h₄, h₅⟩
    exact ⟨_, _, ⟨_, _, ⟨_, _, ⟨_, _, ⟨_, h₁, rfl⟩, h₂, rfl⟩, h₃, rfl⟩, h₄, rfl⟩, h₅, rfl⟩

theorem FontEntry.faithful {c c' : Context} (hdepth : c.depth ≤ c'.depth) :
    Faithful 1 (toJson true) (decode c) (decode c') where
  again h := by
    obtain ⟨r, hr, h₁, h₂, h₃, h₄, h₅⟩ := decode_eq_ok_iff.mp h
    obtain ⟨members, rfl, rfl⟩ := Datum.record_ofJson hr
    exact decode_eq_ok_iff.mpr ⟨_, rfl, faithful_text.optional_again h₁ rfl, faithful_text.optional_again h₂ rfl,
      faithful_text.optional_again h₃ rfl, faithful_text.optional_again h₄ rfl,
      (faithful_json hdepth).optional_again h₅ rfl⟩
  legible h hj := by
    obtain ⟨r, hr, h₁, h₂, h₃, h₄, h₅⟩ := decode_eq_ok_iff.mp h
    obtain ⟨members, rfl, rfl⟩ := Datum.record_ofJson hr
    have hmembers := Legible.object_iff.mp hj
    refine Legible.object_iff.mpr ?_
    simp only [if_true, List.forall_mem_cons]
    exact ⟨⟨rfl, faithful_text.optional_legible h₁ hmembers⟩, ⟨rfl, faithful_text.optional_legible h₂ hmembers⟩,
      ⟨rfl, faithful_text.optional_legible h₃ hmembers⟩, ⟨rfl, faithful_text.optional_legible h₄ hmembers⟩,
      ⟨rfl, (faithful_json hdepth).optional_legible h₅ hmembers⟩, List.forall_mem_nil _⟩
  eq_null _ h := nomatch h

theorem TextAttributesEntry.decode_eq_ok_iff {c : Context} {data : Datum} {e : TextAttributesEntry} :
    decode c data = .ok e ↔ ∃ r : Record, data.record c = .ok r ∧
      r.optional ⟨"based", ["on"]⟩ text = .ok e.basedOn ∧
      r.optional ⟨"attributes", []⟩ (Datum.json c) = .ok e.attributes := by
  simp only [decode, Checked.andThen_eq_ok_iff, Checked.seq_eq_ok_iff, Checked.fmap_eq_ok_iff]
  refine exists_congr fun r => and_congr_right fun _ => ?_
  constructor
  · rintro ⟨_, _, ⟨_, h₁, rfl⟩, h₂, rfl⟩
    exact ⟨h₁, h₂⟩
  · rintro ⟨h₁, h₂⟩
    exact ⟨_, _, ⟨_, h₁, rfl⟩, h₂, rfl⟩

theorem TextAttributesEntry.faithful {c c' : Context} (hdepth : c.depth ≤ c'.depth) :
    Faithful 1 (toJson true) (decode c) (decode c') where
  again h := by
    obtain ⟨r, hr, h₁, h₂⟩ := decode_eq_ok_iff.mp h
    obtain ⟨members, rfl, rfl⟩ := Datum.record_ofJson hr
    exact decode_eq_ok_iff.mpr ⟨_, rfl, faithful_text.optional_again h₁ rfl,
      (faithful_json hdepth).optional_again h₂ rfl⟩
  legible h hj := by
    obtain ⟨r, hr, h₁, h₂⟩ := decode_eq_ok_iff.mp h
    obtain ⟨members, rfl, rfl⟩ := Datum.record_ofJson hr
    have hmembers := Legible.object_iff.mp hj
    refine Legible.object_iff.mpr ?_
    simp only [if_true, List.forall_mem_cons]
    exact ⟨⟨rfl, faithful_text.optional_legible h₁ hmembers⟩,
      ⟨rfl, (faithful_json hdepth).optional_legible h₂ hmembers⟩, List.forall_mem_nil _⟩
  eq_null _ h := nomatch h

theorem RelativeDimension.decode_eq_ok_iff {c : Context} {data : Datum} {e : RelativeDimension} :
    decode c data = .ok e ↔ ∃ r : Record, data.record c = .ok r ∧
      r.required ⟨"dimension", []⟩ (Datum.choice Dimension.ofText?) = .ok e.dimension ∧
      r.getD ⟨"relation", []⟩ (Datum.spelling Relation.ofText? .unknownRelation) .equal = .ok e.relation ∧
      r.required ⟨"relative", ["to"]⟩ text = .ok e.relativeTo ∧
      r.getD ⟨"multiplier", []⟩ (Scalar.number c.saturates) ⟨1.0, none⟩ = .ok e.multiplier ∧
      r.getD ⟨"constant", []⟩ (Scalar.number c.saturates) ⟨0.0, none⟩ = .ok e.constant := by
  simp only [decode, Checked.andThen_eq_ok_iff, Checked.seq_eq_ok_iff, Checked.fmap_eq_ok_iff]
  refine exists_congr fun r => and_congr_right fun _ => ?_
  constructor
  · rintro ⟨_, _, ⟨_, _, ⟨_, _, ⟨_, _, ⟨_, h₁, rfl⟩, h₂, rfl⟩, h₃, rfl⟩, h₄, rfl⟩, h₅, rfl⟩
    exact ⟨h₁, h₂, h₃, h₄, h₅⟩
  · rintro ⟨h₁, h₂, h₃, h₄, h₅⟩
    exact ⟨_, _, ⟨_, _, ⟨_, _, ⟨_, _, ⟨_, h₁, rfl⟩, h₂, rfl⟩, h₃, rfl⟩, h₄, rfl⟩, h₅, rfl⟩

theorem RelativeDimension.faithful (c c' : Context) :
    Faithful 1 toJson (decode c) (decode c') where
  again h := by
    obtain ⟨r, hr, h₁, h₂, h₃, h₄, h₅⟩ := decode_eq_ok_iff.mp h
    obtain ⟨members, rfl, rfl⟩ := Datum.record_ofJson hr
    exact decode_eq_ok_iff.mpr ⟨_, rfl, Datum.faithful_dimension.required_again h₁ rfl,
      Datum.faithful_relation.getD_again h₂ rfl rfl, faithful_text.required_again h₃ rfl,
      (Datum.faithful_number _ c'.saturates).getD_again h₄ rfl rfl,
      (Datum.faithful_number _ c'.saturates).getD_again h₅ rfl rfl⟩
  legible h hj := by
    obtain ⟨r, hr, h₁, h₂, h₃, h₄, h₅⟩ := decode_eq_ok_iff.mp h
    obtain ⟨members, rfl, rfl⟩ := Datum.record_ofJson hr
    have hmembers := Legible.object_iff.mp hj
    refine Legible.object_iff.mpr ?_
    simp only [List.forall_mem_cons]
    exact ⟨⟨rfl, Datum.faithful_dimension.required_legible h₁ hmembers⟩,
      ⟨rfl, Datum.faithful_relation.getD_legible h₂ (.string rfl) hmembers⟩,
      ⟨rfl, faithful_text.required_legible h₃ hmembers⟩,
      ⟨rfl, (Datum.faithful_number _ c'.saturates).getD_legible h₄ (.float _) hmembers⟩,
      ⟨rfl, (Datum.faithful_number _ c'.saturates).getD_legible h₅ (.float _) hmembers⟩, List.forall_mem_nil _⟩
  eq_null _ h := nomatch h

theorem PlacementEntry.decode_eq_ok_iff {c : Context} {data : Datum} {e : PlacementEntry} :
    decode c data = .ok e ↔ ∃ r : Record, data.record c = .ok r ∧
      r.optional ⟨"placement", ["rules"]⟩ text = .ok e.placementRules ∧
      r.optional ⟨"auxiliary", ["views"]⟩ text = .ok e.auxiliaryViews ∧
      r.optional ⟨"metric", ["names"]⟩ text = .ok e.metricNames ∧
      r.optional ⟨"relative", ["dimensions"]⟩ (Datum.items c (RelativeDimension.decode c)) = .ok e.relativeDimensions ∧
      r.optional ⟨"content", ["mode"]⟩ (Datum.choice ContentMode.ofName?) = .ok e.contentMode := by
  simp only [decode, Checked.andThen_eq_ok_iff, Checked.seq_eq_ok_iff, Checked.fmap_eq_ok_iff]
  refine exists_congr fun r => and_congr_right fun _ => ?_
  constructor
  · rintro ⟨_, _, ⟨_, _, ⟨_, _, ⟨_, _, ⟨_, h₁, rfl⟩, h₂, rfl⟩, h₃, rfl⟩, h₄, rfl⟩, h₅, rfl⟩
    exact ⟨h₁, h₂, h₃, h₄, h₅⟩
  · rintro ⟨h₁, h₂, h₃, h₄, h₅⟩
    exact ⟨_, _, ⟨_, _, ⟨_, _, ⟨_, _, ⟨_, h₁, rfl⟩, h₂, rfl⟩, h₃, rfl⟩, h₄, rfl⟩, h₅, rfl⟩

theorem PlacementEntry.faithful (c c' : Context) :
    Faithful 3 (toJson true) (decode c) (decode c') where
  again h := by
    obtain ⟨r, hr, h₁, h₂, h₃, h₄, h₅⟩ := decode_eq_ok_iff.mp h
    obtain ⟨members, rfl, rfl⟩ := Datum.record_ofJson hr
    exact decode_eq_ok_iff.mpr ⟨_, rfl, faithful_text.optional_again h₁ rfl, faithful_text.optional_again h₂ rfl,
      faithful_text.optional_again h₃ rfl, ((RelativeDimension.faithful c c').items c c').optional_again h₄ rfl,
      Datum.faithful_contentMode.optional_again h₅ rfl⟩
  legible h hj := by
    obtain ⟨r, hr, h₁, h₂, h₃, h₄, h₅⟩ := decode_eq_ok_iff.mp h
    obtain ⟨members, rfl, rfl⟩ := Datum.record_ofJson hr
    have hmembers := Legible.object_iff.mp hj
    refine Legible.object_iff.mpr ?_
    simp only [if_true, List.forall_mem_cons]
    exact ⟨⟨rfl, faithful_text.optional_legible h₁ hmembers⟩, ⟨rfl, faithful_text.optional_legible h₂ hmembers⟩,
      ⟨rfl, faithful_text.optional_legible h₃ hmembers⟩,
      ⟨rfl, ((RelativeDimension.faithful c c').items c c').optional_legible h₄ hmembers⟩,
      ⟨rfl, Datum.faithful_contentMode.optional_legible h₅ hmembers⟩, List.forall_mem_nil _⟩
  eq_null _ h := nomatch h

theorem Background.decode_eq_ok_iff {c : Context} {data : Datum} {e : Background} :
    decode c data = .ok e ↔ ∃ r : Record, data.record c = .ok r ∧
      r.optional ⟨"fill", ["color"]⟩ text = .ok e.fillColor ∧
      r.optional ⟨"stroke", ["color"]⟩ text = .ok e.strokeColor ∧
      r.optional ⟨"line", ["width"]⟩ text = .ok e.lineWidth ∧
      r.optional ⟨"corner", ["radius"]⟩ text = .ok e.cornerRadius ∧
      r.optional ⟨"minimum", ["width"]⟩ text = .ok e.minimumWidth ∧
      r.optional ⟨"minimum", ["height"]⟩ text = .ok e.minimumHeight := by
  simp only [decode, Checked.andThen_eq_ok_iff, Checked.seq_eq_ok_iff, Checked.fmap_eq_ok_iff]
  refine exists_congr fun r => and_congr_right fun _ => ?_
  constructor
  · rintro ⟨_, _, ⟨_, _, ⟨_, _, ⟨_, _, ⟨_, _, ⟨_, h₁, rfl⟩, h₂, rfl⟩, h₃, rfl⟩, h₄, rfl⟩, h₅, rfl⟩, h₆, rfl⟩
    exact ⟨h₁, h₂, h₃, h₄, h₅, h₆⟩
  · rintro ⟨h₁, h₂, h₃, h₄, h₅, h₆⟩
    exact ⟨_, _, ⟨_, _, ⟨_, _, ⟨_, _, ⟨_, _, ⟨_, h₁, rfl⟩, h₂, rfl⟩, h₃, rfl⟩, h₄, rfl⟩, h₅, rfl⟩, h₆, rfl⟩

theorem Background.faithful (c c' : Context) :
    Faithful 1 (toJson true) (decode c) (decode c') where
  again h := by
    obtain ⟨r, hr, h₁, h₂, h₃, h₄, h₅, h₆⟩ := decode_eq_ok_iff.mp h
    obtain ⟨members, rfl, rfl⟩ := Datum.record_ofJson hr
    exact decode_eq_ok_iff.mpr ⟨_, rfl, faithful_text.optional_again h₁ rfl, faithful_text.optional_again h₂ rfl,
      faithful_text.optional_again h₃ rfl, faithful_text.optional_again h₄ rfl, faithful_text.optional_again h₅ rfl,
      faithful_text.optional_again h₆ rfl⟩
  legible h hj := by
    obtain ⟨r, hr, h₁, h₂, h₃, h₄, h₅, h₆⟩ := decode_eq_ok_iff.mp h
    obtain ⟨members, rfl, rfl⟩ := Datum.record_ofJson hr
    have hmembers := Legible.object_iff.mp hj
    refine Legible.object_iff.mpr ?_
    simp only [if_true, List.forall_mem_cons]
    exact ⟨⟨rfl, faithful_text.optional_legible h₁ hmembers⟩, ⟨rfl, faithful_text.optional_legible h₂ hmembers⟩,
      ⟨rfl, faithful_text.optional_legible h₃ hmembers⟩, ⟨rfl, faithful_text.optional_legible h₄ hmembers⟩,
      ⟨rfl, faithful_text.optional_legible h₅ hmembers⟩, ⟨rfl, faithful_text.optional_legible h₆ hmembers⟩,
      List.forall_mem_nil _⟩
  eq_null _ h := nomatch h

/-- The source of an image is selected from what is written of it. -/
theorem ImageSource.select_eq_ok_iff {basedOn file : Option String} {background : Option Background}
    {source : ImageSource} :
    select basedOn file background = .ok source ↔
      basedOn = source.basedOn? ∧ file = source.file? ∧ background = source.background? := by
  constructor
  · intro h
    unfold select at h
    split at h
    · cases h
      exact ⟨rfl, rfl, rfl⟩
    · cases h
      exact ⟨rfl, rfl, rfl⟩
    · cases h
      exact ⟨rfl, rfl, rfl⟩
    · cases h
  · rintro ⟨rfl, rfl, rfl⟩
    cases source <;> rfl

theorem ImageEntry.decode_eq_ok_iff {c : Context} {data : Datum} {e : ImageEntry} :
    decode c data = .ok e ↔ ∃ r : Record, data.record c = .ok r ∧
      r.optional ⟨"based", ["on"]⟩ text = .ok e.source.basedOn? ∧
      r.optional ⟨"file", ["path"]⟩ text = .ok e.source.file? ∧
      r.optional ⟨"make", ["background"]⟩ (Background.decode c) = .ok e.source.background? ∧
      r.optional ⟨"alignment", ["insets"]⟩ text = .ok e.alignmentInsets ∧
      r.optional ⟨"content", ["mode"]⟩ (Datum.choice ContentMode.ofName?) = .ok e.contentMode ∧
      r.optional ⟨"render", ["mode"]⟩ (Datum.spelling RenderMode.ofText? .unknownRenderMode) = .ok e.renderMode ∧
      r.optional ⟨"placement", []⟩ text = .ok e.placement := by
  simp only [decode, Checked.andThen_eq_ok_iff, Checked.seq_eq_ok_iff, Checked.fmap_eq_ok_iff]
  refine exists_congr fun r => and_congr_right fun _ => ?_
  constructor
  · rintro ⟨_, ⟨_, _, ⟨_, _, ⟨_, _, ⟨_, _, ⟨_, _, ⟨_, _, ⟨_, h₁, rfl⟩, h₂, rfl⟩, h₃, rfl⟩, h₄, rfl⟩, h₅, rfl⟩, h₆, rfl⟩,
      h₇, rfl⟩, hselect⟩
    obtain ⟨source, hsource, rfl⟩ := Checked.map_eq_ok_iff.mp hselect
    obtain ⟨rfl, rfl, rfl⟩ := ImageSource.select_eq_ok_iff.mp hsource
    exact ⟨h₁, h₂, h₃, h₄, h₅, h₆, h₇⟩
  · rintro ⟨h₁, h₂, h₃, h₄, h₅, h₆, h₇⟩
    have hsource : ImageSource.select e.source.basedOn? e.source.file? e.source.background? = .ok e.source :=
      ImageSource.select_eq_ok_iff.mpr ⟨rfl, rfl, rfl⟩
    exact ⟨_, ⟨_, _, ⟨_, _, ⟨_, _, ⟨_, _, ⟨_, _, ⟨_, _, ⟨_, h₁, rfl⟩, h₂, rfl⟩, h₃, rfl⟩, h₄, rfl⟩, h₅, rfl⟩, h₆, rfl⟩,
      h₇, rfl⟩, Checked.map_eq_ok_iff.mpr ⟨e.source, hsource, rfl⟩⟩

theorem ImageEntry.faithful (c c' : Context) : Faithful 2 (toJson true) (decode c) (decode c') where
  again h := by
    obtain ⟨r, hr, h₁, h₂, h₃, h₄, h₅, h₆, h₇⟩ := decode_eq_ok_iff.mp h
    obtain ⟨members, rfl, rfl⟩ := Datum.record_ofJson hr
    exact decode_eq_ok_iff.mpr ⟨_, rfl, faithful_text.optional_again h₁ rfl, faithful_text.optional_again h₂ rfl,
      (Background.faithful c c').optional_again h₃ rfl, faithful_text.optional_again h₄ rfl,
      Datum.faithful_contentMode.optional_again h₅ rfl, Datum.faithful_renderMode.optional_again h₆ rfl,
      faithful_text.optional_again h₇ rfl⟩
  legible h hj := by
    obtain ⟨r, hr, h₁, h₂, h₃, h₄, h₅, h₆, h₇⟩ := decode_eq_ok_iff.mp h
    obtain ⟨members, rfl, rfl⟩ := Datum.record_ofJson hr
    have hmembers := Legible.object_iff.mp hj
    refine Legible.object_iff.mpr ?_
    simp only [if_true, List.forall_mem_cons]
    exact ⟨⟨rfl, faithful_text.optional_legible h₁ hmembers⟩, ⟨rfl, faithful_text.optional_legible h₂ hmembers⟩,
      ⟨rfl, (Background.faithful c c').optional_legible h₃ hmembers⟩,
      ⟨rfl, faithful_text.optional_legible h₄ hmembers⟩,
      ⟨rfl, Datum.faithful_contentMode.optional_legible h₅ hmembers⟩,
      ⟨rfl, Datum.faithful_renderMode.optional_legible h₆ hmembers⟩,
      ⟨rfl, faithful_text.optional_legible h₇ hmembers⟩, List.forall_mem_nil _⟩
  eq_null _ h := nomatch h

theorem ElementNames.decode_eq_ok_iff {c : Context} {data : Datum} {e : ElementNames} :
    decode c data = .ok e ↔ ∃ r : Record, data.record c = .ok r ∧
      r.optional ⟨"title", ["attributes"]⟩ text = .ok e.titleAttributes ∧
      r.optional ⟨"title", ["image"]⟩ text = .ok e.titleImage ∧
      r.optional ⟨"background", ["image"]⟩ text = .ok e.backgroundImage := by
  simp only [decode, Checked.andThen_eq_ok_iff, Checked.seq_eq_ok_iff, Checked.fmap_eq_ok_iff]
  refine exists_congr fun r => and_congr_right fun _ => ?_
  constructor
  · rintro ⟨_, _, ⟨_, _, ⟨_, h₁, rfl⟩, h₂, rfl⟩, h₃, rfl⟩
    exact ⟨h₁, h₂, h₃⟩
  · rintro ⟨h₁, h₂, h₃⟩
    exact ⟨_, _, ⟨_, _, ⟨_, h₁, rfl⟩, h₂, rfl⟩, h₃, rfl⟩

theorem ElementNames.faithful (c c' : Context) :
    Faithful 1 (toJson true) (decode c) (decode c') where
  again h := by
    obtain ⟨r, hr, h₁, h₂, h₃⟩ := decode_eq_ok_iff.mp h
    obtain ⟨members, rfl, rfl⟩ := Datum.record_ofJson hr
    exact decode_eq_ok_iff.mpr ⟨_, rfl, faithful_text.optional_again h₁ rfl, faithful_text.optional_again h₂ rfl,
      faithful_text.optional_again h₃ rfl⟩
  legible h hj := by
    obtain ⟨r, hr, h₁, h₂, h₃⟩ := decode_eq_ok_iff.mp h
    obtain ⟨members, rfl, rfl⟩ := Datum.record_ofJson hr
    have hmembers := Legible.object_iff.mp hj
    refine Legible.object_iff.mpr ?_
    simp only [if_true, List.forall_mem_cons]
    exact ⟨⟨rfl, faithful_text.optional_legible h₁ hmembers⟩, ⟨rfl, faithful_text.optional_legible h₂ hmembers⟩,
      ⟨rfl, faithful_text.optional_legible h₃ hmembers⟩, List.forall_mem_nil _⟩
  eq_null _ h := nomatch h

theorem ButtonStyleEntry.decode_eq_ok_iff {c : Context} {data : Datum} {e : ButtonStyleEntry} :
    decode c data = .ok e ↔ ∃ r : Record, data.record c = .ok r ∧
      r.optional ⟨"normal", ["style"]⟩ (ElementNames.decode c) = .ok e.normalStyle ∧
      r.optional ⟨"highlighted", ["style"]⟩ (ElementNames.decode c) = .ok e.highlightedStyle ∧
      r.optional ⟨"disabled", ["style"]⟩ (ElementNames.decode c) = .ok e.disabledStyle ∧
      r.optional ⟨"selected", ["style"]⟩ (ElementNames.decode c) = .ok e.selectedStyle ∧
      r.optional ⟨"content", ["insets"]⟩ text = .ok e.contentInsets ∧
      r.optional ⟨"tint", ["color"]⟩ text = .ok e.tintColor ∧
      r.optional ⟨"reverse", ["icon", "side"]⟩ Scalar.flag = .ok e.reverseIconSide := by
  simp only [decode, Checked.andThen_eq_ok_iff, Checked.seq_eq_ok_iff, Checked.fmap_eq_ok_iff]
  refine exists_congr fun r => and_congr_right fun _ => ?_
  constructor
  · rintro ⟨_, _, ⟨_, _, ⟨_, _, ⟨_, _, ⟨_, _, ⟨_, _, ⟨_, h₁, rfl⟩, h₂, rfl⟩, h₃, rfl⟩, h₄, rfl⟩, h₅, rfl⟩, h₆,
      rfl⟩, h₇, rfl⟩
    exact ⟨h₁, h₂, h₃, h₄, h₅, h₆, h₇⟩
  · rintro ⟨h₁, h₂, h₃, h₄, h₅, h₆, h₇⟩
    exact ⟨_, _, ⟨_, _, ⟨_, _, ⟨_, _, ⟨_, _, ⟨_, _, ⟨_, h₁, rfl⟩, h₂, rfl⟩, h₃, rfl⟩, h₄, rfl⟩, h₅, rfl⟩, h₆, rfl⟩,
      h₇, rfl⟩

theorem ButtonStyleEntry.faithful (c c' : Context) :
    Faithful 2 (toJson true) (decode c) (decode c') where
  again h := by
    obtain ⟨r, hr, h₁, h₂, h₃, h₄, h₅, h₆, h₇⟩ := decode_eq_ok_iff.mp h
    obtain ⟨members, rfl, rfl⟩ := Datum.record_ofJson hr
    exact decode_eq_ok_iff.mpr ⟨_, rfl, (ElementNames.faithful c c').optional_again h₁ rfl,
      (ElementNames.faithful c c').optional_again h₂ rfl, (ElementNames.faithful c c').optional_again h₃ rfl,
      (ElementNames.faithful c c').optional_again h₄ rfl, faithful_text.optional_again h₅ rfl,
      faithful_text.optional_again h₆ rfl, Datum.faithful_flag.optional_again h₇ rfl⟩
  legible h hj := by
    obtain ⟨r, hr, h₁, h₂, h₃, h₄, h₅, h₆, h₇⟩ := decode_eq_ok_iff.mp h
    obtain ⟨members, rfl, rfl⟩ := Datum.record_ofJson hr
    have hmembers := Legible.object_iff.mp hj
    refine Legible.object_iff.mpr ?_
    simp only [if_true, List.forall_mem_cons]
    exact ⟨⟨rfl, (ElementNames.faithful c c').optional_legible h₁ hmembers⟩,
      ⟨rfl, (ElementNames.faithful c c').optional_legible h₂ hmembers⟩,
      ⟨rfl, (ElementNames.faithful c c').optional_legible h₃ hmembers⟩,
      ⟨rfl, (ElementNames.faithful c c').optional_legible h₄ hmembers⟩,
      ⟨rfl, faithful_text.optional_legible h₅ hmembers⟩, ⟨rfl, faithful_text.optional_legible h₆ hmembers⟩,
      ⟨rfl, Datum.faithful_flag.optional_legible h₇ hmembers⟩, List.forall_mem_nil _⟩
  eq_null _ h := nomatch h

/-! ### Entries -/

/-- The most lists and objects around one another that an entry of known fields is written with. -/
def Kind.leastRoom : Nat := 3

/-- The entries of every kind are faithful. -/
theorem Kind.faithful_entry {c c' : Context} (hdepth : c.depth ≤ c'.depth) (k : Kind) :
    Faithful leastRoom (k.entryJson true) (k.decodeEntry c) (k.decodeEntry c') := by
  cases k with
  | metric => exact faithful_text.mono (by decide)
  | color => exact faithful_text.mono (by decide)
  | font => exact (FontEntry.faithful hdepth).mono (by decide)
  | textAttributes => exact (TextAttributesEntry.faithful hdepth).mono (by decide)
  | placement => exact PlacementEntry.faithful c c'
  | image => exact (ImageEntry.faithful c c').mono (by decide)
  | buttonStyle => exact (ButtonStyleEntry.faithful c c').mono (by decide)
  | customParameters => exact (faithful_json hdepth).mono (by decide)

end DesignTokens
