import Mathlib.Data.List.Forall2
import Mathlib.Data.List.Nodup
import DesignTokens.Document.Decode

/-!
# Groups and the document they are merged into

Decoding puts the groups of a document into it from the inside out, one group after the other and one kind after
the other, and stops at the first name that is taken. What comes of it can be said without any order of steps.
`Outline` is a document before its groups are merged, `Document.outline` reads it off data with the checks of
every level and nothing else, and `Outline.flatten` lists the entries of a kind in the order of the declaration,
each under its name behind the names of the groups that it is in.

A mapping holds each name once, so the mapping with the entries of a list exists exactly if the list repeats no
name. Every step of the merge is of that form: it succeeds with a mapping exactly if the mapping holds what was
there and, after it, what is added.

* `Mapping.addGroup_eq_ok_iff`, `Document.mergeGroup_eq_ok_iff`, `Document.merge_eq_ok_iff` — what the steps of
  the merge come to.
* `Document.decodeWithin_yields_iff` — a document decodes from an outline exactly if it holds its entries.
* `Document.decode_merges_groups` — which documents decode, and to what.
-/

namespace DesignTokens

/-! ### Mappings as lists -/

namespace Mapping

variable {α : Type}

theorem toList_injective {m n : Mapping α} (h : m.toList = n.toList) : m = n := by
  cases m
  cases n
  cases h
  rfl

theorem toList_insert_new {m : Mapping α} {name : String} (value : α) (h : name ∉ m.keys) :
    (m.insert name value).toList = m.toList ++ [(name, value)] := by
  unfold insert
  exact congrArg toList (dif_neg h)

theorem contains_eq_false_iff {m : Mapping α} {name : String} : m.contains name = false ↔ name ∉ m.keys := by
  rw [contains, ← Bool.not_eq_true, find?_isSome_iff]

/-- New names are set at the end, in order. -/
theorem toList_foldl_insert {pairs : List (String × α)} {m : Mapping α}
    (h : ((m.toList ++ pairs).map Prod.fst).Nodup) :
    (pairs.foldl (fun m pair => m.insert pair.1 pair.2) m).toList = m.toList ++ pairs := by
  induction pairs generalizing m with
  | nil => simp
  | cons pair rest ih =>
    have hnew : pair.1 ∉ m.keys := by
      rw [List.map_append, List.nodup_append] at h
      intro hmem
      exact h.2.2 _ hmem _ (List.mem_cons_self ..) rfl
    have happend : (m.insert pair.1 pair.2).toList ++ rest = m.toList ++ pair :: rest := by
      rw [toList_insert_new pair.2 hnew, List.append_assoc, List.singleton_append]
    rw [List.foldl_cons, ih (happend ▸ h), happend]

theorem toList_ofList {pairs : List (String × α)} (h : (pairs.map Prod.fst).Nodup) :
    (ofList pairs).toList = pairs :=
  toList_foldl_insert (show (((empty : Mapping α).toList ++ pairs).map Prod.fst).Nodup from h)

/-- An entry under its name in a group. -/
def inGroup (group : String) (pair : String × α) : String × α := (group ++ "." ++ pair.1, pair.2)

/-- Adding the entries of a group succeeds with the mapping that holds them after those before, if there is
one. -/
theorem addGroup_eq_ok_iff {group : String} {into m : Mapping α} {entries : List (String × α)} :
    addGroup group into entries = .ok m ↔ m.toList = into.toList ++ entries.map (inGroup group) := by
  induction entries generalizing into with
  | nil =>
    rw [addGroup, List.map_nil, List.append_nil]
    constructor
    · intro h
      cases h
      rfl
    · intro h
      rw [toList_injective h]
  | cons pair rest ih =>
    obtain ⟨name, value⟩ := pair
    simp only [addGroup]
    cases htaken : into.contains (group ++ "." ++ name) with
    | true =>
      simp only [if_true]
      constructor
      · intro h
        cases h
      · intro h
        -- the name would be twice in the mapping
        have hmem : group ++ "." ++ name ∈ into.keys := find?_isSome_iff.mp htaken
        have hnodup := m.nodup
        rw [h, List.map_append, List.nodup_append] at hnodup
        exact absurd rfl (hnodup.2.2 _ hmem _ (List.mem_cons_self ..))
    | false =>
      simp only [Bool.false_eq_true, if_false]
      rw [ih, toList_insert_new _ (contains_eq_false_iff.mp htaken), List.append_assoc]
      rfl

end Mapping

/-! ### Merging groups -/

namespace Checked

variable {α β : Type}

theorem fmap_eq_ok_iff {f : α → β} {a : Checked α} {y : β} : f <$> a = .ok y ↔ ∃ x, a = .ok x ∧ f x = y :=
  map_eq_ok_iff

theorem seq_eq_ok_iff {f : Checked (α → β)} {a : Checked α} {y : β} :
    f <*> a = .ok y ↔ ∃ g x, f = .ok g ∧ a = .ok x ∧ g x = y := by
  cases f <;> cases a <;> simp [Seq.seq, Checked.map, pair]

end Checked

namespace Document

theorem mergeKind_eq_ok_iff {group : String} {into other : Sections} {k : Kind} {m : Mapping k.Entry} :
    mergeKind group into other k = .ok m ↔
      m.toList = (into.entries k).toList ++ (other.entries k).toList.map (Mapping.inGroup group) := by
  rw [← Mapping.addGroup_eq_ok_iff, mergeKind]
  cases Mapping.addGroup group (into.entries k) (other.entries k).toList <;> simp [Checked.fail]

theorem mergeGroup_eq_ok_iff {group : String} {into other s : Sections} :
    mergeGroup group into other = .ok s ↔
      ∀ k, (s.entries k).toList =
        (into.entries k).toList ++ (other.entries k).toList.map (Mapping.inGroup group) := by
  have hkinds : mergeGroup group into other = .ok s ↔ ∀ k, mergeKind group into other k = .ok (s.entries k) := by
    simp only [mergeGroup, Checked.andThen_eq_ok_iff, Checked.map_eq_ok_iff]
    constructor
    · rintro ⟨m₁, h₁, m₂, h₂, m₃, h₃, m₄, h₄, m₅, h₅, m₆, h₆, m₇, h₇, m₈, h₈, rfl⟩ k
      cases k <;> assumption
    · intro h
      exact ⟨_, h .metric, _, h .color, _, h .font, _, h .textAttributes, _, h .placement, _, h .image, _,
        h .buttonStyle, _, h .customParameters, rfl⟩
  rw [hkinds]
  exact forall_congr' fun k => mergeKind_eq_ok_iff

/-- The entries of a kind that groups add. -/
def groupEntries (k : Kind) (groups : List (String × Document)) : List (String × k.Entry) :=
  groups.flatMap fun pair => (pair.2.entries k).toList.map (Mapping.inGroup pair.1)

theorem merge_eq_ok_iff {into s : Sections} {groups : List (String × Document)} :
    merge into groups = .ok s ↔
      ∀ k, (s.entries k).toList = (into.entries k).toList ++ groupEntries k groups := by
  induction groups generalizing into with
  | nil =>
    rw [merge]
    constructor
    · intro h k
      cases h
      simp [groupEntries]
    · intro h
      have hentries (k : Kind) : into.entries k = s.entries k :=
        Mapping.toList_injective (by simpa [groupEntries] using (h k).symm)
      rw [← Sections.tabulate_entries into, ← Sections.tabulate_entries s, funext hentries]
  | cons pair rest ih =>
    obtain ⟨group, document⟩ := pair
    rw [merge, Checked.andThen_eq_ok_iff]
    constructor
    · rintro ⟨first, hfirst, hrest⟩ k
      rw [ih.mp hrest k, mergeGroup_eq_ok_iff.mp hfirst k, List.append_assoc]
      rfl
    · intro h
      -- what is there after the first group is a part of what there is in the end
      have hnodup (k : Kind) :
          (((into.entries k).toList ++ (document.entries k).toList.map (Mapping.inGroup group)).map
            Prod.fst).Nodup := by
        have hall := (s.entries k).nodup
        rw [h k] at hall
        refine List.Nodup.sublist (List.Sublist.map _ (List.Sublist.append_left ?_ _)) hall
        exact List.sublist_append_left _ _
      refine ⟨Sections.tabulate fun k => ⟨_, hnodup k⟩, mergeGroup_eq_ok_iff.mpr fun k => ?_, ih.mpr fun k => ?_⟩
      · rw [Sections.entries_tabulate]
        rfl
      · rw [Sections.entries_tabulate, h k, List.append_assoc]
        rfl

/-! ### Outlines -/

/-- A document before its groups, which are documents again, are merged into it. -/
inductive Outline where
  | node (version : Option Int) (own : Sections) (hasEmptyGroups : Bool) (groups : List (String × Outline))

namespace Outline

mutual

/-- The entries of a kind: those of the document itself, and then those of each group behind its name. -/
def flatten (k : Kind) : Outline → List (String × k.Entry)
  | .node _ own _ groups => (own.entries k).toList ++ flattenGroups k groups

def flattenGroups (k : Kind) : List (String × Outline) → List (String × k.Entry)
  | [] => []
  | (group, inner) :: rest => (flatten k inner).map (Mapping.inGroup group) ++ flattenGroups k rest

end

mutual

/-- No document declares two groups under one name. -/
def Apart : Outline → Prop
  | .node _ _ _ groups => (groups.map Prod.fst).Nodup ∧ ApartGroups groups

def ApartGroups : List (String × Outline) → Prop
  | [] => True
  | (_, inner) :: rest => Apart inner ∧ ApartGroups rest

end

def version : Outline → Option Int
  | .node version _ _ _ => version

def hasEmptyGroups : Outline → Bool
  | .node _ _ hasEmptyGroups _ => hasEmptyGroups

def groups : Outline → List (String × Outline)
  | .node _ _ _ groups => groups

/-- A document holds what an outline comes to once its groups are merged. -/
structure Yields (tree : Outline) (document : Document) : Prop where
  version : document.version = tree.version
  hasEmptyGroups : document.hasEmptyGroups = tree.hasEmptyGroups
  entries : ∀ k, (document.entries k).toList = tree.flatten k

theorem apartGroups_iff {groups : List (String × Outline)} :
    ApartGroups groups ↔ ∀ pair ∈ groups, pair.2.Apart := by
  induction groups with
  | nil => simp [ApartGroups]
  | cons pair rest ih => simp [ApartGroups, ih]

/-- A document that an outline comes to exists exactly if the names of no kind repeat. -/
theorem exists_yields_iff {tree : Outline} :
    (∃ document, tree.Yields document) ↔ ∀ k, ((tree.flatten k).map Prod.fst).Nodup := by
  constructor
  · rintro ⟨document, h⟩ k
    rw [← h.entries k]
    exact (document.entries k).nodup
  · intro h
    refine ⟨⟨tree.version, Sections.tabulate fun k => ⟨_, h k⟩, tree.hasEmptyGroups⟩, rfl, rfl, fun k => ?_⟩
    rw [Document.entries, Sections.entries_tabulate]

end Outline

/-! ### Reading outlines -/

end Document

namespace Datum

/-- The values of a mapping with their names, as often as they are given. -/
def pairs {α : Type} (c : Context) (decode : Datum → Checked α) (data : Datum) : Checked (List (String × α)) :=
  match data.whole c.parts with
  | .map members =>
    Checked.all (members.map fun (key, value) => ((keyText key).pair (decode value)).below (keyStep key))
  | _ => .fail .notMapping

variable {α β : Type} {c : Context} {data : Datum}

theorem mapping_eq (decode : Datum → Checked α) :
    mapping c decode data = (pairs c decode data).map Mapping.ofList := by
  unfold mapping pairs
  cases data.whole c.parts <;> rfl

/-- The names and values that members decode to. -/
abbrev Members (decode : Datum → Checked α) : List (Datum × Datum) → List (String × α) → Prop :=
  List.Forall₂ fun member pair => keyText member.1 = .ok pair.1 ∧ decode member.2 = .ok pair.2

theorem pairs_eq_ok_iff {decode : Datum → Checked α} {xs : List (String × α)} :
    pairs c decode data = .ok xs ↔
      ∃ members, data.whole c.parts = .map members ∧ Members decode members xs := by
  unfold pairs
  cases data.whole c.parts with
  | map members =>
    simp only [Checked.all_eq_ok_iff, Datum.map.injEq, exists_eq_left', Members]
    rw [← List.forall₂_eq_eq_eq, List.forall₂_map_left_iff, List.forall₂_map_right_iff]
    have heach (member : Datum × Datum) (pair : String × α) :
        ((keyText member.1).pair (decode member.2)).below (keyStep member.1) = .ok pair ↔
          keyText member.1 = .ok pair.1 ∧ decode member.2 = .ok pair.2 := by
      rw [Checked.below_eq_ok_iff]
      exact Checked.pair_eq_ok_iff
    simp only [heach]
  | _ => simp [Checked.fail]

/-- Values under the same names, one by one in a relation. -/
abbrev Related (R : α → β → Prop) : List (String × α) → List (String × β) → Prop :=
  List.Forall₂ fun x y => x.1 = y.1 ∧ R x.2 y.2

/-- Two decoders give related values of all members if they do of each. -/
theorem Members.related_iff {read : Datum → Checked α} {decode : Datum → Checked β} {R : α → β → Prop}
    {members : List (Datum × Datum)} {xs : List (String × α)} (h : Members read members xs)
    (hR : ∀ pair ∈ xs, ∀ value, read value = .ok pair.2 → ∀ y, decode value = .ok y ↔ R pair.2 y)
    {ys : List (String × β)} : Members decode members ys ↔ Related R xs ys := by
  induction h generalizing ys with
  | nil => cases ys <;> simp
  | cons hmember _ ih =>
    cases ys with
    | nil => simp
    | cons y ys =>
      have hhead := hR _ (List.mem_cons_self ..) _ hmember.2 y.2
      have htail : Members decode _ ys ↔ Related R _ ys := ih fun pair hmem => hR pair (List.mem_cons_of_mem _ hmem)
      simp only [Members, Related, List.forall₂_cons, hmember.1, Checked.ok.injEq, hhead] at htail ⊢
      rw [htail]

theorem Members.exists_related {read : Datum → Checked α} {decode : Datum → Checked β} {R : α → β → Prop}
    {members : List (Datum × Datum)} {ys : List (String × β)} (h : Members decode members ys)
    (hR : ∀ value y, decode value = .ok y → ∃ x, read value = .ok x ∧ R x y) :
    ∃ xs, Members read members xs ∧ Related R xs ys := by
  induction h with
  | nil => exact ⟨[], .nil, .nil⟩
  | cons hmember _ ih =>
    obtain ⟨x, hread, hx⟩ := hR _ _ hmember.2
    obtain ⟨xs, hxs, hrelated⟩ := ih
    exact ⟨(_, x) :: xs, .cons ⟨hmember.1, hread⟩ hxs, .cons ⟨rfl, hx⟩ hrelated⟩

end Datum

namespace Record

variable {α : Type} {r : Record} {name : FieldName}

/-- What a field holds if it is neither missing nor null. -/
def given? (r : Record) (name : FieldName) : Option Datum :=
  match r.field? name with
  | none | some (_, .null) => none
  | some (_, value) => some value

theorem optional_eq_ok_iff {decode : Datum → Checked α} {x : Option α} :
    r.optional name decode = .ok x ↔ Option.Rel (fun value a => decode value = .ok a) (r.given? name) x := by
  have none_iff : (Checked.ok none : Checked (Option α)) = .ok x ↔
      Option.Rel (fun value a => decode value = .ok a) none x := by
    cases x <;> simp
  unfold optional getD given?
  cases r.field? name with
  | none => exact none_iff
  | some field =>
    obtain ⟨spelling, value⟩ := field
    cases value with
    | null => exact Checked.below_eq_ok_iff.trans none_iff
    | _ => cases x <;> simp [Checked.below_eq_ok_iff, Checked.map_eq_ok_iff]

end Record

namespace Document

open Datum (Context)

/-- The outline of a document, with the checks of every level in it, if it is at most so deep. -/
def outlineWithin : (depth : Nat) → Context → Datum → Checked Outline
  | 0, _, _ => .fail .endless
  | depth + 1, c, data =>
    match { c with depth }.insideDocument? data with
    | none => .fail .endless
    | some c =>
      (data.record c).andThen fun r =>
        (fun version sections groups => .node version sections (groups.any (·.isEmpty)) (groups.getD []))
          <$> decodeVersion r
          <*> Sections.decode c r
          <*> r.optional groupsField (Datum.pairs c (outlineWithin depth c))

/-- The outline of a document: what it declares at every level, if every level passes its checks. -/
def outline (c : Context) (data : Datum) : Checked Outline := outlineWithin c.depth c data

theorem outlineWithin_eq_ok_iff {depth : Nat} {c : Context} {data : Datum} {tree : Outline} :
    outlineWithin (depth + 1) c data = .ok tree ↔
      ∃ inside r version own groups,
        { c with depth }.insideDocument? data = some inside ∧ data.record inside = .ok r ∧
          decodeVersion r = .ok version ∧ Sections.decode inside r = .ok own ∧
          r.optional groupsField (Datum.pairs inside (outlineWithin depth inside)) = .ok groups ∧
          Outline.node version own (groups.any (·.isEmpty)) (groups.getD []) = tree := by
  rw [outlineWithin]
  cases { c with depth }.insideDocument? data with
  | none => simp [Checked.fail]
  | some inside =>
    simp only [Checked.andThen_eq_ok_iff, Checked.seq_eq_ok_iff, Checked.fmap_eq_ok_iff]
    constructor
    · rintro ⟨r, hrecord, _, groups, ⟨_, own, ⟨version, hversion, rfl⟩, hown, rfl⟩, hgroups, rfl⟩
      exact ⟨inside, r, version, own, groups, rfl, hrecord, hversion, hown, hgroups, rfl⟩
    · rintro ⟨_, r, version, own, groups, hinside, hrecord, hversion, hown, hgroups, rfl⟩
      cases hinside
      exact ⟨r, hrecord, _, groups, ⟨_, own, ⟨version, hversion, rfl⟩, hown, rfl⟩, hgroups, rfl⟩

theorem decodeWithin_eq_ok_iff {depth : Nat} {c : Context} {data : Datum} {document : Document} :
    decodeWithin (depth + 1) c data = .ok document ↔
      ∃ inside r version own groups,
        { c with depth }.insideDocument? data = some inside ∧ data.record inside = .ok r ∧
          decodeVersion r = .ok version ∧ Sections.decode inside r = .ok own ∧
          r.optional groupsField (Datum.mapping inside (decodeWithin depth inside)) = .ok groups ∧
          assemble version own groups = .ok document := by
  rw [decodeWithin]
  cases { c with depth }.insideDocument? data with
  | none => simp [Checked.fail]
  | some inside =>
    simp only [Checked.andThen_eq_ok_iff, Checked.seq_eq_ok_iff, Checked.fmap_eq_ok_iff]
    constructor
    · rintro ⟨r, hrecord, _, ⟨_, groups, ⟨_, own, ⟨version, hversion, rfl⟩, hown, rfl⟩, hgroups, rfl⟩, h⟩
      exact ⟨inside, r, version, own, groups, rfl, hrecord, hversion, hown, hgroups, h⟩
    · rintro ⟨_, r, version, own, groups, hinside, hrecord, hversion, hown, hgroups, h⟩
      cases hinside
      exact ⟨r, hrecord, _, ⟨_, groups, ⟨_, own, ⟨version, hversion, rfl⟩, hown, rfl⟩, hgroups, rfl⟩, h⟩

/-- An outline keeps that groups were declared only where there are none. -/
theorem groups_eq_nil_of_outlineWithin {depth : Nat} {c : Context} {data : Datum} {tree : Outline}
    (h : outlineWithin depth c data = .ok tree) (hempty : tree.hasEmptyGroups = true) : tree.groups = [] := by
  cases depth with
  | zero => cases h
  | succ depth =>
    obtain ⟨_, _, _, _, groups, -, -, -, -, -, rfl⟩ := outlineWithin_eq_ok_iff.mp h
    cases groups with
    | none => rfl
    | some groups => exact List.isEmpty_iff.mp hempty

/-- A document of its own entries and of groups that are documents. -/
theorem assemble_eq_ok_iff {version : Option Int} {own : Sections} {groups : Option (Mapping Document)}
    {document : Document} :
    assemble version own groups = .ok document ↔
      document.version = version ∧ document.hasEmptyGroups = groups.any Mapping.isEmpty ∧
        ∀ k, (document.entries k).toList =
          (own.entries k).toList ++ groupEntries k (groups.elim [] Mapping.toList) := by
  have hmerge : merge own (groups.elim [] Mapping.toList) = .ok document.sections ↔
      ∀ k, (document.entries k).toList =
        (own.entries k).toList ++ groupEntries k (groups.elim [] Mapping.toList) := merge_eq_ok_iff
  have hassemble : assemble version own groups =
      (merge own (groups.elim [] Mapping.toList)).map fun sections =>
        ⟨version, sections, groups.any Mapping.isEmpty⟩ := by
    cases groups <;> rfl
  rw [hassemble, Checked.map_eq_ok_iff, ← hmerge]
  constructor
  · rintro ⟨sections, hsections, rfl⟩
    exact ⟨rfl, rfl, hsections⟩
  · rintro ⟨rfl, hempty, hsections⟩
    exact ⟨document.sections, hsections, by rw [← hempty]⟩

/-- Groups, each of which holds what its outline comes to. -/
abbrev YieldsEach : List (String × Outline) → List (String × Document) → Prop := Datum.Related Outline.Yields

theorem YieldsEach.keys {trees : List (String × Outline)} {groups : List (String × Document)}
    (h : YieldsEach trees groups) : groups.map Prod.fst = trees.map Prod.fst := by
  induction h with
  | nil => rfl
  | cons hpair _ ih => rw [List.map_cons, List.map_cons, ih, hpair.1]

theorem YieldsEach.entries {trees : List (String × Outline)} {groups : List (String × Document)}
    (h : YieldsEach trees groups) (k : Kind) : groupEntries k groups = Outline.flattenGroups k trees := by
  induction h with
  | nil => rfl
  | cons hpair _ ih =>
    rw [groupEntries, List.flatMap_cons, Outline.flattenGroups, hpair.2.entries, hpair.1]
    exact congrArg _ ih

/-- If the groups together repeat no name, none of them does. -/
theorem exists_yieldsEach {trees : List (String × Outline)}
    (h : ∀ k, ((Outline.flattenGroups k trees).map Prod.fst).Nodup) : ∃ groups, YieldsEach trees groups := by
  induction trees with
  | nil => exact ⟨[], .nil⟩
  | cons pair rest ih =>
    obtain ⟨group, inner⟩ := pair
    have hinner (k : Kind) : ((inner.flatten k).map Prod.fst).Nodup := by
      have hall := h k
      rw [Outline.flattenGroups, List.map_append, List.map_map] at hall
      refine List.Nodup.of_map (group ++ "." ++ ·) ?_
      rw [List.map_map]
      exact hall.of_append_left
    have hrest (k : Kind) : ((Outline.flattenGroups k rest).map Prod.fst).Nodup := by
      have hall := h k
      rw [Outline.flattenGroups, List.map_append] at hall
      exact hall.of_append_right
    obtain ⟨document, hdocument⟩ := Outline.exists_yields_iff.mpr hinner
    obtain ⟨groups, hgroups⟩ := ih hrest
    exact ⟨(group, document) :: groups, .cons ⟨rfl, hdocument⟩ hgroups⟩

/-- One level: what is assembled from groups that decode to what their outlines come to. -/
theorem assemble_yields_iff {version : Option Int} {own : Sections} {trees : Option (List (String × Outline))}
    (hapart : ((trees.getD []).map Prod.fst).Nodup) {document : Document} :
    (∃ groups, Option.Rel YieldsEach trees groups ∧
        assemble version own (groups.map Mapping.ofList) = .ok document) ↔
      (Outline.node version own (trees.any (·.isEmpty)) (trees.getD [])).Yields document := by
  have hlevel {groups : Option (List (String × Document))} (h : Option.Rel YieldsEach trees groups) :
      assemble version own (groups.map Mapping.ofList) = .ok document ↔
        (Outline.node version own (trees.any (·.isEmpty)) (trees.getD [])).Yields document := by
    rw [assemble_eq_ok_iff]
    have hgroups (k : Kind) :
        groupEntries k ((groups.map Mapping.ofList).elim [] Mapping.toList) =
          Outline.flattenGroups k (trees.getD []) := by
      cases h with
      | none => rfl
      | some h =>
        rw [Option.map_some, Option.elim_some, Mapping.toList_ofList (h.keys ▸ hapart)]
        exact h.entries k
    have hempty : (groups.map Mapping.ofList).any Mapping.isEmpty = trees.any (·.isEmpty) := by
      cases h with
      | none => rfl
      | some h =>
        rw [Option.map_some, Option.any_some, Mapping.isEmpty, Mapping.toList_ofList (h.keys ▸ hapart)]
        cases h <;> rfl
    simp only [hgroups, hempty]
    exact ⟨fun ⟨hversion, hempty, hentries⟩ => ⟨hversion, hempty, hentries⟩,
      fun h => ⟨h.version, h.hasEmptyGroups, h.entries⟩⟩
  constructor
  · rintro ⟨groups, hgroups, hassemble⟩
    exact (hlevel hgroups).mp hassemble
  · intro h
    have hexists : ∃ groups, Option.Rel YieldsEach trees groups := by
      cases trees with
      | none => exact ⟨none, .none⟩
      | some trees =>
        obtain ⟨groups, hgroups⟩ : ∃ groups, YieldsEach trees groups := exists_yieldsEach fun k => by
          have hall := (document.entries k).nodup
          rw [h.entries k, Outline.flatten, List.map_append] at hall
          exact hall.of_append_right
        exact ⟨some groups, .some hgroups⟩
    obtain ⟨groups, hgroups⟩ := hexists
    exact ⟨groups, hgroups, (hlevel hgroups).mpr h⟩

/-- A document decodes from data with an outline exactly if it holds what the outline comes to. -/
theorem decodeWithin_yields_iff {depth : Nat} {c : Context} {data : Datum} {tree : Outline}
    (h : outlineWithin depth c data = .ok tree) (hapart : tree.Apart) {document : Document} :
    decodeWithin depth c data = .ok document ↔ tree.Yields document := by
  induction depth generalizing c data tree document with
  | zero => cases h
  | succ depth ih =>
    obtain ⟨inside, r, version, own, trees, hinside, hrecord, hversion, hown, htrees, rfl⟩ :=
      outlineWithin_eq_ok_iff.mp h
    rw [decodeWithin_eq_ok_iff, ← assemble_yields_iff hapart.1]
    -- the groups are read from the same data with the checks of every level, and decoded
    have hgroups (groups : Option (Mapping Document)) :
        r.optional groupsField (Datum.mapping inside (decodeWithin depth inside)) = .ok groups ↔
          Option.Rel (fun trees m => ∃ ds, YieldsEach trees ds ∧ Mapping.ofList ds = m) trees groups := by
      rw [Record.optional_eq_ok_iff] at htrees ⊢
      generalize r.given? groupsField = given at htrees ⊢
      cases htrees with
      | none => cases groups <;> simp
      | some htrees =>
        obtain ⟨members, hwhole, hmembers⟩ := Datum.pairs_eq_ok_iff.mp htrees
        have hrelated (ds : List (String × Document)) :
            Datum.Members (decodeWithin depth inside) members ds ↔ YieldsEach _ ds :=
          hmembers.related_iff fun pair hmem value hread document =>
            ih hread (Outline.apartGroups_iff.mp hapart.2 pair hmem)
        cases groups <;> simp [Datum.mapping_eq, Checked.map_eq_ok_iff, Datum.pairs_eq_ok_iff, hwhole, hrelated]
    constructor
    · rintro ⟨_, _, _, _, groups, hinside', hrecord', hversion', hown', hdecoded, hassemble⟩
      cases hinside.symm.trans hinside'
      cases hrecord.symm.trans hrecord'
      cases hversion.symm.trans hversion'
      cases hown.symm.trans hown'
      have hrelated := (hgroups groups).mp hdecoded
      clear h
      cases hrelated with
      | none => exact ⟨none, .none, hassemble⟩
      | some h =>
        obtain ⟨ds, hds, rfl⟩ := h
        exact ⟨some ds, .some hds, hassemble⟩
    · rintro ⟨ds, hds, hassemble⟩
      refine ⟨inside, r, version, own, _, hinside, hrecord, hversion, hown,
        (hgroups (ds.map Mapping.ofList)).mpr ?_, hassemble⟩
      cases hds with
      | none => exact .none
      | some hds => exact .some ⟨_, hds, rfl⟩

/-- If the checks of every level pass and no level declares two groups under one name, a document decodes
exactly if for no kind a name repeats in its outline, and it then holds the entries of its outline in their order,
under their names. No groups are left but the absence of groups where none were declared. -/
theorem decode_merges_groups (c : Context) (data : Datum) (tree : Outline) (h : outline c data = .ok tree)
    (hapart : tree.Apart) :
    ((∃ document, decode c data = .ok document) ↔ ∀ k, ((tree.flatten k).map Prod.fst).Nodup) ∧
      ∀ document, decode c data = .ok document →
        (∀ k, (document.entries k).toList = tree.flatten k) ∧
          (document.hasEmptyGroups = true → tree.groups = []) := by
  have hdecode {document : Document} : decode c data = .ok document ↔ tree.Yields document :=
    decodeWithin_yields_iff h hapart
  refine ⟨?_, fun document hdocument => ?_⟩
  · simp only [hdecode]
    exact Outline.exists_yields_iff
  · have hyields := hdecode.mp hdocument
    exact ⟨hyields.entries, fun hempty => groups_eq_nil_of_outlineWithin h (hyields.hasEmptyGroups ▸ hempty)⟩

/-- A color of its own, one in a group and one in a group in this group. -/
def nestedGroups : Datum :=
  .map [(.string "colors", .map [(.string "x", .string "w/1")]), (.string "groups", .map [(.string "a", .map
    [(.string "groups", .map [(.string "b", .map [(.string "colors", .map [(.string "x", .string "w/0")])])]),
      (.string "colors", .map [(.string "b.y", .string "w/1")])])])]

def nestedOutline : Outline :=
  .node (some 0) { colors := ⟨[("x", "w/1")], by decide⟩ } false
    [("a", .node (some 0) { colors := ⟨[("b.y", "w/1")], by decide⟩ } false
      [("b", .node (some 0) { colors := ⟨[("x", "w/0")], by decide⟩ } false [])])]

/-- The entries of a group come before those of the groups in it, wherever they are declared. -/
theorem decode_merges_groups_nested :
    outline {} nestedGroups = .ok nestedOutline ∧ nestedOutline.Apart ∧
      ∃ document, decode {} nestedGroups = .ok document ∧
        (document.entries .color).toList = [("x", "w/1"), ("a.b.y", "w/1"), ("a.b.x", "w/0")] := by
  have houtline : outline {} nestedGroups = .ok nestedOutline := rfl
  have hapart : nestedOutline.Apart := by simp [nestedOutline, Outline.Apart, Outline.ApartGroups]
  have hnodup (k : Kind) : ((nestedOutline.flatten k).map Prod.fst).Nodup := by cases k <;> decide
  obtain ⟨hdecodes, hentries⟩ := decode_merges_groups {} nestedGroups nestedOutline houtline hapart
  obtain ⟨document, hdocument⟩ := hdecodes.mpr hnodup
  exact ⟨houtline, hapart, document, hdocument, (hentries document hdocument).1 .color⟩

end Document
end DesignTokens
