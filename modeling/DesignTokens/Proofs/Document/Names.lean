import DesignTokens.Document.Load
import DesignTokens.Proofs.Document.Outline

/-!
# The names of a document

The names of a document are checked for spaces field by field, before its groups are merged into it. A name that
the merge makes begins with the names of the groups, and of those none is checked: the name of an entry is free of
spaces, comments apart, as long as the names of the groups that it comes from are.

* `Document.exists_outline_of_decodeWithin` — every entry of a document is declared somewhere in its outline.
* `Document.isComment_of_declares` — what the checks of the names come to at every level.
* `Document.hasSpace_names_iff` — which names of a document that text holds have spaces in them.
* `Document.not_spaceless` — a document with a space in the name of a color.
-/

namespace DesignTokens

namespace Mapping

variable {α : Type}

theorem mem_of_mem_insert {m : Mapping α} {name : String} {value : α} {pair : String × α}
    (h : pair ∈ (m.insert name value).toList) : pair = (name, value) ∨ pair ∈ m.toList := by
  unfold insert at h
  split at h
  · obtain ⟨before, hmem, rfl⟩ := List.mem_map.mp h
    split
    · exact .inl rfl
    · exact .inr hmem
  · rcases List.mem_append.mp h with hmem | hlast
    · exact .inr hmem
    · exact .inl (List.mem_singleton.mp hlast)

theorem mem_of_mem_foldl_insert {pairs : List (String × α)} {m : Mapping α} {pair : String × α}
    (h : pair ∈ (pairs.foldl (fun m pair => m.insert pair.1 pair.2) m).toList) : pair ∈ m.toList ∨ pair ∈ pairs := by
  induction pairs generalizing m with
  | nil => exact .inl h
  | cons first rest ih =>
    rcases ih h with hinto | hrest
    · rcases mem_of_mem_insert hinto with rfl | hbefore
      · exact .inr (List.mem_cons_self ..)
      · exact .inl hbefore
    · exact .inr (List.mem_cons_of_mem _ hrest)

theorem mem_of_mem_ofList {pairs : List (String × α)} {pair : String × α} (h : pair ∈ (ofList pairs).toList) :
    pair ∈ pairs :=
  (mem_of_mem_foldl_insert (m := empty) h).resolve_left List.not_mem_nil

theorem mem_of_mem_union {m other : Mapping α} {pair : String × α} (h : pair ∈ (m.union other).toList) :
    pair ∈ m.toList ∨ pair ∈ other.toList := mem_of_mem_foldl_insert h

end Mapping

/-- What is on the right of a relation between lists has something on the left. -/
theorem exists_mem_of_forall₂ {α β : Type} {R : α → β → Prop} {xs : List α} {ys : List β} (h : List.Forall₂ R xs ys)
    {y : β} (hmem : y ∈ ys) : ∃ x ∈ xs, R x y := by
  induction h with
  | nil => cases hmem
  | cons hR _ ih =>
    rcases List.mem_cons.mp hmem with rfl | hrest
    · exact ⟨_, List.mem_cons_self .., hR⟩
    · obtain ⟨x, hx, hR⟩ := ih hrest
      exact ⟨x, List.mem_cons_of_mem _ hx, hR⟩

/-! ### Declarations -/

namespace Document

namespace Outline

/-- An entry is declared under a name in the groups of a path, the outermost first. -/
inductive Declares (k : Kind) : (path : List String) → (name : String) → k.Entry → Outline → Prop where
  | own {version : Option Int} {own : Sections} {hasEmptyGroups : Bool} {groups : List (String × Outline)}
      {name : String} {entry : k.Entry} (h : (name, entry) ∈ (own.entries k).toList) :
      Declares k [] name entry (.node version own hasEmptyGroups groups)
  | inside {version : Option Int} {own : Sections} {hasEmptyGroups : Bool} {groups : List (String × Outline)}
      {group : String} {inner : Outline} {path : List String} {name : String} {entry : k.Entry}
      (hgroup : (group, inner) ∈ groups) (h : Declares k path name entry inner) :
      Declares k (group :: path) name entry (.node version own hasEmptyGroups groups)

/-- The name that an entry gets in the merge: its own behind those of the groups. -/
def dotted (path : List String) (name : String) : String :=
  path.foldr (fun group name => group ++ "." ++ name) name

/-- Whether every entry of a document is declared. -/
def Covers (tree : Outline) (document : Document) : Prop :=
  ∀ k name entry, (name, entry) ∈ (document.entries k).toList →
    ∃ path own, tree.Declares k path own entry ∧ name = dotted path own

end Outline

theorem exists_outline_of_decodeWithin {depth : Nat} {c : Datum.Context} {data : Datum} {document : Document}
    (h : decodeWithin depth c data = .ok document) :
    ∃ tree, outlineWithin depth c data = .ok tree ∧ tree.Covers document := by
  induction depth generalizing c data document with
  | zero => cases h
  | succ depth ih =>
    obtain ⟨inside, r, version, own, groups, hinside, hrecord, hversion, hown, hgroups, hassemble⟩ :=
      decodeWithin_eq_ok_iff.mp h
    have hentries := (assemble_eq_ok_iff.mp hassemble).2.2
    have htrees : ∃ trees, r.optional groupsField (Datum.pairs inside (outlineWithin depth inside)) = .ok trees ∧
        ∀ group inner, (group, inner) ∈ groups.elim [] Mapping.toList →
          ∃ tree, (group, tree) ∈ trees.getD [] ∧ tree.Covers inner := by
      simp only [Record.optional_eq_ok_iff] at hgroups ⊢
      generalize r.given? groupsField = given at hgroups ⊢
      cases hgroups with
      | none => exact ⟨none, .none, by simp⟩
      | some hgroups =>
        rw [Datum.mapping_eq, Checked.map_eq_ok_iff] at hgroups
        obtain ⟨ds, hds, rfl⟩ := hgroups
        obtain ⟨members, hwhole, hmembers⟩ := Datum.pairs_eq_ok_iff.mp hds
        obtain ⟨trees, htrees, hrelated⟩ := hmembers.exists_related fun value inner hinner => ih hinner
        refine ⟨some trees, .some (Datum.pairs_eq_ok_iff.mpr ⟨members, hwhole, htrees⟩), ?_⟩
        intro group inner hmem
        -- of the groups under one name the last one counts, and it is one of those that were read
        obtain ⟨⟨_, tree⟩, htree, rfl, hcovers⟩ :=
          exists_mem_of_forall₂ hrelated (Mapping.mem_of_mem_ofList hmem)
        exact ⟨tree, htree, hcovers⟩
    obtain ⟨trees, htrees, hcovers⟩ := htrees
    refine ⟨_, outlineWithin_eq_ok_iff.mpr
      ⟨inside, r, version, own, trees, hinside, hrecord, hversion, hown, htrees, rfl⟩, ?_⟩
    intro k name entry hmem
    rw [hentries, List.mem_append, groupEntries, List.mem_flatMap] at hmem
    rcases hmem with hown | ⟨⟨group, inner⟩, hgroup, hentry⟩
    · exact ⟨[], name, .own hown, rfl⟩
    · obtain ⟨⟨inside, entry⟩, hinside, heq⟩ := List.mem_map.mp hentry
      cases heq
      obtain ⟨tree, htree, hcovers⟩ := hcovers group inner hgroup
      obtain ⟨path, own, hdeclares, rfl⟩ := hcovers k inside entry hinside
      exact ⟨group :: path, own, .inside htree hdeclares, rfl⟩

end Document

/-! ### Spaces -/

namespace Kind

/-- Entries that pass the check of their names have no spaces in them unless they are comments. -/
theorem isComment_of_decodeEntries {c : Datum.Context} {k : Kind} {data : Datum} {entries : Mapping k.Entry}
    (h : k.decodeEntries c data = .ok entries) {name : String} {entry : k.Entry}
    (hmem : (name, entry) ∈ entries.toList) (hspace : hasSpace name = true) : k.isComment entry = true := by
  rw [decodeEntries, Checked.andThen_eq_ok_iff] at h
  obtain ⟨read, -, hchecked⟩ := h
  cases hspaced : k.spacedName? read with
  | some spaced =>
    rw [hspaced] at hchecked
    cases hchecked
  | none =>
    rw [hspaced] at hchecked
    cases hchecked
    have hnone := List.find?_eq_none.mp (Option.map_eq_none_iff.mp hspaced) _ hmem
    simpa [hspace] using hnone

theorem hasSpace_inGroup (group name : String) :
    hasSpace (group ++ "." ++ name) = (hasSpace group || hasSpace name) := by
  simp [hasSpace]

end Kind

open Kind (hasSpace)

theorem Sections.decode_eq_ok_iff {c : Datum.Context} {r : Record} {s : Sections} :
    decode c r = .ok s ↔ ∀ k : Kind, r.getD k.fieldName (k.decodeEntries c) ∅ = .ok (s.entries k) := by
  simp only [decode, Checked.seq_eq_ok_iff, Checked.fmap_eq_ok_iff]
  constructor
  · rintro ⟨_, parameters, ⟨_, buttonStyles, ⟨_, images, ⟨_, placements, ⟨_, textAttributes, ⟨_, fonts, ⟨_, colors,
      ⟨metrics, hmetrics, rfl⟩, hcolors, rfl⟩, hfonts, rfl⟩, htextAttributes, rfl⟩, hplacements, rfl⟩, himages,
      rfl⟩, hbuttonStyles, rfl⟩, hparameters, rfl⟩ k
    cases k <;> assumption
  · intro h
    exact ⟨_, _, ⟨_, _, ⟨_, _, ⟨_, _, ⟨_, _, ⟨_, _, ⟨_, _, ⟨_, h .metric, rfl⟩, h .color, rfl⟩, h .font, rfl⟩,
      h .textAttributes, rfl⟩, h .placement, rfl⟩, h .image, rfl⟩, h .buttonStyle, rfl⟩, h .customParameters, rfl⟩

/-- The entries of a section have no spaces in their names unless they are comments. -/
theorem Sections.isComment_of_decode {c : Datum.Context} {r : Record} {s : Sections} (h : decode c r = .ok s)
    {k : Kind} {name : String} {entry : k.Entry} (hmem : (name, entry) ∈ (s.entries k).toList)
    (hspace : hasSpace name = true) : k.isComment entry = true := by
  have hfield := decode_eq_ok_iff.mp h k
  unfold Record.getD at hfield
  cases hgiven : r.field? k.fieldName with
  | none =>
    rw [hgiven] at hfield
    rw [← Checked.ok.inj hfield] at hmem
    cases hmem
  | some given =>
    rw [hgiven] at hfield
    exact Kind.isComment_of_decodeEntries (Checked.below_eq_ok_iff.mp hfield) hmem hspace

namespace Document

theorem Outline.hasSpace_dotted (path : List String) (name : String) :
    hasSpace (dotted path name) = (path.any hasSpace || hasSpace name) := by
  induction path with
  | nil => rfl
  | cons group rest ih =>
    rw [dotted, List.foldr_cons, Kind.hasSpace_inGroup, List.any_cons, Bool.or_assoc, ← ih]
    rfl

/-- At no level does an entry have a space in its own name unless it is a comment. -/
theorem isComment_of_declares {depth : Nat} {c : Datum.Context} {data : Datum} {tree : Outline}
    (h : outlineWithin depth c data = .ok tree) {k : Kind} {path : List String} {name : String} {entry : k.Entry}
    (hdeclares : tree.Declares k path name entry) (hspace : hasSpace name = true) : k.isComment entry = true := by
  induction depth generalizing c data tree path with
  | zero => cases h
  | succ depth ih =>
    obtain ⟨inside, r, version, own, groups, -, -, -, hown, hgroups, rfl⟩ := outlineWithin_eq_ok_iff.mp h
    cases hdeclares with
    | own hmem => exact Sections.isComment_of_decode hown hmem hspace
    | inside hgroup hinner =>
      rw [Record.optional_eq_ok_iff] at hgroups
      cases groups with
      | none => cases hgroup
      | some groups =>
        generalize r.given? groupsField = given at hgroups
        cases hgroups with
        | some hgroups =>
          obtain ⟨members, -, hmembers⟩ := Datum.pairs_eq_ok_iff.mp hgroups
          obtain ⟨member, -, -, hread⟩ := exists_mem_of_forall₂ hmembers hgroup
          exact ih hread hinner

/-- A name of a document that text holds has a space in it exactly if the name of one of the groups that it begins
with has, or if the entry is a comment, a metric without text or a parameter that is null, under a name with a
space of its own. -/
theorem hasSpace_names_iff (text : String) (document : Document) (h : ofText text = .ok document) :
    ∃ data tree, Json.read? .document text = some data ∧ outline {} data = .ok tree ∧
      ∀ k name entry, (name, entry) ∈ (document.entries k).toList →
        ∃ path own, tree.Declares k path own entry ∧ name = Outline.dotted path own ∧
          (hasSpace name = true ↔
            (∃ group ∈ path, hasSpace group = true) ∨ hasSpace own = true ∧ k.isComment entry = true) := by
  unfold ofText at h
  split at h
  · cases h
  · cases hread : Json.read? .document text with
    | none =>
      rw [hread] at h
      cases h
    | some data =>
      rw [hread] at h
      obtain ⟨tree, htree, hcovers⟩ := exists_outline_of_decodeWithin h
      refine ⟨data, tree, rfl, htree, fun k name entry hmem => ?_⟩
      obtain ⟨path, own, hdeclares, rfl⟩ := hcovers k name entry hmem
      refine ⟨path, own, hdeclares, rfl, ?_⟩
      rw [Outline.hasSpace_dotted, Bool.or_eq_true, List.any_eq_true]
      have hown : hasSpace own = true ↔ hasSpace own = true ∧ k.isComment entry = true :=
        ⟨fun hspace => ⟨hspace, isComment_of_declares htree hdeclares hspace⟩, And.left⟩
      rw [hown]
      simp

/-- A color in a group with a space in its name. -/
def spacedText : String := "\x7b\"groups\": \x7b\"a b\": \x7b\"colors\": \x7b\"x\": \"w/1\"\x7d\x7d\x7d\x7d"

def spacedDocument : Document := ⟨some 0, { colors := ⟨[("a b.x", "w/1")], by decide⟩ }, false⟩

theorem ofText_spacedText : ofText spacedText = .ok spacedDocument := by
  have hhalf : Text.hasHalf spacedText = false := by cbv
  have hread : Json.read? .document spacedText = some (.map [(.string "groups", .map [(.string "a b", .map
      [(.string "colors", .map [(.string "x", .string "w/1")])])])]) := by cbv
  rw [ofText_of_read? hhalf hread]
  rfl

/-- The space in the name of the color is in the name of a group. -/
theorem hasSpace_names_iff_spacedText :
    ∃ data tree, Json.read? .document spacedText = some data ∧ outline {} data = .ok tree ∧
      ∃ path own, tree.Declares .color path own "w/1" ∧ "a b.x" = Outline.dotted path own ∧
        ∃ group ∈ path, hasSpace group = true := by
  obtain ⟨data, tree, hread, htree, hnames⟩ := hasSpace_names_iff spacedText spacedDocument ofText_spacedText
  have hmem : ("a b.x", "w/1") ∈ (spacedDocument.entries .color).toList := List.mem_singleton_self _
  obtain ⟨path, own, hdeclares, hname, hspace⟩ := hnames .color "a b.x" "w/1" hmem
  have hcases := hspace.mp (by decide)
  exact ⟨data, tree, hread, htree, path, own, hdeclares, hname, hcases.resolve_right fun h => nomatch h.2⟩

/-- There is text that holds a document with a name with a space in it that belongs to no comment. -/
theorem not_spaceless :
    ¬ ∀ text document, ofText text = .ok document →
      ∀ k name entry, (name, entry) ∈ (document.entries k).toList → hasSpace name = true →
        k.isComment entry = true := by
  intro h
  have hmem : ("a b.x", "w/1") ∈ (spacedDocument.entries .color).toList := List.mem_singleton_self _
  have hcomment := h _ _ ofText_spacedText .color "a b.x" "w/1" hmem (by decide)
  cases hcomment

end Document
end DesignTokens
