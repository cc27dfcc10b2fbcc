import DesignTokens.Proofs.Resolution.Sentinel

/-!
# The nearest declaration of a font

A font takes its size, its family and its face from the nearest entry that declares them, be it the entry itself or one
further down the chain of those it is based on. Within an entry a field that is not empty comes before the attribute of
the same name. The size that is stored in a descriptor without any is inherited like a declared one, but since it is
the same for all fonts nothing comes of it.

Attributes behind a mark are left aside here: they may stand under any of these names too.

* `Mapping.Lineage` — the entries from a name down to one that is based on nothing.
* `FontLayers.Lays.find?_size`, `FontLayers.Lays.find?_name` — what one entry does to the descriptor below.
* `FontLayers.Describes.nearest` — what the whole chain does.
* `Document.nearest_font_declaration` — sizes, names and the expected name of valid fonts.
-/

namespace DesignTokens

open Resolve

/-! ### Chains of entries -/

namespace Mapping

variable {α : Type} {base : α → Option String} {m : Mapping α} {name : String}

/-- The entries from a name to the one that is based on no other. -/
inductive Lineage (base : α → Option String) (m : Mapping α) : String → List α → Prop where
  | last {name : String} {entry : α} (hentry : m.find? name = some entry) (hbase : base entry = none) :
      Lineage base m name [entry]
  | link {name below : String} {entry : α} {rest : List α} (hentry : m.find? name = some entry)
      (hbase : base entry = some below) (hrest : Lineage base m below rest) : Lineage base m name (entry :: rest)

theorem Lineage.unique {chain chain' : List α} (h : Lineage base m name chain) (h' : Lineage base m name chain') :
    chain = chain' := by
  induction h generalizing chain' with
  | last hentry hbase =>
    cases h' with
    | last hentry' _ => cases hentry.symm.trans hentry'; rfl
    | link hentry' hbase' _ =>
      cases hentry.symm.trans hentry'
      cases hbase.symm.trans hbase'
  | link hentry hbase _ ih =>
    cases h' with
    | last hentry' hbase' =>
      cases hentry.symm.trans hentry'
      cases hbase.symm.trans hbase'
    | link hentry' hbase' hrest' =>
      cases hentry.symm.trans hentry'
      cases hbase.symm.trans hbase'
      rw [ih hrest']

theorem find?_insertAll (pairs : List (String × α)) (m : Mapping α) (name : String) :
    (pairs.foldl (fun m pair => m.insert pair.1 pair.2) m).find? name =
      (pairs.reverse.lookup name).or (m.find? name) := by
  induction pairs generalizing m with
  | nil => rfl
  | cons pair rest ih =>
    rw [List.foldl_cons, ih, List.reverse_cons, lookup_append, Option.or_assoc, find?_insert, List.lookup_cons]
    by_cases hname : name = pair.1
    · simp [hname]
    · simp [hname, beq_eq_false_iff_ne.mpr hname]

theorem find?_ofList (pairs : List (String × α)) (name : String) :
    (ofList pairs).find? name = pairs.reverse.lookup name := by
  rw [ofList, find?_insertAll]
  exact Option.or_none ..

/-- Names find what was set in the second mapping, and otherwise what they find in the first. -/
theorem find?_union (m other : Mapping α) (name : String) :
    (m.union other).find? name = (other.find? name).or (m.find? name) := by
  have hlookup : other.toList.reverse.lookup name = other.find? name := by
    cases hfind : other.find? name with
    | none =>
      have hnot := find?_eq_none_iff.mp hfind
      rw [← Option.not_isSome_iff_eq_none, lookup_isSome_iff]
      simpa [keys] using hnot
    | some value =>
      refine lookup_of_mem ?_ (List.mem_reverse.mpr (mem_of_find? hfind))
      rw [List.map_reverse]
      exact List.nodup_reverse.mpr other.nodup
  rw [union, find?_insertAll, hlookup]

theorem find?_erase (m : Mapping α) (name other : String) :
    (m.erase name).find? other = if other = name then none else m.find? other := by
  have hfilter (pairs : List (String × α)) : (pairs.filter (·.1 != name)).lookup other =
      if other = name then none else pairs.lookup other := by
    induction pairs with
    | nil => simp
    | cons pair rest ih =>
      by_cases hkey : pair.1 = name
      · rw [List.filter_cons_of_neg (by simpa using hkey), ih, List.lookup_cons, hkey]
        by_cases hother : other = name
        · rw [if_pos hother, if_pos hother]
        · rw [if_neg hother, if_neg hother, beq_eq_false_iff_ne.mpr hother]
      · rw [List.filter_cons_of_pos (by simpa using hkey), List.lookup_cons, List.lookup_cons, ih]
        by_cases hother : other = name
        · have hne : (other == pair.1) = false := beq_eq_false_iff_ne.mpr fun heq => hkey (heq.symm.trans hother)
          rw [hne, if_pos hother]
        · rw [if_neg hother, if_neg hother]
  exact hfilter m.toList

end Mapping

/-! ### Declarations -/

/-- The two names that an entry gives in a field or among its attributes. -/
inductive NameField where
  | family | face
  deriving DecidableEq

namespace NameField

/-- The name of the attribute. -/
def key : NameField → String
  | .family => "family"
  | .face => "face"

/-- The field of an entry. -/
def value : NameField → FontEntry → Option String
  | .family, entry => entry.family
  | .face, entry => entry.face

end NameField

namespace FontEntry

/-- The font that an entry is based on. -/
def base? (entry : FontEntry) : Option String := entry.basedOn.filter (!·.isEmpty)

/-- The value under a name among the attributes. -/
def attribute? (entry : FontEntry) (key : String) : Option Json :=
  match entry.attributes with
  | some (.object items) => (Mapping.ofList items).find? key
  | _ => none

theorem attribute?_of_object {entry : FontEntry} {items : List (String × Json)}
    (h : entry.attributes = some (.object items)) (key : String) : entry.attribute? key = items.reverse.lookup key := by
  simp only [attribute?, h, Mapping.find?_ofList]

theorem attribute?_of_none {entry : FontEntry} (h : entry.attributes = none) (key : String) :
    entry.attribute? key = none := by
  simp only [attribute?, h]

/-- A declaration in a field that is not empty, or else among the attributes. -/
def declared? (entry : FontEntry) (field : Option String) (key : String) : Option Json :=
  ((field.filter (!·.isEmpty)).map Json.string).or (entry.attribute? key)

/-- The size that an entry declares, as it is written. -/
def declaredSize? (entry : FontEntry) : Option Json := entry.declared? entry.size "size"

/-- The family or the face that an entry declares. -/
def declaredName? (field : NameField) (entry : FontEntry) : Option Json :=
  entry.declared? (field.value entry) field.key

/-- No attribute of the entry has a mark. -/
def Unmarked (entry : FontEntry) : Prop :=
  ∀ items, entry.attributes = some (.object items) → ∀ item ∈ items, FontLayers.marked? item.1 = none

end FontEntry

namespace FontLayers

variable {metrics : Mapping String} {fonts : Mapping FontEntry} {entry : FontEntry} {items : List (String × Json)}
  {read result : Mapping Json} {base declared sized d : FontDescriptor} {field : NameField} {name : String}

/-! ### Names through the layers of an entry -/

theorem Declares.find? (h : Declares metrics items read result) (hplain : ∀ item ∈ items, marked? item.1 = none)
    {key : String} (hkey : key ≠ "size") :
    result.find? key = (items.reverse.lookup key).or (read.find? key) := by
  induction h with
  | nil => rfl
  | marked hmarked _ _ =>
    rw [hplain _ (List.mem_cons_self ..)] at hmarked
    cases hmarked
  | size _ _ ih =>
    rw [ih fun item hitem => hplain item (List.mem_cons_of_mem _ hitem), List.reverse_cons, Mapping.lookup_append,
      Option.or_assoc, Mapping.find?_insert, if_neg hkey, List.lookup_cons, beq_eq_false_iff_ne.mpr hkey]
    rfl
  | @plain other value rest read result _ _ _ _ _ ih =>
    rw [ih fun item hitem => hplain item (List.mem_cons_of_mem _ hitem), List.reverse_cons, Mapping.lookup_append,
      Option.or_assoc, Mapping.find?_insert, List.lookup_cons]
    by_cases hname : key = other
    · simp [hname]
    · simp [hname, beq_eq_false_iff_ne.mpr hname]

theorem WithAttributes.find? (h : WithAttributes metrics entry base declared) (hplain : entry.Unmarked) {key : String}
    (hkey : key ≠ "size") :
    declared.attributes.find? key = (entry.attribute? key).or (base.attributes.find? key) := by
  unfold WithAttributes at h
  split at h
  · next hnone => rw [FontEntry.attribute?_of_none hnone, h, Option.none_or]
  · next items hitems =>
    obtain ⟨read, hread, rfl⟩ := h
    have hempty : (∅ : Mapping Json).find? key = none := rfl
    rw [FontEntry.attribute?_of_object hitems, FontDescriptor.adding, Mapping.find?_union,
      hread.find? (hplain items hitems) hkey, hempty, Option.or_none]
  · exact h.elim

/-- The names of an entry are set in its descriptor. Whatever else changes there, only an explicit name does. -/
theorem find?_addNames {key : String} (hkey : key ≠ "name") : (addNames entry d).attributes.find? key =
    (if key = "face" then (entry.face.filter (!·.isEmpty)).map Json.string
      else if key = "family" then (entry.family.filter (!·.isEmpty)).map Json.string else none).or
        (d.attributes.find? key) := by
  unfold addNames
  cases entry.family.filter (!·.isEmpty) <;> cases entry.face.filter (!·.isEmpty) <;>
    simp only [FontDescriptor.withFamily, FontDescriptor.withFace, Mapping.find?_insert, Mapping.find?_erase, hkey,
      Option.map_none, Option.map_some, if_false] <;>
    split_ifs <;> simp_all

theorem find?_addNames_key : (addNames entry d).attributes.find? field.key =
    (((field.value entry).filter (!·.isEmpty)).map Json.string).or (d.attributes.find? field.key) := by
  cases field with
  | family => rw [find?_addNames (by decide : NameField.family.key ≠ "name")]; rfl
  | face => rw [find?_addNames (by decide : NameField.face.key ≠ "name")]; rfl

theorem WithSize.find? (h : WithSize metrics entry d sized) {key : String} (hkey : key ≠ "size") :
    sized.attributes.find? key = d.attributes.find? key := by
  unfold WithSize at h
  split at h
  · rw [h]
  · obtain ⟨x, -, rfl⟩ := h
    rw [FontDescriptor.withSize, Mapping.find?_insert, if_neg hkey]

/-- An entry puts its family and its face over those of the descriptor below. -/
theorem Lays.find?_name (h : Lays metrics entry base d) (hplain : entry.Unmarked) (field : NameField) :
    d.attributes.find? field.key = (entry.declaredName? field).or (base.attributes.find? field.key) := by
  have hkey : field.key ≠ "size" := by cases field <;> decide
  obtain ⟨declared, sized, size, hattributes, hsize, -, rfl⟩ := h
  rw [FontDescriptor.withSize, Mapping.find?_insert, if_neg hkey, hsize.find? hkey, find?_addNames_key,
    hattributes.find? hplain hkey, ← Option.or_assoc]
  rfl

/-! ### Sizes through the layers of an entry -/

/-- The size that a source gives, or the one below if there is no source. -/
def SizeFrom (metrics : Mapping String) (source : Option Json) (below stored : Option Json) : Prop :=
  match source with
  | none => stored = below
  | some value => ∃ x, SizeValue metrics value x ∧ stored = some (.float x)

theorem SizeFrom.over {source source' below middle stored : Option Json} (h : SizeFrom metrics source below middle)
    (h' : SizeFrom metrics source' middle stored) : SizeFrom metrics (source'.or source) below stored := by
  cases source' with
  | none => exact (show stored = middle from h') ▸ h
  | some value => exact h'

theorem Declares.size_from (h : Declares metrics items read result) (hplain : ∀ item ∈ items, marked? item.1 = none) :
    SizeFrom metrics (items.reverse.lookup "size") (read.find? "size") (result.find? "size") := by
  induction h with
  | nil => exact rfl
  | marked hmarked _ _ =>
    rw [hplain _ (List.mem_cons_self ..)] at hmarked
    cases hmarked
  | @size value x rest read result hvalue _ ih =>
    have hrest := ih fun item hitem => hplain item (List.mem_cons_of_mem _ hitem)
    rw [List.reverse_cons, Mapping.lookup_append]
    refine SizeFrom.over ⟨x, hvalue, ?_⟩ hrest
    rw [Mapping.find?_insert, if_pos rfl]
  | @plain key value rest read result _ _ hsize _ _ ih =>
    have hrest := ih fun item hitem => hplain item (List.mem_cons_of_mem _ hitem)
    have hother : ("size" == key) = false := beq_eq_false_iff_ne.mpr (Ne.symm hsize)
    rw [Mapping.find?_insert, if_neg (Ne.symm hsize)] at hrest
    rw [List.reverse_cons, Mapping.lookup_append, List.lookup_cons, hother, List.lookup_nil, Option.or_none]
    exact hrest

theorem WithAttributes.size_from (h : WithAttributes metrics entry base declared) (hplain : entry.Unmarked) :
    SizeFrom metrics (entry.attribute? "size") (base.attributes.find? "size") (declared.attributes.find? "size") := by
  unfold WithAttributes at h
  split at h
  · next hnone =>
    rw [FontEntry.attribute?_of_none hnone, h]
    exact rfl
  · next items hitems =>
    obtain ⟨read, hread, rfl⟩ := h
    have hfrom := hread.size_from (hplain items hitems)
    rw [FontEntry.attribute?_of_object hitems, FontDescriptor.adding, Mapping.find?_union]
    cases hsource : items.reverse.lookup "size" with
    | none =>
      rw [hsource] at hfrom
      have hnone : read.find? "size" = none := hfrom
      rw [hnone]
      exact rfl
    | some value =>
      rw [hsource] at hfrom
      obtain ⟨x, hvalue, hx⟩ := hfrom
      exact ⟨x, hvalue, by rw [hx]; rfl⟩
  · exact h.elim

theorem WithSize.size_from (h : WithSize metrics entry d sized) :
    SizeFrom metrics ((entry.size.filter (!·.isEmpty)).map Json.string) (d.attributes.find? "size")
      (sized.attributes.find? "size") := by
  unfold WithSize at h
  split at h
  · next hnone =>
    rw [hnone, h]
    exact rfl
  · next text htext =>
    obtain ⟨x, hx, rfl⟩ := h
    rw [htext]
    refine ⟨x, hx, ?_⟩
    rw [FontDescriptor.withSize, Mapping.find?_insert, if_pos rfl]

/-- An entry puts its size over that of the descriptor below, which may have none only if it is nobody's. -/
theorem Lays.find?_size (h : Lays metrics entry base d) (hplain : entry.Unmarked) (below : Option Float)
    (hbelow : base.attributes.find? "size" = below.map fun x => .float x) :
    ∃ x, d.attributes.find? "size" = some (.float x) ∧
      match entry.declaredSize? with
      | none => x = below.getD defaultPointSize
      | some source => SizeValue metrics source x := by
  obtain ⟨declared, sized, size, hattributes, hsize, hpoints, rfl⟩ := h
  refine ⟨size.getD defaultPointSize, by rw [FontDescriptor.withSize, Mapping.find?_insert, if_pos rfl], ?_⟩
  have hnames : (addNames entry declared).attributes.find? "size" = declared.attributes.find? "size" :=
    find?_addNames (by decide)
  have hattribute := hattributes.size_from hplain
  rw [← hnames] at hattribute
  have hfrom : SizeFrom metrics entry.declaredSize? _ _ := hattribute.over hsize.size_from
  rw [FontDescriptor.size?, FontDescriptor.attribute?] at hpoints
  cases hsource : entry.declaredSize? with
  | none =>
    rw [hsource] at hfrom
    have hsame : sized.attributes.find? "size" = base.attributes.find? "size" := hfrom
    rw [hsame, hbelow] at hpoints
    cases below <;> cases hpoints <;> rfl
  | some source =>
    rw [hsource] at hfrom
    obtain ⟨x, hvalue, hx⟩ := hfrom
    rw [hx] at hpoints
    cases hpoints
    exact hvalue

/-! ### Chains of layers -/

/-- What has layers has a chain of entries. -/
theorem Describes.exists_lineage (h : Describes metrics fonts name d) :
    ∃ chain, fonts.Lineage FontEntry.base? name chain := by
  induction h with
  | root hentry hbase _ => exact ⟨_, .last hentry hbase⟩
  | based hentry hbase _ _ ih =>
    obtain ⟨chain, hchain⟩ := ih
    exact ⟨_, .link hentry hbase hchain⟩

/-- A descriptor has the size and the names that are nearest on the chain. -/
structure Nearest (metrics : Mapping String) (chain : List FontEntry) (d : FontDescriptor) (x : Float) : Prop where
  stored : d.attributes.find? "size" = some (.float x)
  size : match chain.findSome? FontEntry.declaredSize? with
    | none => x = defaultPointSize
    | some source => SizeValue metrics source x
  names : ∀ field : NameField, d.attributes.find? field.key = chain.findSome? (FontEntry.declaredName? field)

/-- The induction is on the layers: what holds of the chain below is what the descriptor below has. -/
theorem Describes.nearest (h : Describes metrics fonts name d) {chain : List FontEntry}
    (hchain : fonts.Lineage FontEntry.base? name chain) (hplain : ∀ entry ∈ chain, entry.Unmarked) :
    ∃ x, Nearest metrics chain d x := by
  induction h generalizing chain with
  | @root name entry d hentry hbase hlays =>
    obtain rfl := hchain.unique (.last hentry hbase)
    have hentryPlain := hplain entry (List.mem_singleton_self entry)
    obtain ⟨x, hstored, hsize⟩ := hlays.find?_size hentryPlain none rfl
    refine ⟨x, hstored, ?_, fun field => ?_⟩
    · rw [List.findSome?_singleton]
      exact hsize
    · rw [hlays.find?_name hentryPlain, List.findSome?_singleton]
      exact Option.or_none ..
  | @based name base entry below d hentry hbase _ hlays ih =>
    obtain ⟨rest, hrest⟩ : ∃ rest, fonts.Lineage FontEntry.base? base rest := by
      cases hchain with
      | last hentry' hbase' =>
        cases hentry.symm.trans hentry'
        cases hbase.symm.trans hbase'
      | link hentry' hbase' hrest =>
        cases hentry.symm.trans hentry'
        cases hbase.symm.trans hbase'
        exact ⟨_, hrest⟩
    obtain rfl := hchain.unique (.link hentry hbase hrest)
    obtain ⟨hentryPlain, hrestPlain⟩ := List.forall_mem_cons.mp hplain
    obtain ⟨y, hbelow⟩ := ih hrest hrestPlain
    obtain ⟨x, hstored, hsize⟩ := hlays.find?_size hentryPlain (some y) hbelow.stored
    refine ⟨x, hstored, ?_, fun field => ?_⟩
    · rw [List.findSome?_cons]
      cases hsource : entry.declaredSize? with
      | none =>
        rw [hsource] at hsize
        obtain rfl : x = y := hsize
        exact hbelow.size
      | some source =>
        rw [hsource] at hsize
        exact hsize
    · rw [hlays.find?_name hentryPlain, hbelow.names, List.findSome?_cons]
      cases entry.declaredName? field <;> rfl

end FontLayers

/-! ### Valid fonts -/

theorem Json.eq_string_of_equal {value : Json} {text : String} (h : equal (.string text) value = true) :
    value = .string text := by
  cases value with
  | string other =>
    rw [equal, beq_iff_eq] at h
    rw [h]
  | _ => simp [equal] at h

namespace FontLayers

/-- What was granted to a descriptor is what the descriptor of the font asks for. -/
theorem Grants.expectedName {c : Catalog} {requested : FontDescriptor} {font : Font} {expected : Json}
    {realized : RealizedFont} {size : Option Float} (h : Grants c requested font expected realized size) :
    c.expectedName font.descriptor = .ok (some (.string font.name)) := by
  obtain rfl := Json.eq_string_of_equal h.same
  have hfont := h.font_eq
  subst hfont
  rw [Catalog.expectedName_withSize, h.expects]

theorem Grants.find?_size {c : Catalog} {requested : FontDescriptor} {font : Font} {expected : Json}
    {realized : RealizedFont} {size : Option Float} (h : Grants c requested font expected realized size) :
    font.descriptor.attributes.find? "size" = some (.float font.pointSize) := by
  have hfont := h.font_eq
  subst hfont
  rw [FontDescriptor.withSize, Mapping.find?_insert, if_pos rfl]

end FontLayers

/-- A valid font was granted by a catalog that has been in use. -/
theorem Progress.Stands.grants {p : Progress} {d : Document} {within : Surroundings → Prop} {name : String}
    {font : Font} (h : p.Stands d within .font name) (hmemo : (p.cell .font name).memo = .valid font) :
    ∃ s, within s ∧ ∃ requested expected realized size,
      FontLayers.Grants s.catalog requested font expected realized size := by
  cases h with
  | @intro _ _ entry value s hs _ hvalue hresult _ _ =>
    obtain rfl : value = font := Memo.valid.inj (hvalue.symm.trans hmemo)
    obtain ⟨p', hcompute⟩ := Reading.result_eq_ok_iff.mp hresult
    obtain ⟨requested, p₁, hrealize⟩ := FontLayers.realize_of_compute hcompute
    exact ⟨s, hs, requested, FontLayers.grants_of_realize hrealize⟩

/-- In every state of a document a valid font has a chain of entries. If they have no attributes behind a mark, the
point size of the font and the size in its descriptor are what the nearest declaration comes to, or 17 if there is
none; family and face in its descriptor are those of the nearest declarations, if there are any; and the descriptor
asks for the name that the font has in a catalog that has been in use. -/
theorem Document.nearest_font_declaration (d : Document) (within : Surroundings → Prop) (p : Progress)
    (h : d.Reachable within p) (name : String) (font : Font) (hmemo : (p.cell .font name).memo = .valid font) :
    (∃ chain, d.sections.fonts.Lineage FontEntry.base? name chain) ∧
    ∀ chain, d.sections.fonts.Lineage FontEntry.base? name chain → (∀ entry ∈ chain, entry.Unmarked) →
      font.descriptor.attributes.find? "size" = some (.float font.pointSize) ∧
      (match chain.findSome? FontEntry.declaredSize? with
        | none => font.pointSize = 17.0
        | some source => FontLayers.SizeValue d.sections.metrics source font.pointSize) ∧
      font.descriptor.attributes.find? "family" = chain.findSome? (FontEntry.declaredName? .family) ∧
      font.descriptor.attributes.find? "face" = chain.findSome? (FontEntry.declaredName? .face) ∧
      ∃ s, within s ∧ s.catalog.expectedName font.descriptor = .ok (some (.string font.name)) := by
  have hf : p.Founded d within := founded_of_reachable h
  have hstands := hf.stands .font name (by rw [hmemo]; rfl)
  obtain ⟨hdescribes, -⟩ : d.ComesTo .font name font := hf.comesTo hmemo
  obtain ⟨s, hs, requested, expected, realized, size, hgrants⟩ := hstands.grants hmemo
  refine ⟨hdescribes.exists_lineage, fun chain hchain hplain => ?_⟩
  obtain ⟨x, hnearest⟩ := hdescribes.nearest hchain hplain
  obtain rfl : font.pointSize = x := by
    have hsame := hgrants.find?_size.symm.trans hnearest.stored
    simpa using hsame
  exact ⟨hnearest.stored, hnearest.size, hnearest.names .family, hnearest.names .face, s, hs, hgrants.expectedName⟩

namespace Reading

/-- A font with its family in a field and its size among the attributes. -/
def plainFont : FontEntry := ⟨none, some "Menlo", none, none, some (.object [("size", .string "12")])⟩

/-- The plain font, one with a size of its own above it, and another one above that. -/
def layeredFonts : Reading where
  document := {
    version := none
    sections := {
      fonts := ⟨[("plain", plainFont), ("heading", ⟨some "plain", none, none, some "20", none⟩),
        ("caption", .copyOf "heading")], (by decide : ["plain", "heading", "caption"].Nodup)⟩ }
    hasEmptyGroups := false }
  surroundings := { storage := none, catalog := .ofFace "Menlo" "Regular" "Menlo-Regular", files := .empty }

theorem unmarked_plainFont : plainFont.Unmarked := by
  rintro _ ⟨⟩ item hitem
  obtain rfl := List.mem_singleton.mp hitem
  rfl

theorem layeredFonts_plain : layeredFonts.document.sections.fonts.find? "plain" = some plainFont := rfl

theorem layeredFonts_heading :
    layeredFonts.document.sections.fonts.find? "heading" = some ⟨some "plain", none, none, some "20", none⟩ := rfl

theorem layeredFonts_caption : layeredFonts.document.sections.fonts.find? "caption" = some (.copyOf "heading") := rfl

end Reading

open Reading in
/-- The font on top has the size of the one in the middle and the family of the one below. -/
theorem Document.nearest_font_declaration_layered :
    ∃ p font, layeredFonts.document.Reachable (· = layeredFonts.surroundings) p ∧
      (p.cell .font "caption").memo = .valid font ∧
      FontLayers.SizeValue layeredFonts.document.sections.metrics (.string "20") font.pointSize ∧
      font.descriptor.attributes.find? "family" = some (.string "Menlo") ∧
      font.descriptor.attributes.find? "face" = none ∧
      layeredFonts.surroundings.catalog.expectedName font.descriptor = .ok (some (.string font.name)) := by
  have hcall : ∃ p font, (Call.resolve .font "caption").run layeredFonts {} = .ok () p ∧
      (p.cell .font "caption").memo = .valid font := by
    have hbase : (some "plain").filter (!·.isEmpty) = some "plain" := by decide
    simp only [Call.run, resolve, resolve?, font, resolveFont_found layeredFonts_plain,
      resolveFont_found layeredFonts_heading, resolveFont_found layeredFonts_caption, FontLayers.compute,
      FontLayers.baseDescriptor, DesignTokens.fetch, hbase, copyOf_headingFont, List.mem_cons, List.not_mem_nil,
      String.reduceEq, or_self, ↓reduceIte]
    exact ⟨_, _, rfl, rfl⟩
  obtain ⟨p, font, hrun, hmemo⟩ := hcall
  have hreach : layeredFonts.document.Reachable (· = layeredFonts.surroundings) p :=
    .atRest (.returned rfl .start hrun)
  have hchain : layeredFonts.document.sections.fonts.Lineage FontEntry.base? "caption"
      [.copyOf "heading", ⟨some "plain", none, none, some "20", none⟩, plainFont] :=
    .link layeredFonts_caption rfl (.link layeredFonts_heading rfl (.last layeredFonts_plain rfl))
  obtain ⟨-, hnearest⟩ := nearest_font_declaration _ _ p hreach "caption" font hmemo
  obtain ⟨-, hsize, hfamily, hface, s, rfl, hexpected⟩ := hnearest _ hchain (by
    intro entry hentry
    simp only [List.mem_cons, List.not_mem_nil, or_false] at hentry
    rcases hentry with rfl | rfl | rfl
    · rintro _ ⟨⟩
    · rintro _ ⟨⟩
    · exact unmarked_plainFont)
  exact ⟨p, font, hreach, hmemo, hsize, hfamily, hface, hexpected⟩

end DesignTokens
