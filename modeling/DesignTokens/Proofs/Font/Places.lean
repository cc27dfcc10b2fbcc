import DesignTokens.Proofs.Font.Versions

/-!
# Names in fields and among attributes

The family and the face of a font can stand in a field of their own or among the attributes. A field is an override: it
comes last and drops an explicit name, whether inherited or declared along with it. An attribute is merged with the
others and leaves the explicit name in force. So the two places mean the same for entries in which no explicit name is
in force, or whose other field drops it anyway (`FontEntry.OverridesNoName`).

* `FontLayers.attributes_insert` — one more attribute among those of an entry.
* `FontLayers.layAlike_of_moves` — moving a name lays the same.
* `Reading.moved_name_keeps_fonts` — fonts of two versions with a name in either place.
* `Reading.not_always_same_place` — an entry with an explicit name, for which the place matters.
-/

namespace DesignTokens

open Resolve

namespace NameField

/-- The other one of the two. -/
def other : NameField → NameField
  | .family => .face
  | .face => .family

/-- An entry without the name in its field. -/
def clear : NameField → FontEntry → FontEntry
  | .family, entry => { entry with family := none }
  | .face, entry => { entry with face := none }

end NameField

namespace FontEntry

/-- The attributes of an entry: none, or those of an object. -/
def items? (entry : FontEntry) : Option (List (String × Json)) :=
  match entry.attributes with
  | none => some []
  | some (.object items) => some items
  | some _ => none

/-- A name is moved from its field to a place among the attributes, where it was not yet and nothing has a mark. -/
inductive Moves (field : NameField) (entry : FontEntry) : FontEntry → Prop where
  | intro {text : String} {before after : List (String × Json)} (hvalue : field.value entry = some text)
      (htext : text.isEmpty = false) (hitems : entry.items? = some (before ++ after))
      (hfree : ∀ item ∈ before ++ after, item.1 ≠ field.key ∧ FontLayers.marked? item.1 = none) :
      Moves field entry
        { field.clear entry with attributes := some (.object (before ++ (field.key, .string text) :: after)) }

/-- Dropping an explicit name makes no difference: the other field drops it too, or no explicit name is in force in
the descriptor with the attributes of the entry. -/
def OverridesNoName (metrics : Mapping String) (fonts : Mapping FontEntry) (field : NameField) (entry : FontEntry) :
    Prop :=
  ((field.other.value entry).filter (!·.isEmpty)).isSome = true ∨
    ∀ base declared, FontLayers.StartsFrom metrics fonts entry base →
      FontLayers.WithAttributes metrics entry base declared → declared.nameInForce? = none

end FontEntry

namespace FontLayers

open FontDescriptor

variable {o o' : Oracle} {owner text : String} {field : NameField} {read read' : Mapping Json}
  {entry moved : FontEntry} {base base' d d' : FontDescriptor} {before after : List (String × Json)}

/-! ### One more attribute -/

/-- The second attributes have a name more than the first. -/
structure Gains (field : NameField) (text : String) (read read' : Mapping Json) : Prop where
  same : ∀ key, key ≠ field.key → read.find? key = read'.find? key
  gained : read'.find? field.key = some (.string text)

theorem Gains.insert (h : Gains field text read read') {key : String} (hkey : key ≠ field.key) (value : Json) :
    Gains field text (read.insert key value) (read'.insert key value) where
  same other hother := by rw [Mapping.find?_insert, Mapping.find?_insert, h.same other hother]
  gained := by rw [Mapping.find?_insert, if_neg hkey.symm, h.gained]

theorem Gains.start (read : Mapping Json) : Gains field text read (read.insert field.key (.string text)) where
  same key hkey := by rw [Mapping.find?_insert, if_neg hkey]
  gained := by rw [Mapping.find?_insert, if_pos rfl]

theorem attributes_name (metric : Metric.Lookup) (rest : List (String × Json)) :
    attributes metric owner ((field.key, .string text) :: rest) read =
      attributes metric owner rest (read.insert field.key (.string text)) := by
  rw [attributes.eq_def]
  cases field <;> rfl

/-- Attributes with a name put in between. The first ones are read into the same, the others below the name. -/
theorem attributes_insert (hmetric : o' .metric = o .metric)
    (hfree : ∀ item ∈ before ++ after, item.1 ≠ field.key ∧ marked? item.1 = none) :
    Matches (Option.Rel (Gains field text)) (attributes (Resolvers.probe o).metric owner (before ++ after) read)
      (attributes (Resolvers.probe o').metric owner (before ++ (field.key, .string text) :: after) read) := by
  induction before generalizing read with
  | nil =>
    rw [List.nil_append, List.nil_append, attributes_name]
    refine attributes_matches hmetric (fun item hitem value m m' hgains => ?_) (.start read)
    obtain ⟨hkey, hmarked⟩ := hfree item hitem
    rw [attributeName, hmarked]
    exact hgains.insert hkey value
  | cons item rest ih =>
    obtain ⟨-, hrest⟩ := List.forall_mem_cons.mp hfree
    exact attributes_cons hmetric fun value => ih hrest

theorem addAttributes_of_items (metric : Metric.Lookup) {items : List (String × Json)}
    (h : entry.items? = some items) :
    addAttributes metric owner entry d = do return (← attributes metric owner items ∅).map d.adding := by
  unfold FontEntry.items? at h
  unfold addAttributes
  cases hattributes : entry.attributes with
  | none =>
    rw [hattributes] at h
    cases h
    rfl
  | some value =>
    rw [hattributes] at h
    cases value <;> cases h
    rfl

/-! ### One more name -/

/-- The second descriptor asks for the same as the first, but for a name of its own. -/
structure GainsName (field : NameField) (text : String) (d d' : FontDescriptor) : Prop where
  name : d.nameInForce? = d'.nameInForce?
  other : d.attribute? field.other.key = d'.attribute? field.other.key
  size : d.attribute? "size" = d'.attribute? "size"
  gained : d'.attribute? field.key = some (.string text)

theorem GainsName.adding (h : base.RequestsAs base') (hgains : Gains field text read read') :
    GainsName field text (base.adding read) (base'.adding read') where
  name := by
    have hkey : "name" ≠ field.key := by cases field <;> decide
    rw [nameInForce?_adding, nameInForce?_adding, hgains.same "name" hkey, h.name]
  other := by
    have hkey : field.other.key ≠ field.key := by cases field <;> decide
    refine attribute?_adding_congr ?_ (hgains.same _ hkey)
    cases field with
    | family => exact h.face
    | face => exact h.family
  size := by
    have hkey : "size" ≠ field.key := by cases field <;> decide
    exact attribute?_adding_congr h.size (hgains.same "size" hkey)
  gained := by
    rw [attribute?_adding, hgains.gained]
    rfl

/-- An entry whose field sets the name, and one without the field over a descriptor that has the name. -/
theorem GainsName.addNames (h : GainsName field text d d') (hvalue : field.value entry = some text)
    (htext : text.isEmpty = false) (hcleared : field.value moved = none)
    (hother : field.other.value entry = field.other.value moved)
    (hname : ((field.other.value entry).filter (!·.isEmpty)).isSome = true ∨ d.nameInForce? = none) :
    (addNames entry d).RequestsAs (FontLayers.addNames moved d') := by
  have hgiven : (field.value entry).filter (!·.isEmpty) = some text := by simp [hvalue, htext]
  have hmoved : (field.value moved).filter (!·.isEmpty) = none := by rw [hcleared]; rfl
  have hfield : (FontLayers.addNames entry d).attribute? field.key =
      (FontLayers.addNames moved d').attribute? field.key := by
    rw [attribute?_addNames, attribute?_addNames, hgiven, hmoved, h.gained]
    rfl
  have hothers : (FontLayers.addNames entry d).attribute? field.other.key =
      (FontLayers.addNames moved d').attribute? field.other.key :=
    attribute?_addNames_congr _ h.other hother
  refine ⟨?_, ?_, ?_, ?_⟩
  · have hdrops : hasNames entry = true := by
      cases field <;> simp_all [hasNames, NameField.value]
    have hkeeps : hasNames moved = ((field.other.value entry).filter (!·.isEmpty)).isSome := by
      rw [hother]
      cases field <;> simp_all [hasNames, NameField.value, NameField.other]
    -- the field drops an explicit name; without it only the other field does
    rw [nameInForce?, nameInForce?, name?_addNames, name?_addNames, hdrops, hkeeps, if_pos rfl]
    split
    · rfl
    · next hnone => exact (hname.resolve_left hnone).symm.trans h.name
  · cases field with
    | family => exact hfield
    | face => exact hothers
  · cases field with
    | family => exact hothers
    | face => exact hfield
  · rw [attribute?_size_addNames, attribute?_size_addNames, h.size]

/-! ### Moving a name -/

theorem addAttributes_moved (hmetric : o' .metric = o .metric) (h : base.RequestsAs base')
    (hitems : entry.items? = some (before ++ after))
    (hmoved : moved.items? = some (before ++ (field.key, .string text) :: after))
    (hfree : ∀ item ∈ before ++ after, item.1 ≠ field.key ∧ marked? item.1 = none) :
    Matches (Option.Rel (GainsName field text)) (addAttributes (Resolvers.probe o).metric owner entry base)
      (addAttributes (Resolvers.probe o').metric owner moved base') := by
  rw [addAttributes_of_items _ hitems, addAttributes_of_items _ hmoved]
  refine (attributes_insert hmetric hfree).bind fun read read' hread => ?_
  cases hread with
  | none => exact Matches.pure .none
  | some hread => exact Matches.pure (.some (.adding h hread))

/-- An entry and the same entry with a name moved lay alike if no explicit name is overridden. -/
theorem layAlike_of_moves {metrics : Mapping String} {fonts : Mapping FontEntry} (hmoves : entry.Moves field moved)
    (hname : entry.OverridesNoName metrics fonts field) : LayAlike metrics fonts owner entry moved := by
  intro o o' base base' hmetric hmetrics hbases hstarts
  obtain ⟨hvalue, htext, hitems, hfree⟩ := hmoves
  have hsound (p : Progress) (found : Option FontDescriptor) (p' : Progress)
      (hrun : addAttributes (Resolvers.probe o).metric owner entry base p = .ok found p') :
      ∀ declared, found = some declared → WithAttributes metrics entry base declared := by
    rintro declared rfl
    exact addAttributes_sound hmetrics hrun
  refine ((addAttributes_moved hmetric hbases hitems rfl hfree).sound hsound).bind ?_
  rintro _ _ ⟨hdeclared, hwith⟩
  cases hdeclared with
  | none => exact Matches.pure .none
  | @some declared declared' hgains =>
    have hforce : ((field.other.value entry).filter (!·.isEmpty)).isSome = true ∨ declared.nameInForce? = none :=
      hname.imp_right fun hnone => hnone base declared hstarts (hwith declared rfl)
    refine addSize_matches hmetric ?_ (hgains.addNames hvalue htext ?_ ?_ hforce)
    · cases field <;> rfl
    · cases field <;> rfl
    · cases field <;> rfl

end FontLayers

theorem FontEntry.Moves.basedOn_eq {field : NameField} {entry moved : FontEntry} (h : entry.Moves field moved) :
    entry.basedOn = moved.basedOn := by
  cases h
  cases field <;> rfl

namespace Reading

/-- In two versions of a document of which one has the family or the face of a font in its field and the other among
the attributes, every font of the document is the same: valid in both or in neither, with the same name, family, face
and point size; provided that no explicit name is overridden. This holds whatever was called for before, and no call
ends in a fault unless both do, each by a hazard of its document. -/
theorem moved_name_keeps_fonts (d : Document) (s : Surroundings) (name : String) (field : NameField)
    (entry moved : FontEntry) (hmoves : entry.Moves field moved)
    (hname : entry.OverridesNoName d.sections.metrics (d.withFont name entry).sections.fonts field)
    (calls calls' : List Call) (p p' : Progress)
    (hcalls : Call.runAll ⟨d.withFont name entry, s⟩ calls {} = .ok () p)
    (hcalls' : Call.runAll ⟨d.withFont name moved, s⟩ calls' {} = .ok () p') (other : String)
    (hother : ((d.withFont name entry).sections.fonts.find? other).isSome = true) :
    SameFont ⟨d.withFont name entry, s⟩ ⟨d.withFont name moved, s⟩ p p' other :=
  sameFont_of_layAlike hmoves.basedOn_eq (FontLayers.layAlike_of_moves hmoves hname) hcalls hcalls' hother

/-- The plain font with its family among the attributes. -/
def attributeFont : FontEntry :=
  ⟨none, none, none, none, some (.object [("size", .string "12"), ("family", .string "Menlo")])⟩

theorem moves_plainFont : plainFont.Moves .family attributeFont :=
  @FontEntry.Moves.intro .family plainFont "Menlo" [("size", .string "12")] [] rfl rfl rfl (by
    simp [NameField.key, FontLayers.marked?])

/-- The font above two others does not depend on the place of the family of the one below. -/
theorem moved_name_keeps_fonts_layered :
    plainFont.Moves .family attributeFont ∧
      plainFont.OverridesNoName layeredFonts.document.sections.metrics
        (layeredFonts.document.withFont "plain" plainFont).sections.fonts .family ∧
      SameFont ⟨layeredFonts.document.withFont "plain" plainFont, layeredFonts.surroundings⟩
        ⟨layeredFonts.document.withFont "plain" attributeFont, layeredFonts.surroundings⟩ {} {} "caption" := by
  have hname : plainFont.OverridesNoName layeredFonts.document.sections.metrics
      (layeredFonts.document.withFont "plain" plainFont).sections.fonts .family := by
    refine .inr fun base declared hstarts hdeclared => ?_
    obtain rfl : base = .empty := hstarts
    have hnone : declared.attributes.find? "name" = none :=
      hdeclared.find? unmarked_plainFont (by decide : "name" ≠ "size")
    rw [FontDescriptor.nameInForce?, FontDescriptor.name?, FontDescriptor.attribute?, hnone]
    rfl
  exact ⟨moves_plainFont, hname, moved_name_keeps_fonts layeredFonts.document layeredFonts.surroundings "plain" .family
    plainFont attributeFont moves_plainFont hname [] [] {} {} rfl rfl "caption" rfl⟩

/-- A font with an explicit name, and a family in the field that overrides it. -/
def overridingFont : FontEntry := ⟨none, some "Menlo", none, none, some (.object [("name", .string "Menlo-Bold")])⟩

/-- A font with an explicit name, and a family beside it that does not count. -/
def explicitFont : FontEntry :=
  ⟨none, none, none, none, some (.object [("name", .string "Menlo-Bold"), ("family", .string "Menlo")])⟩

theorem moves_overridingFont : overridingFont.Moves .family explicitFont :=
  @FontEntry.Moves.intro .family overridingFont "Menlo" [("name", .string "Menlo-Bold")] [] rfl rfl rfl (by
    simp [NameField.key, FontLayers.marked?])

theorem resolve_overridingFont : ∃ font p,
    Reading.resolve ⟨layeredFonts.document.withFont "plain" overridingFont, layeredFonts.surroundings⟩ .font "plain"
      {} = .ok font p ∧ (p.cell .font "plain").memo.isValid = true :=
  ⟨_, _, resolve_font_of_find? rfl rfl, rfl⟩

theorem resolve_explicitFont : ∃ font p,
    Reading.resolve ⟨layeredFonts.document.withFont "plain" explicitFont, layeredFonts.surroundings⟩ .font "plain"
      {} = .ok font p ∧ (p.cell .font "plain").memo.isValid = false :=
  ⟨_, _, resolve_font_of_find? rfl rfl, rfl⟩

/-- There is a font with a family and an explicit name that is valid with the family in the field, and not with the
family among the attributes. -/
theorem not_always_same_place :
    ¬ ∀ (d : Document) (s : Surroundings) (name : String) (field : NameField) (entry moved : FontEntry),
      entry.Moves field moved →
      SameFont ⟨d.withFont name entry, s⟩ ⟨d.withFont name moved, s⟩ {} {} name := by
  intro h
  exact not_sameFont resolve_overridingFont resolve_explicitFont
    (h layeredFonts.document layeredFonts.surroundings "plain" .family _ _ moves_overridingFont)

end Reading

end DesignTokens
