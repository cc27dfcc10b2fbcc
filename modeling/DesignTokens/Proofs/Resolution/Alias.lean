import DesignTokens.Proofs.Resolution.Asking

/-!
# Aliases

An alias is an entry that names another one of its asset and declares nothing else. What an alias resolves to is
worked out anew from the value of the other entry: a metric is read and judged again, a font asks the catalog again
for the descriptor that it inherits, text attributes work out their spacing again. A value that was found once
comes to itself when that is done (`Reading.Retakes`), for fonts as long as the catalog treats the descriptor as
the one did that granted the font.

So an alias cannot differ from its target for long. It may be settled while the target is still under way, and is
invalid then; but then the target leads into a circle of references and will not be valid either. Otherwise it
follows the target, and along a chain of aliases so do they all.

* `Reading.retakes_of_result` — what was found once is found again.
* `Document.alias_resolves_as_target` — an alias holds what its target holds.
* `Document.not_alias_resolves_as_target` — not if the font catalog is replaced in between.
-/

namespace DesignTokens

open Resolve Progress

/-! ### Setting what is there -/

theorem Mapping.replaced_of_lookup {α : Type} {name : String} {value : α} {pairs : List (String × α)}
    (hnodup : (pairs.map Prod.fst).Nodup) (h : ∀ other, pairs.lookup name = some other → other = value) :
    replaced name value pairs = pairs := by
  induction pairs with
  | nil => rfl
  | cons pair rest ih =>
    obtain ⟨key, v⟩ := pair
    obtain ⟨hkey, hrest⟩ := List.nodup_cons.mp hnodup
    simp only [replaced, List.map_cons]
    by_cases hk : key = name
    · subst hk
      obtain rfl : v = value := h v (by simp)
      have hsame := ih hrest fun other hother => by
        have hmem : key ∈ rest.map Prod.fst := lookup_isSome_iff.mp (by simp [hother])
        exact absurd hmem hkey
      simp only [replaced] at hsame
      simp [hsame]
    · have hne : (name == key) = false := by simpa using Ne.symm hk
      have hsame := ih hrest fun other hother => h other (by simp [List.lookup_cons, hne, hother])
      simp only [replaced] at hsame
      simp [hk, hsame]

/-- Setting a name to the value that it has changes nothing. -/
theorem Mapping.insert_of_find? {α : Type} {m : Mapping α} {name : String} {value : α}
    (h : m.find? name = some value) : m.insert name value = m := by
  have hmem : name ∈ m.toList.map Prod.fst := lookup_isSome_iff.mp (by rw [show m.toList.lookup name = some value from h]; rfl)
  obtain ⟨pairs, hnodup⟩ := m
  simp only [insert, hmem, dite_true, mk.injEq]
  refine replaced_of_lookup hnodup fun other hother => ?_
  exact Option.some.inj (hother.symm.trans h)

/-! ### Descriptors and catalogs -/

namespace FontDescriptor

variable (d : FontDescriptor) (x : Float)

theorem attribute?_withSize {name : String} (h : name ≠ "size") :
    (d.withSize x).attribute? name = d.attribute? name := by
  simp [attribute?, withSize, Mapping.find?_insert, h]

theorem size?_withSize : (d.withSize x).size? = .ok (some x) := by
  simp [size?, attribute?, withSize, Mapping.find?_insert]

theorem withSize_withSize : (d.withSize x).withSize x = d.withSize x := by
  simp only [withSize]
  rw [Mapping.insert_of_find?]
  rw [Mapping.find?_insert, if_pos rfl]

end FontDescriptor

namespace Catalog

/-- Two catalogs ask the same name for a descriptor, and grant it the same font. -/
def AgreesOn (c c' : Catalog) (d : FontDescriptor) : Prop :=
  c.expectedName d = c'.expectedName d ∧ c.realize d = c'.realize d

/-- Catalogs pay no attention to the size. -/
theorem expectedName_withSize (c : Catalog) (d : FontDescriptor) (x : Float) :
    c.expectedName (d.withSize x) = c.expectedName d := by
  simp only [expectedName, requestedFace, FontDescriptor.name?, FontDescriptor.family?, FontDescriptor.face?,
    d.attribute?_withSize x (by decide : "name" ≠ "size"), d.attribute?_withSize x (by decide : "family" ≠ "size"),
    d.attribute?_withSize x (by decide : "face" ≠ "size")]

theorem realize_withSize (c : Catalog) (d : FontDescriptor) (x : Float) :
    c.realize (d.withSize x) = c.realize d := by
  simp only [realize, requestedFace, FontDescriptor.name?, FontDescriptor.family?, FontDescriptor.face?,
    d.attribute?_withSize x (by decide : "name" ≠ "size"), d.attribute?_withSize x (by decide : "family" ≠ "size"),
    d.attribute?_withSize x (by decide : "face" ≠ "size")]

end Catalog

namespace FontLayers

variable {c c' : Catalog} {d : FontDescriptor} {font : Font} {p p' : Progress}

/-- A font that is granted is the one asked for, at the size of the descriptor or at the default one. -/
structure Grants (c : Catalog) (d : FontDescriptor) (font : Font) (expected : Json) (realized : RealizedFont)
    (size : Option Float) : Prop where
  expects : c.expectedName d = .ok (some expected)
  realizes : c.realize d = .ok realized
  same : Json.equal (.string realized.name) expected = true
  sized : d.size? = .ok size
  font_eq : font = ⟨realized.name, realized.family, realized.face, size.getD defaultPointSize,
    d.withSize (size.getD defaultPointSize)⟩

theorem grants_of_realize (h : realize c d p = .ok (some font) p') :
    ∃ expected realized size, Grants c d font expected realized size := by
  obtain ⟨expected, p₁, hexpected, hrest⟩ := bind_eq_ok_iff.mp h
  cases expected with
  | none => cases hrest
  | some expected =>
    obtain ⟨realized, p₂, hrealized, hjudged⟩ := bind_eq_ok_iff.mp hrest
    dsimp only at hjudged
    split at hjudged
    · cases hjudged
    · next hsame =>
      obtain ⟨size, p₃, hsize, hfont⟩ := bind_eq_ok_iff.mp hjudged
      cases hfont
      exact ⟨expected, realized, size, (lift_eq_ok_iff.mp hexpected).1, (lift_eq_ok_iff.mp hrealized).1,
        by simpa using hsame, (lift_eq_ok_iff.mp hsize).1, rfl⟩

theorem Grants.realize {expected : Json} {realized : RealizedFont} {size : Option Float}
    (h : Grants c d font expected realized size) (p : Progress) : realize c d p = .ok (some font) p := by
  refine bind_eq_ok_iff.mpr ⟨_, p, lift_eq_ok_iff.mpr ⟨h.expects, rfl⟩, ?_⟩
  refine bind_eq_ok_iff.mpr ⟨_, p, lift_eq_ok_iff.mpr ⟨h.realizes, rfl⟩, ?_⟩
  simp only [h.same, Bool.not_true, Bool.false_eq_true, if_false]
  refine bind_eq_ok_iff.mpr ⟨_, p, lift_eq_ok_iff.mpr ⟨h.sized, rfl⟩, ?_⟩
  rw [h.font_eq]
  rfl

/-- The descriptor of a granted font gets the same font again, from every catalog that agrees. -/
theorem realize_again (h : FontLayers.realize c d p = .ok (some font) p') (hagrees : c'.AgreesOn c font.descriptor)
    (p : Progress) : FontLayers.realize c' font.descriptor p = .ok (some font) p := by
  obtain ⟨expected, realized, size, hgrants⟩ := grants_of_realize h
  have hfont := hgrants.font_eq
  subst hfont
  have hexpects : c'.expectedName (d.withSize (size.getD defaultPointSize)) = .ok (some expected) := by
    rw [hagrees.1, Catalog.expectedName_withSize, hgrants.expects]
  have hrealizes : c'.realize (d.withSize (size.getD defaultPointSize)) = .ok realized := by
    rw [hagrees.2, Catalog.realize_withSize, hgrants.realizes]
  have hagain : Grants c' (d.withSize (size.getD defaultPointSize)) _ expected realized _ :=
    ⟨hexpects, hrealizes, hgrants.same, d.size?_withSize _, rfl⟩
  rw [hagain.realize p, Option.getD_some, d.withSize_withSize]

end FontLayers

namespace TextLayers

theorem Draft.font?_set_kern (draft : Draft) (value : TextValue) : (draft.set "kern" value).font? = draft.font? := by
  simp [Draft.font?, TextAttributes.font?, Draft.set, Mapping.find?_insert]

theorem Draft.set_set (draft : Draft) (key : String) (value : TextValue) :
    (draft.set key value).set key value = draft.set key value := by
  simp only [Draft.set]
  rw [Mapping.insert_of_find?]
  rw [Mapping.find?_insert, if_pos rfl]

/-- Working out the spacing a second time leaves a good draft as it is. -/
theorem addKern_again {draft draft' : Draft} {p p' : Progress} (h : addKern draft p = .ok draft' p')
    (herrors : draft'.errors = 0) (p : Progress) : addKern draft' p = .ok draft' p := by
  cases htracking : draft.tracking with
  | none =>
    simp only [addKern, htracking] at h
    cases h
    simp only [addKern, htracking]
    rfl
  | some tracking =>
    cases hfont : draft.font? with
    | none =>
      simp only [addKern, htracking, hfont] at h
      cases h
      simp only [addKern, htracking, hfont]
      rfl
    | some font =>
      simp only [addKern, htracking, hfont] at h
      split at h
      · next hrange =>
        cases h
        have hstill (value : TextValue) : (draft.set "kern" value).tracking = some tracking := htracking
        simp only [addKern, hstill, Draft.font?_set_kern, hfont, if_pos hrange, Draft.set_set]
        rfl
      · cases h
        cases herrors

end TextLayers

/-! ### Entries that name another one -/

/-- An image that is another one and declares nothing. -/
def ImageEntry.copyOf (name : String) : ImageEntry := ⟨.basedOn name, none, none, none, none⟩

/-- An entry that names another one of its asset and says nothing else. -/
def Asset.Copies : (a : Asset) → a.kind.Entry → String → Prop
  | .metric, (text : String), other => text = "named/" ++ other
  | .color, (raw : String), other => raw = "named/" ++ other ∧ '/' ∉ other.toList
  | .font, entry, other => entry = .copyOf other
  | .textAttributes, entry, other => entry = .copyOf other
  | .image, entry, other => entry = .copyOf other
  | .buttonStyle, _, _ => False

/-- An entry is an alias of a name that has a letter and no space. -/
structure Document.Aliases (d : Document) (a : Asset) (name other : String) : Prop where
  copies : ∃ entry, d.entry? a.kind name = some entry ∧ a.Copies entry other
  nonempty : other ≠ ""
  spaceless : ' ' ∉ other.toList

theorem Metric.words_named {other : String} (h : ' ' ∉ other.toList) :
    words (Text.withoutSpaces ("named/" ++ other)) = "named" :: words other := by
  have hspaces : Text.withoutSpaces ("named/" ++ other) = "named" ++ "/" ++ other := by
    rw [Text.withoutSpaces, ← String.toList_inj, String.toList_ofList]
    simp only [String.toList_append, List.filter_append]
    have hkept : other.toList.filter (fun c => decide (c ≠ ' ')) = other.toList := by
      refine List.filter_eq_self.mpr fun c hc => decide_eq_true ?_
      rintro rfl
      exact h hc
    rw [hkept]
    rfl
  rw [hspaces, words_append (by decide)]

theorem basedOn_copyOf {other : String} (h : other ≠ "") : (some other).filter (!·.isEmpty) = some other := by
  simp [Option.filter, h]

namespace Document

variable {d : Document} {a : Asset} {name other : String} {entry : a.kind.Entry}

/-- An alias refers to its target alone. -/
theorem references_of_copies (hcopies : a.Copies entry other) (hnonempty : other ≠ "") (hspaceless : ' ' ∉ other.toList)
    (hother : (d.entry? a.kind other).isSome = true) : d.references a entry = [other] := by
  cases a with
  | metric =>
    obtain rfl : entry = "named/" ++ other := hcopies
    rw [references, Metric.words_named hspaceless, Metric.names_named (Metric.words_ne_nil other), Metric.ofWords_words]
  | color =>
    obtain ⟨rfl, hslash⟩ : entry = "named/" ++ other ∧ '/' ∉ other.toList := hcopies
    have hcontains : d.sections.colors.contains other = true := hother
    simp only [references, Metric.words_named hspaceless, Metric.words_of_not_mem hslash, hcontains, if_true]
  | font =>
    obtain rfl : entry = .copyOf other := hcopies
    exact congrArg Option.toList (basedOn_copyOf hnonempty)
  | textAttributes =>
    obtain rfl : entry = .copyOf other := hcopies
    exact congrArg Option.toList (basedOn_copyOf hnonempty)
  | image =>
    obtain rfl : entry = .copyOf other := hcopies
    rfl
  | buttonStyle => exact hcopies.elim

end Document

/-! ### What an alias makes of a value -/

theorem Resolvers.fetch_probe_found {o : Oracle} {a : Asset} {name : String} {value : a.Value}
    (h : o a name = .found value) (key : String) (user : Kind) (p : Progress) :
    ∃ p', fetch a (probe o a) name key user p = .ok (some value) p' := by
  obtain ⟨p', hanswer, -⟩ := answer_probe o a name p
  refine ⟨p', ?_⟩
  rw [fetch_eq, bind_of_ok hanswer, h]
  rfl

/-- A value comes to itself when an alias works it out anew. -/
def Reading.Retakes (r : Reading) : (a : Asset) → a.Value → Prop
  | .metric, (x : Float) => x.isFinite = true
  | .font, (font : Font) =>
    ∀ p, FontLayers.realize r.surroundings.catalog font.descriptor p = .ok (some font) p
  | .textAttributes, (text : TextAttributes) =>
    ∀ p, TextLayers.addKern ⟨text.attributes, text.tracking, 0⟩ p = .ok ⟨text.attributes, text.tracking, 0⟩ p
  | _, _ => True

section Compute

variable {o : Oracle} {name other : String} {p : Progress}

/-! With answers from a table, an alias of something valid takes its value, and any other alias gives up after the
one question. -/

namespace Metric

/-- A metric alias asks about one name and judges the value. -/
theorem compute_named (lookup : Lookup) (hspaceless : ' ' ∉ other.toList) :
    compute lookup name ("named/" ++ other) = (do
      match ← namedValue lookup "extracting a metric" other (Text.withoutSpaces ("named/" ++ other)) with
      | none => return none
      | some value =>
        let read ← conclude "extracting a metric" (Text.withoutSpaces ("named/" ++ other)) (some 1) []
          (.single value [⟨.metric, other⟩])
        match read with
        | some ⟨value :: _, dependencies⟩ =>
          dependOn .metric name dependencies
          return some value
        | _ => return none) := by
  have hroom : Extraction.HasRoom {} (some 1) := by simp [Extraction.HasRoom]
  have htext : ("named/" ++ other).isEmpty = false := by simp
  have hextract : extract lookup "extracting a metric" (Text.withoutSpaces ("named/" ++ other)) (some 1) = (do
      match ← namedValue lookup "extracting a metric" other (Text.withoutSpaces ("named/" ++ other)) with
      | none => return none
      | some value =>
        conclude "extracting a metric" (Text.withoutSpaces ("named/" ++ other)) (some 1) []
          (.single value [⟨.metric, other⟩])) := by
    rw [extract, words_named hspaceless, scan_named hroom (words_ne_nil other), ofWords_words]
    rfl
  simp only [compute, htext, Bool.false_eq_true, if_false, extractOne, hextract, bind_assoc]
  refine bind_congr fun found => ?_
  cases found with
  | none => rfl
  | some value =>
    refine bind_congr fun read => ?_
    rcases read with _ | ⟨_ | ⟨first, others⟩, dependencies⟩ <;> rfl

theorem compute_named_found (hspaceless : ' ' ∉ other.toList) {value : Float} (ho : o .metric other = .found value)
    (hfinite : value.isFinite = true) (p : Progress) :
    ∃ p', compute (Resolvers.probe o).metric name ("named/" ++ other) p = .ok (some value) p' := by
  obtain ⟨p₁, hanswer, -⟩ := Resolvers.metric_probe o other p
  refine ⟨p₁.modify .metric name (·.dependOn [⟨.metric, other⟩]), ?_⟩
  have hnamed : namedValue (Resolvers.probe o).metric "extracting a metric" other
      (Text.withoutSpaces ("named/" ++ other)) p = .ok (some value) p₁ := by
    rw [namedValue, bind_of_ok hanswer, ho]
    rfl
  have hjudged : conclude "extracting a metric" (Text.withoutSpaces ("named/" ++ other)) (some 1) []
      (.single value [⟨.metric, other⟩]) p₁ = .ok (some (.single value [⟨.metric, other⟩])) p₁ :=
    conclude_eq_ok_iff.mpr ⟨rfl, rfl, by simpa [Extraction.single] using hfinite, rfl, by simp [Extraction.single]⟩
  rw [compute_named _ hspaceless, bind_of_ok hnamed]
  exact bind_of_ok hjudged

theorem compute_named_unfound (hspaceless : ' ' ∉ other.toList) (ho : ¬ (o .metric other).IsFound) (p : Progress) :
    ∃ p', compute (Resolvers.probe o).metric name ("named/" ++ other) p = .ok none p' ∧
      p'.begun = (.metric, other) :: p.begun := by
  obtain ⟨p₁, hanswer, hbegun⟩ := Resolvers.metric_probe o other p
  rw [compute_named _ hspaceless, namedValue, bind_assoc, bind_of_ok hanswer]
  cases hx : o .metric other with
  | missing => exact ⟨_, rfl, hbegun⟩
  | invalid => exact ⟨_, rfl, hbegun⟩
  | found value => exact absurd ⟨value, hx⟩ ho

end Metric

theorem ColorText.compute_named_found {isEntry : String → Bool} (hspaceless : ' ' ∉ other.toList)
    (hslash : '/' ∉ other.toList) (hentry : isEntry other = true) {value : Color} (ho : o .color other = .found value)
    (p : Progress) :
    ∃ p', compute (Resolvers.probe o).metric (Resolvers.probe o).color isEntry name ("named/" ++ other) p =
      .ok (some value) p' := by
  obtain ⟨p', hanswer, -⟩ := Resolvers.color_probe o other (p.modify .color name (·.dependOn [⟨.color, other⟩]))
  refine ⟨p', ?_⟩
  have hwords : Metric.words (Text.withoutSpaces ("named/" ++ other)) = ["named", other] := by
    rw [Metric.words_named hspaceless, Metric.words_of_not_mem hslash]
  have hformat : ColorFormat.ofWord? "named" = some .named := by decide
  have hnamed : compute (Resolvers.probe o).metric (Resolvers.probe o).color isEntry name ("named/" ++ other) =
      named (Resolvers.probe o).color isEntry name ("named/" ++ other) other := by
    simp only [compute, hwords, hformat, ColorFormat.partCount, List.length_singleton, List.headD_cons, ne_eq,
      not_true_eq_false, if_false]
  rw [hnamed, named, if_pos hentry, bind_dependOn, bind_of_ok hanswer, ho]
  rfl

theorem FontLayers.compute_copyOf_found {catalog : Catalog} (hnonempty : other ≠ "") {value : Font}
    (ho : o .font other = .found value) (hagain : ∀ p, realize catalog value.descriptor p = .ok (some value) p)
    (p : Progress) :
    ∃ p', compute (Resolvers.probe o).metric catalog (Resolvers.probe o .font) name (.copyOf other) p =
      .ok (some value) p' := by
  obtain ⟨p', hfetch⟩ :=
    Resolvers.fetch_probe_found ho "basedOn" .font (p.modify .font name (·.dependOn [⟨.font, other⟩]))
  refine ⟨p', ?_⟩
  have hbase : baseDescriptor (Resolvers.probe o .font) name (.copyOf other) p = .ok (some value.descriptor) p' := by
    simp only [baseDescriptor, FontEntry.copyOf, basedOn_copyOf hnonempty]
    rw [bind_dependOn, bind_of_ok hfetch]
    rfl
  rw [compute, bind_of_ok hbase]
  exact hagain p'

theorem ImageLayers.compute_copyOf_found {hasPlacement : String → Bool} {surroundings : Surroundings} {value : Image}
    (ho : o .image other = .found value) (p : Progress) :
    ∃ p', compute (.of (.probe o) hasPlacement) surroundings (Resolvers.probe o .image) name (.copyOf other) p =
      .ok (some value) p' := by
  obtain ⟨p', hfetch⟩ :=
    Resolvers.fetch_probe_found ho "basedOn" .image (p.modify .image name (·.dependOn [⟨.image, other⟩]))
  refine ⟨p', ?_⟩
  have hbase : base (.of (.probe o) hasPlacement) surroundings (Resolvers.probe o .image) name (.copyOf other) p =
      .ok (some value) p' := by
    simp only [base, ImageEntry.copyOf]
    rw [bind_dependOn]
    exact hfetch
  rw [compute, bind_of_ok hbase]
  rfl

namespace TextLayers

theorem compute_copyOf {base : Draft} {p₁ p₂ : Progress} {q : Resolvers} {draft : Draft}
    (hbase : baseDraft (q .textAttributes) name (.copyOf other) p = .ok base p₁)
    (hkern : addKern base p₁ = .ok draft p₂) :
    compute (.of q) (q .textAttributes) name (.copyOf other) p =
      (if draft.errors = 0 then pure (some ⟨draft.attributes, draft.tracking⟩)
      else reject (.textAttributeErrors draft.errors)) p₂ := by
  rw [compute, bind_of_ok hbase]
  simp only [declared?, TextAttributesEntry.copyOf, readAttributes, pure_bind]
  rw [bind_of_ok hkern]

theorem compute_copyOf_found (hnonempty : other ≠ "") {value : TextAttributes}
    (ho : o .textAttributes other = .found value)
    (hagain : ∀ p, addKern ⟨value.attributes, value.tracking, 0⟩ p = .ok ⟨value.attributes, value.tracking, 0⟩ p)
    (p : Progress) :
    ∃ p', compute (.of (.probe o)) (Resolvers.probe o .textAttributes) name (.copyOf other) p =
      .ok (some value) p' := by
  obtain ⟨p', hfetch⟩ := Resolvers.fetch_probe_found ho "basedOn" .textAttributes
    (p.modify .textAttributes name (·.dependOn [⟨.textAttributes, other⟩]))
  have hbase : baseDraft (Resolvers.probe o .textAttributes) name (.copyOf other) p =
      .ok ⟨value.attributes, value.tracking, 0⟩ p' := by
    simp only [baseDraft, TextAttributesEntry.copyOf, basedOn_copyOf hnonempty]
    rw [bind_dependOn, bind_of_ok hfetch]
    rfl
  exact ⟨p', compute_copyOf hbase (hagain p')⟩

theorem compute_copyOf_unfound (hnonempty : other ≠ "") (ho : ¬ (o .textAttributes other).IsFound) (p : Progress) :
    ∃ p', compute (.of (.probe o)) (Resolvers.probe o .textAttributes) name (.copyOf other) p = .ok none p' ∧
      p'.begun = (.textAttributes, other) :: p.begun := by
  obtain ⟨p₁, hfetch, hbegun⟩ := Resolvers.fetch_probe ho "basedOn" .textAttributes
    (p.modify .textAttributes name (·.dependOn [⟨.textAttributes, other⟩]))
  have hbase : baseDraft (Resolvers.probe o .textAttributes) name (.copyOf other) p = .ok (Draft.spoil {}) p₁ := by
    simp only [baseDraft, TextAttributesEntry.copyOf, basedOn_copyOf hnonempty]
    rw [bind_dependOn, bind_of_ok hfetch]
    rfl
  exact ⟨_, compute_copyOf hbase rfl, hbegun⟩

end TextLayers

end Compute

namespace Reading

variable {r : Reading} {o : Oracle} {a : Asset} {name other : String} {entry : a.kind.Entry} {value : a.Value}

/-- An alias of something valid takes its value, if it comes to itself. -/
theorem compute_copies_found (hcopies : a.Copies entry other) (hnonempty : other ≠ "")
    (hspaceless : ' ' ∉ other.toList) (hother : (r.document.entry? a.kind other).isSome = true)
    (ho : o a other = .found value) (hretakes : r.Retakes a value) :
    ∃ p', r.compute (.probe o) a name entry {} = .ok (some value) p' := by
  cases a with
  | metric =>
    obtain rfl : entry = "named/" ++ other := hcopies
    exact Metric.compute_named_found hspaceless ho hretakes {}
  | color =>
    obtain ⟨rfl, hslash⟩ : entry = "named/" ++ other ∧ '/' ∉ other.toList := hcopies
    exact ColorText.compute_named_found hspaceless hslash hother ho {}
  | font =>
    obtain rfl : entry = .copyOf other := hcopies
    exact FontLayers.compute_copyOf_found hnonempty ho hretakes {}
  | textAttributes =>
    obtain rfl : entry = .copyOf other := hcopies
    exact TextLayers.compute_copyOf_found hnonempty ho hretakes {}
  | image =>
    obtain rfl : entry = .copyOf other := hcopies
    exact ImageLayers.compute_copyOf_found ho {}
  | buttonStyle => exact hcopies.elim

/-- An alias of anything else asks for its target and gives up. -/
theorem compute_copies_unfound (hcopies : a.Copies entry other) (hnonempty : other ≠ "")
    (hspaceless : ' ' ∉ other.toList) (hother : (r.document.entry? a.kind other).isSome = true)
    (ho : ¬ (o a other).IsFound) :
    ∃ p', r.compute (.probe o) a name entry {} = .ok none p' ∧ p'.begun = [(a, other)] := by
  have href : other ∈ r.document.references a entry := by
    rw [Document.references_of_copies hcopies hnonempty hspaceless hother]
    exact List.mem_singleton_self other
  by_cases ha : a ≠ .metric ∧ a ≠ .textAttributes
  · exact compute_unfound ha href ho
  · cases a with
    | metric =>
      obtain rfl : entry = "named/" ++ other := hcopies
      exact Metric.compute_named_unfound hspaceless ho {}
    | textAttributes =>
      obtain rfl : entry = .copyOf other := hcopies
      exact TextLayers.compute_copyOf_unfound hnonempty ho {}
    | _ => exact absurd ⟨by simp, by simp⟩ ha

end Reading

/-! ### Values that come to themselves -/

theorem FontLayers.realize_of_compute {metric : Metric.Lookup} {catalog : Catalog}
    {fonts : String → Resolve (Option Font)} {owner : String} {entry : FontEntry} {font : Font} {p p' : Progress}
    (h : compute metric catalog fonts owner entry p = .ok (some font) p') :
    ∃ d p₁, realize catalog d p₁ = .ok (some font) p' := by
  obtain ⟨base, p₁, -, h₁⟩ := bind_eq_ok_iff.mp h
  cases base with
  | none => cases h₁
  | some base =>
    obtain ⟨declared, p₂, -, h₂⟩ := bind_eq_ok_iff.mp h₁
    cases declared with
    | none => cases h₂
    | some declared =>
      obtain ⟨d, p₃, -, h₃⟩ := bind_eq_ok_iff.mp h₂
      cases d with
      | none => cases h₃
      | some d => exact ⟨d, p₃, h₃⟩

theorem TextLayers.addKern_of_compute {refs : References} {sets : String → Resolve (Option TextAttributes)}
    {owner : String} {entry : TextAttributesEntry} {text : TextAttributes} {p p' : Progress}
    (h : compute refs sets owner entry p = .ok (some text) p') :
    ∃ draft p₁ p₂, addKern draft p₁ = .ok ⟨text.attributes, text.tracking, 0⟩ p₂ := by
  obtain ⟨base, p₁, -, h₁⟩ := bind_eq_ok_iff.mp h
  cases hdeclared : declared? entry with
  | error value =>
    rw [hdeclared] at h₁
    cases h₁
  | ok declared =>
    rw [hdeclared] at h₁
    obtain ⟨draft, p₂, -, h₂⟩ := bind_eq_ok_iff.mp h₁
    obtain ⟨kerned, p₃, hkern, h₃⟩ := bind_eq_ok_iff.mp h₂
    split at h₃
    · next herrors =>
      cases h₃
      obtain ⟨attributes, tracking, errors⟩ := kerned
      obtain rfl : errors = 0 := herrors
      exact ⟨draft, p₂, p', hkern⟩
    · cases h₃

/-- The catalogs that have been in use agree on the descriptor of a font. For other values nothing is asked. -/
def Steady (within : Surroundings → Prop) : (a : Asset) → a.Value → Prop
  | .font, (font : Font) =>
    ∀ s s', within s → within s' → s.catalog.AgreesOn s'.catalog font.descriptor
  | _, _ => True

section Steady

variable {d : Document} {within : Surroundings → Prop} {s : Surroundings} {a : Asset} {name other : String}
  {value : a.Value} {p p' : Progress}

/-- What was found once comes to itself in all surroundings, fonts where the catalogs agree. -/
theorem Reading.retakes_of_result {s' : Surroundings} {o : Oracle} {entry : a.kind.Entry} (hs : within s)
    (hs' : within s') (h : ((Reading.plan ⟨d, s'⟩ a name entry).examine o).result = .ok (some value))
    (hsteady : Steady within a value) : Reading.Retakes ⟨d, s⟩ a value := by
  obtain ⟨p', hcompute⟩ := Reading.result_eq_ok_iff.mp h
  cases a with
  | metric => exact (Metric.compute_sound (Metric.answers_probe o) hcompute).2.1
  | font =>
    obtain ⟨descriptor, p₁, hrealize⟩ := FontLayers.realize_of_compute hcompute
    exact FontLayers.realize_again hrealize (hsteady s s' hs hs')
  | textAttributes =>
    obtain ⟨draft, p₁, p₂, hkern⟩ := TextLayers.addKern_of_compute hcompute
    exact TextLayers.addKern_again hkern rfl
  | color => trivial
  | image => trivial
  | buttonStyle => trivial

theorem Progress.Stands.retakes (h : p.Stands d within a name) (hmemo : (p.cell a name).memo = .valid value)
    (hs : within s) (hsteady : Steady within a value) : Reading.Retakes ⟨d, s⟩ a value := by
  cases h with
  | @intro _ _ entry found s' hs' _ hfound hresult _ _ =>
    obtain rfl : found = value := Memo.valid.inj (hfound.symm.trans hmemo)
    exact Reading.retakes_of_result hs hs' hresult hsteady

/-- What stands has found what it refers to, and so it leads into no circle. -/
theorem Progress.Stands.not_leadsIntoCircle (h : p.Stands d within a name) : ¬ d.LeadsIntoCircle a name := by
  induction h with
  | @intro a name entry value s hs hentry hmemo hresult huses hasked ih =>
    intro hcircle
    obtain ⟨next, ⟨entry', hentry', hmem⟩, hnext⟩ := hcircle.exists_next
    obtain rfl : entry = entry' := Option.some.inj (hentry.symm.trans hentry')
    by_cases hq : (a, next) ∈ ((Reading.plan ⟨d, s⟩ a name entry).examine (p.answers d)).asked
    · exact ih _ hq hnext
    · -- a table without the next entry leads to the same value all the same
      let o : Oracle := fun b other => if (b, other) = (a, next) then .missing else p.answers d b other
      have hsame : (Reading.plan ⟨d, s⟩ a name entry).examine o =
          (Reading.plan ⟨d, s⟩ a name entry).examine (p.answers d) := by
        refine Inquiry.examine_congr _ fun question hquestion => if_neg fun hnext => hq ?_
        rw [← hnext]
        exact hquestion
      rw [← hsame] at hresult
      obtain ⟨p', hcompute⟩ := Reading.result_eq_ok_iff.mp hresult
      have hfound : (o a next).IsFound := Reading.isFound_of_compute hcompute hmem
      simp [o] at hfound

end Steady

/-! ### Aliases that were lost -/

/-- The target of an invalid alias leads into a circle, or it is loaded and, if it is valid, the catalogs disagree. -/
def Progress.Lost (p : Progress) (d : Document) (within : Surroundings → Prop) (a : Asset) (other : String) : Prop :=
  d.LeadsIntoCircle a other ∨ ((p.cell a other).memo.isLoaded = true ∧
    ∀ value, (p.cell a other).memo = .valid value → ¬ Steady within a value)

/-- Invalid cells hold the sentinel, and invalid aliases have a reason. -/
structure Progress.Excused (p : Progress) (d : Document) (within : Surroundings → Prop) : Prop where
  sentinel : ∀ a name value, (p.cell a name).memo = .invalid value → value = a.invalid
  lost : ∀ a name other value, d.Aliases a name other → (d.entry? a.kind other).isSome = true →
    (p.cell a name).memo = .invalid value → p.Lost d within a other

section Excused

variable {d : Document} {within : Surroundings → Prop} {s : Surroundings} {a : Asset} {name other : String}
  {p p' : Progress}

theorem Progress.Lost.congr (h : p.Lost d within a other)
    (hkeeps : (p.cell a other).memo.isLoaded = true → (p'.cell a other).memo = (p.cell a other).memo) :
    p'.Lost d within a other := by
  rcases h with hcircle | ⟨hloaded, hvalid⟩
  · exact .inl hcircle
  · have hsame := hkeeps hloaded
    exact .inr ⟨by rw [hsame, hloaded], by rw [hsame]; exact hvalid⟩

/-- An alias that comes to nothing has lost its target. -/
theorem lost_of_partway {underWay : List String} {entry : a.kind.Entry} {asked : List (Asset × String)}
    {used : List Dependency} (hs : within s) (hf : p.Founded d within) (hlinked : Reading.Linked d a underWay name)
    (hdone : Reading.Partway ⟨d, s⟩ underWay name entry (.done none) p asked used) (halias : d.Aliases a name other)
    (hother : (d.entry? a.kind other).isSome = true) : p.Lost d within a other := by
  obtain ⟨⟨entry', hentry', hcopies⟩, hnonempty, hspaceless⟩ := halias
  obtain rfl : entry = entry' := Option.some.inj (hdone.present.symm.trans hentry')
  have hnone : ((Reading.plan ⟨d, s⟩ a name entry).examine (p.answers d)).result = .ok none := by
    rw [hdone.done]
  by_cases hfound : (p.answers d a other).IsFound
  · -- the target is valid, and has not come to itself
    obtain ⟨value, hvalue⟩ := hfound
    have hmemo := memo_of_answers hvalue
    have hvalid : (p.cell a other).memo.isValid = true := by rw [hmemo]; rfl
    refine .inr ⟨Memo.isLoaded_of_isValid hvalid, fun value' hmemo' hsteady => ?_⟩
    obtain rfl : value = value' := Memo.valid.inj (hmemo.symm.trans hmemo')
    have hretakes := (hf.stands a other hvalid).retakes hmemo hs hsteady
    obtain ⟨p', hcompute⟩ := Reading.compute_copies_found hcopies hnonempty hspaceless hother hvalue hretakes
    rw [Reading.result_eq_ok_iff.mpr ⟨p', hcompute⟩] at hnone
    cases hnone
  · -- the target has been asked for in vain, so that it is loaded or under way
    obtain ⟨p', hcompute, hbegun⟩ : ∃ p', Reading.compute ⟨d, s⟩ (.probe (p.answers d)) a name entry {} =
        .ok none p' ∧ p'.begun = [(a, other)] :=
      Reading.compute_copies_unfound hcopies hnonempty hspaceless hother hfound
    have hquestions := (Reading.examine_eq_of_compute hcompute).2
    rw [hdone.done, hbegun] at hquestions
    have hasked : (a, other) ∈ asked := (show asked = [(a, other)] from hquestions) ▸ List.mem_singleton_self _
    have hrefers : d.Refers a name other := by
      refine ⟨entry, hentry', ?_⟩
      rw [Document.references_of_copies hcopies hnonempty hspaceless hother]
      exact List.mem_singleton_self other
    rcases hdone.fixed _ hasked with hmissing | hloaded | hbeyond
    · rw [hmissing] at hother
      cases hother
    · refine .inr ⟨hloaded, fun value hmemo => absurd ?_ hfound⟩
      obtain ⟨target, htarget⟩ := Option.isSome_iff_exists.mp hother
      exact ⟨value, by rw [answers_present htarget a.invalid, hmemo]; rfl⟩
    · rcases List.mem_cons.mp (hbeyond.2 rfl) with rfl | hunder
      · exact .inl ⟨other, .refl, .single hrefers⟩
      · exact .inl ⟨other, .refl, (hlinked other hunder).tail hrefers⟩

theorem maintains_excused (d : Document) (within : Surroundings → Prop) :
    d.Maintains within fun p => p.Excused d within where
  start := by
    refine ⟨(d.maintains_sentinels within).start, fun a name other value _ _ h => ?_⟩
    rw [cell_start] at h
    cases h
  record _ _ h := ⟨h.sentinel, h.lost⟩
  dependOn p a name dependencies hmemo h := by
    refine ⟨(d.maintains_sentinels within).dependOn p a name dependencies hmemo h.sentinel,
      fun b last other value halias hother hmemo => ?_⟩
    rw [memo_dependOn] at hmemo
    exact (h.lost b last other value halias hother hmemo).congr fun _ => memo_dependOn ..
  settle s p a underWay name entry result asked used hs hf hlinked hdone h := by
    -- settling keeps the memos of loaded cells, since that of the entry is empty
    have hkeeps (b : Asset) (last : String) (hloaded : (p.cell b last).memo.isLoaded = true) :
        ((p.modify a name (·.settle (some a.invalid) result)).cell b last).memo = (p.cell b last).memo := by
      rw [cell_modify_loaded hdone.notLoaded hloaded]
    refine ⟨(d.maintains_sentinels within).settle s p a underWay name entry result asked used hs hf hlinked hdone
      h.sentinel, fun b last other value halias hother hmemo => ?_⟩
    by_cases hown : b = a ∧ last = name
    · obtain ⟨rfl, rfl⟩ := hown
      rw [cell_modify_same] at hmemo
      cases result with
      | some found => cases hmemo
      | none => exact (lost_of_partway hs hf hlinked hdone halias hother).congr (hkeeps b other)
    · rw [cell_modify_other _ _ hown] at hmemo
      exact (h.lost b last other value halias hother hmemo).congr (hkeeps b other)

/-- Everything on a chain of aliases to an entry is an entry. -/
theorem Document.present_of_chain {target : String} (hchain : Relation.ReflTransGen (d.Aliases a) name target)
    (htarget : (d.entry? a.kind target).isSome = true) : (d.entry? a.kind name).isSome = true := by
  rcases Relation.ReflTransGen.cases_head hchain with rfl | ⟨next, halias, -⟩
  · exact htarget
  · obtain ⟨entry, hentry, -⟩ := halias.copies
    rw [hentry]
    rfl

/-- Along aliases there is only one way into a circle. -/
theorem Document.LeadsIntoCircle.chain {target : String} (h : d.LeadsIntoCircle a name)
    (hchain : Relation.ReflTransGen (d.Aliases a) name target)
    (htarget : (d.entry? a.kind target).isSome = true) : d.LeadsIntoCircle a target := by
  induction hchain using Relation.ReflTransGen.head_induction_on with
  | refl => exact h
  | head halias hrest ih =>
    obtain ⟨next, ⟨entry, hentry, hmem⟩, hnext⟩ := h.exists_next
    obtain ⟨⟨entry', hentry', hcopies⟩, hnonempty, hspaceless⟩ := halias
    obtain rfl : entry = entry' := Option.some.inj (hentry.symm.trans hentry')
    rw [references_of_copies hcopies hnonempty hspaceless (present_of_chain hrest htarget)] at hmem
    exact ih (List.mem_singleton.mp hmem ▸ hnext)

/-- A valid alias has the value of its target, if that is steady. -/
theorem Document.Aliases.value_eq (halias : d.Aliases a name other) (hf : p.Founded d within) {value : a.Value}
    (hother : (d.entry? a.kind other).isSome = true) (hmemo : (p.cell a name).memo = .valid value) :
    ∃ found, (p.cell a other).memo = .valid found ∧ (Steady within a found → value = found) := by
  obtain ⟨⟨entry, hentry, hcopies⟩, hnonempty, hspaceless⟩ := halias
  cases hf.stands a name (by rw [hmemo]; rfl) with
  | @intro _ _ entry' value' s hs hentry' hmemo' hresult _ hasked =>
    obtain rfl : entry = entry' := Option.some.inj (hentry.symm.trans hentry')
    obtain rfl : value' = value := Memo.valid.inj (hmemo'.symm.trans hmemo)
    obtain ⟨p', hcompute⟩ := Reading.result_eq_ok_iff.mp hresult
    have href : other ∈ d.references a entry := by
      rw [references_of_copies hcopies hnonempty hspaceless hother]
      exact List.mem_singleton_self other
    obtain ⟨found, hfound⟩ : (p.answers d a other).IsFound := Reading.isFound_of_compute hcompute href
    have hvalid := memo_of_answers hfound
    refine ⟨found, hvalid, fun hsteady => ?_⟩
    have hretakes := (hf.stands a other (by rw [hvalid]; rfl)).retakes hvalid hs hsteady
    obtain ⟨p'', hagain⟩ := Reading.compute_copies_found hcopies hnonempty hspaceless hother hfound hretakes
    rw [hcompute] at hagain
    cases hagain
    rfl

/-- Loaded cells along a chain of aliases hold the same. -/
theorem memo_eq_of_chain (hf : p.Founded d within) (he : p.Excused d within) {target : String}
    (htarget : (d.entry? a.kind target).isSome = true) (hloaded : (p.cell a target).memo.isLoaded = true)
    (hsteady : ∀ value, (p.cell a target).memo = .valid value → Steady within a value)
    (hchain : Relation.ReflTransGen (d.Aliases a) name target) :
    (p.cell a name).memo.isLoaded = true → (p.cell a name).memo = (p.cell a target).memo := by
  -- the induction goes from the target to the alias; every entry on the way is loaded when the next one asks
  induction hchain using Relation.ReflTransGen.head_induction_on with
  | refl => exact fun _ => rfl
  | @head name next halias hrest ih =>
    intro hname
    have hnext := Document.present_of_chain hrest htarget
    cases hmemo : (p.cell a name).memo with
    | empty =>
      rw [hmemo] at hname
      cases hname
    | valid value =>
      obtain ⟨found, hfound, hsame⟩ := halias.value_eq hf hnext hmemo
      have htargeted := ih (by rw [hfound]; rfl)
      rw [hfound] at htargeted
      rw [hsame (hsteady found htargeted.symm), htargeted]
    | invalid sentinel =>
      obtain rfl := he.sentinel a name sentinel hmemo
      suffices hinvalid : ∀ value, (p.cell a target).memo ≠ .valid value by
        cases htargeted : (p.cell a target).memo with
        | empty =>
          rw [htargeted] at hloaded
          cases hloaded
        | valid value => exact absurd htargeted (hinvalid value)
        | invalid sentinel => rw [he.sentinel a target sentinel htargeted]
      intro value hvalue
      rcases he.lost a name next _ halias hnext hmemo with hcircle | ⟨hloadedNext, hdisagree⟩
      · exact (hf.stands a target (by rw [hvalue]; rfl)).not_leadsIntoCircle (hcircle.chain hrest htarget)
      · have htargeted := ih hloadedNext
        exact hdisagree value (htargeted.trans hvalue) (hsteady value hvalue)

end Excused

/-! ### All states -/

namespace Reading

variable {r : Reading} {a : Asset} {name : String} {p p' : Progress} {value : a.Value}

/-- A call for an entry returns what is in its cell afterwards. -/
theorem payload_of_resolve (hentry : (r.document.entry? a.kind name).isSome = true)
    (h : r.resolve a name p = .ok value p') : (p'.cell a name).memo.payload? = some value := by
  obtain ⟨x, p₁, hrequest, hreturn⟩ := bind_eq_ok_iff.mp h
  cases x with
  | none =>
    have hruns := runs_of_resolve? hrequest
    cases hruns with
    | missing hmissing =>
      rw [hmissing] at hentry
      cases hentry
  | some found =>
    cases hreturn
    exact resolve?_payload hrequest

theorem run_resolve (h : r.resolve a name p = .ok value p') : (Call.resolve a name).run r p = .ok () p' :=
  bind_of_ok h

end Reading

namespace Document

variable {d : Document} {within : Surroundings → Prop} {s : Surroundings} {a : Asset} {name target : String}
  {p p₁ p₂ : Progress}

theorem memo_eq_of_reachable (h : d.Reachable within p) (hchain : Relation.TransGen (d.Aliases a) name target)
    (htarget : (d.entry? a.kind target).isSome = true) (hname : (p.cell a name).memo.isLoaded = true)
    (hloaded : (p.cell a target).memo.isLoaded = true)
    (hsteady : ∀ value, (p.cell a target).memo = .valid value → Steady within a value) :
    (p.cell a name).memo = (p.cell a target).memo := by
  obtain ⟨hf, he⟩ := h.invariant (maintains_excused d within).upholds
  exact memo_eq_of_chain hf he htarget hloaded hsteady hchain.to_reflTransGen hname

/-- Two calls one after the other leave what they returned in the cells. -/
theorem payloads_of_resolves {first second : String} {v w : a.Value} (hs : within s) (h : d.AtRest within p)
    (hfirst : (d.entry? a.kind first).isSome = true) (hsecond : (d.entry? a.kind second).isSome = true)
    (hv : Reading.resolve ⟨d, s⟩ a first p = .ok v p₁) (hw : Reading.resolve ⟨d, s⟩ a second p₁ = .ok w p₂) :
    d.AtRest within p₂ ∧ (p₂.cell a first).memo.payload? = some v ∧ (p₂.cell a second).memo.payload? = some w := by
  have hcall₁ := Reading.run_resolve hv
  have hcall₂ := Reading.run_resolve hw
  have hpayload := Reading.payload_of_resolve hfirst hv
  have hkept : p₂.cell a first = p₁.cell a first :=
    ((Call.run_requests ⟨d, s⟩ _).ok hcall₂).keeps (by rw [Memo.isLoaded, hpayload]; rfl)
  exact ⟨(h.returned hs hcall₁).returned hs hcall₂, by rw [hkept, hpayload], Reading.payload_of_resolve hsecond hw⟩

/-- Along a chain of aliases to an entry, whatever has been resolved holds what the entry holds: in every state where
both are loaded the cells have the same memo, and calls for the two, in either order, return the same value. For a
valid font the catalogs that have been in use must agree on its descriptor. -/
theorem alias_resolves_as_target (d : Document) (within : Surroundings → Prop) (a : Asset) (name target : String)
    (hchain : Relation.TransGen (d.Aliases a) name target) (htarget : (d.entry? a.kind target).isSome = true) :
    (∀ p, d.Reachable within p → (p.cell a name).memo.isLoaded = true → (p.cell a target).memo.isLoaded = true →
      (∀ value, (p.cell a target).memo = .valid value → Steady within a value) →
        (p.cell a name).memo = (p.cell a target).memo) ∧
      ∀ p s v w p₁ p₂, d.AtRest within p → within s →
        (Reading.resolve ⟨d, s⟩ a name p = .ok v p₁ ∧ Reading.resolve ⟨d, s⟩ a target p₁ = .ok w p₂ ∨
          Reading.resolve ⟨d, s⟩ a target p = .ok w p₁ ∧ Reading.resolve ⟨d, s⟩ a name p₁ = .ok v p₂) →
        (∀ value, (p₂.cell a target).memo = .valid value → Steady within a value) →
          v = w ∧ (p₂.cell a name).memo = (p₂.cell a target).memo := by
  refine ⟨fun p h => memo_eq_of_reachable h hchain htarget, fun p s v w p₁ p₂ h hs hcalls hsteady => ?_⟩
  have hname := present_of_chain hchain.to_reflTransGen htarget
  obtain ⟨hrest, hv, hw⟩ : d.AtRest within p₂ ∧ (p₂.cell a name).memo.payload? = some v ∧
      (p₂.cell a target).memo.payload? = some w := by
    rcases hcalls with ⟨hv, hw⟩ | ⟨hw, hv⟩
    · exact payloads_of_resolves hs h hname htarget hv hw
    · obtain ⟨hrest, hw, hv⟩ := payloads_of_resolves hs h htarget hname hw hv
      exact ⟨hrest, hv, hw⟩
  have hsame := memo_eq_of_reachable (.atRest hrest) hchain htarget (by rw [Memo.isLoaded, hv]; rfl)
    (by rw [Memo.isLoaded, hw]; rfl) hsteady
  rw [hsame, hw] at hv
  exact ⟨(Option.some.inj hv).symm, hsame⟩

end Document

/-! ### Fonts of one family -/

/-- A catalog that knows one face. -/
def Catalog.ofFace (family face name : String) : Catalog :=
  ⟨⟨[(family, ⟨[(face, name)], by simp⟩)], by simp⟩, builtInSubstitute⟩

/-- A catalog that knows no face. -/
def Catalog.bare : Catalog := ⟨∅, builtInSubstitute⟩

/-- A font entry that names its family and nothing else. -/
def FontEntry.ofFamily (family : String) : FontEntry := ⟨none, some family, none, none, none⟩

namespace Reading

/-- A font of a family that the catalog knows, a copy of it and a copy of the copy. -/
def copiedFonts : Reading where
  document := {
    version := none
    sections := {
      fonts := ⟨[("plain", .ofFamily "Menlo"), ("heading", .copyOf "plain"),
        ("title", .copyOf "heading")], (by decide : ["plain", "heading", "title"].Nodup)⟩ }
    hasEmptyGroups := false }
  surroundings := { storage := none, catalog := .ofFace "Menlo" "Regular" "Menlo-Regular", files := .empty }

theorem copiedFonts_plain :
    copiedFonts.document.sections.fonts.find? "plain" = some (.ofFamily "Menlo") := rfl

theorem copiedFonts_heading : copiedFonts.document.sections.fonts.find? "heading" = some (.copyOf "plain") := rfl

theorem copiedFonts_title : copiedFonts.document.sections.fonts.find? "title" = some (.copyOf "heading") := rfl

theorem aliases_title : Relation.TransGen (copiedFonts.document.Aliases .font) "title" "plain" :=
  .tail (.single ⟨⟨_, copiedFonts_title, rfl⟩, by decide, by decide⟩)
    ⟨⟨_, copiedFonts_heading, rfl⟩, by decide, by decide⟩

theorem copyOf_plainFont : (FontEntry.copyOf "plain").basedOn.filter (!·.isEmpty) = some "plain" := by decide

theorem copyOf_headingFont : (FontEntry.copyOf "heading").basedOn.filter (!·.isEmpty) = some "heading" := by decide

end Reading

namespace Document

open Reading

/-- A title that copies the copy of a font, resolved before the font itself. -/
theorem alias_resolves_as_target_fonts :
    ∃ v w p₁ p₂, Reading.resolve copiedFonts .font "title" {} = .ok v p₁ ∧
      Reading.resolve copiedFonts .font "plain" p₁ = .ok w p₂ ∧ v = w ∧ (p₂.cell .font "title").memo = .valid w := by
  have hcalls : ∃ v w p₁ p₂, Reading.resolve copiedFonts .font "title" {} = .ok v p₁ ∧
      Reading.resolve copiedFonts .font "plain" p₁ = .ok w p₂ ∧ (p₂.cell .font "plain").memo = .valid w := by
    simp only [resolve, resolve?, font, resolveFont_found copiedFonts_plain, resolveFont_found copiedFonts_heading,
      resolveFont_found copiedFonts_title, FontLayers.compute, FontLayers.baseDescriptor, DesignTokens.fetch,
      copyOf_plainFont, copyOf_headingFont, List.mem_cons, List.not_mem_nil, String.reduceEq, or_self, ↓reduceIte]
    exact ⟨_, _, _, _, rfl, rfl, rfl⟩
  obtain ⟨v, w, p₁, p₂, hv, hw, hplain⟩ := hcalls
  have hsteady : ∀ value, (p₂.cell .font "plain").memo = .valid value →
      Steady (· = copiedFonts.surroundings) .font value := by
    rintro value - s s' rfl rfl
    exact ⟨rfl, rfl⟩
  obtain ⟨rfl, hsame⟩ := (alias_resolves_as_target copiedFonts.document (· = copiedFonts.surroundings) .font
    "title" "plain" aliases_title rfl).2 {} _ v w p₁ p₂ .start rfl (.inl ⟨hv, hw⟩) hsteady
  exact ⟨v, v, p₁, p₂, hv, hw, rfl, hsame.trans hplain⟩

/-- A font stays valid when the catalog is replaced; a copy that is resolved afterwards is not, if the new catalog
does not know the family. -/
theorem not_alias_resolves_as_target :
    ∃ u, Operation.performAll { reading := copiedFonts }
        [.call (.resolve .font "plain"), .setCatalog .bare, .call (.resolve .font "heading")] = .ok u ∧
      copiedFonts.document.Aliases .font "heading" "plain" ∧
      (u.progress.cell .font "plain").memo.isValid = true ∧
      (u.progress.cell .font "heading").memo = .invalid Font.invalid := by
  have hcalls : ∃ p p', (Call.resolve .font "plain").run copiedFonts {} = .ok () p ∧
      (Call.resolve .font "heading").run { copiedFonts with surroundings.catalog := .bare } p = .ok () p' ∧
      (p'.cell .font "plain").memo.isValid = true ∧ (p'.cell .font "heading").memo = .invalid Font.invalid := by
    simp only [Call.run, resolve, resolve?, font, resolveFont_found copiedFonts_plain,
      resolveFont_found copiedFonts_heading, FontLayers.compute, FontLayers.baseDescriptor, DesignTokens.fetch,
      copyOf_plainFont, List.mem_cons, List.not_mem_nil, String.reduceEq, or_self, ↓reduceIte]
    exact ⟨_, _, rfl, rfl, rfl, rfl⟩
  obtain ⟨p, p', hfirst, hsecond, hplain, hheading⟩ := hcalls
  refine ⟨⟨{ copiedFonts with surroundings.catalog := .bare }, p'⟩, ?_,
    ⟨⟨_, copiedFonts_heading, rfl⟩, by decide, by decide⟩, hplain, hheading⟩
  simp only [Operation.performAll, Operation.perform, bind, Except.bind, hfirst, hsecond]

end Document

end DesignTokens
