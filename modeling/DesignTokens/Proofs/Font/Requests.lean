import DesignTokens.Proofs.Font.Nearest
import DesignTokens.Proofs.Resolution.Mirror

/-!
# What descriptors ask for

A catalog looks at three attributes of a descriptor, and the font takes its size from a fourth. Whatever else is among
the attributes makes no difference, and neither does an explicit name that is empty. Descriptors that agree in this
respect (`FontDescriptor.RequestsAs`) are granted the same font. They go on agreeing when the same is put over them, so
that two computations of a font match as soon as their layers do.

* `FontLayers.realize_matches` — what is granted to such descriptors.
* `FontLayers.attributes_cons` — one attribute read by two computations.
* `FontLayers.overlay_matches` — one entry over two such descriptors.
* `FontLayers.compute_matches` — computations of fonts whose layers match.
-/

namespace DesignTokens

open Resolve

/-! ### Requests -/

namespace FontDescriptor

variable {d d' : FontDescriptor} {entry : FontEntry}

/-- The explicit name of a descriptor, if it has one that is not empty. -/
def nameInForce? (d : FontDescriptor) : Option Json := d.name?.filter Json.isTruthy

/-- Two descriptors have the same family, face and size, and the same explicit name in force. -/
structure RequestsAs (d d' : FontDescriptor) : Prop where
  name : d.nameInForce? = d'.nameInForce?
  family : d.family? = d'.family?
  face : d.face? = d'.face?
  size : d.attribute? "size" = d'.attribute? "size"

theorem RequestsAs.refl (d : FontDescriptor) : d.RequestsAs d := ⟨rfl, rfl, rfl, rfl⟩

theorem RequestsAs.symm (h : d.RequestsAs d') : d'.RequestsAs d :=
  ⟨h.name.symm, h.family.symm, h.face.symm, h.size.symm⟩

theorem RequestsAs.trans {d'' : FontDescriptor} (h : d.RequestsAs d') (h' : d'.RequestsAs d'') : d.RequestsAs d'' :=
  ⟨h.name.trans h'.name, h.family.trans h'.family, h.face.trans h'.face, h.size.trans h'.size⟩

/-- An attribute that is added counts, whatever was there before. -/
theorem attribute?_adding (d : FontDescriptor) (added : Mapping Json) (key : String) :
    (d.adding added).attribute? key =
      match added.find? key with
      | some value => (some value).filter (!·.isNull)
      | none => d.attribute? key := by
  rw [attribute?, adding, Mapping.find?_union]
  cases added.find? key with
  | none => rfl
  | some value => cases value <;> rfl

/-- So does an explicit name in force, or one that puts it out of force. -/
theorem nameInForce?_adding (d : FontDescriptor) (added : Mapping Json) :
    (d.adding added).nameInForce? =
      match added.find? "name" with
      | some value => ((some value).filter (!·.isNull)).filter Json.isTruthy
      | none => d.nameInForce? := by
  unfold nameInForce? name?
  rw [attribute?_adding]
  cases added.find? "name" <;> rfl

theorem attribute?_adding_congr {added added' : Mapping Json} {key : String} (h : d.attribute? key = d'.attribute? key)
    (hadded : added.find? key = added'.find? key) :
    (d.adding added).attribute? key = (d'.adding added').attribute? key := by
  rw [attribute?_adding, attribute?_adding, hadded, h]

/-- The names of the attributes that requests depend on. -/
def requestKeys : List String := ["name", "family", "face", "size"]

/-- Two sets of attributes agree where requests depend on them. -/
def SameRequest (added added' : Mapping Json) : Prop := ∀ key ∈ requestKeys, added.find? key = added'.find? key

namespace SameRequest

variable {added added' : Mapping Json} {name : String}

theorem insert (h : SameRequest added added') (name : String) (value : Json) :
    SameRequest (added.insert name value) (added'.insert name value) := by
  intro key hkey
  rw [Mapping.find?_insert, Mapping.find?_insert, h key hkey]

end SameRequest

theorem RequestsAs.adding (h : d.RequestsAs d') {added added' : Mapping Json} (hadded : SameRequest added added') :
    (d.adding added).RequestsAs (d'.adding added') where
  name := by rw [nameInForce?_adding, nameInForce?_adding, hadded "name" (by decide), h.name]
  family := attribute?_adding_congr h.family (hadded "family" (by decide))
  face := attribute?_adding_congr h.face (hadded "face" (by decide))
  size := attribute?_adding_congr h.size (hadded "size" (by decide))

theorem RequestsAs.withSize (h : d.RequestsAs d') (x : Float) : (d.withSize x).RequestsAs (d'.withSize x) where
  name := by
    rw [nameInForce?, nameInForce?, name?, name?, attribute?_withSize _ _ (by decide),
      attribute?_withSize _ _ (by decide)]
    exact h.name
  family := by
    rw [family?, family?, attribute?_withSize _ _ (by decide), attribute?_withSize _ _ (by decide)]
    exact h.family
  face := by
    rw [face?, face?, attribute?_withSize _ _ (by decide), attribute?_withSize _ _ (by decide)]
    exact h.face
  size := by
    simp only [attribute?, FontDescriptor.withSize, Mapping.find?_insert, if_true]

/-- Whether an entry gives a family or a face in its fields. -/
def hasNames (entry : FontEntry) : Bool :=
  (entry.family.filter (!·.isEmpty)).isSome || (entry.face.filter (!·.isEmpty)).isSome

open FontLayers

/-- Names of an entry replace an explicit name. -/
theorem name?_addNames : (addNames entry d).name? = if hasNames entry then none else d.name? := by
  unfold addNames hasNames
  cases entry.family.filter (!·.isEmpty) <;> cases entry.face.filter (!·.isEmpty) <;>
    simp [name?, attribute?, withFamily, withFace, Mapping.find?_insert, Mapping.find?_erase]

/-- A name in a field of an entry counts, whatever was there before. -/
theorem attribute?_addNames (field : NameField) : (addNames entry d).attribute? field.key =
    (((field.value entry).filter (!·.isEmpty)).map Json.string).or (d.attribute? field.key) := by
  rw [attribute?, find?_addNames_key]
  cases (field.value entry).filter (!·.isEmpty) <;> rfl

theorem attribute?_addNames_congr (field : NameField) {entry' : FontEntry}
    (h : d.attribute? field.key = d'.attribute? field.key) (hvalue : field.value entry = field.value entry') :
    (addNames entry d).attribute? field.key = (addNames entry' d').attribute? field.key := by
  rw [attribute?_addNames, attribute?_addNames, hvalue, h]

theorem attribute?_size_addNames : (addNames entry d).attribute? "size" = d.attribute? "size" := by
  rw [attribute?, find?_addNames (by decide)]
  rfl

theorem RequestsAs.addNames {entry' : FontEntry} (h : d.RequestsAs d') (hfamily : entry.family = entry'.family)
    (hface : entry.face = entry'.face) : (addNames entry d).RequestsAs (FontLayers.addNames entry' d') where
  name := by
    have hnames : hasNames entry = hasNames entry' := by rw [hasNames, hasNames, hfamily, hface]
    unfold nameInForce?
    rw [name?_addNames, name?_addNames, hnames]
    split
    · rfl
    · exact h.name
  family := attribute?_addNames_congr .family h.family hfamily
  face := attribute?_addNames_congr .face h.face hface
  size := by
    rw [attribute?_size_addNames, attribute?_size_addNames]
    exact h.size

end FontDescriptor

/-- Two fonts are the same but for what else their descriptors hold. -/
structure Font.Alike (font font' : Font) : Prop where
  name : font.name = font'.name
  family : font.family = font'.family
  face : font.face = font'.face
  pointSize : font.pointSize = font'.pointSize
  descriptor : font.descriptor.RequestsAs font'.descriptor

namespace Catalog

variable {d d' : FontDescriptor}

theorem requestedFace_congr (h : d.RequestsAs d') : requestedFace d = requestedFace d' := by
  rw [requestedFace, requestedFace, h.face]

theorem expectedName_congr (c : Catalog) (h : d.RequestsAs d') : c.expectedName d = c.expectedName d' := by
  have hname : d.name?.filter Json.isTruthy = d'.name?.filter Json.isTruthy := h.name
  rw [expectedName, expectedName, hname, h.family, requestedFace_congr h]

theorem realize_congr (c : Catalog) (h : d.RequestsAs d') : c.realize d = c.realize d' := by
  have hname : d.name?.filter Json.isTruthy = d'.name?.filter Json.isTruthy := h.name
  rw [realize, realize, hname, h.family, requestedFace_congr h]

end Catalog

namespace FontLayers

variable {o o' : Oracle} {d d' : FontDescriptor}

/-- A catalog grants alike fonts to descriptors that ask alike. -/
theorem realize_matches (c : Catalog) (h : d.RequestsAs d') :
    Matches (Option.Rel Font.Alike) (realize c d) (realize c d') := by
  have hsize : d.size? = d'.size? := by rw [FontDescriptor.size?, FontDescriptor.size?, h.size]
  unfold realize
  rw [c.expectedName_congr h, c.realize_congr h, hsize]
  refine (Matches.lift _).bind ?_
  rintro expected _ rfl
  cases expected with
  | none => exact Matches.reject _ _
  | some expected =>
    refine (Matches.lift _).bind ?_
    rintro realized _ rfl
    dsimp only
    split
    · exact Matches.reject _ _
    · refine (Matches.lift _).bind ?_
      rintro size _ rfl
      exact Matches.pure (.some ⟨rfl, rfl, rfl, rfl, h.withSize _⟩)

/-! ### Attributes -/

/-- The name under which an attribute is put down. -/
def attributeName (key : String) : String := (marked? key).getD key

section Attributes

variable {owner : String} {rest rest' : List (String × Json)} {read read' : Mapping Json}
  {T : Mapping Json → Mapping Json → Prop}

theorem extractOneJson_matches (hmetric : o' .metric = o .metric) (expecting : String) (value : Json) :
    Matches Eq (Metric.extractOneJson (Resolvers.probe o).metric expecting value)
      (Metric.extractOneJson (Resolvers.probe o').metric expecting value) := by
  have hinquires : Inquires (Eq Asset.metric) (fun _ _ => True) True _ _ :=
    Metric.extractOneJson_inquires rfl expecting value
  refine Matches.of_inquires hinquires fun a ha => ?_
  subst ha
  exact hmetric

theorem extractOne_matches (hmetric : o' .metric = o .metric) (expecting text : String) :
    Matches Eq (Metric.extractOne (Resolvers.probe o).metric expecting text)
      (Metric.extractOne (Resolvers.probe o').metric expecting text) :=
  extractOneJson_matches hmetric expecting (.string text)

/-- Two computations that read the same attribute match if they do afterwards. -/
theorem attributes_cons (hmetric : o' .metric = o .metric) {key : String} {value : Json}
    (hrest : ∀ value', Matches (Option.Rel T)
      (attributes (Resolvers.probe o).metric owner rest (read.insert (attributeName key) value'))
      (attributes (Resolvers.probe o').metric owner rest' (read'.insert (attributeName key) value'))) :
    Matches (Option.Rel T) (attributes (Resolvers.probe o).metric owner ((key, value) :: rest) read)
      (attributes (Resolvers.probe o').metric owner ((key, value) :: rest') read') := by
  unfold attributes
  cases hmarked : marked? key with
  | some name =>
    have hname : attributeName key = name := by rw [attributeName, hmarked]; rfl
    rw [hname] at hrest
    exact hrest value
  | none =>
    have hname : attributeName key = key := by rw [attributeName, hmarked]; rfl
    rw [hname] at hrest
    dsimp only
    split
    · exact Matches.reject _ _
    split
    · next hsize =>
      subst hsize
      refine (extractOneJson_matches hmetric _ _).bind ?_
      rintro found _ rfl
      cases found with
      | none => exact Matches.reject _ _
      | some found => exact .dependOn (hrest _)
    split
    · exact hrest _
    · split
      · exact Matches.reject _ _
      · exact hrest _

/-- What holds of the attributes read so far is kept by the same attributes. -/
theorem attributes_matches (hmetric : o' .metric = o .metric) {items : List (String × Json)}
    (hkeeps : ∀ item ∈ items, ∀ value m m', T m m' →
      T (m.insert (attributeName item.1) value) (m'.insert (attributeName item.1) value)) (h : T read read') :
    Matches (Option.Rel T) (attributes (Resolvers.probe o).metric owner items read)
      (attributes (Resolvers.probe o').metric owner items read') := by
  induction items generalizing read read' with
  | nil => exact Matches.pure (.some h)
  | cons item rest ih =>
    obtain ⟨hitem, hrest⟩ := List.forall_mem_cons.mp hkeeps
    exact attributes_cons hmetric fun value => ih hrest (hitem value _ _ h)

end Attributes

/-! ### Layers -/

/-- The descriptor that an entry makes of the one below, if its attributes and its size can be read. -/
def overlay (metric : Metric.Lookup) (owner : String) (entry : FontEntry) (base : FontDescriptor) :
    Resolve (Option FontDescriptor) := do
  match ← addAttributes metric owner entry base with
  | none => return none
  | some declared => addSize metric owner entry (addNames entry declared)

theorem compute_eq (metric : Metric.Lookup) (catalog : Catalog) (fonts : String → Resolve (Option Font))
    (owner : String) (entry : FontEntry) :
    compute metric catalog fonts owner entry = (do
      match ← baseDescriptor fonts owner entry with
      | none => return none
      | some base =>
        match ← overlay metric owner entry base with
        | none => return none
        | some d => realize catalog d) := by
  unfold compute overlay
  refine bind_congr fun base => ?_
  cases base with
  | none => rfl
  | some base =>
    simp only [bind_assoc]
    refine bind_congr fun declared => ?_
    cases declared <;> rfl

section Layers

variable {owner : String} {entry entry' : FontEntry} {base base' : FontDescriptor}

theorem addAttributes_matches (hmetric : o' .metric = o .metric) (h : base.RequestsAs base') :
    Matches (Option.Rel FontDescriptor.RequestsAs) (addAttributes (Resolvers.probe o).metric owner entry base)
      (addAttributes (Resolvers.probe o').metric owner entry base') := by
  unfold addAttributes
  split
  · exact Matches.pure (.some h)
  · next items _ =>
    have hitems : Matches (Option.Rel Eq) (attributes (Resolvers.probe o).metric owner items ∅)
        (attributes (Resolvers.probe o').metric owner items ∅) := by
      refine attributes_matches hmetric (fun item _ value m m' hsame => ?_) rfl
      rw [hsame]
    refine hitems.bind fun read read' hread => ?_
    cases hread with
    | none => exact Matches.pure .none
    | some hsame =>
      subst hsame
      exact Matches.pure (.some (h.adding fun _ _ => rfl))
  · exact Matches.reject _ _

theorem addSize_matches (hmetric : o' .metric = o .metric) (hsize : entry.size = entry'.size) (h : d.RequestsAs d') :
    Matches (Option.Rel FontDescriptor.RequestsAs) (addSize (Resolvers.probe o).metric owner entry d)
      (addSize (Resolvers.probe o').metric owner entry' d') := by
  unfold addSize
  rw [hsize]
  split
  · exact Matches.pure (.some h)
  · next size _ =>
    refine (extractOne_matches hmetric _ _).bind ?_
    rintro found _ rfl
    cases found with
    | none => exact Matches.reject _ _
    | some found => exact .dependOn (Matches.pure (.some (h.withSize _)))

/-- One entry puts the same over descriptors that ask alike. -/
theorem overlay_matches (hmetric : o' .metric = o .metric) (h : base.RequestsAs base') :
    Matches (Option.Rel FontDescriptor.RequestsAs) (overlay (Resolvers.probe o).metric owner entry base)
      (overlay (Resolvers.probe o').metric owner entry base') := by
  refine (addAttributes_matches hmetric h).bind fun declared declared' hdeclared => ?_
  cases hdeclared with
  | none => exact Matches.pure .none
  | some hdeclared => exact addSize_matches hmetric rfl (hdeclared.addNames rfl rfl)

/-- What an entry starts from in a document: the descriptor of the font it is based on, or nothing. -/
def StartsFrom (metrics : Mapping String) (fonts : Mapping FontEntry) (entry : FontEntry) (base : FontDescriptor) :
    Prop :=
  match entry.base? with
  | none => base = .empty
  | some below => Describes metrics fonts below base

variable {metrics : Mapping String} {fonts : Mapping FontEntry} {R : String → Font → Font → Prop}

/-- The descriptors below match if the fonts do, and the first is the one that its entry starts from. -/
theorem baseDescriptor_matches (hbase : entry.basedOn = entry'.basedOn)
    (hfonts : ∀ name, (o .font name).Matches (R name) (o' .font name))
    (halike : ∀ name font font', R name font font' →
      font.Alike font' ∧ Describes metrics fonts name font.descriptor) :
    Matches (Option.Rel fun base base' => base.RequestsAs base' ∧ StartsFrom metrics fonts entry base)
      (baseDescriptor ((Resolvers.probe o) .font) owner entry)
      (baseDescriptor ((Resolvers.probe o') .font) owner entry') := by
  unfold baseDescriptor
  rw [← hbase]
  cases hbelow : entry.basedOn.filter (!·.isEmpty) with
  | none =>
    refine Matches.pure (.some ⟨.refl _, ?_⟩)
    simp only [StartsFrom, FontEntry.base?, hbelow]
  | some below =>
    have hfetch := Matches.fetch (a := .font) (hfonts below) "basedOn" "basedOn" .font .font
    refine .dependOn (hfetch.bind fun font font' hfont => ?_)
    cases hfont with
    | none => exact Matches.pure .none
    | some hfont =>
      obtain ⟨hsame, hdescribes⟩ := halike below _ _ hfont
      refine Matches.pure (.some ⟨hsame.descriptor, ?_⟩)
      simpa only [StartsFrom, FontEntry.base?, hbelow] using hdescribes

/-- Computations of fonts match if their layers do. -/
theorem compute_matches (catalog : Catalog) (hbase : entry.basedOn = entry'.basedOn)
    (hfonts : ∀ name, (o .font name).Matches (R name) (o' .font name))
    (halike : ∀ name font font', R name font font' →
      font.Alike font' ∧ Describes metrics fonts name font.descriptor)
    (hlayers : ∀ base base', base.RequestsAs base' → StartsFrom metrics fonts entry base →
      Matches (Option.Rel FontDescriptor.RequestsAs) (overlay (Resolvers.probe o).metric owner entry base)
        (overlay (Resolvers.probe o').metric owner entry' base')) :
    Matches (Option.Rel Font.Alike)
      (compute (Resolvers.probe o).metric catalog ((Resolvers.probe o) .font) owner entry)
      (compute (Resolvers.probe o').metric catalog ((Resolvers.probe o') .font) owner entry') := by
  rw [compute_eq, compute_eq]
  refine (baseDescriptor_matches hbase hfonts halike).bind fun base base' hbases => ?_
  cases hbases with
  | none => exact Matches.pure .none
  | some hbases =>
    refine (hlayers _ _ hbases.1 hbases.2).bind fun d d' hd => ?_
    cases hd with
    | none => exact Matches.pure .none
    | some hd => exact realize_matches catalog hd

end Layers

end FontLayers

end DesignTokens
