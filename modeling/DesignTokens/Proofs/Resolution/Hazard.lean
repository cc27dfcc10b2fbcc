import DesignTokens.Proofs.Document.Names
import DesignTokens.Proofs.Resolution.ColorScale

/-!
# Where faults come from

Reading a document is guarded nearly everywhere, so that whatever is wrong with an entry ends in a notice. What is
left are a few places, and `Document.Hazard` lists them by what stands in the document, or by what a file holds: a
number whose exponent is not ASCII; an attribute of a font under a marked name, which is taken as it is, used as a
text or as a size; a background that is too large to be drawn; a path that no file can have; an image file with
chunks that are no chunks; and an image file in no folder at all.

A value fits its entry (`Document.Fits`) if it is one that the computation of the entry can come to. In a table of
fitting values, the computation of every entry finds a fitting value, or it ends in a fault that comes from one of
those places.

* `FontLayers.compute_ends`, `ImageLayers.compute_ends`, `ButtonLayers.compute_ends` — the kinds of entries.
* `Reading.compute_ends` — all of them as one.
-/

namespace DesignTokens

open Resolve

/-- The texts that attributes declare under a name. -/
def attributeTexts (name : String) : Option Json → List String
  | some (.object members) => members.filterMap fun (key, value) =>
    match value with
    | .string text => if key = name then some text else none
    | _ => none
  | _ => []

/-- The expressions of the lengths of a background, under their keys. -/
def ImageLayers.lengths (b : Background) : List (String × Option String) :=
  [("lineWidth", b.lineWidth), ("cornerRadius", b.cornerRadius),
   ("minimumWidth", b.minimumWidth), ("minimumHeight", b.minimumHeight)]

/-- The texts of an image that are read as metric expressions. -/
def ImageLayers.expressions (entry : ImageEntry) : List String :=
  (match entry.source with
    | .background b => (lengths b).flatMap (·.2.toList)
    | _ => []) ++ entry.alignmentInsets.toList.flatMap Metric.insetParts

/-- The texts of an entry that are read as metric expressions. -/
def Asset.expressions : (a : Asset) → a.kind.Entry → List String
  | .metric, (text : String) => [text]
  | .color, (raw : String) => ColorText.expressions raw
  | .font, entry => entry.size.toList ++ attributeTexts "size" entry.attributes
  | .textAttributes, entry => attributeTexts "tracking" entry.attributes
  | .image, entry => ImageLayers.expressions entry
  | .buttonStyle, entry => entry.contentInsets.toList.flatMap Metric.insetParts

namespace Document

variable {d : Document} {s : Surroundings}

/-- A font declares an attribute under its marked name, so that it is taken as it is. -/
def Injects (d : Document) (key : String) (value : Json) : Prop :=
  ∃ name entry members marked, d.entry? .font name = some entry ∧ entry.attributes = some (.object members) ∧
    (marked, value) ∈ members ∧ FontLayers.marked? marked = some key

/-- An expression has a value among the metrics of a document; without expression the value is zero. -/
def HasLength (d : Document) : Option String → Float → Prop
  | none, value => value = 0.0
  | some text, value => Metric.Denotes d.sections.metrics (Text.withoutSpaces text) [value]

/-- Expressions under keys have finite values among the metrics of a document. -/
def HasLengths (d : Document) (expressions : List (String × Option String)) (values : List Float) : Prop :=
  List.Forall₂ (fun expression value => value.isFinite = true ∧ d.HasLength expression.2 value) expressions values

/-- The file of an image below the folder of a document. -/
def HasFile (d : Document) (s : Surroundings) (location : Path) : Prop :=
  ∃ name entry path storage, d.entry? .image name = some entry ∧ entry.source = .file path ∧
    s.storage = some storage ∧ location = storage.join (.ofText path)

/-- Places in a document and its surroundings, and the faults that come from them. -/
inductive Hazard (d : Document) (s : Surroundings) : Fault → Prop where
  /-- An expression with a word that has the form of a number and still cannot be read as one. -/
  | literal {a : Asset} {name text : String} {entry : a.kind.Entry} {fault : Fault}
      (hentry : d.entry? a.kind name = some entry) (htext : text ∈ a.expressions entry)
      (hword : Metric.Unreadable text fault) : Hazard d s fault
  /-- A list or an object for the family or the face of a font. -/
  | lookupKey {key : String} {value : Json} {fault : Fault} (hkey : key = "family" ∨ key = "face")
      (hinjects : d.Injects key value) (htruthy : value.isTruthy = true)
      (hvalue : Catalog.lookupText value = .error fault) : Hazard d s fault
  /-- Another value that is no text for the family or the face of a font. -/
  | namePart {key : String} {value : Json} (hkey : key = "family" ∨ key = "face")
      (hinjects : d.Injects key value) (htruthy : value.isTruthy = true)
      (hvalue : Catalog.lookupText value = .ok none) : Hazard d s .fontNamePart
  /-- An integer beyond the doubles for the size of a font. -/
  | pointSize {n : Int} (hinjects : d.Injects "size" (.int n)) (hrange : Number.ofInt? n = none) :
      Hazard d s .pointSizeRange
  /-- A background with something to draw and a least side beyond the doubles. -/
  | background {name : String} {entry : ImageEntry} {b : Background} {lineWidth cornerRadius : Float}
      (hentry : d.entry? .image name = some entry) (hsource : entry.source = .background b)
      (hline : d.HasLength b.lineWidth lineWidth) (hcorner : d.HasLength b.cornerRadius cornerRadius)
      (hcolored : b.fillColor.isSome = true ∨ b.strokeColor.isSome = true ∧ ¬ lineWidth ≤ 0.0)
      (hside : ({ lineWidth, cornerRadius } : BackgroundStyle).leastSide.isFinite = false) :
      Hazard d s .infinitePixels
  /-- An image file without a folder to look in. -/
  | noStorage {name path : String} {entry : ImageEntry} (hentry : d.entry? .image name = some entry)
      (hsource : entry.source = .file path) (hstorage : s.storage = none) : Hazard d s (.storageNotConfigured path)
  /-- A character that no path can have. -/
  | path {location : Path} {defect : Path.Defect} (hfile : d.HasFile s location)
      (hdefect : location.defect? = some defect) : Hazard d s (.path defect)
  /-- An image file with a chunk of an impossible length. -/
  | chunkLength {location : Path} {content : ByteArray} (hfile : d.HasFile s location)
      (hcontent : s.files.read location = .ok content) (hflaw : Png.read content = .error .chunkLength) :
      Hazard d s .imageChunkLength
  /-- An image file whose pixels end in front of something that is no chunk. -/
  | chunkName {location : Path} {content : ByteArray} (hfile : d.HasFile s location)
      (hcontent : s.files.read location = .ok content) (hflaw : Png.read content = .error .chunkName) :
      Hazard d s .imageChunkName

/-- An attribute of a descriptor: injected, or of the sort that attributes under their own names have. -/
def Declares (d : Document) (key : String) (value : Json) : Prop :=
  d.Injects key value ∨
    (key = "family" ∨ key = "face" → ∃ text, value = .string text) ∧ (key = "size" → ∃ x, value = .float x)

/-- Every attribute is one that the fonts of a document may declare. -/
def Traces (d : Document) (attributes : Mapping Json) : Prop :=
  ∀ pair ∈ attributes.toList, d.Declares pair.1 pair.2

/-- A value that an entry of a document may have. -/
def Fits (d : Document) : (a : Asset) → String → a.Value → Prop
  | .metric, name, value => Metric.HasValue d.sections.metrics name value
  | .color, _, color => color.IsModest
  | .font, _, font => d.Traces font.descriptor.attributes
  | .textAttributes, _, _ => True
  | .image, _, _ => True
  | .buttonStyle, _, _ => True

end Document

/-- A table of fitting values. -/
def Oracle.Fits (o : Oracle) (d : Document) : Prop := ∀ a name value, o a name = .found value → d.Fits a name value

/-! ### Fonts -/

namespace Document.Traces

variable {d : Document} {m other : Mapping Json} {key : String} {value : Json}

theorem empty : d.Traces ∅ := fun _ hpair => nomatch hpair

theorem insert (h : d.Traces m) (hvalue : d.Declares key value) : d.Traces (m.insert key value) := by
  intro pair hpair
  rcases Mapping.mem_of_mem_insert hpair with rfl | hbefore
  · exact hvalue
  · exact h pair hbefore

theorem union (h : d.Traces m) (hother : d.Traces other) : d.Traces (m.union other) := by
  intro pair hpair
  rcases Mapping.mem_of_mem_union hpair with hbefore | hnew
  · exact h pair hbefore
  · exact hother pair hnew

theorem erase (h : d.Traces m) (name : String) : d.Traces (m.erase name) :=
  fun pair hpair => h pair (List.mem_filter.mp hpair).1

theorem insert_size (h : d.Traces m) (x : Float) : d.Traces (m.insert "size" (.float x)) :=
  h.insert (.inr ⟨fun hkey => absurd hkey (by decide), fun _ => ⟨x, rfl⟩⟩)

theorem insert_text (h : d.Traces m) (text : String) (hkey : key ≠ "size") : d.Traces (m.insert key (.string text)) :=
  h.insert (.inr ⟨fun _ => ⟨text, rfl⟩, fun hsize => absurd hsize hkey⟩)

/-- The family or face of a descriptor is a text or injected. -/
theorem family_or_face (h : d.Traces m) (hkey : key = "family" ∨ key = "face")
    (hvalue : FontDescriptor.attribute? ⟨m⟩ key = some value) :
    d.Injects key value ∨ ∃ text, value = .string text := by
  have hfound : m.find? key = some value := by
    unfold FontDescriptor.attribute? at hvalue
    split at hvalue
    · cases hvalue
    · exact hvalue
  rcases h _ (Mapping.mem_of_find? hfound) with hinjects | ⟨htext, -⟩
  · exact .inl hinjects
  · exact .inr (htext hkey)

/-- A size that is an integer has been injected. -/
theorem size (h : d.Traces m) {n : Int} (hvalue : FontDescriptor.attribute? ⟨m⟩ "size" = some (.int n)) :
    d.Injects "size" (.int n) := by
  have hfound : m.find? "size" = some (.int n) := by
    unfold FontDescriptor.attribute? at hvalue
    split at hvalue
    · cases hvalue
    · exact hvalue
  rcases h _ (Mapping.mem_of_find? hfound) with hinjects | ⟨-, hfloat⟩
  · exact hinjects
  · obtain ⟨x, hx⟩ := hfloat rfl
    cases hx

end Document.Traces

namespace Catalog

variable {c : Catalog} {d : FontDescriptor} {fault : Fault}

/-- A value that cannot be looked up, or can be looked up and cannot be put into a name. -/
def IsNoName (value : Json) (fault : Fault) : Prop :=
  lookupText value = .error fault ∨ lookupText value = .ok none ∧ fault = .fontNamePart

theorem isNoName_of_namePart {value : Json} {found : Option String} (hlookup : lookupText value = .ok found)
    (hpart : namePart value = .error fault) : IsNoName value fault := by
  right
  cases value <;> cases hpart <;> exact ⟨by cases hlookup <;> rfl, rfl⟩

theorem not_isNoName_string (text : String) : ¬ IsNoName (.string text) fault := by
  simp [IsNoName, lookupText]

/-- The face that a descriptor asks for is the default one, or what the descriptor gives. -/
theorem requestedFace_cases (d : FontDescriptor) :
    requestedFace d = .string defaultFace ∨
      d.attribute? "face" = some (requestedFace d) ∧ (requestedFace d).isTruthy = true := by
  unfold requestedFace FontDescriptor.face?
  cases hface : d.attribute? "face" with
  | none => exact .inl rfl
  | some face =>
    dsimp only
    split
    · next htruthy => exact .inr ⟨rfl, htruthy⟩
    · exact .inl rfl

/-- Where a descriptor gives no name, its name is made of texts unless the family or the face is no name. -/
theorem expectedName_eq_error (h : c.expectedName d = .error fault) :
    ∃ key value, (key = "family" ∨ key = "face") ∧ d.attribute? key = some value ∧ value.isTruthy = true ∧
      IsNoName value fault := by
  unfold expectedName at h
  split at h
  · cases h
  split at h
  · cases h
  next family hfamily =>
  obtain ⟨hfamily, htruthy⟩ := Option.filter_eq_some_iff.mp hfamily
  suffices hbad : IsNoName family fault ∨ IsNoName (requestedFace d) fault by
    rcases hbad with hbad | hbad
    · exact ⟨"family", family, .inl rfl, hfamily, htruthy, hbad⟩
    · rcases requestedFace_cases d with hdefault | ⟨hface, htruthy⟩
      · rw [hdefault] at hbad
        exact absurd hbad (not_isNoName_string _)
      · exact ⟨"face", _, .inr rfl, hface, htruthy, hbad⟩
  cases hlookup : lookupText family with
  | error other =>
    simp only [hlookup, bind, Except.bind] at h
    cases h
    exact .inl (.inl hlookup)
  | ok found =>
    cases hlookup' : lookupText (requestedFace d) with
    | error other =>
      simp only [hlookup, hlookup', bind, Except.bind] at h
      cases h
      exact .inr (.inl hlookup')
    | ok found' =>
      simp only [hlookup, hlookup', bind, Except.bind] at h
      split at h
      · cases h
      cases hpart : namePart family with
      | error other =>
        simp only [hpart] at h
        cases h
        exact .inl (isNoName_of_namePart hlookup hpart)
      | ok part =>
        cases hpart' : namePart (requestedFace d) with
        | error other =>
          simp only [hpart, hpart'] at h
          cases h
          exact .inr (isNoName_of_namePart hlookup' hpart')
        | ok part' =>
          simp only [hpart, hpart'] at h
          cases h

/-- A descriptor that asks for a name gets a font. -/
theorem realize_ok {expected : Json} (h : c.expectedName d = .ok (some expected)) : ∃ font, c.realize d = .ok font := by
  unfold realize
  unfold expectedName at h
  split
  · exact ⟨_, rfl⟩
  next hname =>
  simp only [hname] at h
  split
  · exact ⟨_, rfl⟩
  next family hfamily =>
  split at h
  · cases h
  next family' hfamily' =>
  obtain rfl : family = family' := by simpa [hfamily] using (Option.filter_eq_some_iff.mp hfamily').1
  cases hlookup : lookupText family with
  | error fault =>
    simp only [hlookup, bind, Except.bind] at h
    cases h
  | ok found =>
    cases hlookup' : lookupText (requestedFace d) with
    | error fault =>
      simp only [hlookup, hlookup', bind, Except.bind] at h
      cases h
    | ok found' =>
      simp only [bind, Except.bind]
      split
      · exact ⟨_, rfl⟩
      split
      · exact ⟨_, rfl⟩
      split
      · exact ⟨_, rfl⟩
      split <;> exact ⟨_, rfl⟩

end Catalog

theorem mem_attributeTexts {key text : String} {members : List (String × Json)}
    (h : (key, .string text) ∈ members) : text ∈ attributeTexts key (some (.object members)) :=
  List.mem_filterMap.mpr ⟨_, h, by simp⟩

namespace FontLayers

variable {d : Document} {s : Surroundings} {o : Oracle} {may : Fault → Prop} {owner : String}

theorem attributes_ends {declared : List (String × Json)} {read : Mapping Json}
    (hmay : ∀ value fault, ("size", value) ∈ declared → Metric.UnreadableJson value fault → may fault)
    (hinjects : ∀ key value name, (key, value) ∈ declared → marked? key = some name → d.Injects name value)
    (hread : d.Traces read) :
    Finds d.Traces may (attributes (Resolvers.probe o).metric owner declared read) := by
  induction declared generalizing read with
  | nil => exact .some hread
  | cons member rest ih =>
    obtain ⟨key, value⟩ := member
    have hrest {read : Mapping Json} (hread : d.Traces read) :
        Finds d.Traces may (attributes (Resolvers.probe o).metric owner rest read) :=
      ih (fun value fault hmem => hmay value fault (List.mem_cons_of_mem _ hmem))
        (fun key value name hmem => hinjects key value name (List.mem_cons_of_mem _ hmem)) hread
    unfold attributes
    split
    · next name hmarked =>
      exact hrest (hread.insert (.inl (hinjects key value name (List.mem_cons_self ..) hmarked)))
    split
    · exact .reject
    split
    · next hsize =>
      subst hsize
      have htame (text : String) (htext : value = .string text) : Metric.Tame (Resolvers.probe o).metric may text :=
        .probe fun fault h => hmay value fault (List.mem_cons_self ..) ⟨text, htext, h⟩
      refine (Metric.extractOneJson_answers htame).bind fun size _ => ?_
      rcases size with _ | ⟨size, dependencies⟩
      · exact .reject
      · exact Ends.dependOn.bind fun _ _ => hrest (hread.insert_size size)
    next hsize =>
    split
    · next text => exact hrest (hread.insert_text text hsize)
    · split
      · exact .reject
      · next hother =>
        refine hrest (hread.insert (.inr ⟨?_, fun h => absurd h hsize⟩))
        rintro (rfl | rfl) <;> exact absurd (by decide) hother

theorem realize_ends {catalog : Catalog} {descriptor : FontDescriptor} (h : d.Traces descriptor.attributes) :
    Finds (fun font => d.Traces font.descriptor.attributes) (d.Hazard s) (realize catalog descriptor) := by
  have hexpected : Ends (fun x => catalog.expectedName descriptor = .ok x) (d.Hazard s)
      (Resolve.lift (catalog.expectedName descriptor)) := by
    refine .lift (fun _ => id) fun fault herror => ?_
    obtain ⟨key, value, hkey, hvalue, htruthy, hbad⟩ := Catalog.expectedName_eq_error herror
    rcases h.family_or_face hkey hvalue with hinjects | ⟨text, rfl⟩
    · rcases hbad with hlookup | ⟨hlookup, rfl⟩
      · exact .lookupKey hkey hinjects htruthy hlookup
      · exact .namePart hkey hinjects htruthy hlookup
    · exact absurd hbad (Catalog.not_isNoName_string text)
  have hsize : Ends (fun _ => True) (d.Hazard s) (Resolve.lift descriptor.size?) := by
    refine .lift (fun _ _ => trivial) fun fault herror => ?_
    unfold FontDescriptor.size? at herror
    split at herror
    · cases herror
    · next n hn =>
      split at herror
      · cases herror
      · next hrange =>
        cases herror
        exact .pointSize (h.size hn) hrange
    · cases herror
  refine hexpected.bind fun expected hok => ?_
  cases expected with
  | none => exact .reject
  | some expected =>
    obtain ⟨font, hfont⟩ := Catalog.realize_ok hok
    simp only [hfont, Resolve.lift, pure_bind]
    split
    · exact .reject
    · exact hsize.bind fun pointSize _ => .some (h.insert_size _)

theorem baseDescriptor_ends {entry : FontEntry} (ho : o.Fits d) :
    Finds (fun descriptor => d.Traces descriptor.attributes) may
      (baseDescriptor (Resolvers.probe o .font) owner entry) := by
  unfold baseDescriptor
  split
  · exact .some .empty
  · next base _ =>
    refine Ends.dependOn.bind fun _ _ => Ends.fetch.bind fun font hfont => ?_
    cases font with
    | none => exact .none
    | some font => exact .some (ho .font base font (hfont font rfl))

theorem addAttributes_ends {name : String} {entry : FontEntry} (hentry : d.entry? .font name = some entry)
    (hmay : ∀ text ∈ attributeTexts "size" entry.attributes, ∀ fault, Metric.Unreadable text fault → may fault)
    {descriptor : FontDescriptor} (h : d.Traces descriptor.attributes) :
    Finds (fun descriptor => d.Traces descriptor.attributes) may
      (addAttributes (Resolvers.probe o).metric owner entry descriptor) := by
  unfold addAttributes
  split
  · exact .some h
  · next members hmembers =>
    rw [hmembers] at hmay
    have hattributes : Finds d.Traces may (attributes (Resolvers.probe o).metric owner members ∅) := by
      refine attributes_ends ?_ (fun key value name hmem hmarked => ?_) .empty
      · rintro value fault hmem ⟨text, rfl, hword⟩
        exact hmay text (mem_attributeTexts hmem) fault hword
      · exact ⟨_, entry, members, key, hentry, hmembers, hmem, hmarked⟩
    refine hattributes.bind fun read hread => ?_
    cases read with
    | none => exact .none
    | some read => exact .some (h.union (hread read rfl))
  · exact .reject

theorem addNames_traces {entry : FontEntry} {descriptor : FontDescriptor} (h : d.Traces descriptor.attributes) :
    d.Traces (addNames entry descriptor).attributes := by
  have hfamily (descriptor : FontDescriptor) (h : d.Traces descriptor.attributes) (family : String) :
      d.Traces (descriptor.withFamily (.string family)).attributes :=
    (h.erase "name").insert_text family (by decide)
  have hface (descriptor : FontDescriptor) (h : d.Traces descriptor.attributes) (face : String) :
      d.Traces (descriptor.withFace (.string face)).attributes :=
    (h.erase "name").insert_text face (by decide)
  unfold addNames
  cases entry.family.filter (!·.isEmpty) with
  | none =>
    cases entry.face.filter (!·.isEmpty) with
    | none => exact h
    | some face => exact hface _ h face
  | some family =>
    cases entry.face.filter (!·.isEmpty) with
    | none => exact hfamily _ h family
    | some face => exact hface _ (hfamily _ h family) face

theorem addSize_ends {entry : FontEntry}
    (hmay : ∀ text ∈ entry.size, ∀ fault, Metric.Unreadable text fault → may fault)
    {descriptor : FontDescriptor} (h : d.Traces descriptor.attributes) :
    Finds (fun descriptor => d.Traces descriptor.attributes) may
      (addSize (Resolvers.probe o).metric owner entry descriptor) := by
  unfold addSize
  split
  · exact .some h
  · next size hsize =>
    have hgiven : entry.size = some size := (Option.filter_eq_some_iff.mp hsize).1
    refine (Metric.extractOne_ends (hmay size hgiven)).bind fun read _ => ?_
    rcases read with _ | ⟨value, dependencies⟩
    · exact .reject
    · exact Ends.dependOn.bind fun _ _ => .some (h.insert_size value)

theorem compute_ends {catalog : Catalog} {name : String} {entry : FontEntry}
    (hentry : d.entry? .font name = some entry) (ho : o.Fits d) :
    Finds (fun font => d.Traces font.descriptor.attributes) (d.Hazard s)
      (compute (Resolvers.probe o).metric catalog (Resolvers.probe o .font) owner entry) := by
  have hmay (text : String) (htext : text ∈ Asset.expressions .font entry) (fault : Fault)
      (hword : Metric.Unreadable text fault) : d.Hazard s fault := .literal (a := .font) hentry htext hword
  refine (baseDescriptor_ends ho).bind fun base hbase => ?_
  cases base with
  | none => exact .none
  | some base =>
    have hdeclared (text : String) (htext : text ∈ attributeTexts "size" entry.attributes) :=
      hmay text (List.mem_append_right _ htext)
    refine (addAttributes_ends hentry hdeclared (hbase base rfl)).bind fun declared htraces => ?_
    cases declared with
    | none => exact .none
    | some declared =>
      have hsize (text : String) (htext : text ∈ entry.size) :=
        hmay text (List.mem_append_left _ (Option.mem_toList.mpr htext))
      refine (addSize_ends hsize (addNames_traces (htraces declared rfl))).bind fun descriptor hdescriptor => ?_
      cases descriptor with
      | none => exact .none
      | some descriptor => exact realize_ends (hdescriptor descriptor rfl)

end FontLayers

/-! ### Text attributes -/

namespace TextLayers

variable {o : Oracle} {may : Fault → Prop} {owner : String}

theorem named_ends {a : Asset} {key : String} {value : Json} :
    Finds (fun _ => True) may (named a (Resolvers.probe o a) owner key value) := by
  unfold named
  split
  · exact Ends.dependOn.bind fun _ _ => Ends.fetch.weaken fun _ _ _ _ => trivial
  · exact .reject

theorem readAttribute_ends {draft : Draft} {key : String} {value : Json}
    (hmay : key = "tracking" → ∀ fault, Metric.UnreadableJson value fault → may fault) :
    Ends (fun _ => True) may (readAttribute (.of (Resolvers.probe o)) owner draft key value) := by
  unfold readAttribute
  split
  · refine named_ends.bind fun font _ => ?_
    cases font <;> exact .pure trivial
  split
  · refine named_ends.bind fun color _ => ?_
    cases color <;> exact .pure trivial
  split
  · next htracking =>
    have htame (text : String) (htext : value = .string text) : Metric.Tame (Resolvers.probe o).metric may text :=
      .probe fun fault h => hmay htracking fault ⟨text, htext, h⟩
    refine (Metric.extractOneJson_answers htame).bind fun tracking _ => ?_
    rcases tracking with _ | ⟨tracking, dependencies⟩
    · exact Ends.warn.bind fun _ _ => .pure trivial
    · exact Ends.dependOn.bind fun _ _ => .pure trivial
  split
  · exact Ends.warn.bind fun _ _ => .pure trivial
  · exact Ends.warn.bind fun _ _ => .pure trivial

theorem readAttributes_ends {declared : List (String × Json)} {draft : Draft}
    (hmay : ∀ value fault, ("tracking", value) ∈ declared → Metric.UnreadableJson value fault → may fault) :
    Ends (fun _ => True) may (readAttributes (.of (Resolvers.probe o)) owner declared draft) := by
  induction declared generalizing draft with
  | nil => exact .pure trivial
  | cons member rest ih =>
    obtain ⟨key, value⟩ := member
    refine (readAttribute_ends ?_).bind fun draft _ =>
      ih fun value fault hmem => hmay value fault (List.mem_cons_of_mem _ hmem)
    rintro rfl fault hword
    exact hmay value fault (List.mem_cons_self ..) hword

theorem baseDraft_ends {entry : TextAttributesEntry} :
    Ends (fun _ => True) may (baseDraft (Resolvers.probe o .textAttributes) owner entry) := by
  unfold baseDraft
  split
  · exact .pure trivial
  · refine Ends.dependOn.bind fun _ _ => Ends.fetch.bind fun value _ => ?_
    cases value <;> exact .pure trivial

theorem addKern_ends {draft : Draft} : Ends (fun _ => True) may (addKern draft) := by
  unfold addKern
  split
  · split
    · exact .pure trivial
    · exact Ends.warn.bind fun _ _ => .pure trivial
  · exact .pure trivial

theorem compute_ends {entry : TextAttributesEntry}
    (hmay : ∀ text ∈ Asset.expressions .textAttributes entry, ∀ fault, Metric.Unreadable text fault → may fault) :
    Finds (fun _ => True) may
      (compute (.of (Resolvers.probe o)) (Resolvers.probe o .textAttributes) owner entry) := by
  refine baseDraft_ends.bind fun base _ => ?_
  cases hattributes : declared? entry with
  | error value => exact .reject
  | ok declared =>
    refine (readAttributes_ends ?_).bind fun draft _ => addKern_ends.bind fun draft _ => ?_
    · rintro value fault hmem ⟨text, rfl, hword⟩
      refine hmay text ?_ fault hword
      unfold declared? at hattributes
      split at hattributes
      · cases hattributes
        cases hmem
      · next members hmembers =>
        cases hattributes
        change text ∈ attributeTexts "tracking" entry.attributes
        rw [hmembers]
        exact mem_attributeTexts hmem
      · cases hattributes
    · split
      · exact .some trivial
      · exact .reject

end TextLayers

/-! ### Images -/

namespace ImageLayers

variable {d : Document} {s : Surroundings} {o : Oracle} {may : Fault → Prop} {owner : String}
  {hasPlacement : String → Bool}

theorem ofFile_ends {name path : String} {entry : ImageEntry} (hentry : d.entry? .image name = some entry)
    (hsource : entry.source = .file path) : Finds (fun _ => True) (d.Hazard s) (ofFile s path) := by
  unfold ofFile
  split
  · next hnone => exact .throw (.noStorage hentry hsource hnone)
  next storage hsome =>
  have hfile : d.HasFile s (storage.join (.ofText path)) := ⟨name, entry, path, storage, hentry, hsource, hsome, rfl⟩
  dsimp only
  split
  · next defect hdefect => exact .throw (.path hfile hdefect)
  split
  · exact .reject
  next content hcontent =>
  split
  · exact .reject
  split
  · exact .some trivial
  · exact .reject
  · exact .reject
  · next hflaw => exact .throw (.chunkLength hfile hcontent hflaw)
  · next hflaw => exact .throw (.chunkName hfile hcontent hflaw)

/-- What a background has for a color: none if it names none. -/
theorem backgroundColor_ends {key : String} {name : Option String} (ho : o.Fits d) :
    Finds (fun color => color.isSome = name.isSome ∧ ∀ c ∈ color, c.IsModest) may
      (backgroundColor (.of (Resolvers.probe o) hasPlacement) owner key name) := by
  unfold backgroundColor
  split
  · exact .some ⟨rfl, by simp⟩
  · next name =>
    refine Ends.fetch.bind fun color hcolor => ?_
    cases color with
    | none => exact .none
    | some color =>
      have hmodest : color.IsModest := ho .color name color (hcolor color rfl)
      exact Ends.dependOn.bind fun _ _ => .some ⟨rfl, fun _ hc => Option.some.inj hc ▸ hmodest⟩

theorem hasLength_of_hasOne {text : String} {value : Float} (ho : o.Fits d) (h : Metric.HasOne o text value) :
    d.HasLength (some text) value := (h.2.mono fun name value => ho .metric name value).denotes_words

theorem backgroundLength_ends {key : String} {expression : Option String} (ho : o.Fits d)
    (hmay : ∀ text ∈ expression, ∀ fault, Metric.Unreadable text fault → may fault) :
    Finds (fun value => value.isFinite = true ∧ d.HasLength expression value) may
      (backgroundLength (.of (Resolvers.probe o) hasPlacement) owner key expression) := by
  unfold backgroundLength
  split
  · exact .some ⟨rfl, rfl⟩
  · next text =>
    refine (Metric.extractOne_ends (hmay text rfl)).bind fun read hread => ?_
    rcases read with _ | ⟨value, dependencies⟩
    · exact .none
    · have hone := hread _ rfl
      exact Ends.dependOn.bind fun _ _ => .some ⟨hone.1, hasLength_of_hasOne ho hone⟩

theorem backgroundLengths_ends {expressions : List (String × Option String)} (ho : o.Fits d)
    (hmay : ∀ expression ∈ expressions, ∀ text ∈ expression.2, ∀ fault, Metric.Unreadable text fault → may fault) :
    Finds (d.HasLengths expressions) may
      (backgroundLengths (.of (Resolvers.probe o) hasPlacement) owner expressions) := by
  induction expressions with
  | nil => exact .some .nil
  | cons expression rest ih =>
    refine (backgroundLength_ends ho (hmay expression (List.mem_cons_self ..))).bind fun value hvalue => ?_
    cases value with
    | none => exact .none
    | some value =>
      refine (ih fun other hother => hmay other (List.mem_cons_of_mem _ hother)).bind fun others hothers => ?_
      cases others with
      | none => exact .none
      | some others => exact .some (.cons (hvalue value rfl) (hothers others rfl))

theorem mem_expressions {entry : ImageEntry} {b : Background} (hsource : entry.source = .background b)
    {expression : String × Option String} (hexpression : expression ∈ lengths b) {text : String}
    (htext : text ∈ expression.2) : text ∈ expressions entry := by
  unfold expressions
  rw [hsource]
  exact List.mem_append_left _ (List.mem_flatMap.mpr ⟨expression, hexpression, Option.mem_toList.mpr htext⟩)

/-- A background that cannot be drawn is a hazard. -/
theorem draw_ends {name : String} {entry : ImageEntry} {b : Background} {style : BackgroundStyle}
    (hentry : d.entry? .image name = some entry) (hsource : entry.source = .background b)
    (hfill : style.fill.isSome = b.fillColor.isSome ∧ ∀ c ∈ style.fill, c.IsModest)
    (hstroke : style.stroke.isSome = b.strokeColor.isSome ∧ ∀ c ∈ style.stroke, c.IsModest)
    (hline : style.lineWidth.isFinite = true ∧ d.HasLength b.lineWidth style.lineWidth)
    (hcorner : style.cornerRadius.isFinite = true ∧ d.HasLength b.cornerRadius style.cornerRadius)
    (hwidth : style.minimumWidth.isFinite = true) (hheight : style.minimumHeight.isFinite = true) :
    Ends (fun _ => True) (d.Hazard s) (Resolve.lift style.draw) := by
  refine .lift (fun _ _ => trivial) fun fault herror => ?_
  obtain ⟨rfl, hside, hcolored⟩ :=
    BackgroundStyle.draw_eq_error hfill.2 hstroke.2 hline.1 hcorner.1 hwidth hheight herror
  rw [hfill.1, hstroke.1] at hcolored
  exact .background hentry hsource hline.2 hcorner.2 hcolored hside

theorem ofBackground_ends {name : String} {entry : ImageEntry} {b : Background}
    (hentry : d.entry? .image name = some entry) (hsource : entry.source = .background b) (ho : o.Fits d) :
    Finds (fun _ => True) (d.Hazard s) (ofBackground (.of (Resolvers.probe o) hasPlacement) owner b) := by
  have hlengths : Finds (d.HasLengths (lengths b)) (d.Hazard s)
      (backgroundLengths (.of (Resolvers.probe o) hasPlacement) owner (lengths b)) :=
    backgroundLengths_ends ho fun expression hexpression text htext fault hword =>
      .literal (a := .image) hentry (mem_expressions hsource hexpression htext) hword
  unfold ofBackground
  refine Ends.bind (backgroundColor_ends ho) fun fill hfill => ?_
  cases fill with
  | none => exact .none
  | some fill =>
  refine Ends.bind (backgroundColor_ends ho) fun stroke hstroke => ?_
  cases stroke with
  | none => exact .none
  | some stroke =>
  refine hlengths.bind fun lengths hlengths => ?_
  split
  · next lineWidth cornerRadius minimumWidth minimumHeight =>
    have hall := hlengths _ rfl
    simp only [Document.HasLengths, lengths, List.forall₂_cons] at hall
    obtain ⟨hline, hcorner, hwidth, hheight, -⟩ := hall
    have hdraw : Ends (fun _ => True) (d.Hazard s) (Resolve.lift
        (BackgroundStyle.draw { fill, stroke, lineWidth, cornerRadius, minimumWidth, minimumHeight })) :=
      draw_ends hentry hsource (hfill fill rfl) (hstroke stroke rfl) hline hcorner hwidth.1 hheight.1
    exact hdraw.bind fun image _ => .some trivial
  · exact .none

theorem base_ends {name : String} {entry : ImageEntry} (hentry : d.entry? .image name = some entry)
    (ho : o.Fits d) :
    Finds (fun _ => True) (d.Hazard s)
      (base (.of (Resolvers.probe o) hasPlacement) s (Resolvers.probe o .image) owner entry) := by
  unfold base
  split
  · next base _ =>
    have hfetch : Finds (fun image => o .image base = .found image) (d.Hazard s)
        (fetch .image (Resolvers.probe o .image) base "basedOn" .image) := .fetch
    exact Ends.dependOn.bind fun _ _ => hfetch.weaken fun _ _ _ _ => trivial
  · next path hsource => exact ofFile_ends hentry hsource
  · next b hsource => exact ofBackground_ends hentry hsource ho

theorem addInsets_ends {entry : ImageEntry} {image : Image}
    (hmay : ∀ text ∈ expressions entry, ∀ fault, Metric.Unreadable text fault → may fault) :
    Finds (fun _ => True) may (addInsets (.of (Resolvers.probe o) hasPlacement) owner entry image) := by
  unfold addInsets
  split
  · exact .some trivial
  · next raw hraw =>
    refine (Metric.extractInsets_answers fun text htext => .probe (hmay text ?_)).bind fun read _ => ?_
    · unfold expressions
      rw [hraw]
      exact List.mem_append_right _ (List.mem_flatMap.mpr ⟨raw, by simp, htext⟩)
    · cases read with
      | none => exact .none
      | some read => exact Ends.dependOn.bind fun _ _ => .some trivial

theorem addPlacement_ends {refs : References} {entry : ImageEntry} {image : Image} :
    Finds (fun _ => True) may (addPlacement refs owner entry image) := by
  unfold addPlacement
  split
  · exact .some trivial
  split
  · exact Ends.dependOn.bind fun _ _ => .some trivial
  · exact .reject

theorem compute_ends {name : String} {entry : ImageEntry} (hentry : d.entry? .image name = some entry)
    (ho : o.Fits d) :
    Finds (fun _ => True) (d.Hazard s)
      (compute (.of (Resolvers.probe o) hasPlacement) s (Resolvers.probe o .image) owner entry) := by
  refine (base_ends hentry ho).bind fun image _ => ?_
  cases image with
  | none => exact .none
  | some image =>
    refine (addInsets_ends fun text htext fault hword => .literal (a := .image) hentry htext hword).bind
      fun image _ => ?_
    cases image with
    | none => exact .none
    | some image => exact addPlacement_ends

end ImageLayers

/-! ### Button styles -/

namespace ButtonLayers

variable {o : Oracle} {may : Fault → Prop} {owner : String}

theorem element_ends {a : Asset} {key : String} {name : Option String} :
    Ends (fun _ => True) may (element a (Resolvers.probe o a) owner key name) := by
  unfold element
  split
  · exact .pure trivial
  · refine Ends.fetch.bind fun value _ => ?_
    cases value with
    | none => exact .pure trivial
    | some value => exact Ends.dependOn.bind fun _ _ => .pure trivial

theorem stateElements_ends {names : ElementNames} :
    Ends (fun _ => True) may (stateElements (.of (Resolvers.probe o)) owner names) := by
  refine element_ends.bind fun titleAttributes _ => element_ends.bind fun titleImage _ =>
    element_ends.bind fun backgroundImage _ => ?_
  dsimp only
  split <;> exact .pure trivial

theorem states_ends {declared : List (ButtonState × Option ElementNames)} :
    Ends (fun _ => True) may (states (.of (Resolvers.probe o)) owner declared) := by
  induction declared with
  | nil => exact .pure trivial
  | cons state rest ih =>
    rcases state with ⟨state, _ | names⟩
    · exact ih
    · exact stateElements_ends.bind fun elements _ => ih.bind fun others _ => .pure trivial

theorem contentInsets_ends {raw : Option String}
    (hmay : ∀ text ∈ raw.toList.flatMap Metric.insetParts, ∀ fault, Metric.Unreadable text fault → may fault) :
    Ends (fun _ => True) may (contentInsets (.of (Resolvers.probe o)) owner raw) := by
  unfold contentInsets
  split
  · exact .pure trivial
  · next raw =>
    refine (Metric.extractInsets_answers fun text htext => .probe (hmay text ?_)).bind fun read _ => ?_
    · exact List.mem_flatMap.mpr ⟨raw, by simp, htext⟩
    · cases read with
      | none => exact .pure trivial
      | some read => exact Ends.dependOn.bind fun _ _ => .pure trivial

theorem compute_ends {entry : ButtonStyleEntry}
    (hmay : ∀ text ∈ Asset.expressions .buttonStyle entry, ∀ fault, Metric.Unreadable text fault → may fault) :
    Finds (fun _ => True) may (compute (.of (Resolvers.probe o)) owner entry) := by
  refine states_ends.bind fun states _ => (contentInsets_ends hmay).bind fun insets _ =>
    element_ends.bind fun tint _ => ?_
  dsimp only
  split
  · exact .some trivial
  · exact .reject

end ButtonLayers

/-! ### All entries -/

/-- In a table of fitting values every entry comes to a fitting value, if to one at all, and its faults come from the
document and its files. -/
theorem Reading.compute_ends (r : Reading) {o : Oracle} (ho : o.Fits r.document) (a : Asset) {name : String}
    {entry : a.kind.Entry} (hentry : r.document.entry? a.kind name = some entry) :
    Finds (r.document.Fits a name) (r.document.Hazard r.surroundings) (r.compute (Resolvers.probe o) a name entry) := by
  have hmay (text : String) (htext : text ∈ a.expressions entry) (fault : Fault)
      (hword : Metric.Unreadable text fault) : r.document.Hazard r.surroundings fault := .literal hentry htext hword
  cases a with
  | metric =>
    refine (Metric.compute_ends (hmay entry (List.mem_singleton_self _))).weaken fun x hx value hvalue => ?_
    obtain ⟨htext, hone⟩ := hx value hvalue
    exact ⟨entry, hentry, htext, (hone.2.mono fun name value => ho .metric name value).denotes_words⟩
  | color => exact ColorText.compute_ends hmay fun name c => ho .color name c
  | font => exact FontLayers.compute_ends hentry ho
  | textAttributes => exact TextLayers.compute_ends hmay
  | image => exact ImageLayers.compute_ends hentry ho
  | buttonStyle => exact ButtonLayers.compute_ends hmay

end DesignTokens
