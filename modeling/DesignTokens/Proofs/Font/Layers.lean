import Mathlib.Data.List.Perm.Subperm
import DesignTokens.Proofs.Color.Meaning
import DesignTokens.Proofs.Resolution.Alias

/-!
# The layers of fonts

`FontLayers.Describes` says which descriptor a font entry comes to, layer over layer, among the metrics and the fonts
of a document. It mentions neither cells nor catalogs: what the catalogs grant is the font, not what it is asked for.

* `FontLayers.Describes.unique` — an entry comes to one descriptor at most.
* `FontLayers.compute_sound` — the font that a computation finds has the descriptor of its layers.
* `FontLayers.Grants.equal_invalid` — which granted fonts equal the one that stands for invalid fonts.
-/

namespace DesignTokens

namespace FontLayers

/-- The value of a size among attributes, which is a number or an expression. -/
def SizeValue (metrics : Mapping String) : Json → Float → Prop
  | .string text, x => Metric.Denotes metrics (Text.withoutSpaces text) [x]
  | value, x => Metric.finiteNumber? value = some x

/-- The attributes that declared ones come to, over those read before. -/
inductive Declares (metrics : Mapping String) : List (String × Json) → Mapping Json → Mapping Json → Prop where
  | nil {read : Mapping Json} : Declares metrics [] read read
  | marked {key name : String} {value : Json} {rest : List (String × Json)} {read result : Mapping Json}
      (hmarked : marked? key = some name) (hrest : Declares metrics rest (read.insert name value) result) :
      Declares metrics ((key, value) :: rest) read result
  | size {value : Json} {x : Float} {rest : List (String × Json)} {read result : Mapping Json}
      (hvalue : SizeValue metrics value x) (hrest : Declares metrics rest (read.insert "size" (.float x)) result) :
      Declares metrics (("size", value) :: rest) read result
  | plain {key : String} {value : Json} {rest : List (String × Json)} {read result : Mapping Json}
      (hmarked : marked? key = none) (hkey : descriptorKeys.contains key = true) (hsize : key ≠ "size")
      (htext : stringKeys.contains key = true → ∃ text, value = .string text)
      (hrest : Declares metrics rest (read.insert key value) result) :
      Declares metrics ((key, value) :: rest) read result

/-- A descriptor with the attributes of an entry. -/
def WithAttributes (metrics : Mapping String) (entry : FontEntry) (d declared : FontDescriptor) : Prop :=
  match entry.attributes with
  | none => declared = d
  | some (.object items) => ∃ read, Declares metrics items ∅ read ∧ declared = d.adding read
  | some _ => False

/-- A descriptor with the size of an entry. -/
def WithSize (metrics : Mapping String) (entry : FontEntry) (d sized : FontDescriptor) : Prop :=
  match entry.size.filter (!·.isEmpty) with
  | none => sized = d
  | some text => ∃ x, Metric.Denotes metrics (Text.withoutSpaces text) [x] ∧ sized = d.withSize x

/-- The descriptor that an entry makes of another one, complete with a size. -/
def Lays (metrics : Mapping String) (entry : FontEntry) (base d : FontDescriptor) : Prop :=
  ∃ declared sized size, WithAttributes metrics entry base declared ∧
    WithSize metrics entry (addNames entry declared) sized ∧ sized.size? = .ok size ∧
    d = sized.withSize (size.getD defaultPointSize)

/-- The descriptor of a font by the layers of its entry. -/
inductive Describes (metrics : Mapping String) (fonts : Mapping FontEntry) : String → FontDescriptor → Prop where
  | root {name : String} {entry : FontEntry} {d : FontDescriptor} (hentry : fonts.find? name = some entry)
      (hbase : entry.basedOn.filter (!·.isEmpty) = none) (hlays : Lays metrics entry .empty d) :
      Describes metrics fonts name d
  | based {name base : String} {entry : FontEntry} {below d : FontDescriptor} (hentry : fonts.find? name = some entry)
      (hbase : entry.basedOn.filter (!·.isEmpty) = some base) (hbelow : Describes metrics fonts base below)
      (hlays : Lays metrics entry below d) : Describes metrics fonts name d

/-! ### One descriptor at most -/

section Unique

variable {metrics : Mapping String} {fonts : Mapping FontEntry} {entry : FontEntry} {name : String}
  {base d d' : FontDescriptor}

theorem SizeValue.unique {value : Json} {x y : Float} (h : SizeValue metrics value x) (h' : SizeValue metrics value y) :
    x = y := by
  cases value with
  | string text => exact Metric.Denotes.unique h h'
  | _ => exact Option.some.inj (h.symm.trans h')

theorem Declares.unique {declared : List (String × Json)} {read result result' : Mapping Json}
    (h : Declares metrics declared read result) (h' : Declares metrics declared read result') : result = result' := by
  induction h with
  | nil => cases h'; rfl
  | marked hmarked _ ih =>
    cases h' with
    | marked hmarked' hrest' =>
      cases hmarked.symm.trans hmarked'
      exact ih hrest'
    | size _ _ => cases hmarked
    | plain hmarked' _ _ _ _ => cases hmarked.symm.trans hmarked'
  | size hvalue _ ih =>
    cases h' with
    | marked hmarked' _ => cases hmarked'
    | size hvalue' hrest' =>
      obtain rfl := hvalue.unique hvalue'
      exact ih hrest'
    | plain _ _ hsize' _ _ => exact absurd rfl hsize'
  | plain hmarked _ hsize _ _ ih =>
    cases h' with
    | marked hmarked' _ => cases hmarked.symm.trans hmarked'
    | size _ _ => exact absurd rfl hsize
    | plain _ _ _ _ hrest' => exact ih hrest'

theorem WithAttributes.unique (h : WithAttributes metrics entry base d) (h' : WithAttributes metrics entry base d') :
    d = d' := by
  unfold WithAttributes at h h'
  split at h <;> simp_all only
  · obtain ⟨read, hread, rfl⟩ := h
    obtain ⟨read', hread', rfl⟩ := h'
    rw [hread.unique hread']

theorem WithSize.unique (h : WithSize metrics entry base d) (h' : WithSize metrics entry base d') : d = d' := by
  unfold WithSize at h h'
  split at h <;> simp_all only
  · obtain ⟨x, hx, rfl⟩ := h
    obtain ⟨y, hy, rfl⟩ := h'
    rw [hx.unique hy]

theorem Lays.unique (h : Lays metrics entry base d) (h' : Lays metrics entry base d') : d = d' := by
  obtain ⟨declared, sized, size, hattributes, hsize, hpoints, rfl⟩ := h
  obtain ⟨declared', sized', size', hattributes', hsize', hpoints', rfl⟩ := h'
  obtain rfl := hattributes.unique hattributes'
  obtain rfl := hsize.unique hsize'
  cases hpoints.symm.trans hpoints'
  rfl

theorem Describes.unique (h : Describes metrics fonts name d) (h' : Describes metrics fonts name d') : d = d' := by
  induction h generalizing d' with
  | root hentry hbase hlays =>
    cases h' with
    | root hentry' _ hlays' =>
      cases hentry.symm.trans hentry'
      exact hlays.unique hlays'
    | based hentry' hbase' _ _ =>
      cases hentry.symm.trans hentry'
      cases hbase.symm.trans hbase'
  | based hentry hbase _ hlays ih =>
    cases h' with
    | root hentry' hbase' _ =>
      cases hentry.symm.trans hentry'
      cases hbase.symm.trans hbase'
    | based hentry' hbase' hbelow' hlays' =>
      cases hentry.symm.trans hentry'
      cases hbase.symm.trans hbase'
      obtain rfl := ih hbelow'
      exact hlays.unique hlays'

end Unique

/-! ### What the computation finds -/

section Sound

open Resolve

variable {metrics : Mapping String} {fonts : Mapping FontEntry} {entry : FontEntry} {o : Oracle} {owner name : String}
  {base d : FontDescriptor} {p p' : Progress}

theorem denotes_of_extractOne {expecting text : String} {x : Float} {dependencies : List Dependency}
    (hmetrics : ∀ name value, o .metric name = .found value → Metric.HasValue metrics name value)
    (h : Metric.extractOne (Resolvers.probe o).metric expecting text p = .ok (some (x, dependencies)) p') :
    Metric.Denotes metrics (Text.withoutSpaces text) [x] := by
  obtain ⟨-, hreads⟩ := Metric.extractOne_sound (Metric.answers_probe o) h
  exact hreads.denotes_of_found hmetrics

theorem sizeValue_of_extract {expecting : String} {value : Json} {x : Float} {dependencies : List Dependency}
    (hmetrics : ∀ name value, o .metric name = .found value → Metric.HasValue metrics name value)
    (h : Metric.extractOneJson (Resolvers.probe o).metric expecting value p = .ok (some (x, dependencies)) p') :
    SizeValue metrics value x := by
  have hnumber {number : Option Float}
      (h : (pure (number.map (·, [])) : Resolve (Option (Float × List Dependency))) p =
        .ok (some (x, dependencies)) p') : number = some x := by
    cases number <;> cases h
    rfl
  cases value with
  | string text => exact denotes_of_extractOne hmetrics h
  | _ => exact hnumber h

theorem attributes_sound {declared : List (String × Json)} {read result : Mapping Json}
    (hmetrics : ∀ name value, o .metric name = .found value → Metric.HasValue metrics name value)
    (h : attributes (Resolvers.probe o).metric owner declared read p = .ok (some result) p') :
    Declares metrics declared read result := by
  induction declared generalizing read p with
  | nil =>
    cases h
    exact .nil
  | cons pair rest ih =>
    obtain ⟨key, value⟩ := pair
    unfold attributes at h
    cases hmarked : marked? key with
    | some name =>
      simp only [hmarked] at h
      exact .marked hmarked (ih h)
    | none =>
    simp only [hmarked] at h
    by_cases hkey : descriptorKeys.contains key = true
    swap
    · rw [Bool.not_eq_true] at hkey
      simp only [hkey, Bool.not_false, if_true] at h
      exact absurd h reject_ne_some
    simp only [hkey, Bool.not_true, Bool.false_eq_true, if_false] at h
    by_cases hsize : key = "size"
    · subst hsize
      simp only [if_true] at h
      obtain ⟨found, p₁, hfound, h⟩ := bind_eq_ok_iff.mp h
      cases found with
      | none => exact absurd h reject_ne_some
      | some found =>
        obtain ⟨-, p₂, -, h⟩ := bind_eq_ok_iff.mp h
        exact .size (sizeValue_of_extract hmetrics hfound) (ih h)
    · simp only [hsize, if_false] at h
      cases value with
      | string text => exact .plain hmarked hkey hsize (fun _ => ⟨text, rfl⟩) (ih h)
      | _ =>
        by_cases htext : stringKeys.contains key = true
        · simp only [htext, if_true] at h
          exact absurd h reject_ne_some
        · simp only [htext] at h
          exact .plain hmarked hkey hsize (fun h => absurd h htext) (ih h)

theorem addAttributes_sound {declared : FontDescriptor}
    (hmetrics : ∀ name value, o .metric name = .found value → Metric.HasValue metrics name value)
    (h : addAttributes (Resolvers.probe o).metric owner entry d p = .ok (some declared) p') :
    WithAttributes metrics entry d declared := by
  unfold addAttributes at h
  unfold WithAttributes
  cases hattributes : entry.attributes with
  | none =>
    rw [hattributes] at h
    cases h
    rfl
  | some value =>
    rw [hattributes] at h
    cases value with
    | object items =>
      obtain ⟨read, p₁, hread, h⟩ := bind_eq_ok_iff.mp h
      cases read with
      | none => cases h
      | some read =>
        cases h
        exact ⟨read, attributes_sound hmetrics hread, rfl⟩
    | _ => exact absurd h reject_ne_some

theorem addSize_sound {sized : FontDescriptor}
    (hmetrics : ∀ name value, o .metric name = .found value → Metric.HasValue metrics name value)
    (h : addSize (Resolvers.probe o).metric owner entry d p = .ok (some sized) p') : WithSize metrics entry d sized := by
  unfold addSize at h
  unfold WithSize
  cases hsize : entry.size.filter (!·.isEmpty) with
  | none =>
    rw [hsize] at h
    cases h
    rfl
  | some text =>
    rw [hsize] at h
    obtain ⟨found, p₁, hfound, h⟩ := bind_eq_ok_iff.mp h
    cases found with
    | none => exact absurd h reject_ne_some
    | some found =>
      obtain ⟨-, p₂, -, h⟩ := bind_eq_ok_iff.mp h
      cases h
      exact ⟨found.1, denotes_of_extractOne hmetrics hfound, rfl⟩

/-- The font below comes from an entry, or there is none below and layers start from nothing. -/
theorem baseDescriptor_sound (h : baseDescriptor ((Resolvers.probe o) .font) owner entry p = .ok (some base) p') :
    (entry.basedOn.filter (!·.isEmpty) = none ∧ base = .empty) ∨
      ∃ name font, entry.basedOn.filter (!·.isEmpty) = some name ∧ o .font name = .found font ∧
        base = font.descriptor := by
  unfold baseDescriptor at h
  cases hbase : entry.basedOn.filter (!·.isEmpty) with
  | none =>
    rw [hbase] at h
    cases h
    exact .inl ⟨rfl, rfl⟩
  | some name =>
    rw [hbase] at h
    obtain ⟨-, p₁, -, h⟩ := bind_eq_ok_iff.mp h
    obtain ⟨found, p₂, hfetch, h⟩ := bind_eq_ok_iff.mp h
    by_cases hfound : (o .font name).IsFound
    · obtain ⟨font, hfont⟩ := hfound
      obtain ⟨p₃, hagain⟩ := Resolvers.fetch_probe_found hfont "basedOn" .font p₁
      rw [hagain] at hfetch
      cases hfetch
      cases h
      exact .inr ⟨name, font, rfl, hfont, rfl⟩
    · obtain ⟨p₃, hagain, -⟩ := Resolvers.fetch_probe hfound "basedOn" .font p₁
      rw [hagain] at hfetch
      cases hfetch
      cases h

theorem compute_sound {catalog : Catalog} {font : Font}
    (hmetrics : ∀ name value, o .metric name = .found value → Metric.HasValue metrics name value)
    (hfonts : ∀ name font, o .font name = .found font → Describes metrics fonts name font.descriptor)
    (hentry : fonts.find? name = some entry)
    (h : compute (Resolvers.probe o).metric catalog ((Resolvers.probe o) .font) owner entry p = .ok (some font) p') :
    Describes metrics fonts name font.descriptor ∧
      ∃ d expected realized size, Grants catalog d font expected realized size := by
  obtain ⟨base, p₁, hbase, h⟩ := bind_eq_ok_iff.mp h
  cases base with
  | none => cases h
  | some base =>
  obtain ⟨declared, p₂, hdeclared, h⟩ := bind_eq_ok_iff.mp h
  cases declared with
  | none => cases h
  | some declared =>
  obtain ⟨sized, p₃, hsized, h⟩ := bind_eq_ok_iff.mp h
  cases sized with
  | none => cases h
  | some sized =>
  obtain ⟨expected, realized, size, hgrants⟩ := grants_of_realize h
  have hlays : Lays metrics entry base font.descriptor := by
    refine ⟨declared, sized, size, addAttributes_sound hmetrics hdeclared, addSize_sound hmetrics hsized,
      hgrants.sized, ?_⟩
    rw [hgrants.font_eq]
  refine ⟨?_, sized, expected, realized, size, hgrants⟩
  rcases baseDescriptor_sound hbase with ⟨hnone, rfl⟩ | ⟨below, found, hbelow, hfound, rfl⟩
  · exact .root hentry hnone hlays
  · exact .based hentry hbelow (hfonts below found hfound) hlays

end Sound

end FontLayers

/-! ### Equal descriptors -/

namespace Json

theorem coveredBy_iff {members others : List (String × Json)} : coveredBy members others = true ↔
    ∀ member ∈ members, ∃ other, others.lookup member.1 = some other ∧ equal member.2 other = true := by
  induction members with
  | nil => simp [coveredBy]
  | cons member rest ih =>
    obtain ⟨name, value⟩ := member
    rw [coveredBy, Bool.and_eq_true, ih, List.forall_mem_cons]
    cases others.lookup name <;> simp

theorem eq_of_equal_string {value : Json} {text : String} (h : equal value (.string text) = true) :
    value = .string text := by
  cases value with
  | string other =>
    rw [equal, beq_iff_eq] at h
    rw [h]
  | _ => simp [equal, equalNumbers, integer?] at h

end Json

namespace FontDescriptor

variable {d d' : FontDescriptor} {name : String}

/-- Equal descriptors have the same attributes, which are equal. -/
theorem find?_of_equal (h : d.equal d' = true) {value' : Json} (hvalue' : d'.attributes.find? name = some value') :
    ∃ value, d.attributes.find? name = some value ∧ Json.equal value value' = true := by
  rw [equal, Json.equal, Bool.and_eq_true, beq_iff_eq, Json.coveredBy_iff] at h
  obtain ⟨hlength, hcovered⟩ := h
  have hsubset : d.attributes.keys ⊆ d'.attributes.keys := by
    intro key hkey
    obtain ⟨member, hmember, rfl⟩ := List.mem_map.mp hkey
    obtain ⟨other, hother, -⟩ := hcovered member hmember
    exact Mapping.lookup_isSome_iff.mp (by rw [hother]; rfl)
  -- the names are as many on both sides and each once, so none is left over
  have hperm : d.attributes.keys.Perm d'.attributes.keys :=
    (List.Nodup.subperm d.attributes.nodup hsubset).perm_of_length_le (by simp [Mapping.keys, hlength])
  have hmem : name ∈ d.attributes.keys := hperm.mem_iff.mpr (Mapping.find?_isSome_iff.mp (by rw [hvalue']; rfl))
  obtain ⟨value, hvalue⟩ := Option.isSome_iff_exists.mp (Mapping.find?_isSome_iff.mpr hmem)
  obtain ⟨other, hother, hequal⟩ := hcovered _ (Mapping.mem_of_find? hvalue)
  obtain rfl : other = value' := Option.some.inj (hother.symm.trans hvalue')
  exact ⟨value, hvalue, hequal⟩

end FontDescriptor

namespace FontLayers

/-- A granted font equals the one for invalid fonts by its descriptor, its family and its face: the name and the size
of a font are those of its descriptor. -/
theorem Grants.equal_invalid {c : Catalog} {d : FontDescriptor} {font : Font} {expected : Json} {realized : RealizedFont}
    {size : Option Float} (h : Grants c d font expected realized size) :
    font.equal Font.invalid = true ↔
      font.descriptor.equal Font.invalid.descriptor = true ∧ font.family = "Courier" ∧ font.face = "Bold Oblique" := by
  constructor
  · intro hequal
    simp only [Font.equal, Bool.and_eq_true, beq_iff_eq] at hequal
    obtain ⟨⟨⟨⟨-, hfamily⟩, hface⟩, -⟩, hdescriptor⟩ := hequal
    exact ⟨hdescriptor, hfamily, hface⟩
  · rintro ⟨hdescriptor, hfamily, hface⟩
    have hfont := h.font_eq
    subst hfont
    have hinvalidSize : Font.invalid.descriptor.attributes.find? "size" = some (.float 21.0) := rfl
    have hinvalidName : Font.invalid.descriptor.attributes.find? "name" = some (.string "Courier-BoldOblique") := rfl
    obtain ⟨points, hpoints, hsize⟩ := FontDescriptor.find?_of_equal hdescriptor hinvalidSize
    obtain ⟨value, hvalue, hname⟩ := FontDescriptor.find?_of_equal hdescriptor hinvalidName
    obtain rfl := Json.eq_of_equal_string hname
    have hpointSize : (size.getD defaultPointSize == 21.0) = true := by
      rw [FontDescriptor.withSize, Mapping.find?_insert, if_pos rfl] at hpoints
      cases hpoints
      simpa [Json.equal, Json.equalNumbers] using hsize
    have hrequested : d.name? = some (.string "Courier-BoldOblique") := by
      rw [FontDescriptor.name?, ← d.attribute?_withSize (size.getD defaultPointSize) (by decide : "name" ≠ "size"),
        FontDescriptor.attribute?, hvalue]
    have hexpected : expected = .string "Courier-BoldOblique" := by
      have hexpects := h.expects
      rw [Catalog.expectedName, hrequested] at hexpects
      cases hexpects
      rfl
    have hrealized : realized.name = "Courier-BoldOblique" := by
      have hsame := h.same
      rw [hexpected, Json.equal, beq_iff_eq] at hsame
      exact hsame
    simp only [Font.equal, Bool.and_eq_true, beq_iff_eq]
    exact ⟨⟨⟨⟨hrealized, hfamily⟩, hface⟩, hpointSize⟩, hdescriptor⟩

end FontLayers

end DesignTokens
