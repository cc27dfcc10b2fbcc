import DesignTokens.Proofs.Font.Requests

/-!
# Fonts that were asked for by family and face

A catalog answers every request, the ones it does not know with its substitute. Whether a font is the one asked for is
told by names alone: by its name in the catalog, or by the one it has by rule if the catalog has none. A ruled name has
a hyphen in it, and the built-in substitute has none in its name. So whatever the catalog holds, a request it does not
know is never taken for granted.

* `Catalog.faceName?_addFace` — what a catalog knows after a face was added.
* `Catalog.expectedName_of_family`, `Catalog.realize_of_unknown` — the two names that are compared.
* `FontLayers.realize_iff_known` — requests without a name are granted exactly if the catalog knows the face, except
  where the point size is an integer beyond the doubles.
* `FontLayers.not_always_granted` — such a point size ends in a fault.
-/

namespace DesignTokens

open Resolve

/-! ### Requests by texts -/

namespace FontDescriptor

variable {d : FontDescriptor}

/-- Family and face are texts where they are given. -/
structure NamesTexts (d : FontDescriptor) : Prop where
  family : ∀ value, d.family? = some value → ∃ text, value = .string text
  face : ∀ value, d.face? = some value → ∃ text, value = .string text

/-- The text of a value, empty if there is none. -/
def textOf : Option Json → String
  | some (.string text) => text
  | _ => ""

/-- The family that is asked for, empty if there is none. -/
def familyText (d : FontDescriptor) : String := textOf d.family?

/-- The face that is asked for, the default one if none is given or an empty one. -/
def faceText (d : FontDescriptor) : String :=
  if textOf d.face? = "" then Catalog.defaultFace else textOf d.face?

/-- The point size is given as an integer beyond the doubles. -/
def Oversized (d : FontDescriptor) : Prop := ∃ n, d.attribute? "size" = some (.int n) ∧ Number.ofInt? n = none

theorem size?_eq_error_iff {fault : Fault} : d.size? = .error fault ↔ fault = .pointSizeRange ∧ d.Oversized := by
  unfold size? Oversized
  split
  · simp_all
  · next n hn =>
    rw [hn]
    cases hrange : Number.ofInt? n with
    | some x => simp [hrange]
    | none => simp [hrange, eq_comm]
  · next hfloat hint =>
    constructor
    · intro h
      cases h
    · rintro ⟨-, n, hn, -⟩
      exact absurd hn (hint n)

theorem size?_eq_ok_iff : (∃ size, d.size? = .ok size) ↔ ¬ d.Oversized := by
  cases hsize : d.size? with
  | ok size =>
    have hfits : ¬ d.Oversized := fun h => by cases hsize.symm.trans (size?_eq_error_iff.mpr ⟨rfl, h⟩)
    exact ⟨fun _ => hfits, fun _ => ⟨size, rfl⟩⟩
  | error fault =>
    have hover := (size?_eq_error_iff.mp hsize).2
    constructor
    · rintro ⟨size, h⟩
      cases h
    · intro h
      exact absurd hover h

theorem NamesTexts.family_eq (h : d.NamesTexts) (hfamily : d.familyText ≠ "") :
    d.family? = some (.string d.familyText) := by
  unfold familyText at hfamily ⊢
  cases hgiven : d.family? with
  | none => rw [hgiven] at hfamily; exact absurd rfl hfamily
  | some value =>
    obtain ⟨text, rfl⟩ := h.family value hgiven
    rfl

theorem NamesTexts.family_empty (h : d.NamesTexts) (hfamily : d.familyText = "") :
    d.family?.filter Json.isTruthy = none := by
  unfold familyText at hfamily
  cases hgiven : d.family? with
  | none => rfl
  | some value =>
    obtain ⟨text, rfl⟩ := h.family value hgiven
    rw [hgiven] at hfamily
    obtain rfl : text = "" := hfamily
    rfl

theorem NamesTexts.requestedFace_eq (h : d.NamesTexts) : Catalog.requestedFace d = .string d.faceText := by
  unfold Catalog.requestedFace faceText
  cases hgiven : d.face? with
  | none => rfl
  | some value =>
    obtain ⟨text, rfl⟩ := h.face value hgiven
    by_cases hempty : text = ""
    · simp [textOf, hempty, Json.isTruthy]
    · simp [textOf, hempty, Json.isTruthy]

end FontDescriptor

/-! ### What a catalog knows -/

namespace Catalog

variable {c : Catalog} {d : FontDescriptor}

/-- The name of a face that a catalog knows; an empty one does not count. -/
def faceName? (c : Catalog) (family face : String) : Option String :=
  ((c.families.find? family).bind (·.find? face)).filter (!·.isEmpty)

/-- A face to be added to a catalog, with a name of its own or without. -/
structure NewFace where
  family : String
  face : String
  name : Option String

/-- Adds faces one after the other. -/
def addFaces (c : Catalog) (faces : List NewFace) : Catalog :=
  faces.foldl (fun c new => c.addFace new.family new.face new.name) c

theorem addFaces_substitute (c : Catalog) (faces : List NewFace) : (c.addFaces faces).substitute = c.substitute := by
  induction faces generalizing c with
  | nil => rfl
  | cons new rest ih => exact ih (c.addFace new.family new.face new.name)

theorem hyphen_mem_ruledName (family face : String) : '-' ∈ (ruledName family face).toList := by
  simp [ruledName]

theorem ne_ruledName {name family face : String} (h : '-' ∉ name.toList) : name ≠ ruledName family face := by
  intro hsame
  exact h (hsame ▸ hyphen_mem_ruledName family face)

/-- An added face is known by its name, or by the ruled one, and nothing changes for the other faces. -/
theorem faceName?_addFace (c : Catalog) (family face : String) (name : Option String) (family' face' : String) :
    (c.addFace family face name).faceName? family' face' =
      if family' = family ∧ face' = face then some ((name.filter (!·.isEmpty)).getD (ruledName family face))
      else c.faceName? family' face' := by
  have hgiven : ((name.filter (!·.isEmpty)).getD (ruledName family face)).isEmpty = false := by
    cases hname : name.filter (!·.isEmpty) with
    | some given => simpa using (Option.filter_eq_some_iff.mp hname).2
    | none =>
      rw [Option.getD_none, Bool.eq_false_iff, Ne, String.isEmpty_iff]
      exact (ne_ruledName (by decide)).symm
  unfold faceName? addFace
  rw [Mapping.find?_insert]
  by_cases hfamily : family' = family
  · subst hfamily
    rw [if_pos rfl, Option.bind_some, Mapping.find?_insert]
    by_cases hface : face' = face
    · rw [if_pos hface, if_pos ⟨rfl, hface⟩, Option.filter_some, hgiven]
      rfl
    · rw [if_neg hface, if_neg fun h => hface h.2]
      cases c.families.find? family' <;> rfl
  · rw [if_neg hfamily, if_neg fun h => hfamily h.1]

/-! ### The two names that are compared -/

theorem expectedName_of_no_family (hname : d.nameInForce? = none) (htexts : d.NamesTexts)
    (hfamily : d.familyText = "") : c.expectedName d = .ok none := by
  unfold expectedName
  unfold FontDescriptor.nameInForce? at hname
  rw [hname, htexts.family_empty hfamily]
  rfl

/-- A known face is asked for by its name, an unknown one by its ruled name. -/
theorem expectedName_of_family (hname : d.nameInForce? = none) (htexts : d.NamesTexts) (hfamily : d.familyText ≠ "") :
    c.expectedName d =
      .ok (some (.string ((c.faceName? d.familyText d.faceText).getD (ruledName d.familyText d.faceText)))) := by
  have htruthy : d.family?.filter Json.isTruthy = some (.string d.familyText) := by
    rw [htexts.family_eq hfamily, Option.filter_some]
    simp [Json.isTruthy, hfamily]
  have hlookup : ((c.families.find? d.familyText).getD ∅).find? d.faceText =
      (c.families.find? d.familyText).bind (·.find? d.faceText) := by
    cases c.families.find? d.familyText <;> rfl
  unfold expectedName
  unfold FontDescriptor.nameInForce? at hname
  rw [hname, htruthy]
  simp only [htexts.requestedFace_eq, lookupText, namePart, bind, Except.bind, Option.bind_some, hlookup]
  unfold faceName?
  cases ((c.families.find? d.familyText).bind (·.find? d.faceText)).filter (!·.isEmpty) <;> rfl

theorem realize_of_known (hname : d.nameInForce? = none) (htexts : d.NamesTexts) (hfamily : d.familyText ≠ "")
    {name : String} (hknown : c.faceName? d.familyText d.faceText = some name) :
    c.realize d = .ok ⟨name, d.familyText, d.faceText⟩ := by
  obtain ⟨hfound, -⟩ := Option.filter_eq_some_iff.mp hknown
  obtain ⟨faces, hfaces, hface⟩ := Option.bind_eq_some_iff.mp hfound
  unfold realize
  unfold FontDescriptor.nameInForce? at hname
  rw [hname, htexts.family_eq hfamily]
  simp only [htexts.requestedFace_eq, lookupText, bind, Except.bind, hfaces, hface]
  rfl

/-- What an unknown face gets has no hyphen in its name: it is the substitute, or has an empty name. -/
theorem realize_of_unknown (hsubstitute : '-' ∉ c.substitute.name.toList) (hname : d.nameInForce? = none)
    (htexts : d.NamesTexts) (hfamily : d.familyText ≠ "") (hunknown : c.faceName? d.familyText d.faceText = none) :
    ∃ realized, c.realize d = .ok realized ∧ '-' ∉ realized.name.toList := by
  unfold faceName? at hunknown
  unfold realize
  unfold FontDescriptor.nameInForce? at hname
  rw [hname, htexts.family_eq hfamily]
  simp only [htexts.requestedFace_eq, lookupText, bind, Except.bind]
  cases hfaces : c.families.find? d.familyText with
  | none => exact ⟨c.substitute, rfl, hsubstitute⟩
  | some faces =>
    rw [hfaces, Option.bind_some] at hunknown
    cases hface : faces.find? d.faceText with
    | none => simp only [hface]; exact ⟨c.substitute, rfl, hsubstitute⟩
    | some name =>
      have hempty : name = "" := by simpa [hface] using hunknown
      simp only [hface]
      subst hempty
      have hhyphen : '-' ∉ "".toList := by decide
      exact ⟨⟨"", d.familyText, d.faceText⟩, rfl, hhyphen⟩

end Catalog

/-! ### What is granted -/

namespace FontLayers

variable {c : Catalog} {d : FontDescriptor} {p : Progress}

/-- The catalog knows what a descriptor asks for by family and face. -/
def Known (c : Catalog) (d : FontDescriptor) : Prop :=
  d.familyText ≠ "" ∧ ∃ name, c.faceName? d.familyText d.faceText = some name

theorem realize_of_known (hname : d.nameInForce? = none) (htexts : d.NamesTexts) (hfamily : d.familyText ≠ "")
    {name : String} (hknown : c.faceName? d.familyText d.faceText = some name) :
    realize c d p = match d.size? with
      | .ok size => .ok (some ⟨name, d.familyText, d.faceText, size.getD defaultPointSize,
          d.withSize (size.getD defaultPointSize)⟩) p
      | .error fault => .error fault p := by
  have hexpected := Catalog.expectedName_of_family (c := c) hname htexts hfamily
  rw [hknown, Option.getD_some] at hexpected
  have hrealized := Catalog.realize_of_known hname htexts hfamily hknown
  have hsame : Json.equal (.string name) (.string name) = true := by simp [Json.equal]
  unfold realize
  rw [hexpected, hrealized]
  cases hsize : d.size? with
  | ok size =>
    simp only [lift, pure_bind, hsame, Bool.not_true, Bool.false_eq_true, if_false]
    rfl
  | error fault =>
    simp only [lift, pure_bind, hsame, Bool.not_true, Bool.false_eq_true, if_false]
    rfl

theorem realize_of_unknown (hsubstitute : '-' ∉ c.substitute.name.toList) (hname : d.nameInForce? = none)
    (htexts : d.NamesTexts) (hunknown : ¬ Known c d) : ∃ p', realize c d p = .ok none p' := by
  by_cases hfamily : d.familyText = ""
  · have hexpected := Catalog.expectedName_of_no_family (c := c) hname htexts hfamily
    unfold realize
    rw [hexpected]
    exact ⟨_, rfl⟩
  · have hnone : c.faceName? d.familyText d.faceText = none := by
      rw [Option.eq_none_iff_forall_ne_some]
      intro name hknown
      exact hunknown ⟨hfamily, name, hknown⟩
    have hexpected := Catalog.expectedName_of_family (c := c) hname htexts hfamily
    rw [hnone, Option.getD_none] at hexpected
    obtain ⟨realized, hrealized, hhyphen⟩ := Catalog.realize_of_unknown hsubstitute hname htexts hfamily hnone
    have hdiffers : Json.equal (.string realized.name)
        (.string (Catalog.ruledName d.familyText d.faceText)) = false := by
      simpa [Json.equal] using Catalog.ne_ruledName hhyphen
    unfold realize
    rw [hexpected, hrealized]
    simp only [lift, pure_bind, hdiffers, Bool.not_false, if_true]
    exact ⟨_, rfl⟩

/-- How a request without a name ends. -/
inductive Outcome (c : Catalog) (d : FontDescriptor) (p : Progress) : Prop where
  | granted {font : Font} (hknown : Known c d) (hfits : ¬ d.Oversized) (hrun : realize c d p = .ok (some font) p)
      (hname : c.faceName? d.familyText d.faceText = some font.name) (hfamily : font.family = d.familyText)
      (hface : font.face = d.faceText) : Outcome c d p
  | oversized (hknown : Known c d) (hover : d.Oversized) (hrun : realize c d p = .error .pointSizeRange p) :
      Outcome c d p
  | refused {p' : Progress} (hunknown : ¬ Known c d) (hrun : realize c d p = .ok none p') : Outcome c d p

theorem outcome_of_texts (hsubstitute : '-' ∉ c.substitute.name.toList) (hname : d.nameInForce? = none)
    (htexts : d.NamesTexts) (p : Progress) : Outcome c d p := by
  by_cases hknown : Known c d
  · obtain ⟨hfamily, name, hface⟩ := id hknown
    have hrun := realize_of_known (p := p) hname htexts hfamily hface
    cases hsize : d.size? with
    | ok size =>
      rw [hsize] at hrun
      exact .granted hknown (FontDescriptor.size?_eq_ok_iff.mp ⟨size, hsize⟩) hrun hface rfl rfl
    | error fault =>
      obtain ⟨rfl, hover⟩ := FontDescriptor.size?_eq_error_iff.mp hsize
      rw [hsize] at hrun
      exact .oversized hknown hover hrun
  · obtain ⟨p', hrun⟩ := realize_of_unknown (p := p) hsubstitute hname htexts hknown
    exact .refused hknown hrun

/-- In a catalog with the built-in substitute, whatever faces it holds and were added, a descriptor without an explicit
name and with texts for family and face is granted a font exactly if the catalog knows the face of the family, unless
the point size is an integer beyond the doubles. The font is then that face, under its name. Only such a point size ends
in a fault, and only where the face is known. -/
theorem realize_iff_known (c : Catalog) (hsubstitute : c.substitute = Catalog.builtInSubstitute)
    (added : List Catalog.NewFace) (d : FontDescriptor) (hname : d.nameInForce? = none) (htexts : d.NamesTexts)
    (p : Progress) :
    ((∃ font p', realize (c.addFaces added) d p = .ok (some font) p') ↔
      Known (c.addFaces added) d ∧ ¬ d.Oversized) ∧
    (∀ font p', realize (c.addFaces added) d p = .ok (some font) p' →
      (c.addFaces added).faceName? d.familyText d.faceText = some font.name ∧
        font.family = d.familyText ∧ font.face = d.faceText) ∧
    (∀ fault p', realize (c.addFaces added) d p = .error fault p' ↔
      fault = .pointSizeRange ∧ p' = p ∧ Known (c.addFaces added) d ∧ d.Oversized) := by
  have hhyphen : '-' ∉ (c.addFaces added).substitute.name.toList := by
    rw [Catalog.addFaces_substitute, hsubstitute]
    decide
  cases outcome_of_texts hhyphen hname htexts p with
  | granted hknown hfits hrun hface hfamily hstyle =>
    rw [hrun]
    refine ⟨⟨fun _ => ⟨hknown, hfits⟩, fun _ => ⟨_, _, rfl⟩⟩, ?_, by simp [hfits]⟩
    rintro font p' h
    cases h
    exact ⟨hface, hfamily, hstyle⟩
  | oversized hknown hover hrun =>
    rw [hrun]
    refine ⟨by simp [hover], by simp, fun fault p' => ?_⟩
    constructor
    · intro h
      cases h
      exact ⟨rfl, rfl, hknown, hover⟩
    · rintro ⟨rfl, rfl, -, -⟩
      rfl
  | refused hunknown hrun =>
    rw [hrun]
    exact ⟨by simp [hunknown], by simp, by simp [hunknown]⟩

/-- A face that is asked for once it was added. -/
def addedFace : FontDescriptor := ⟨Mapping.ofList [("family", .string "Menlo"), ("face", .string "Ultra Bold")]⟩

theorem addedFace_namesTexts : addedFace.NamesTexts where
  family _ h := ⟨"Menlo", (Option.some.inj h).symm⟩
  face _ h := ⟨"Ultra Bold", (Option.some.inj h).symm⟩

theorem realize_iff_known_added : ∃ font p',
    realize (Catalog.bare.addFaces [⟨"Menlo", "Ultra Bold", none⟩]) addedFace {} = .ok (some font) p' ∧
      font.name = "Menlo-UltraBold" := by
  obtain ⟨hgranted, hfont, -⟩ := realize_iff_known .bare rfl [⟨"Menlo", "Ultra Bold", none⟩] addedFace rfl
    addedFace_namesTexts {}
  have hknown : Known (Catalog.bare.addFaces [⟨"Menlo", "Ultra Bold", none⟩]) addedFace :=
    ⟨by decide, "Menlo-UltraBold", by decide⟩
  have hfits : ¬ addedFace.Oversized := by
    rintro ⟨n, hn, -⟩
    cases hn
  obtain ⟨font, p', hrun⟩ := hgranted.mpr ⟨hknown, hfits⟩
  have hname : some "Menlo-UltraBold" = some font.name := (hfont font p' hrun).1
  exact ⟨font, p', hrun, (Option.some.inj hname).symm⟩

/-- A known face in a point size that no double is near to. -/
def oversizedFace : FontDescriptor := ⟨Mapping.ofList [("family", .string "Menlo"), ("size", .int (10 ^ 309))]⟩

theorem oversizedFace_namesTexts : oversizedFace.NamesTexts where
  family _ h := ⟨"Menlo", (Option.some.inj h).symm⟩
  face _ h := by cases h

/-- A catalog may know what is asked for and grant no font: the point size ends in a fault. -/
theorem not_always_granted :
    ¬ ∀ c : Catalog, c.substitute = Catalog.builtInSubstitute → ∀ added : List Catalog.NewFace,
      ∀ d : FontDescriptor, d.nameInForce? = none → d.NamesTexts → ∀ p : Progress,
        (∃ font p', realize (c.addFaces added) d p = .ok (some font) p') ↔ Known (c.addFaces added) d := by
  intro hclaim
  let c : Catalog := .ofFace "Menlo" "Regular" "Menlo-Regular"
  have hface : c.faceName? oversizedFace.familyText oversizedFace.faceText = some "Menlo-Regular" := by decide
  have hfamily : oversizedFace.familyText ≠ "" := by decide
  have hover : oversizedFace.Oversized := ⟨10 ^ 309, rfl, by decide +kernel⟩
  obtain ⟨font, p', hrun⟩ :=
    (hclaim c rfl [] oversizedFace rfl oversizedFace_namesTexts {}).mpr ⟨hfamily, "Menlo-Regular", hface⟩
  have hfault := realize_of_known (p := {}) rfl oversizedFace_namesTexts hfamily hface
  rw [FontDescriptor.size?_eq_error_iff.mpr ⟨rfl, hover⟩] at hfault
  cases hfault.symm.trans hrun

end FontLayers

end DesignTokens
