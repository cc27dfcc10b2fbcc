import DesignTokens.Proofs.Metric.Finiteness
import DesignTokens.Proofs.Number.Overflow
import DesignTokens.Proofs.TextAttributes.Nearest

/-!
# The size of spacings

Metrics are finite, and a font without attributes behind a mark takes its size from them. The spacing of a text is worked
out from the size of its font and its tracking, and nobody looks at the product. The tracking is within range, so it takes a
font of some `10 ^ 307` points for the product to leave the range of doubles; then the spacing is an infinity, in a valid
set.

* `Document.pointSize_isFinite` — fonts have a finite size.
* `TextAttributes.isFinite_kern_iff`, `TextAttributes.isFinite_kern_of_bounded` — which spacings are finite.
* `Document.kern_finite_iff` — the spacings of valid sets.
* `Document.not_every_kern_finite` — a valid set with an infinite spacing.
-/

namespace DesignTokens

open Number

/-! ### Sizes -/

theorem Mapping.Lineage.mem_entries {α : Type} {base : α → Option String} {m : Mapping α} {name : String}
    {chain : List α} (h : m.Lineage base name chain) : ∀ entry ∈ chain, ∃ name, m.find? name = some entry := by
  induction h with
  | last hentry _ => exact List.forall_mem_singleton.mpr ⟨_, hentry⟩
  | link hentry _ _ ih => exact List.forall_mem_cons.mpr ⟨⟨_, hentry⟩, ih⟩

theorem FontLayers.SizeValue.isFinite {metrics : Mapping String} {value : Json} {x : Float}
    (h : SizeValue metrics value x) : x.isFinite = true := by
  cases value with
  | string text => exact (Metric.Denotes.isFinite h) x (List.mem_singleton_self x)
  | _ => exact Metric.isFinite_of_finiteNumber? h

/-- No font of the document has an attribute behind a mark. -/
def Document.PlainFonts (d : Document) : Prop :=
  ∀ name entry, d.sections.fonts.find? name = some entry → entry.Unmarked

theorem Document.pointSize_isFinite {d : Document} {within : Surroundings → Prop} {p : Progress} {name : String}
    {font : Font} (hf : p.Founded d within) (hplain : d.PlainFonts) (hmemo : (p.cell .font name).memo = .valid font) :
    font.pointSize.isFinite = true := by
  obtain ⟨hdescribes, c, requested, expected, realized, size, hgrants⟩ : d.ComesTo .font name font := hf.comesTo hmemo
  obtain ⟨chain, hchain⟩ := hdescribes.exists_lineage
  obtain ⟨x, hnearest⟩ := hdescribes.nearest hchain fun entry hentry => by
    obtain ⟨other, hfound⟩ := hchain.mem_entries entry hentry
    exact hplain other entry hfound
  obtain rfl : font.pointSize = x := by
    have hsame := hgrants.find?_size.symm.trans hnearest.stored
    simpa using hsame
  have hsize := hnearest.size
  split at hsize
  · rw [hsize]
    rfl
  · exact hsize.isFinite

/-! ### Spacings -/

namespace TextAttributes

variable {tracking pointSize : Float}

theorem unpack_thousand : (1000.0 : Float).toModel.unpack = .finite .positive (1000 * 2 ^ 43) (-43) (by decide) := rfl

/-- A tracking within range is at most `2 ^ 13` in magnitude. -/
theorem bounded_tracking (hleast : TextLayers.leastTracking ≤ tracking)
    (hgreatest : tracking ≤ TextLayers.greatestTracking) : Bounded 13 tracking := by
  have hlow : TextLayers.leastTracking.toModel.unpack = .finite .negative (1000 * 2 ^ 43) (-43) (by decide) := rfl
  have hhigh : TextLayers.greatestTracking.toModel.unpack = .finite .positive (5000 * 2 ^ 40) (-40) (by decide) := rfl
  exact bounded_of_between hlow hhigh (by decide) (by decide) hleast hgreatest

theorem bounded_thousandth {k : Nat} (h : Bounded k pointSize) (hlow : 9 ≤ k) (hhigh : k ≤ 1031) :
    Bounded (k - 9 + 1) (pointSize / 1000.0) :=
  h.div unpack_thousand (by decide) (by decide) hlow (by omega)

theorem isFinite_thousandth (h : pointSize.isFinite = true) : (pointSize / 1000.0).isFinite = true :=
  (bounded_thousandth (bounded_of_isFinite h) (by decide) (by decide)).isFinite

/-- The spacing is finite exactly if the product that it is rounded from does not overflow. -/
theorem isFinite_kern_iff (hsize : pointSize.isFinite = true) (htracking : tracking.isFinite = true) :
    (kern tracking pointSize).isFinite = true ↔ ¬ ProductOverflows (pointSize / 1000.0) tracking :=
  isFinite_mul_iff (isFinite_thousandth hsize) htracking

/-- Up to a size of `2 ^ 1018` points all spacings are finite. -/
theorem isFinite_kern_of_bounded (hsize : Bounded 1018 pointSize) (htracking : Bounded 13 tracking) :
    (kern tracking pointSize).isFinite = true := by
  rw [isFinite_kern_iff hsize.isFinite htracking.isFinite]
  exact (bounded_thousandth hsize (by decide) (by decide)).not_productOverflows htracking (by decide)

end TextAttributes

/-- The spacing of a set comes from a font that is known and from a tracking within range. -/
theorem TextLayers.Gathers.of_kern {known : (a : Asset) → String → a.Value → Prop} {metrics : Mapping String}
    {chain : List TextAttributesEntry} {text : TextAttributes} {spacing : Float} (h : Gathers known metrics chain text)
    (hkern : text.attributes.find? "kern" = some (.number spacing)) :
    ∃ name font tracking, known .font name font ∧ text.attributes.find? "font" = some (.font font) ∧
      text.tracking = some tracking ∧ leastTracking ≤ tracking ∧ tracking ≤ greatestTracking ∧
      spacing = TextAttributes.kern tracking font.pointSize := by
  have hspacing := h.kern
  cases htracking : text.tracking with
  | none =>
    rw [h.no_kern (.inl htracking)] at hkern
    cases hkern
  | some tracking =>
    cases hfont : text.font? with
    | none =>
      rw [h.no_kern (.inr hfont)] at hkern
      cases hkern
    | some font =>
      rw [htracking, hfont] at hspacing
      obtain ⟨hleast, hgreatest, hstored⟩ := hspacing
      rw [hstored] at hkern
      cases hkern
      have hnamed := h.named .font
      have hfound : text.attributes.find? NamedKey.font.key = some (.font font) := by
        rw [show NamedKey.font.key = "font" from rfl, h.font_eq, hfont]
        rfl
      rw [hfound] at hnamed
      unfold TakenFrom at hnamed
      split at hnamed
      · cases hnamed
      · obtain ⟨-, ⟨name, font', -, hknown, rfl⟩, hsame⟩ := hnamed
        cases hsame
        exact ⟨name, font, tracking, hknown, hfound, rfl, hleast, hgreatest, rfl⟩

/-- In every state of a document whose fonts have no attributes behind a mark, the spacing of a valid set is the one for its
font and its tracking, which are finite. It is a number, and it is finite exactly if the exact product of the two rounded
factors does not overflow; so it is for all fonts of up to `2 ^ 1018` points. -/
theorem Document.kern_finite_iff (d : Document) (within : Surroundings → Prop) (p : Progress)
    (h : d.Reachable within p) (hplain : d.PlainFonts) (name : String) (text : TextAttributes)
    (hmemo : (p.cell .textAttributes name).memo = .valid text) (spacing : Float)
    (hkern : text.attributes.find? "kern" = some (.number spacing)) :
    ∃ font tracking, text.attributes.find? "font" = some (.font font) ∧ text.tracking = some tracking ∧
      spacing = font.pointSize / 1000.0 * tracking ∧
      font.pointSize.isFinite = true ∧ -1000.0 ≤ tracking ∧ tracking ≤ 5000.0 ∧ spacing.isNaN = false ∧
      (spacing.isFinite = true ↔ ¬ ProductOverflows (font.pointSize / 1000.0) tracking) ∧
      (Bounded 1018 font.pointSize → spacing.isFinite = true) := by
  have hf : p.Founded d within := founded_of_reachable h
  obtain ⟨chain, -, hgathers⟩ := gathered_of_founded hf hmemo
  obtain ⟨other, font, tracking, hfont, hfound, htracking, hleast, hgreatest, rfl⟩ := hgathers.of_kern hkern
  have hsize : font.pointSize.isFinite = true := pointSize_isFinite hf hplain hfont
  have hbounded : Bounded 13 tracking := TextAttributes.bounded_tracking hleast hgreatest
  exact ⟨font, tracking, hfound, htracking, rfl, hsize, hleast, hgreatest,
    isNaN_mul (TextAttributes.isFinite_thousandth hsize) hbounded.isFinite,
    TextAttributes.isFinite_kern_iff hsize hbounded.isFinite,
    fun hsmall => TextAttributes.isFinite_kern_of_bounded hsmall hbounded⟩

namespace Reading

theorem plainFonts_trackedTexts : trackedTexts.document.PlainFonts := by
  intro name entry hentry items hitems
  have hmem : entry ∈ [FontEntry.ofFamily "Menlo", largeFont] :=
    List.mem_map_of_mem (f := Prod.snd) (Mapping.mem_of_find? hentry)
  simp only [List.mem_cons, List.not_mem_nil, or_false] at hmem
  rcases hmem with rfl | rfl <;> cases hitems

end Reading

open Reading in
/-- A text in a font of 40 points. -/
theorem Document.kern_finite_iff_enlarged :
    ∃ p text spacing, ∃ font : Font, ∃ tracking, trackedTexts.document.Reachable (· = trackedTexts.surroundings) p ∧
      (p.cell .textAttributes "title").memo = .valid text ∧ text.attributes.find? "kern" = some (.number spacing) ∧
      spacing = font.pointSize / 1000.0 * tracking ∧ spacing.isNaN = false ∧
      (spacing.isFinite = true ↔ ¬ ProductOverflows (font.pointSize / 1000.0) tracking) := by
  obtain ⟨p, text, spacing, hrun, hmemo, hkern⟩ := run_trackedTexts
  have hreach : trackedTexts.document.Reachable (· = trackedTexts.surroundings) p := .atRest (.returned rfl .start hrun)
  obtain ⟨font, tracking, -, -, hproduct, -, -, -, hnumber, hfinite, -⟩ :=
    kern_finite_iff _ _ p hreach plainFonts_trackedTexts "title" text hmemo spacing hkern
  exact ⟨p, text, spacing, font, tracking, hreach, hmemo, hkern, hproduct, hnumber, hfinite⟩

/-! ### A spacing beyond the range -/

namespace Reading

/-- A font of the greatest power of two that is a double. -/
def giantFont : FontEntry := ⟨none, some "Menlo", none, some "0x1p1023", none⟩

/-- A text in the giant font with the greatest tracking. -/
def giantText : TextAttributesEntry := ⟨none, some (.object [("font", .string "giant"), ("tracking", .int 5000)])⟩

def giantTexts : Reading where
  document := {
    version := none
    sections := {
      fonts := ⟨[("giant", giantFont)], (by decide : ["giant"].Nodup)⟩
      textAttributes := ⟨[("body", giantText)], (by decide : ["body"].Nodup)⟩ }
    hasEmptyGroups := false }
  surroundings := { storage := none, catalog := .ofFace "Menlo" "Regular" "Menlo-Regular", files := .empty }

theorem giantTexts_body : giantTexts.document.sections.textAttributes.find? "body" = some giantText := rfl

theorem giantTexts_giant : giantTexts.document.sections.fonts.find? "giant" = some giantFont := rfl

theorem plainFonts_giantTexts : giantTexts.document.PlainFonts := by
  intro name entry hentry items hitems
  have hmem : entry ∈ [giantFont] := List.mem_map_of_mem (f := Prod.snd) (Mapping.mem_of_find? hentry)
  obtain rfl := List.mem_singleton.mp hmem
  cases hitems

theorem run_giantTexts : ∃ p text spacing, (Call.resolve .textAttributes "body").run giantTexts {} = .ok () p ∧
    (p.cell .textAttributes "body").memo = .valid text ∧ text.attributes.find? "kern" = some (.number spacing) ∧
      spacing.isFinite = false := by
  simp only [Call.run, resolve, resolve?, textAttributes, font, resolveTextAttributes_found giantTexts_body,
    TextLayers.compute, TextLayers.baseDraft, giantText, TextLayers.declared?, TextLayers.readAttributes,
    TextLayers.readAttribute, TextLayers.named, resolveFont_found giantTexts_giant, DesignTokens.fetch,
    List.not_mem_nil, String.reduceEq, or_self, ↓reduceIte]
  exact ⟨_, _, _, rfl, rfl, rfl, rfl⟩

end Reading

open Reading in
/-- A valid set may have an infinite spacing. -/
theorem Document.not_every_kern_finite :
    ¬ ∀ (d : Document) (within : Surroundings → Prop) (p : Progress), d.Reachable within p → d.PlainFonts →
      ∀ (name : String) (text : TextAttributes), (p.cell .textAttributes name).memo = .valid text →
        ∀ spacing, text.attributes.find? "kern" = some (.number spacing) → spacing.isFinite = true := by
  intro hclaim
  obtain ⟨p, text, spacing, hrun, hmemo, hkern, hinfinite⟩ := run_giantTexts
  have hreach : giantTexts.document.Reachable (· = giantTexts.surroundings) p := .atRest (.returned rfl .start hrun)
  have hfinite := hclaim _ _ p hreach plainFonts_giantTexts "body" text hmemo spacing hkern
  rw [hinfinite] at hfinite
  cases hfinite

end DesignTokens
