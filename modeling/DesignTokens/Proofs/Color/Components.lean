import DesignTokens.Proofs.Color.Range
import DesignTokens.Proofs.Metric.Readers

/-!
# Colors of components

A color text of channels and perhaps alpha is read part by part, with flags for the scale that are raised on the way
and empty parts that are filled in from the flags raised so far. What comes out is said by one rule. Each part gives a
value or nothing, the values are in range and on one scale, and each of them is divided by the scale of all.

That the flags come late does no harm: a channel that is left out is zero on both scales, and when alpha is left out
all channels have been read.

* `ColorText.OneScale`, `ColorText.fractions` — the rule.
* `ColorText.normal_iff` — reading with flags is reading by the rule.
* `ColorText.denotes_iff_ofParts` — the color of a text in terms of its parts.
* `ColorText.compute_iff` — the computation finds exactly this color.
-/

namespace DesignTokens

open Resolve

/-! ### The rule for components -/

namespace ColorText

/-- The value that a part gives where names have values. An empty part gives none. -/
inductive Gives (known : String → Float → Prop) : String → Option Float → Prop where
  | empty : Gives known "" none
  | literal {part : String} {value : Float} (hnumber : Number.Literal.number? part = .ok (some value))
      (hfinite : value.isFinite = true) : Gives known part (some value)
  | name {part : String} {value : Float} (hnonempty : part ≠ "") (hplain : Metric.IsPlain part)
      (hnumber : Number.Literal.number? part = .ok none) (hknown : known part value) : Gives known part (some value)

/-- All values are in range, and none is a proper fraction while another exceeds one. -/
structure OneScale (values : List (Option Float)) : Prop where
  within : ∀ value, some value ∈ values → 0.0 ≤ value ∧ value ≤ 255.0
  unmixed : ¬ ((∃ value, some value ∈ values ∧ 0.0 < value ∧ value < 1.0) ∧ ∃ value, some value ∈ values ∧ 1.0 < value)

/-- A value exceeds one. -/
def exceeds (values : List (Option Float)) : Bool := values.any fun value => value.any fun x => 1.0 < x

/-- A value divided by the scale of all values, which is 255 or one. -/
def fraction (values : List (Option Float)) (value : Float) : Float :=
  if exceeds values then value / 255.0 else value

/-- The fractions of values: those of the channels, which are zero where nothing is given, and alpha, which is one. -/
def fractions (format : ColorFormat) (values : List (Option Float)) : List Float :=
  (values.take format.alphaIndex).map (fun value => (value.map (fraction values)).getD 0.0) ++
    [(values[format.alphaIndex]?.join.map (fraction values)).getD 1.0]

end ColorText

namespace Components

open ColorText

variable {c : Components} {format : ColorFormat} {pairs : List (Float × String)}

/-- What a part gives whose value has been read. -/
def given (pair : Float × String) : Option Float := if pair.2.isEmpty then none else some pair.1

/-- The components with what a part gives. -/
def addGiven (format : ColorFormat) (c : Components) : Option Float → Components
  | none => c.addEmpty (c.values.length = format.alphaIndex)
  | some value => c.add value

theorem addGiven_values {value : Option Float} (h : c.values.length ≠ format.alphaIndex) :
    (c.addGiven format value).values = c.values ++ [value.getD 0.0] := by
  cases value with
  | none => simp [addGiven, addEmpty, h]
  | some value => rfl

theorem addGiven_alpha (value : Option Float) (h : c.values.length = format.alphaIndex) :
    (c.addGiven format value).values = c.values ++ [value.getD (c.addGiven format value).full] := by
  cases value with
  | none => simp [addGiven, addEmpty, full, h]
  | some value => rfl

theorem ofParts_cons (pair : Float × String) (rest : List (Float × String)) :
    c.ofParts format (pair :: rest) = (c.addGiven format (given pair)).ofParts format rest := by
  simp only [ofParts, List.foldl_cons, given]
  split <;> rfl

theorem ofParts_append (others : List (Float × String)) :
    c.ofParts format (pairs ++ others) = (c.ofParts format pairs).ofParts format others := List.foldl_append

theorem ofParts_haveFraction : (c.ofParts format pairs).haveFraction =
    (c.haveFraction || (pairs.map given).any fun value => value.any fun x => 0.0 < x && x < 1.0) := by
  induction pairs generalizing c with
  | nil => simp [ofParts]
  | cons pair rest ih =>
    rw [ofParts_cons, ih, List.map_cons, List.any_cons, ← Bool.or_assoc]
    cases given pair <;> simp [addGiven, addEmpty, add]

theorem ofParts_have255 : (c.ofParts format pairs).have255 = (c.have255 || exceeds (pairs.map given)) := by
  induction pairs generalizing c with
  | nil => simp [ofParts, exceeds]
  | cons pair rest ih =>
    rw [ofParts_cons, ih, exceeds, exceeds, List.map_cons, List.any_cons, ← Bool.or_assoc]
    cases given pair <;> simp [addGiven, addEmpty, add]

/-- Channels give their values, or zero. -/
theorem ofParts_values (h : c.values.length + pairs.length ≤ format.alphaIndex) :
    (c.ofParts format pairs).values = c.values ++ (pairs.map given).map (·.getD 0.0) := by
  induction pairs generalizing c with
  | nil => simp [ofParts]
  | cons pair rest ih =>
    rw [List.length_cons] at h
    have hadded : (c.addGiven format (given pair)).values = c.values ++ [(given pair).getD 0.0] :=
      addGiven_values (by omega)
    rw [ofParts_cons, ih (by rw [hadded, List.length_append, List.length_singleton]; omega), hadded]
    simp

/-- Zero and full are the same on both scales. -/
theorem scaled_eq {channels : List (Option Float)} {alpha : Option Float}
    (hvalues : c.values = channels.map (·.getD 0.0) ++ [alpha.getD c.full]) :
    c.scaled = channels.map (fun value => (value.map fun x => if c.have255 then x / 255.0 else x).getD 0.0) ++
      [(alpha.map fun x => if c.have255 then x / 255.0 else x).getD 1.0] := by
  unfold scaled
  rw [hvalues, full]
  split
  · have hzero : (0.0 : Float) / 255.0 = 0.0 := by decide +kernel
    have hone : (255.0 : Float) / 255.0 = 1.0 := by decide +kernel
    rw [List.map_append, List.map_map, List.map_singleton]
    congr 1
    · refine List.map_congr_left fun value _ => ?_
      cases value with
      | none => exact hzero
      | some x => rfl
    · cases alpha with
      | none => exact congrArg (fun x => [x]) hone
      | some x => rfl
  · cases alpha <;> simp

/-- The last part of a format with alpha is alpha, and in the others it is left out. -/
theorem partCount_eq (hnamed : format ≠ .named) (hweb : format ≠ .web) :
    (format.alphaIndex = 1 ∨ format.alphaIndex = 3) ∧
      (format.partCount = format.alphaIndex ∨ format.partCount = format.alphaIndex + 1) := by
  cases format <;> simp_all [ColorFormat.alphaIndex, ColorFormat.partCount]

/-- What is left out is added, alpha from what the format lacks. -/
theorem complete_values {channels rest : List (Float × String)} (hchannels : channels.length = format.alphaIndex)
    (hindex : format.alphaIndex = 1 ∨ format.alphaIndex = 3) (hrest : rest.length ≤ 1) :
    (({} : Components).ofParts format (channels ++ rest)).complete.values =
      (channels.map given).map (·.getD 0.0) ++
        [((rest.map given).head?.join).getD (({} : Components).ofParts format (channels ++ rest)).complete.full] := by
  have hvalues : (({} : Components).ofParts format channels).values = (channels.map given).map (·.getD 0.0) := by
    simpa using ofParts_values (c := {}) (by simp [hchannels])
  have hlength : (({} : Components).ofParts format channels).values.length = format.alphaIndex := by
    rw [hvalues]
    simpa using hchannels
  generalize hc : ({} : Components).ofParts format channels = c at hvalues hlength
  rw [ofParts_append, hc, ← hvalues]
  -- All channels are read by now, so alpha is filled in from the flags of all of them, given or not.
  rcases rest with _ | ⟨last, _ | ⟨other, rest⟩⟩
  · have hcomplete : c.complete = c.addEmpty true := if_pos (by rwa [hlength])
    change c.complete.values = c.values ++ [c.complete.full]
    rw [hcomplete]
    rfl
  · have hadded : c.ofParts format [last] = c.addGiven format (given last) := ofParts_cons last []
    have hmore := addGiven_alpha (given last) hlength
    have hcomplete : (c.addGiven format (given last)).complete = c.addGiven format (given last) := by
      refine if_neg ?_
      rw [hmore, List.length_append, List.length_singleton, hlength]
      omega
    rw [hadded, hcomplete]
    exact hmore
  · simp at hrest

/-- The flag for the scale is not changed by what is added. -/
theorem complete_have255 : c.complete.have255 = c.have255 := by
  unfold complete
  split <;> rfl

theorem complete_scaled (hnamed : format ≠ .named) (hweb : format ≠ .web) (hlength : pairs.length = format.partCount) :
    (({} : Components).ofParts format pairs).complete.scaled = fractions format (pairs.map given) := by
  obtain ⟨hindex, hcount⟩ := partCount_eq hnamed hweb
  have htake : (pairs.take format.alphaIndex).length = format.alphaIndex := by
    rw [List.length_take]
    omega
  have hdrop : (pairs.drop format.alphaIndex).length ≤ 1 := by
    rw [List.length_drop]
    omega
  have hvalues := complete_values htake hindex hdrop
  rw [List.take_append_drop] at hvalues
  have hflag : (({} : Components).ofParts format pairs).complete.have255 = exceeds (pairs.map given) := by
    rw [complete_have255, ofParts_have255]
    rfl
  rw [scaled_eq hvalues, fractions, List.map_take, List.map_drop, List.head?_drop, hflag]
  rfl

end Components

namespace ColorText

open Components

variable {format : ColorFormat} {pairs : List (Float × String)} {made : List Float}

theorem mem_given_iff {value : Float} : some value ∈ pairs.map given ↔ ∃ part, (value, part) ∈ pairs ∧ part ≠ "" := by
  rw [List.mem_map]
  constructor
  · rintro ⟨⟨x, part⟩, hmem, hgiven⟩
    unfold given at hgiven
    split at hgiven
    · cases hgiven
    · next hpart =>
      cases hgiven
      exact ⟨part, hmem, by simpa using hpart⟩
  · rintro ⟨part, hmem, hpart⟩
    exact ⟨_, hmem, if_neg (by simpa using hpart)⟩

theorem any_some_iff {values : List (Option Float)} {q : Float → Bool} :
    (values.any fun value => value.any q) = true ↔ ∃ x, some x ∈ values ∧ q x = true := by
  simp only [List.any_eq_true, Option.any_eq_true]
  constructor
  · rintro ⟨value, hmem, x, rfl, hx⟩
    exact ⟨x, hmem, hx⟩
  · rintro ⟨x, hmem, hx⟩
    exact ⟨some x, hmem, x, rfl, hx⟩

theorem exceeds_iff {values : List (Option Float)} : exceeds values = true ↔ ∃ x, some x ∈ values ∧ 1.0 < x := by
  unfold exceeds
  rw [any_some_iff]
  simp only [decide_eq_true_eq]

theorem oneScale_iff (format : ColorFormat) : OneScale (pairs.map given) ↔
    (∀ pair ∈ pairs, pair.2 ≠ "" → 0.0 ≤ pair.1 ∧ pair.1 ≤ 255.0) ∧
      ((({} : Components).ofParts format pairs).haveFraction && (({} : Components).ofParts format pairs).have255) =
        false := by
  have hwithin : (∀ value, some value ∈ pairs.map given → 0.0 ≤ value ∧ value ≤ 255.0) ↔
      ∀ pair ∈ pairs, pair.2 ≠ "" → 0.0 ≤ pair.1 ∧ pair.1 ≤ 255.0 := by
    simp only [mem_given_iff]
    constructor
    · intro h pair hmem hpart
      exact h pair.1 ⟨pair.2, hmem, hpart⟩
    · rintro h value ⟨part, hmem, hpart⟩
      exact h (value, part) hmem hpart
  have hunmixed : ¬ ((∃ value, some value ∈ pairs.map given ∧ 0.0 < value ∧ value < 1.0) ∧
        ∃ value, some value ∈ pairs.map given ∧ 1.0 < value) ↔
      ((({} : Components).ofParts format pairs).haveFraction && (({} : Components).ofParts format pairs).have255) =
        false := by
    rw [← Bool.not_eq_true, Bool.and_eq_true, ofParts_haveFraction, ofParts_have255, Bool.false_or, Bool.false_or,
      any_some_iff, exceeds_iff]
    simp only [Bool.and_eq_true, decide_eq_true_eq]
  rw [← hwithin, ← hunmixed]
  exact ⟨fun ⟨h, h'⟩ => ⟨h, h'⟩, fun ⟨h, h'⟩ => ⟨h, h'⟩⟩

/-- Parts are normal by the rule for components. -/
theorem normal_iff (hnamed : format ≠ .named) (hweb : format ≠ .web) (hlength : pairs.length = format.partCount) :
    Normal format pairs {} made ↔ OneScale (pairs.map given) ∧ made = fractions format (pairs.map given) := by
  rw [oneScale_iff format, ← complete_scaled hnamed hweb hlength]
  constructor
  · rintro ⟨hwithin, hscale, hmade⟩
    exact ⟨⟨hwithin, hscale⟩, hmade⟩
  · rintro ⟨⟨hwithin, hscale⟩, hmade⟩
    exact ⟨hwithin, hscale, hmade⟩

/-! ### Parts -/

theorem mem_of_mem_splitOn {cs part : List Char} (h : part ∈ cs.splitOn '/') : part ⊆ cs := by
  induction cs generalizing part with
  | nil => simp_all
  | cons c rest ih =>
    rcases Metric.mem_splitOn_cons h with rfl | h | ⟨-, first, hfirst, rfl⟩
    · exact List.nil_subset _
    · exact List.subset_cons_of_subset c (ih h)
    · exact List.cons_subset_cons c (ih hfirst)

/-- There are no spaces left to be removed from the parts of a text. -/
theorem withoutSpaces_part {raw part : String} (h : part ∈ Metric.words (Text.withoutSpaces raw)) :
    Text.withoutSpaces part = part := by
  obtain ⟨cs, hcs, rfl⟩ := List.mem_map.mp h
  have hspaces : ∀ c ∈ cs, c ≠ ' ' := by
    intro c hc
    have hmem := mem_of_mem_splitOn hcs hc
    rw [Text.withoutSpaces, String.toList_ofList] at hmem
    simpa using (List.mem_filter.mp hmem).2
  rw [Text.withoutSpaces, String.toList_ofList, List.filter_eq_self.mpr fun c hc => by simpa using hspaces c hc]

variable {metrics : Mapping String} {part : String} {value : Float}

/-- What a part denotes is given. -/
theorem gives_of_denotes (hslash : '/' ∉ part.toList) (h : Metric.Denotes metrics part [value]) :
    Gives (Metric.HasValue metrics) part (given (value, part)) := by
  have hreads := h.reads_hasValue
  rw [Metric.words_of_not_mem hslash] at hreads
  have hsome (hnonempty : part ≠ "") : given (value, part) = some value := if_neg (by simpa using hnonempty)
  cases hreads with
  | empty => exact .empty
  | literal hnumber hfinite =>
    rw [hsome (Metric.isPlain_of_number hnumber).2]
    exact .literal hnumber hfinite
  | name hnonempty hplain hnumber hknown =>
    rw [hsome hnonempty]
    exact .name hnonempty hplain hnumber hknown
  | named hrest => exact absurd rfl hrest
  | function hrest => exact absurd rfl hrest

/-- What is given is denoted, or zero if nothing is given. -/
theorem Gives.denotes {value : Option Float} (hslash : '/' ∉ part.toList)
    (h : Gives (Metric.HasValue metrics) part value) :
    Metric.Denotes metrics part [value.getD 0.0] ∧ given (value.getD 0.0, part) = value := by
  cases h with
  | empty => exact ⟨.empty, rfl⟩
  | literal hnumber hfinite =>
    have hnonempty := (Metric.isPlain_of_number hnumber).2
    exact ⟨.literal hslash hnumber hfinite, if_neg (by simpa using hnonempty)⟩
  | name hnonempty hplain hnumber hknown =>
    obtain ⟨text, hentry, htext, hvalue⟩ := hknown
    exact ⟨.name hslash hnonempty hplain hnumber hentry htext hvalue, if_neg (by simpa using hnonempty)⟩

/-- A part gives one value at most. -/
theorem Gives.unique {part : String} {value value' : Option Float} (h : Gives (Metric.HasValue metrics) part value)
    (h' : Gives (Metric.HasValue metrics) part value') : value = value' := by
  cases h with
  | empty =>
    cases h' with
    | empty => rfl
    | literal hnumber => cases Metric.number?_empty.symm.trans hnumber
    | name hnonempty => exact absurd rfl hnonempty
  | literal hnumber =>
    cases h' with
    | empty => cases Metric.number?_empty.symm.trans hnumber
    | literal hnumber' => cases hnumber.symm.trans hnumber'; rfl
    | name _ _ hnone => cases hnumber.symm.trans hnone
  | name hnonempty _ hnone hvalue =>
    cases h' with
    | empty => exact absurd rfl hnonempty
    | literal hnumber => cases hnumber.symm.trans hnone
    | name _ _ _ hvalue' => rw [hvalue.unique hvalue']

theorem forall_gives_iff {parts : List String} {values : List (Option Float)}
    (hslash : ∀ part ∈ parts, '/' ∉ part.toList) :
    List.Forall₂ (Gives (Metric.HasValue metrics)) parts values ↔
      ∃ read, List.Forall₂ (fun part value => Metric.Denotes metrics part [value]) parts read ∧
        (read.zip parts).map given = values := by
  constructor
  · intro h
    induction h with
    | nil => exact ⟨[], .nil, rfl⟩
    | @cons part value parts values hgives _ ih =>
      obtain ⟨hpart, hothers⟩ := List.forall_mem_cons.mp hslash
      obtain ⟨read, hread, hvalues⟩ := ih hothers
      obtain ⟨hdenotes, hgiven⟩ := hgives.denotes hpart
      exact ⟨_ :: read, .cons hdenotes hread, List.cons_eq_cons.mpr ⟨hgiven, hvalues⟩⟩
  · rintro ⟨read, hread, rfl⟩
    induction hread with
    | nil => exact .nil
    | cons hdenotes _ ih =>
      obtain ⟨hpart, hothers⟩ := List.forall_mem_cons.mp hslash
      exact .cons (gives_of_denotes hpart hdenotes) (ih hothers)

end ColorText

/-! ### What the computation finds -/

namespace Metric

variable {lookup : Lookup} {o : String → MetricLookup} {expecting : String}

theorem extractEach_complete (hl : Answers lookup o)
    (hfinite : ∀ name value, o name = .found value → value.isFinite = true) {expressions : List String}
    {values : List Float}
    (h : List.Forall₂ (fun expression value =>
      Reads (fun name value => o name = .found value) (words (Text.withoutSpaces expression)) [value])
      expressions values) (p : Progress) :
    ∃ read p', extractEach lookup expecting expressions p = .ok (some read) p' ∧ read.values = values := by
  induction h generalizing p with
  | nil => exact ⟨{}, p, rfl, rfl⟩
  | cons hfirst _ ih =>
    obtain ⟨dependencies, p₁, hone⟩ := extractOne_complete hl hfinite hfirst p
    obtain ⟨others, p', hothers, rfl⟩ := ih p₁
    refine ⟨.single _ dependencies ++ others, p', ?_, rfl⟩
    exact bind_eq_ok_iff.mpr ⟨_, p₁, hone, bind_eq_ok_iff.mpr ⟨_, p', hothers, rfl⟩⟩

end Metric

namespace ColorText

open Components

variable {format : ColorFormat} {raw : String} {made : List Float} {color : Color} {p : Progress}

theorem normalise_complete {pairs : List (Float × String)} {c : Components} (h : Normal format pairs c made) :
    normalise format raw pairs c p = .ok (some made) p := by
  induction pairs generalizing c with
  | nil =>
    obtain ⟨-, hscale, rfl⟩ := h
    unfold normalise
    rw [if_neg (by simpa [Components.ofParts] using hscale)]
    rfl
  | cons pair rest ih =>
    obtain ⟨value, part⟩ := pair
    obtain ⟨hwithin, hscale, hmade⟩ := h
    obtain ⟨hpair, hrest⟩ := List.forall_mem_cons.mp hwithin
    rw [ofParts_cons] at hscale hmade
    have hnormal := ih ⟨hrest, hscale, hmade⟩
    unfold normalise
    unfold given at hnormal
    split
    · next hempty =>
      rw [if_pos hempty] at hnormal
      exact hnormal
    · next hpart =>
      rw [if_neg hpart] at hnormal
      rw [if_pos (by simpa using hpair (by simpa using hpart))]
      exact hnormal

theorem Makes.ofComponents (h : Makes format made color) : ofComponents format raw made p = .ok (some color) p := by
  cases h with
  | gray => rfl
  | hsb hformat hcolor =>
    unfold ColorText.ofComponents
    dsimp only
    rw [if_pos hformat, hcolor]
    rfl
  | rgb hformat =>
    unfold ColorText.ofComponents
    dsimp only
    rw [if_neg (by simp [hformat])]
    rfl

/-- The color of a text in terms of its components. -/
def OfParts (metrics : Mapping String) (format : ColorFormat) (parts : List String) (color : Color) : Prop :=
  parts.length = format.partCount ∧ ∃ values, List.Forall₂ (Gives (Metric.HasValue metrics)) parts values ∧
    OneScale values ∧ Makes format (fractions format values) color

/-- A text in a format with components. -/
structure IsComponents (raw : String) (format : ColorFormat) (parts : List String) : Prop where
  words : ∃ tag, Metric.words (Text.withoutSpaces raw) = tag :: parts ∧ ColorFormat.ofWord? tag = some format
  noName : format ≠ .named
  noWeb : format ≠ .web

section Components

variable {metrics colors : Mapping String} {parts : List String}

theorem IsComponents.mem_words (h : IsComponents raw format parts) {part : String} (hmem : part ∈ parts) :
    part ∈ Metric.words (Text.withoutSpaces raw) := by
  obtain ⟨tag, hwords, -⟩ := h.words
  rw [hwords]
  exact List.mem_cons_of_mem _ hmem

theorem IsComponents.not_mem (h : IsComponents raw format parts) : ∀ part ∈ parts, '/' ∉ part.toList :=
  fun _ hmem => Metric.not_mem_of_mem_words (h.mem_words hmem)

theorem IsComponents.forall_iff (h : IsComponents raw format parts) (known : String → Float → Prop)
    (values : List Float) :
    List.Forall₂ (fun part value => known (Text.withoutSpaces part) value) parts values ↔
      List.Forall₂ known parts values := by
  have hsame : parts.map Text.withoutSpaces = parts :=
    (List.map_congr_left fun part hmem => withoutSpaces_part (h.mem_words hmem)).trans (List.map_id' parts)
  rw [← List.forall₂_map_left_iff (R := known), hsame]

/-- The parts beside the values that they denote are normal by the rule. -/
theorem IsComponents.normal_iff (h : IsComponents raw format parts) (hparts : parts.length = format.partCount)
    {read : List Float} (hread : List.Forall₂ (fun part value => Metric.Denotes metrics part [value]) parts read) :
    Normal format (read.zip parts) {} made ↔
      OneScale ((read.zip parts).map given) ∧ made = fractions format ((read.zip parts).map given) := by
  refine ColorText.normal_iff h.noName h.noWeb ?_
  rw [List.length_zip, ← hread.length_eq, Nat.min_self, hparts]

theorem denotes_iff_ofParts (h : IsComponents raw format parts) :
    Denotes metrics colors raw color ↔ OfParts metrics format parts color := by
  have hforall := h.forall_iff fun part value => Metric.Denotes metrics part [value]
  obtain ⟨tag, hwords, hformat⟩ := h.words
  constructor
  · intro hdenotes
    cases hdenotes with
    | components hwords' hformat' _ _ hparts hvalues hnormal hcolor =>
      cases hwords.symm.trans hwords'
      cases hformat.symm.trans hformat'
      have hread := (hforall _).mp hvalues
      obtain ⟨hscale, rfl⟩ := (h.normal_iff hparts hread).mp hnormal
      exact ⟨hparts, _, (forall_gives_iff h.not_mem).mpr ⟨_, hread, rfl⟩, hscale, hcolor⟩
    | web hwords' _ _ => exact absurd (format_unique hwords hformat hwords' ofWord?_web) h.noWeb
    | standard hwords' _ _ => exact absurd (format_unique hwords hformat hwords' ofWord?_named) h.noName
    | named hwords' _ _ => exact absurd (format_unique hwords hformat hwords' ofWord?_named) h.noName
  · rintro ⟨hparts, values, hgives, hscale, hcolor⟩
    obtain ⟨read, hread, rfl⟩ := (forall_gives_iff h.not_mem).mp hgives
    exact .components hwords hformat h.noName h.noWeb hparts ((hforall _).mpr hread)
      ((h.normal_iff hparts hread).mpr ⟨hscale, rfl⟩) hcolor

variable {o : Oracle} {owner : String}

/-- Where metrics have the values of their texts, the color of a text with components is found. -/
theorem components_complete {isEntry : String → Bool}
    (hmetrics : ∀ name value, (o .metric name).toMetric = .found value ↔ Metric.HasValue metrics name value)
    (h : IsComponents raw format parts) (hdenotes : Denotes metrics colors raw color) (p : Progress) :
    ∃ p', compute (Resolvers.probe o).metric (Resolvers.probe o).color isEntry owner raw p = .ok (some color) p' := by
  obtain ⟨⟨tag, hwords, hformat⟩, hnamed, hweb⟩ := h
  cases hdenotes with
  | components hwords' hformat' _ _ hparts hvalues hnormal hcolor =>
    cases hwords.symm.trans hwords'
    cases hformat.symm.trans hformat'
    have hfinite (name : String) (value : Float) (hfound : (o .metric name).toMetric = .found value) :
        value.isFinite = true := ((hmetrics name value).mp hfound).isFinite
    have hreads := hvalues.imp fun part value hdenotes =>
      hdenotes.reads_hasValue.mono fun name value => (hmetrics name value).mpr
    obtain ⟨read, p₁, hread, rfl⟩ := Metric.extractEach_complete (Metric.answers_probe o) hfinite hreads p
    obtain ⟨p₂, hdepend⟩ : ∃ p₂, dependOn .color owner read.dependencies p₁ = .ok () p₂ := ⟨_, rfl⟩
    unfold compute
    simp only [hwords, hformat]
    rw [if_neg (not_not.mpr hparts)]
    exact ⟨p₂, bind_eq_ok_iff.mpr ⟨some read, p₁, hread, bind_eq_ok_iff.mpr ⟨(), p₂, hdepend,
      bind_eq_ok_iff.mpr ⟨some _, p₂, normalise_complete hnormal, hcolor.ofComponents⟩⟩⟩⟩
  | web hwords' _ _ => exact absurd (format_unique hwords hformat hwords' ofWord?_web) hweb
  | standard hwords' _ _ => exact absurd (format_unique hwords hformat hwords' ofWord?_named) hnamed
  | named hwords' _ _ => exact absurd (format_unique hwords hformat hwords' ofWord?_named) hnamed

theorem compute_iff {isEntry : String → Bool}
    (hmetrics : ∀ name value, (o .metric name).toMetric = .found value ↔ Metric.HasValue metrics name value)
    (h : IsComponents raw format parts) :
    (∃ p', compute (Resolvers.probe o).metric (Resolvers.probe o).color isEntry owner raw p = .ok (some color) p') ↔
      Denotes metrics colors raw color := by
  constructor
  · rintro ⟨p', hcompute⟩
    obtain ⟨tag, hwords, hformat⟩ := h.words
    refine components_sound hwords hformat h.noName h.noWeb (fun name value hfound => ?_) hcompute
    exact (hmetrics name value).mp (Metric.toMetric_eq_found_iff.mpr hfound)
  · intro hdenotes
    exact components_complete hmetrics h hdenotes p

end Components

end ColorText

end DesignTokens
