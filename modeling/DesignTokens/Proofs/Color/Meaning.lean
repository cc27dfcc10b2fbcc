import Mathlib.Data.List.Forall2
import DesignTokens.Proofs.Metric.Evaluation

/-!
# The meaning of color texts

`ColorText.Denotes` says which color a text stands for among the metrics and the colors of a document: the color of
its components, that of its hexadecimal digits, one of the palette, or the color of another text. Like the meaning of
metric expressions it mentions neither cells nor an order of evaluation.

* `ColorText.Denotes.unique` — a text stands for one color at most.
* `ColorText.compute_sound` — the computation of a color finds what its text stands for.
-/

namespace DesignTokens

namespace Metric

open Resolve

variable {lookup : Lookup} {o : String → MetricLookup} {expecting : String}

theorem extractEach_sound (hl : Answers lookup o) {expressions : List String} {read : Extraction} {p p' : Progress}
    (h : extractEach lookup expecting expressions p = .ok (some read) p') :
    List.Forall₂ (fun expression value =>
      Reads (fun name value => o name = .found value) (words (Text.withoutSpaces expression)) [value])
      expressions read.values := by
  induction expressions generalizing read p p' with
  | nil =>
    cases h
    exact .nil
  | cons expression rest ih =>
    obtain ⟨first, p₁, hfirst, h⟩ := bind_eq_ok_iff.mp h
    rcases first with _ | ⟨value, dependencies⟩
    · cases h
    obtain ⟨others, p₂, hothers, h⟩ := bind_eq_ok_iff.mp h
    cases others with
    | none => cases h
    | some others =>
      cases h
      exact .cons (extractOne_sound hl hfirst).2 (ih hothers)

end Metric

/-! ### Components -/

namespace Components

/-- The components with the values of parts added. -/
def ofParts (format : ColorFormat) (values : List (Float × String)) (c : Components) : Components :=
  values.foldl (fun c pair =>
    if pair.2.isEmpty then c.addEmpty (c.values.length = format.alphaIndex) else c.add pair.1) c

/-- The components with a full alpha, if the format has none. -/
def complete (c : Components) : Components :=
  if c.values.length = 1 ∨ c.values.length = 3 then c.addEmpty true else c

end Components

namespace ColorText

open Resolve

/-- The fractions that the values of parts come to: the values are in range and on one scale. -/
structure Normal (format : ColorFormat) (values : List (Float × String)) (c : Components) (fractions : List Float) :
    Prop where
  within : ∀ pair ∈ values, pair.2 ≠ "" → 0.0 ≤ pair.1 ∧ pair.1 ≤ 255.0
  oneScale : ((c.ofParts format values).haveFraction && (c.ofParts format values).have255) = false
  fractions_eq : fractions = (c.ofParts format values).complete.scaled

/-- The color that fractions make. -/
inductive Makes (format : ColorFormat) : List Float → Color → Prop where
  | gray {white alpha : Float} : Makes format [white, alpha] (.white white alpha)
  | hsb {hue saturation brightness alpha : Float} {color : Color} (hformat : format.isHsb = true)
      (hcolor : Color.hsb hue saturation brightness alpha = .ok color) :
      Makes format [hue, saturation, brightness, alpha] color
  | rgb {red green blue alpha : Float} (hformat : format.isHsb = false) :
      Makes format [red, green, blue, alpha] ⟨red, green, blue, alpha⟩

/-- The bytes of pairs of hexadecimal digits. -/
inductive Hex : List Char → List Nat → Prop where
  | nil : Hex [] []
  | cons {a b : Char} {high low : Nat} {rest : List Char} {bytes : List Nat}
      (hhigh : Number.Literal.hexValue? a = some high) (hlow : Number.Literal.hexValue? b = some low)
      (hrest : Hex rest bytes) : Hex (a :: b :: rest) ((high * 16 + low) :: bytes)

/-- The four bytes of a web color, of which the last may be left out. -/
def WebBytes (read : List Nat) (digits : List Char) (bytes : List Nat) : Prop :=
  ∃ given, Hex digits given ∧
    ((read ++ given).length = 3 ∧ bytes = read ++ given ++ [255] ∨ (read ++ given).length = 4 ∧ bytes = read ++ given)

/-- The color that a text stands for among metrics and colors. -/
inductive Denotes (metrics colors : Mapping String) : String → Color → Prop where
  | components {raw tag : String} {parts : List String} {format : ColorFormat} {values fractions : List Float}
      {color : Color} (hwords : Metric.words (Text.withoutSpaces raw) = tag :: parts)
      (hformat : ColorFormat.ofWord? tag = some format) (hnamed : format ≠ .named) (hweb : format ≠ .web)
      (hparts : parts.length = format.partCount)
      (hvalues : List.Forall₂ (fun part value => Metric.Denotes metrics (Text.withoutSpaces part) [value]) parts values)
      (hnormal : Normal format (values.zip parts) {} fractions) (hcolor : Makes format fractions color) :
      Denotes metrics colors raw color
  | web {raw digits : String} {bytes : List Nat} {color : Color}
      (hwords : Metric.words (Text.withoutSpaces raw) = ["web", digits]) (hbytes : WebBytes [] digits.toList bytes)
      (hcolor : Makes .web (bytes.map fun byte => Float.ofNat byte / 255.0) color) : Denotes metrics colors raw color
  | standard {raw name : String} {color : Color}
      (hwords : Metric.words (Text.withoutSpaces raw) = ["named", name]) (hentry : colors.find? name = none)
      (hcolor : Color.standard.lookup name = some color) : Denotes metrics colors raw color
  | named {raw name text : String} {color : Color}
      (hwords : Metric.words (Text.withoutSpaces raw) = ["named", name]) (hentry : colors.find? name = some text)
      (htext : Denotes metrics colors text color) : Denotes metrics colors raw color

/-- The color of an entry by the meaning of its text. -/
def HasValue (metrics colors : Mapping String) (name : String) (color : Color) : Prop :=
  ∃ text, colors.find? name = some text ∧ Denotes metrics colors text color

/-! ### One color at most -/

section Unique

variable {metrics colors : Mapping String} {format : ColorFormat} {raw name : String} {color color' : Color}

theorem Makes.unique {fractions : List Float} (h : Makes format fractions color) (h' : Makes format fractions color') :
    color = color' := by
  cases h with
  | gray => cases h'; rfl
  | hsb hformat hcolor =>
    cases h' with
    | hsb _ hcolor' => exact Except.ok.inj (hcolor.symm.trans hcolor')
    | rgb hformat' => rw [hformat] at hformat'; cases hformat'
  | rgb hformat =>
    cases h' with
    | hsb hformat' _ => rw [hformat] at hformat'; cases hformat'
    | rgb _ => rfl

theorem Hex.unique {digits : List Char} {bytes bytes' : List Nat} (h : Hex digits bytes) (h' : Hex digits bytes') :
    bytes = bytes' := by
  induction h generalizing bytes' with
  | nil => cases h'; rfl
  | cons hhigh hlow _ ih =>
    cases h' with
    | cons hhigh' hlow' hrest' =>
      cases hhigh.symm.trans hhigh'
      cases hlow.symm.trans hlow'
      rw [ih hrest']

theorem WebBytes.unique {read : List Nat} {digits : List Char} {bytes bytes' : List Nat}
    (h : WebBytes read digits bytes) (h' : WebBytes read digits bytes') : bytes = bytes' := by
  obtain ⟨given, hgiven, hbytes⟩ := h
  obtain ⟨given', hgiven', hbytes'⟩ := h'
  obtain rfl := hgiven.unique hgiven'
  rcases hbytes with ⟨hlength, rfl⟩ | ⟨hlength, rfl⟩ <;> rcases hbytes' with ⟨hlength', rfl⟩ | ⟨hlength', rfl⟩
  · rfl
  · omega
  · omega
  · rfl

theorem values_unique {parts : List String} {values values' : List Float}
    (h : List.Forall₂ (fun part value => Metric.Denotes metrics (Text.withoutSpaces part) [value]) parts values)
    (h' : List.Forall₂ (fun part value => Metric.Denotes metrics (Text.withoutSpaces part) [value]) parts values') :
    values = values' := by
  induction h generalizing values' with
  | nil => cases h'; rfl
  | cons hvalue _ ih =>
    cases h' with
    | cons hvalue' hrest' => rw [hvalue.unique hvalue', ih hrest']

theorem ofWord?_web : ColorFormat.ofWord? "web" = some .web := by decide

theorem ofWord?_named : ColorFormat.ofWord? "named" = some .named := by decide

/-- Words say what format they are of. -/
theorem format_unique {tag tag' : String} {parts parts' words : List String} {format' : ColorFormat}
    (hwords : words = tag :: parts) (hformat : ColorFormat.ofWord? tag = some format) (hwords' : words = tag' :: parts')
    (hformat' : ColorFormat.ofWord? tag' = some format') : format = format' := by
  cases hwords.symm.trans hwords'
  exact Option.some.inj (hformat.symm.trans hformat')

theorem Denotes.unique (h : Denotes metrics colors raw color) (h' : Denotes metrics colors raw color') :
    color = color' := by
  induction h with
  | components hwords hformat hnamed hweb _ hvalues hnormal hcolor =>
    cases h' with
    | components hwords' hformat' _ _ _ hvalues' hnormal' hcolor' =>
      cases hwords.symm.trans hwords'
      cases hformat.symm.trans hformat'
      obtain rfl := values_unique hvalues hvalues'
      rw [hnormal.fractions_eq] at hcolor
      rw [hnormal'.fractions_eq] at hcolor'
      exact hcolor.unique hcolor'
    | web hwords' _ _ => exact absurd (format_unique hwords hformat hwords' ofWord?_web) hweb
    | standard hwords' _ _ => exact absurd (format_unique hwords hformat hwords' ofWord?_named) hnamed
    | named hwords' _ _ => exact absurd (format_unique hwords hformat hwords' ofWord?_named) hnamed
  | web hwords hbytes hcolor =>
    cases h' with
    | components hwords' hformat' _ hweb' _ _ _ _ =>
      exact absurd (format_unique hwords' hformat' hwords ofWord?_web) hweb'
    | web hwords' hbytes' hcolor' =>
      cases hwords.symm.trans hwords'
      obtain rfl := hbytes.unique hbytes'
      exact hcolor.unique hcolor'
    | standard hwords' _ _ => cases format_unique hwords ofWord?_web hwords' ofWord?_named
    | named hwords' _ _ => cases format_unique hwords ofWord?_web hwords' ofWord?_named
  | standard hwords hentry hcolor =>
    cases h' with
    | components hwords' hformat' hnamed' _ _ _ _ _ =>
      exact absurd (format_unique hwords' hformat' hwords ofWord?_named) hnamed'
    | web hwords' _ _ => cases format_unique hwords ofWord?_named hwords' ofWord?_web
    | standard hwords' _ hcolor' =>
      cases hwords.symm.trans hwords'
      exact Option.some.inj (hcolor.symm.trans hcolor')
    | named hwords' hentry' _ =>
      cases hwords.symm.trans hwords'
      cases hentry.symm.trans hentry'
  | named hwords hentry _ ih =>
    cases h' with
    | components hwords' hformat' hnamed' _ _ _ _ _ =>
      exact absurd (format_unique hwords' hformat' hwords ofWord?_named) hnamed'
    | web hwords' _ _ => cases format_unique hwords ofWord?_named hwords' ofWord?_web
    | standard hwords' hentry' _ =>
      cases hwords.symm.trans hwords'
      cases hentry.symm.trans hentry'
    | named hwords' hentry' htext' =>
      cases hwords.symm.trans hwords'
      cases hentry.symm.trans hentry'
      exact ih htext'

theorem HasValue.unique (h : HasValue metrics colors name color) (h' : HasValue metrics colors name color') :
    color = color' := by
  obtain ⟨text, hentry, htext⟩ := h
  obtain ⟨text', hentry', htext'⟩ := h'
  obtain rfl : text = text' := Option.some.inj (hentry.symm.trans hentry')
  exact htext.unique htext'

end Unique

/-! ### What the computation finds -/

section Sound

variable {metrics colors : Mapping String} {format : ColorFormat} {raw : String} {color : Color} {p p' : Progress}

theorem webBytes_sound {digits : List Char} {read bytes : List Nat}
    (h : webBytes raw digits read p = .ok (some bytes) p') : WebBytes read digits bytes := by
  fun_induction webBytes raw digits read with
  | case1 a b rest read _ high low hlow hhigh ih =>
    obtain ⟨given, hgiven, hbytes⟩ := ih h
    refine ⟨(high * 16 + low) :: given, .cons hhigh hlow hgiven, ?_⟩
    rwa [List.append_assoc] at hbytes
  | case2 => exact absurd h reject_ne_some
  | case3 => exact absurd h reject_ne_some
  | case4 => exact absurd h reject_ne_some
  | case5 read hlength =>
    cases h
    exact ⟨[], .nil, .inl ⟨by simpa using hlength, by simp⟩⟩
  | case6 read _ hlength =>
    cases h
    exact ⟨[], .nil, .inr ⟨by simpa using hlength, by simp⟩⟩
  | case7 => exact absurd h reject_ne_some

theorem normalise_sound {values : List (Float × String)} {c : Components} {fractions : List Float}
    (h : normalise format raw values c p = .ok (some fractions) p') : Normal format values c fractions := by
  induction values generalizing c with
  | nil =>
    unfold normalise at h
    split at h
    · exact absurd h reject_ne_some
    · next hscale =>
      cases h
      exact ⟨by simp, Bool.eq_false_iff.mpr hscale, rfl⟩
  | cons pair rest ih =>
    obtain ⟨value, part⟩ := pair
    unfold normalise at h
    split at h
    · next hempty =>
      obtain ⟨hwithin, hscale, hfractions⟩ := ih h
      have hfold : c.ofParts format ((value, part) :: rest) =
          (c.addEmpty (c.values.length = format.alphaIndex)).ofParts format rest := by
        simp only [Components.ofParts, List.foldl_cons, hempty, if_true]
      refine ⟨?_, by rwa [hfold], by rwa [hfold]⟩
      refine List.forall_mem_cons.mpr ⟨fun hpart => ?_, hwithin⟩
      exact absurd (String.isEmpty_iff.mp hempty) hpart
    split at h
    · next hpart hrange =>
      obtain ⟨hwithin, hscale, hfractions⟩ := ih h
      have hfold : c.ofParts format ((value, part) :: rest) = (c.add value).ofParts format rest := by
        simp only [Components.ofParts, List.foldl_cons, if_neg hpart]
      simp only [Bool.and_eq_true, decide_eq_true_eq] at hrange
      exact ⟨List.forall_mem_cons.mpr ⟨fun _ => hrange, hwithin⟩, by rwa [hfold], by rwa [hfold]⟩
    · exact absurd h reject_ne_some

theorem ofComponents_sound {fractions : List Float} (h : ofComponents format raw fractions p = .ok (some color) p') :
    Makes format fractions color := by
  unfold ofComponents at h
  split at h
  · cases h
    exact .gray
  · split at h
    · next hformat =>
      obtain ⟨made, p₁, hmade, h⟩ := bind_eq_ok_iff.mp h
      cases h
      refine .hsb hformat ?_
      cases hcolor : Color.hsb _ _ _ _ <;> rw [hcolor] at hmade <;> cases hmade
      rfl
    · next hformat =>
      cases h
      exact .rgb (by simpa using hformat)
  · exact absurd h reject_ne_some

theorem name_of_ofWord? {tag : String} (h : ColorFormat.ofWord? tag = some format) : tag = format.name := by
  unfold ColorFormat.ofWord? at h
  have hname := List.find?_some h
  exact (beq_iff_eq.mp hname).symm

variable {o : Oracle} {owner : String}

theorem named_sound {name : String} (hwords : Metric.words (Text.withoutSpaces raw) = ["named", name])
    (hcolors : ∀ name value, o .color name = .found value → HasValue metrics colors name value)
    (h : named (Resolvers.probe o).color colors.contains owner raw name p = .ok (some color) p') :
    Denotes metrics colors raw color := by
  unfold named at h
  split at h
  · obtain ⟨-, p₁, -, h⟩ := bind_eq_ok_iff.mp h
    obtain ⟨answer, p₂, hanswer, h⟩ := bind_eq_ok_iff.mp h
    obtain ⟨p₃, hprobe, -⟩ := Resolvers.color_probe o name p₁
    obtain ⟨rfl, rfl⟩ : answer = (o .color name).toColor ∧ p₂ = p₃ := by
      rw [hprobe] at hanswer
      cases hanswer
      exact ⟨rfl, rfl⟩
    cases hfound : o .color name with
    | missing => rw [hfound] at h; exact absurd h reject_ne_some
    | invalid => rw [hfound] at h; exact absurd h reject_ne_some
    | found value =>
      rw [hfound] at h
      cases h
      obtain ⟨text, hentry, htext⟩ := hcolors name color hfound
      exact .named hwords hentry htext
  · next hentry =>
    cases hstandard : Color.standard.lookup name with
    | none =>
      rw [hstandard] at h
      exact absurd h reject_ne_some
    | some value =>
      rw [hstandard] at h
      cases h
      exact .standard hwords (by simpa [Mapping.contains] using hentry) hstandard

theorem components_sound {tag : String} {parts : List String} {isEntry : String → Bool}
    (hwords : Metric.words (Text.withoutSpaces raw) = tag :: parts) (hformat : ColorFormat.ofWord? tag = some format)
    (hnamed : format ≠ .named) (hweb : format ≠ .web)
    (hmetrics : ∀ name value, o .metric name = .found value → Metric.HasValue metrics name value)
    (h : compute (Resolvers.probe o).metric (Resolvers.probe o).color isEntry owner raw p = .ok (some color) p') :
    Denotes metrics colors raw color := by
  unfold compute at h
  simp only [hwords, hformat] at h
  split at h
  · exact absurd h reject_ne_some
  next hparts =>
  obtain ⟨read, p₁, hread, h⟩ := bind_eq_ok_iff.mp h
  cases read with
  | none => cases h
  | some read =>
    obtain ⟨-, p₂, -, h⟩ := bind_eq_ok_iff.mp h
    obtain ⟨fractions, p₃, hfractions, h⟩ := bind_eq_ok_iff.mp h
    cases fractions with
    | none => cases h
    | some fractions =>
      have hvalues := (Metric.extractEach_sound (Metric.answers_probe o) hread).imp fun part value hreads =>
        hreads.denotes_of_found hmetrics
      exact .components hwords hformat hnamed hweb (not_not.mp hparts) hvalues (normalise_sound hfractions)
        (ofComponents_sound h)

theorem compute_sound
    (hmetrics : ∀ name value, o .metric name = .found value → Metric.HasValue metrics name value)
    (hcolors : ∀ name value, o .color name = .found value → HasValue metrics colors name value)
    (h : compute (Resolvers.probe o).metric (Resolvers.probe o).color colors.contains owner raw p =
      .ok (some color) p') : Denotes metrics colors raw color := by
  have hcompute := h
  unfold compute at h
  cases hwords : Metric.words (Text.withoutSpaces raw) with
  | nil =>
    rw [hwords] at h
    exact absurd h reject_ne_some
  | cons tag parts =>
  cases hformat : ColorFormat.ofWord? tag with
  | none =>
    simp only [hwords, hformat] at h
    exact absurd h reject_ne_some
  | some format =>
  simp only [hwords, hformat] at h
  split at h
  · exact absurd h reject_ne_some
  next hparts =>
  rw [not_not] at hparts
  split at h
  · obtain ⟨name, rfl⟩ := List.length_eq_one_iff.mp hparts
    rw [name_of_ofWord? hformat] at hwords
    exact named_sound hwords hcolors h
  · obtain ⟨digits, rfl⟩ := List.length_eq_one_iff.mp hparts
    rw [name_of_ofWord? hformat] at hwords
    obtain ⟨bytes, p₁, hbytes, h⟩ := bind_eq_ok_iff.mp h
    cases bytes with
    | none => cases h
    | some bytes => exact .web hwords (webBytes_sound hbytes) (ofComponents_sound h)
  · next hnamed hweb => exact components_sound hwords hformat hnamed hweb hmetrics hcompute

end Sound

end ColorText

end DesignTokens
