import DesignTokens.Proofs.Color.Range
import DesignTokens.Proofs.Image.Painting
import DesignTokens.Proofs.Metric.Evaluation

/-!
# The scale of colors

The parts of a color text are values up to 255, and once they are on one scale they are fractions, so that the color
they make is in range, be it given by its components or by hue, saturation and brightness. Nothing can go wrong with
such a color. Bytes in pairs of digits, the palette and other colors are no greater.

* `ColorText.normalise_ends` — components are fractions once they are on one scale.
* `ColorText.compute_answers` — color texts, however names are looked up.
* `ColorText.compute_ends` — the colors of a document are modest.
-/

namespace DesignTokens

open Resolve Number

/-- A color in range is modest. -/
theorem Color.InRange.isModest {c : Color} (h : c.InRange) : c.IsModest := by
  have small {x : Float} (hx : Number.InRange (2 ^ 0) x) : Bounded 20 x := hx.bounded.mono (by decide)
  exact ⟨small h.red, small h.green, small h.blue, small h.alpha⟩

namespace ColorText

variable {may : Fault → Prop} {raw : String}

theorem webBytes_ends {digits : List Char} {read : List Nat} (hread : ∀ byte ∈ read, byte ≤ 255) :
    Finds (fun bytes => ∀ byte ∈ bytes, byte ≤ 255) may (webBytes raw digits read) := by
  fun_induction webBytes raw digits read with
  | case1 read a b rest _ high low hhigh hlow ih =>
    refine ih fun byte hbyte => ?_
    rcases List.mem_append.mp hbyte with hbyte | hbyte
    · exact hread byte hbyte
    · have hfirst := hexValue_le hhigh
      have hsecond := hexValue_le hlow
      rw [List.mem_singleton.mp hbyte]
      omega
  | case2 => exact .reject
  | case3 => exact .reject
  | case4 => exact .reject
  | case5 read =>
    refine .some fun byte hbyte => ?_
    rcases List.mem_append.mp hbyte with hbyte | hbyte
    · exact hread byte hbyte
    · rw [List.mem_singleton.mp hbyte]
  | case6 read => exact .some hread
  | case7 => exact .reject

theorem normalise_ends {format : ColorFormat} {values : List (Float × String)} {c : Components} (hc : c.OnScale) :
    Finds (fun fractions => ∀ fraction ∈ fractions, InRange 1 fraction) may (normalise format raw values c) := by
  induction values generalizing c with
  | nil =>
    unfold normalise
    split
    · exact .reject
    · exact .some hc.complete.scaled
  | cons value rest ih =>
    obtain ⟨value, part⟩ := value
    unfold normalise
    split
    · exact ih (hc.addEmpty _)
    split
    · next hrange =>
      simp only [Bool.and_eq_true, decide_eq_true_eq] at hrange
      exact ih (hc.add hrange.1 hrange.2)
    · exact .reject

theorem ofComponents_ends {format : ColorFormat} {fractions : List Float}
    (hrange : ∀ fraction ∈ fractions, InRange 1 fraction) :
    Finds Color.InRange may (ofComponents format raw fractions) := by
  unfold ofComponents
  split
  · exact .some (Makes.inRange (.gray : Makes format _ _) hrange)
  · split
    · next hformat =>
      simp only [List.forall_mem_cons] at hrange
      obtain ⟨hhue, hsaturation, hbrightness, halpha, -⟩ := hrange
      obtain ⟨color, hcolor, hcolorRange⟩ := Color.hsb_inRange hhue hsaturation hbrightness halpha
      rw [hcolor]
      exact .some hcolorRange
    · next hformat => exact .some ((Makes.rgb (by simpa using hformat)).inRange hrange)
  · exact .reject

/-- The parts of a color text that are read as metric expressions. -/
def expressions (raw : String) : List String :=
  match Metric.words (Text.withoutSpaces raw) with
  | [] => []
  | tag :: parts =>
    match ColorFormat.ofWord? tag with
    | none | some .named | some .web => []
    | some _ => parts

section Lookups

variable {fine : Color → Prop} {metric : Metric.Lookup} {lookup : String → Resolve Lookup} {isEntry : String → Bool}
  {owner : String} (hfine : ∀ c : Color, c.InRange → fine c)

include hfine

theorem named_answers {name : String} (hlookup : Ends (fun x => ∀ c, x = .found c → fine c) may (lookup name)) :
    Finds fine may (named lookup isEntry owner raw name) := by
  unfold named
  split
  · refine Ends.dependOn.bind fun _ _ => hlookup.bind fun x hx => ?_
    cases x with
    | found c => exact .some (hx c rfl)
    | _ => exact .reject
  · split
    · next c hc => exact .some (hfine c (Color.standard_inRange hc))
    · exact .reject

/-- A color text comes to a color in range or to one that a name stands for. -/
theorem compute_answers
    (hlookup : ∀ name, Metric.words (Text.withoutSpaces raw) = ["named", name] →
      Ends (fun x => ∀ c, x = .found c → fine c) may (lookup name))
    (hparts : ∀ text ∈ expressions raw, Metric.Tame metric may text) :
    Finds fine may (compute metric lookup isEntry owner raw) := by
  have inRange {f : Resolve (Option Color)} (hf : Finds Color.InRange may f) : Finds fine may f :=
    hf.weaken fun _ hx c hc => hfine c (hx c hc)
  unfold compute
  unfold expressions at hparts
  split
  · exact .reject
  next tag parts hwords =>
  simp only [hwords] at hlookup hparts
  split
  · exact .reject
  next format hformat =>
  simp only [hformat] at hparts
  split
  · exact .reject
  next hcount =>
  split
  · have hone : parts.length = 1 := not_not.mp hcount
    obtain ⟨name, rfl⟩ := List.length_eq_one_iff.mp hone
    obtain rfl : tag = "named" := name_of_ofWord? hformat
    exact named_answers hfine (hlookup name rfl)
  · refine (webBytes_ends (by simp)).bind fun bytes hbytes => ?_
    cases bytes with
    | none => exact .none
    | some bytes =>
      refine inRange (ofComponents_ends fun fraction hmem => ?_)
      obtain ⟨byte, hbyte, rfl⟩ := List.mem_map.mp hmem
      exact inRange_byte (hbytes bytes rfl byte hbyte)
  · next hnamed hweb =>
    have hall : ∀ text ∈ parts, Metric.Tame metric may text := by
      cases format <;> first | exact hparts | exact absurd rfl hnamed | exact absurd rfl hweb
    refine (Metric.extractEach_answers hall).bind fun read _ => ?_
    cases read with
    | none => exact .none
    | some read =>
      refine Ends.dependOn.bind fun _ _ => (normalise_ends .start).bind fun components hcomponents => ?_
      cases components with
      | none => exact .none
      | some components => exact inRange (ofComponents_ends (hcomponents components rfl))

end Lookups

theorem compute_ends {o : Oracle} {isEntry : String → Bool} {owner : String}
    (hmay : ∀ text ∈ expressions raw, ∀ fault, Metric.Unreadable text fault → may fault)
    (hmodest : ∀ name c, o .color name = .found c → c.IsModest) :
    Finds Color.IsModest may
      (compute (Resolvers.probe o).metric (Resolvers.probe o).color isEntry owner raw) := by
  refine compute_answers (fun _ => Color.InRange.isModest) (fun name _ => Ends.color.weaken fun x hx c hc => ?_)
    fun text htext => .probe (hmay text htext)
  cases hanswer : o .color name with
  | found other =>
    rw [hanswer] at hx
    cases hx.symm.trans hc
    exact hmodest name _ hanswer
  | _ =>
    rw [hanswer] at hx
    cases hx.symm.trans hc

end ColorText

end DesignTokens
