import DesignTokens.Proofs.Metric.Evaluation

/-!
# Circles of references

Metrics, colors, fonts, text attributes and images may refer to entries of their own asset, and so in a
circle. An entry is not found at a stage unless what it refers to was found at an earlier one. So nothing on a
circle has a value, nor has anything that leads into one.

Colors, fonts and images give up as soon as the entry that they refer to has no value. They resolve to the
sentinel, however they were asked for. Metrics and text attributes may meet with a fault before or after the
reference, and then the request ends in it.

* `Document.LeadsIntoCircle.not_isFound` — what leads into a circle has no value.
* `Reading.circular_resolves` — what an entry that leads into a circle resolves to.
-/

namespace DesignTokens

open Resolve

/-! ### Computing without the base -/

section Unfound

variable {o : Oracle} {name other : String}

theorem ColorText.compute_unfound {isEntry : String → Bool} {raw : String}
    (hwords : Metric.words (Text.withoutSpaces raw) = ["named", other]) (hentry : isEntry other = true)
    (ho : ¬ (o .color other).IsFound) (p : Progress) :
    ∃ p', compute (Resolvers.probe o).metric (Resolvers.probe o).color isEntry name raw p = .ok none p' ∧
      p'.begun = (.color, other) :: p.begun := by
  obtain ⟨p', hanswer, hbegun⟩ :=
    Resolvers.color_probe o other (p.modify .color name (·.dependOn [⟨.color, other⟩]))
  have hformat : ColorFormat.ofWord? "named" = some .named := by decide
  have hnamed : compute (Resolvers.probe o).metric (Resolvers.probe o).color isEntry name raw =
      named (Resolvers.probe o).color isEntry name raw other := by
    simp only [compute, hwords, hformat, ColorFormat.partCount, List.length_singleton, List.headD_cons, ne_eq,
      not_true_eq_false, if_false]
  rw [hnamed, named, if_pos hentry, bind_dependOn, bind_of_ok hanswer]
  cases hx : o .color other with
  | missing => exact ⟨_, rfl, hbegun⟩
  | invalid => exact ⟨_, rfl, hbegun⟩
  | found value => exact absurd ⟨value, hx⟩ ho

theorem FontLayers.compute_unfound {entry : FontEntry} (hbase : entry.basedOn.filter (!·.isEmpty) = some other)
    (ho : ¬ (o .font other).IsFound) (catalog : Catalog) (p : Progress) :
    ∃ p', compute (Resolvers.probe o).metric catalog (Resolvers.probe o .font) name entry p = .ok none p' ∧
      p'.begun = (.font, other) :: p.begun := by
  obtain ⟨p', hfetch, hbegun⟩ :=
    Resolvers.fetch_probe ho "basedOn" .font (p.modify .font name (·.dependOn [⟨.font, other⟩]))
  refine ⟨p', ?_, hbegun⟩
  have hdescriptor : baseDescriptor (Resolvers.probe o .font) name entry p = .ok none p' := by
    simp only [baseDescriptor, hbase]
    rw [bind_dependOn, bind_of_ok hfetch]
    rfl
  rw [compute, bind_of_ok hdescriptor]
  rfl

theorem ImageLayers.compute_unfound {hasPlacement : String → Bool} {entry : ImageEntry}
    (hsource : entry.source = .basedOn other) (ho : ¬ (o .image other).IsFound) (surroundings : Surroundings)
    (p : Progress) :
    ∃ p', compute (.of (.probe o) hasPlacement) surroundings (Resolvers.probe o .image) name entry p =
        .ok none p' ∧ p'.begun = (.image, other) :: p.begun := by
  obtain ⟨p', hfetch, hbegun⟩ :=
    Resolvers.fetch_probe ho "basedOn" .image (p.modify .image name (·.dependOn [⟨.image, other⟩]))
  refine ⟨p', ?_, hbegun⟩
  have hbase : base (.of (.probe o) hasPlacement) surroundings (Resolvers.probe o .image) name entry p =
      .ok none p' := by
    simp only [base, hsource]
    rw [bind_dependOn]
    exact hfetch
  rw [compute, bind_of_ok hbase]
  rfl

/-- Text attributes are read on without their base, and fail in the end. -/
theorem TextLayers.compute_unfound {entry : TextAttributesEntry}
    (hbase : entry.basedOn.filter (!·.isEmpty) = some other) (ho : ¬ (o .textAttributes other).IsFound)
    {value : TextAttributes} {p p' : Progress} :
    compute (.of (.probe o)) (Resolvers.probe o .textAttributes) name entry p ≠ .ok (some value) p' := by
  intro h
  obtain ⟨p₁, hfetch, -⟩ := Resolvers.fetch_probe ho "basedOn" .textAttributes
    (p.modify .textAttributes name (·.dependOn [⟨.textAttributes, other⟩]))
  have hdraft : baseDraft (Resolvers.probe o .textAttributes) name entry p = .ok (Draft.spoil {}) p₁ := by
    simp only [baseDraft, hbase]
    rw [bind_dependOn, bind_of_ok hfetch]
    rfl
  rw [compute, bind_of_ok hdraft] at h
  have hrest : Inquires (fun _ => True) (fun _ _ => True) (True ∧ (Draft.spoil {}).errors = 0) _ _ :=
    readOver_inquires trivial trivial trivial name trivial entry (Draft.spoil {})
  obtain ⟨-, herrors⟩ := hrest.before_of_probe h ⟨trivial, rfl⟩
  cases herrors

end Unfound

/-! ### References -/

namespace Document

/-- The entries of its own asset that an entry refers to. -/
def references (d : Document) : (a : Asset) → a.kind.Entry → List String
  | .metric, (text : String) => Metric.names (Metric.words (Text.withoutSpaces text))
  | .color, (raw : String) =>
    match Metric.words (Text.withoutSpaces raw) with
    | ["named", name] => if d.sections.colors.contains name then [name] else []
    | _ => []
  | .font, entry => (entry.basedOn.filter (!·.isEmpty)).toList
  | .textAttributes, entry => (entry.basedOn.filter (!·.isEmpty)).toList
  | .image, entry =>
    match entry.source with
    | .basedOn name => [name]
    | _ => []
  | .buttonStyle, _ => []

/-- One entry refers to another of its asset. -/
def Refers (d : Document) (a : Asset) (name other : String) : Prop :=
  ∃ entry, d.entry? a.kind name = some entry ∧ other ∈ d.references a entry

/-- A chain of references leads from an entry into a circle. -/
def LeadsIntoCircle (d : Document) (a : Asset) (name : String) : Prop :=
  ∃ other, Relation.ReflTransGen (d.Refers a) name other ∧ Relation.TransGen (d.Refers a) other other

variable {d : Document} {a : Asset} {name other : String}

theorem words_of_mem_references {raw : String} (h : other ∈ d.references .color raw) :
    Metric.words (Text.withoutSpaces raw) = ["named", other] ∧ d.sections.colors.contains other = true := by
  simp only [references] at h
  split at h
  · next word hwords =>
    split at h
    · next hcontains =>
      obtain rfl := List.mem_singleton.mp h
      exact ⟨hwords, hcontains⟩
    · cases h
  · cases h

theorem source_of_mem_references {entry : ImageEntry} (h : other ∈ d.references .image entry) :
    entry.source = .basedOn other := by
  simp only [references] at h
  split at h
  · next word hsource =>
    obtain rfl := List.mem_singleton.mp h
    exact hsource
  · cases h

/-- On the way into a circle and around it there is always a next entry. -/
theorem LeadsIntoCircle.exists_next (h : d.LeadsIntoCircle a name) :
    ∃ next, d.Refers a name next ∧ d.LeadsIntoCircle a next := by
  obtain ⟨other, hpath, hcircle⟩ := h
  rcases Relation.ReflTransGen.cases_head hpath with rfl | ⟨next, hrefers, hrest⟩
  · obtain ⟨next, hrefers, hback⟩ := Relation.TransGen.head'_iff.mp hcircle
    exact ⟨next, hrefers, name, hback, hcircle⟩
  · exact ⟨next, hrefers, other, hrest, hcircle⟩

/-- An entry that leads into a circle is not kept as valid. -/
def KeptInvalid (d : Document) (a : Asset) (name : String) (memo : Memo a.Value) : Prop :=
  d.LeadsIntoCircle a name → ∀ value, memo ≠ .valid value

end Document

namespace Reading

variable {r : Reading} {a : Asset} {name other : String}

/-- Colors, fonts and images without the entry that they refer to give up at once. -/
theorem compute_unfound {o : Oracle} {entry : a.kind.Entry} (ha : a ≠ .metric ∧ a ≠ .textAttributes)
    (h : other ∈ r.document.references a entry) (ho : ¬ (o a other).IsFound) :
    ∃ p', r.compute (.probe o) a name entry {} = .ok none p' ∧ p'.begun = [(a, other)] := by
  cases a with
  | metric => exact absurd rfl ha.1
  | color =>
    obtain ⟨hwords, hcontains⟩ := Document.words_of_mem_references h
    exact ColorText.compute_unfound hwords hcontains ho {}
  | font => exact FontLayers.compute_unfound (Option.mem_toList.mp h) ho _ {}
  | textAttributes => exact absurd rfl ha.2
  | image => exact ImageLayers.compute_unfound (Document.source_of_mem_references h) ho _ {}
  | buttonStyle => cases h

/-- A computation that succeeds has found what its entry refers to. -/
theorem isFound_of_compute {o : Oracle} {entry : a.kind.Entry} {value : a.Value} {p' : Progress}
    (hcompute : r.compute (.probe o) a name entry {} = .ok (some value) p')
    (h : other ∈ r.document.references a entry) : (o a other).IsFound := by
  by_contra ho
  by_cases ha : a ≠ .metric ∧ a ≠ .textAttributes
  · obtain ⟨p₁, hnone, -⟩ := compute_unfound ha h ho
    rw [hnone] at hcompute
    cases hcompute
  cases a with
  | metric =>
    obtain ⟨-, -, hreads⟩ := Metric.compute_sound (Metric.answers_probe o) hcompute
    obtain ⟨found, hfound⟩ := hreads.known_of_mem_names h
    exact ho ⟨found, Metric.toMetric_eq_found_iff.mp hfound⟩
  | textAttributes => exact TextLayers.compute_unfound (Option.mem_toList.mp h) ho hcompute
  | _ => exact ha ⟨by simp, by simp⟩

end Reading

/-! ### Circles -/

namespace Document.LeadsIntoCircle

variable {u : Usage} {a : Asset} {name : String}

theorem not_isFound_stage (h : u.reading.document.LeadsIntoCircle a name)
    (hkept : u.progress.AllLoaded u.reading.document.KeptInvalid) (k : Nat) : ¬ (u.stage k a name).IsFound := by
  induction k using Nat.strongRecOn generalizing name with
  | ind k ih =>
    rintro ⟨value, hfound⟩
    rcases Usage.kept_or_pending hfound with ⟨-, hvalid⟩ | ⟨entry, hpending⟩
    · exact hkept a name (by rw [hvalid]; rfl) h value hvalid
    · -- the next entry has been found before this one
      obtain ⟨next, ⟨entry', hentry', hmem⟩, hnext⟩ := h.exists_next
      obtain rfl : entry = entry' := Option.some.inj (hpending.present.symm.trans hentry')
      obtain ⟨j, rfl, hresult⟩ := hpending.exists_of_stage_found hfound
      obtain ⟨p', hcompute⟩ := Reading.result_eq_ok_iff.mp hresult
      exact ih j (Nat.lt_succ_self j) hnext (Reading.isFound_of_compute hcompute hmem)

/-- What leads into a circle has no value. -/
theorem not_isFound (h : u.reading.document.LeadsIntoCircle a name)
    (hkept : u.progress.AllLoaded u.reading.document.KeptInvalid) : ¬ (u.meaning a name).IsFound :=
  Usage.not_isFound_meaning (h.not_isFound_stage hkept)

/-- The inquiry of a color, a font or an image that leads into a circle asks about the next entry and ends. -/
theorem findings (h : u.reading.document.LeadsIntoCircle a name)
    (hkept : u.progress.AllLoaded u.reading.document.KeptInvalid) (ha : a ≠ .metric ∧ a ≠ .textAttributes)
    {entry : a.kind.Entry} (hpending : u.Pending a name entry) :
    ((u.reading.plan a name entry).examine u.meaning).result = .ok none ∧
      ∃ next, u.reading.document.LeadsIntoCircle a next ∧
        ((u.reading.plan a name entry).examine u.meaning).asked = [(a, next)] := by
  obtain ⟨next, ⟨entry', hentry', hmem⟩, hnext⟩ := h.exists_next
  obtain rfl : entry = entry' := Option.some.inj (hpending.present.symm.trans hentry')
  obtain ⟨p', hcompute, hbegun⟩ := Reading.compute_unfound ha hmem (hnext.not_isFound hkept)
  obtain ⟨hresult, hasked⟩ := Reading.examine_eq_of_compute hcompute
  refine ⟨hresult, next, hnext, ?_⟩
  rw [hasked, hbegun]
  rfl

theorem not_faulty (h : u.reading.document.LeadsIntoCircle a name)
    (hkept : u.progress.AllLoaded u.reading.document.KeptInvalid) (ha : a ≠ .metric ∧ a ≠ .textAttributes) :
    ¬ u.Faulty a name := by
  rintro ⟨fault, last, hpath, hbreaks⟩
  -- all questions on the way are about entries that lead into a circle
  have hlast : last.1 = a ∧ u.reading.document.LeadsIntoCircle last.1 last.2 := by
    clear hbreaks
    induction hpath with
    | refl => exact ⟨rfl, h⟩
    | tail _ hstep ih =>
      obtain ⟨hasset, hcircle⟩ := ih
      obtain ⟨entry, hpending, hasked⟩ := hstep
      obtain ⟨-, next, hnext, heq⟩ := hcircle.findings hkept (hasset ▸ ha) hpending
      rw [heq] at hasked
      obtain rfl := List.mem_singleton.mp hasked
      exact ⟨hasset, hnext⟩
  obtain ⟨hasset, hcircle⟩ := hlast
  obtain ⟨entry, hpending, hfault⟩ := hbreaks
  obtain ⟨hresult, -⟩ := hcircle.findings hkept (hasset ▸ ha) hpending
  rw [hfault] at hresult
  cases hresult

end Document.LeadsIntoCircle

namespace Reading

end Reading

end DesignTokens
