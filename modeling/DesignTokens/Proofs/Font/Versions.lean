import DesignTokens.Proofs.Font.Requests

/-!
# Versions of a font entry

Two versions of a document that differ in one font entry are resolved side by side. If the two entries have the same
base and lay the same over descriptors that ask alike (`FontLayers.LayAlike`), every font of the document comes to the
same in both, but for attributes that no catalog looks at.

* `Reading.mirrors_withFont` — the computations in the two versions match.
* `Reading.sameFont_of_layAlike` — what calls for a font come to in the two versions.
-/

namespace DesignTokens

open Resolve

/-- The document with another entry for a font. -/
def Document.withFont (d : Document) (name : String) (entry : FontEntry) : Document :=
  { d with sections := { d.sections with fonts := d.sections.fonts.insert name entry } }

theorem Document.find?_withFont (d : Document) (name : String) (entry : FontEntry) (other : String) :
    (d.withFont name entry).sections.fonts.find? other =
      if other = name then some entry else d.sections.fonts.find? other :=
  Mapping.find?_insert ..

/-- Two entries put the same over descriptors that ask alike, as long as metrics have the values that they have by the
document. -/
def FontLayers.LayAlike (metrics : Mapping String) (fonts : Mapping FontEntry) (owner : String)
    (entry entry' : FontEntry) : Prop :=
  ∀ (o o' : Oracle) (base base' : FontDescriptor), o' .metric = o .metric →
    (∀ name x, o .metric name = .found x → Metric.HasValue metrics name x) →
    base.RequestsAs base' → StartsFrom metrics fonts entry base →
      Matches (Option.Rel FontDescriptor.RequestsAs) (overlay (Resolvers.probe o).metric owner entry base)
        (overlay (Resolvers.probe o').metric owner entry' base')

namespace Reading

/-- What fonts and metrics have in common in two versions of a document; they come from the first. -/
def SameInVersions (d : Document) : (a : Asset) → String → a.Value → a.Value → Prop
  | .metric, name, (x : Float), (x' : Float) => x = x' ∧ Metric.HasValue d.sections.metrics name x
  | .font, name, (font : Font), (font' : Font) =>
    font.Alike font' ∧ FontLayers.Describes d.sections.metrics d.sections.fonts name font.descriptor
  | _, _, _, _ => True

/-- Fonts, and what they may ask about. -/
def IsForFonts (a : Asset) : Prop := a = .metric ∨ a = .font

variable {d : Document} {s : Surroundings} {name : String} {entry entry' : FontEntry} {o o' : Oracle}

theorem Agree.metric_eq (h : Agree IsForFonts (SameInVersions d) o o') : o' .metric = o .metric := by
  funext name
  exact ((h .metric name (.inl rfl)).eq_of_eq fun _ _ hsame => hsame.1).symm

theorem Agree.hasValue (h : Agree IsForFonts (SameInVersions d) o o') (name : String) (x : Float)
    (hfound : o .metric name = .found x) : Metric.HasValue d.sections.metrics name x := by
  have hanswer := h .metric name (.inl rfl)
  rw [hfound] at hanswer
  generalize o' .metric name = answer at hanswer
  cases hanswer with
  | found hsame => exact hsame.2

theorem Agree.describes (h : Agree IsForFonts (SameInVersions d) o o') (name : String) (font : Font)
    (hfound : o .font name = .found font) :
    FontLayers.Describes d.sections.metrics d.sections.fonts name font.descriptor := by
  have hanswer := h .font name (.inr rfl)
  rw [hfound] at hanswer
  generalize o' .font name = answer at hanswer
  cases hanswer with
  | found hsame => exact hsame.2

/-- Metrics do not depend on fonts. -/
theorem metric_matches (ho : Agree IsForFonts (SameInVersions d) o o') {text : String}
    (hentry : d.sections.metrics.find? name = some text) :
    Matches (Option.Rel (SameInVersions d .metric name))
      (Metric.compute (Resolvers.probe o).metric name text) (Metric.compute (Resolvers.probe o').metric name text) := by
  have hinquires : Inquires (Eq Asset.metric) (fun _ _ => True) True _ _ :=
    Metric.compute_inquires rfl name text trivial
  have hsame := Matches.of_inquires hinquires fun a ha => by subst ha; exact ho.metric_eq
  have hgood (p : Progress) (found : Option Float) (p' : Progress)
      (hrun : Metric.compute (Resolvers.probe o).metric name text p = .ok found p') :
      ∀ x, found = some x → Metric.HasValue d.sections.metrics name x := by
    rintro x rfl
    obtain ⟨htext, -, hreads⟩ := Metric.compute_sound (Metric.answers_probe o) hrun
    exact ⟨text, hentry, htext, hreads.denotes_of_found ho.hasValue⟩
  refine (hsame.sound hgood).mono ?_
  rintro (_ | x) _ ⟨rfl, hvalue⟩
  · exact .none
  · exact .some ⟨rfl, hvalue x rfl⟩

/-- A font whose entries lay alike. -/
theorem font_matches (catalog : Catalog) (ho : Agree IsForFonts (SameInVersions d) o o')
    (hentry : d.sections.fonts.find? name = some entry) (hbase : entry.basedOn = entry'.basedOn)
    (hlay : FontLayers.LayAlike d.sections.metrics d.sections.fonts name entry entry') :
    Matches (Option.Rel (SameInVersions d .font name))
      (FontLayers.compute (Resolvers.probe o).metric catalog ((Resolvers.probe o) .font) name entry)
      (FontLayers.compute (Resolvers.probe o').metric catalog ((Resolvers.probe o') .font) name entry') := by
  have hlayers (base base' : FontDescriptor) (hbases : base.RequestsAs base')
      (hstarts : FontLayers.StartsFrom d.sections.metrics d.sections.fonts entry base) :=
    hlay o o' base base' ho.metric_eq ho.hasValue hbases hstarts
  have hsame := FontLayers.compute_matches catalog hbase (fun other => ho .font other (.inr rfl)) (fun _ _ _ => id)
    hlayers
  have hgood (p : Progress) (found : Option Font) (p' : Progress)
      (hrun : FontLayers.compute (Resolvers.probe o).metric catalog ((Resolvers.probe o) .font) name entry p =
        .ok found p') :
      ∀ font, found = some font →
        FontLayers.Describes d.sections.metrics d.sections.fonts name font.descriptor := by
    rintro font rfl
    exact (FontLayers.compute_sound ho.hasValue ho.describes hentry hrun).1
  refine (hsame.sound hgood).mono ?_
  rintro _ _ ⟨hfonts, hdescribes⟩
  cases hfonts with
  | none => exact .none
  | some halike => exact .some ⟨halike, hdescribes _ rfl⟩

/-- The two versions have the same metrics, and the same fonts but for the one entry. -/
theorem mirrors_withFont (d : Document) (s : Surroundings) (hbase : entry.basedOn = entry'.basedOn)
    (hlay : FontLayers.LayAlike d.sections.metrics (d.withFont name entry).sections.fonts name entry entry') :
    Mirrors ⟨d.withFont name entry, s⟩ ⟨d.withFont name entry', s⟩ IsForFonts
      (SameInVersions (d.withFont name entry)) where
  closed a b ha hasks := by
    rcases ha with rfl | rfl <;> cases b <;> simp_all [Asset.MayAsk, Asset.level, IsForFonts]
  present a other ha := by
    rcases ha with rfl | rfl
    · exact Iff.rfl
    · change (d.withFont name entry).sections.fonts.find? other = none ↔
        (d.withFont name entry').sections.fonts.find? other = none
      rw [Document.find?_withFont, Document.find?_withFont]
      split <;> simp
  compute a other found found' o o' ha hfound hfound' ho := by
    rcases ha with rfl | rfl
    · obtain rfl : found = found' := Option.some.inj (hfound.symm.trans hfound')
      exact metric_matches ho hfound
    · have hfont : (d.withFont name entry).sections.fonts.find? other = some found := hfound
      change (d.withFont name entry).sections.fonts.find? other = some found at hfound
      change (d.withFont name entry').sections.fonts.find? other = some found' at hfound'
      rw [Document.find?_withFont] at hfound hfound'
      -- under every other name the two versions have the same entry
      by_cases hother : other = name
      · rw [if_pos hother] at hfound hfound'
        cases hfound
        cases hfound'
        subst hother
        exact font_matches s.catalog ho hfont hbase hlay
      · rw [if_neg hother] at hfound hfound'
        obtain rfl : found = found' := Option.some.inj (hfound.symm.trans hfound')
        exact font_matches s.catalog ho hfont rfl fun _ _ _ _ hmetric _ hbases _ =>
          FontLayers.overlay_matches hmetric hbases

/-! ### Calls for fonts -/

/-- Calls for a font in two documents return the same name, family, face and point size, of fonts that are both valid
or both invalid, or a hazard ends each of the two calls in a fault. -/
def SameFont (r r' : Reading) (p p' : Progress) (name : String) : Prop :=
  (∃ font q font' q', r.resolve .font name p = .ok font q ∧ r'.resolve .font name p' = .ok font' q' ∧
      ((q.cell .font name).memo.isValid ↔ (q'.cell .font name).memo.isValid) ∧
      font.name = font'.name ∧ font.family = font'.family ∧ font.face = font'.face ∧
      font.pointSize = font'.pointSize) ∨
    ∃ fault q fault' q', r.resolve .font name p = .error fault q ∧ r'.resolve .font name p' = .error fault' q' ∧
      r.document.Hazard r.surroundings fault ∧ r'.document.Hazard r'.surroundings fault'

/-- A call for a font comes to what its computation comes to. -/
theorem resolve_font_of_find? {r : Reading} {name : String} {entry : FontEntry} {p p' : Progress} {font : Font}
    (hentry : r.document.sections.fonts.find? name = some entry)
    (hrun : memoized .font name entry false (FontLayers.compute r.metricLookup r.surroundings.catalog
      (resolveFont r.metricLookup r.surroundings.catalog r.document.sections.fonts [name]) name entry) p =
        .ok font p') : r.resolve .font name p = .ok font p' := by
  have hrequest : r.resolve? .font name p = .ok (some font) p' := by
    rw [Reading.resolve?, Reading.font, resolveFont_found hentry, if_neg List.not_mem_nil, map_eq_pure_bind]
    exact bind_of_ok hrun
  exact bind_of_ok hrequest

/-- A call that returns a valid font and one that returns an invalid one. -/
theorem not_sameFont {r r' : Reading} {p p' : Progress} {name : String}
    (h : ∃ font q, r.resolve .font name p = .ok font q ∧ (q.cell .font name).memo.isValid = true)
    (h' : ∃ font q, r'.resolve .font name p' = .ok font q ∧ (q.cell .font name).memo.isValid = false) :
    ¬ SameFont r r' p p' name := by
  obtain ⟨font, q, hreturn, hvalid⟩ := h
  obtain ⟨font', q', hreturn', hinvalid⟩ := h'
  rintro (⟨_, _, _, _, hok, hok', hsame, -⟩ | ⟨_, _, _, _, hfault, -⟩)
  · cases hreturn.symm.trans hok
    cases hreturn'.symm.trans hok'
    rw [hvalid, hinvalid] at hsame
    exact Bool.noConfusion (hsame.mp rfl)
  · cases hreturn.symm.trans hfault

/-- After calls that returned, a fault comes from a hazard. -/
theorem hazard_of_calls {r : Reading} {calls : List Call} {p q : Progress} {a : Asset} {fault : Fault}
    (hcalls : Call.runAll r calls {} = .ok () p) (hfault : r.resolve a name p = .error fault q) :
    r.document.Hazard r.surroundings fault := by
  have hupholds := r.document.upholds_founded fun _ => True
  have hfounded : p.Founded r.document fun _ => True :=
    hupholds.reaches rfl trivial ((Call.runAll_requests r calls).ok hcalls) hupholds.start
  exact (resolve_relays a name).hazard trivial hfounded hfault

/-- Every font is the same in two versions of a document whose entries lay alike, whatever was called for before. -/
theorem sameFont_of_layAlike {calls calls' : List Call} {p p' : Progress} {other : String}
    (hbase : entry.basedOn = entry'.basedOn)
    (hlay : FontLayers.LayAlike d.sections.metrics (d.withFont name entry).sections.fonts name entry entry')
    (hcalls : Call.runAll ⟨d.withFont name entry, s⟩ calls {} = .ok () p)
    (hcalls' : Call.runAll ⟨d.withFont name entry', s⟩ calls' {} = .ok () p')
    (hother : ((d.withFont name entry).sections.fonts.find? other).isSome = true) :
    SameFont ⟨d.withFont name entry, s⟩ ⟨d.withFont name entry', s⟩ p p' other := by
  have hmirrors := mirrors_withFont d s hbase hlay
  rcases hmirrors.resolve (.of_calls hcalls) (.of_calls hcalls') (a := .font) (.inr rfl) hother with
    ⟨fault, q, fault', q', hfault, hfault'⟩ |
    ⟨font, q, font', q', hreturn, hreturn', ⟨hvalid, hvalid', halike, -⟩ | ⟨hinvalid, hinvalid', rfl, rfl⟩⟩
  · exact .inr ⟨fault, q, fault', q', hfault, hfault', hazard_of_calls hcalls hfault,
      hazard_of_calls hcalls' hfault'⟩
  · exact .inl ⟨font, q, font', q', hreturn, hreturn', by rw [hvalid, hvalid']; rfl,
      halike.name, halike.family, halike.face, halike.pointSize⟩
  · exact .inl ⟨_, q, _, q', hreturn, hreturn', by rw [hinvalid, hinvalid'], rfl, rfl, rfl, rfl⟩

end Reading

end DesignTokens
