import DesignTokens.Proofs.Font.Nearest

/-!
# The nearest declarations of text attributes

A set of text attributes takes its font, its colors and its tracking each from the nearest entry that declares it, be it
the entry itself or one further down the chain of those it is based on. The absolute spacing is not declared. It is
worked out anew in each entry, so it is always the one for the font and the tracking that the set ends up with.

Errors are counted while an entry is read and decide at its end. What a set without errors was made of is therefore told
backwards: a draft without errors had none before (`Adds.clean`).

* `TextLayers.readAttributes_adds` — what the declared attributes of an entry do to the draft below.
* `TextLayers.addKern_spaces` — what the spacing does to it.
* `TextLayers.compute_nearest` — what an entry makes of the set it is based on.
* `Document.nearest_text_attributes` — the attributes of valid sets.
-/

namespace DesignTokens

open Resolve

/-! ### Declarations -/

namespace TextAttributesEntry

/-- The set that an entry is based on. -/
def base? (entry : TextAttributesEntry) : Option String := entry.basedOn.filter (!·.isEmpty)

/-- The value that an entry declares under a name. -/
def attribute? (entry : TextAttributesEntry) (key : String) : Option Json :=
  match entry.attributes with
  | some (.object items) => (Mapping.ofList items).find? key
  | _ => none

theorem attribute?_of_declared {entry : TextAttributesEntry} {items : List (String × Json)}
    (h : TextLayers.declared? entry = .ok items) (key : String) : entry.attribute? key = items.reverse.lookup key := by
  unfold TextLayers.declared? at h
  unfold attribute?
  split at h
  · next hnone =>
    cases h
    rw [hnone]
    rfl
  · next members hmembers =>
    cases h
    rw [hmembers, ← Mapping.find?_ofList]
  · cases h

end TextAttributesEntry

namespace TextLayers

/-- The attributes that are declared by naming another entry. -/
inductive NamedKey where
  | font | foregroundColor | backgroundColor
  deriving DecidableEq

namespace NamedKey

def key : NamedKey → String
  | .font => "font"
  | .foregroundColor => "foregroundColor"
  | .backgroundColor => "backgroundColor"

/-- What the attribute names an entry of. -/
def asset : NamedKey → Asset
  | .font => .font
  | .foregroundColor => .color
  | .backgroundColor => .color

/-- The value of the named entry as a text attribute. -/
def wrap : (k : NamedKey) → k.asset.Value → TextValue
  | .font, x => .font x
  | .foregroundColor, x => .color x
  | .backgroundColor, x => .color x

theorem key_injective {k l : NamedKey} (h : k.key = l.key) : k = l := by
  cases k <;> cases l <;> first | rfl | simp [key] at h

theorem key_ne_kern (k : NamedKey) : k.key ≠ "kern" := by cases k <;> decide

theorem key_ne_tracking (k : NamedKey) : k.key ≠ "tracking" := by cases k <;> decide

end NamedKey

/-- What a source gives, or what there was before if there is no source. -/
def TakenFrom {α : Type} (gives : Json → α → Prop) (source : Option Json) (before after : Option α) : Prop :=
  match source with
  | none => after = before
  | some value => ∃ x, gives value x ∧ after = some x

namespace TakenFrom

variable {α : Type} {gives : Json → α → Prop} {source source' : Option Json} {before middle after : Option α}

theorem layered (h : TakenFrom gives source before middle) (h' : TakenFrom gives source' middle after) :
    TakenFrom gives (source'.or source) before after := by
  cases source' with
  | none => exact (show after = middle from h') ▸ h
  | some value => exact h'

theorem isSome (h : TakenFrom gives source before after) (hbefore : before.isSome = true) : after.isSome = true := by
  cases source with
  | none => exact (show after = before from h) ▸ hbefore
  | some value =>
    obtain ⟨x, -, rfl⟩ := h
    rfl

end TakenFrom

section Reading

variable {known : (a : Asset) → String → a.Value → Prop} {metrics : Mapping String} {o : Oracle}
  {items items' : List (String × Json)} {draft middle result : Draft} {owner : String} {p p' : Progress}

/-- What an attribute that names an entry comes to, if it is known what entries come to. -/
def Gives (known : (a : Asset) → String → a.Value → Prop) (k : NamedKey) (source : Json) (value : TextValue) : Prop :=
  ∃ name x, source = .string name ∧ known k.asset name x ∧ value = k.wrap x

/-- A draft has the attributes that were read into it over those of another one, all without an error. -/
structure Adds (known : (a : Asset) → String → a.Value → Prop) (metrics : Mapping String)
    (items : List (String × Json)) (draft result : Draft) : Prop where
  clean : draft.errors = 0
  named : ∀ k : NamedKey, TakenFrom (Gives known k) (items.reverse.lookup k.key) (draft.attributes.find? k.key)
    (result.attributes.find? k.key)
  tracking : TakenFrom (FontLayers.SizeValue metrics) (items.reverse.lookup "tracking") draft.tracking result.tracking
  other : ∀ key, (∀ k : NamedKey, key ≠ k.key) → result.attributes.find? key = draft.attributes.find? key

theorem Adds.nil (h : draft.errors = 0) : Adds known metrics [] draft draft :=
  ⟨h, fun _ => rfl, rfl, fun _ _ => rfl⟩

theorem Adds.append (h : Adds known metrics items draft middle) (h' : Adds known metrics items' middle result) :
    Adds known metrics (items ++ items') draft result where
  clean := h.clean
  named k := by
    rw [List.reverse_append, Mapping.lookup_append]
    exact (h.named k).layered (h'.named k)
  tracking := by
    rw [List.reverse_append, Mapping.lookup_append]
    exact h.tracking.layered h'.tracking
  other key hkey := (h'.other key hkey).trans (h.other key hkey)

/-- A named entry that is known is set under its key. -/
theorem Adds.set (h : draft.errors = 0) (k : NamedKey) {name : String} {x : k.asset.Value}
    (hknown : known k.asset name x) :
    Adds known metrics [(k.key, .string name)] draft (draft.set k.key (k.wrap x)) where
  clean := h
  named l := by
    have hstored : (draft.set k.key (k.wrap x)).attributes.find? l.key =
        if l.key = k.key then some (k.wrap x) else draft.attributes.find? l.key := Mapping.find?_insert ..
    rw [hstored, List.reverse_singleton, List.lookup_cons]
    by_cases hkey : l.key = k.key
    · obtain rfl := NamedKey.key_injective hkey
      simp only [beq_self_eq_true, if_true]
      exact ⟨_, ⟨name, x, rfl, hknown, rfl⟩, rfl⟩
    · rw [if_neg hkey, beq_eq_false_iff_ne.mpr hkey]
      exact rfl
  tracking := by
    rw [List.reverse_singleton, List.lookup_cons, beq_eq_false_iff_ne.mpr k.key_ne_tracking.symm]
    exact rfl
  other key hkey := by
    rw [Draft.set, Mapping.find?_insert, if_neg (hkey k)]

theorem Adds.track (h : draft.errors = 0) {value : Json} {x : Float} (hvalue : FontLayers.SizeValue metrics value x) :
    Adds known metrics [("tracking", value)] draft { draft with tracking := some x } where
  clean := h
  named k := by
    rw [List.reverse_singleton, List.lookup_cons, beq_eq_false_iff_ne.mpr k.key_ne_tracking]
    exact rfl
  tracking := ⟨x, hvalue, rfl⟩
  other _ _ := rfl

/-! ### Reading an entry -/

/-- What is known of found entries: it holds of what they are found to be. -/
def Finds (o : Oracle) (known : (a : Asset) → String → a.Value → Prop) : Prop :=
  ∀ a name x, o a name = .found x → known a name x

theorem named_finds (hfinds : Finds o known) {a : Asset} {key : String} {value : Json} {x : a.Value}
    (h : named a (Resolvers.probe o a) owner key value p = .ok (some x) p') :
    ∃ name, value = .string name ∧ known a name x := by
  cases value with
  | string name =>
    obtain ⟨-, p₁, -, hfetch⟩ := bind_eq_ok_iff.mp h
    by_cases hfound : (o a name).IsFound
    · obtain ⟨y, hy⟩ := hfound
      obtain ⟨p₂, hagain⟩ := Resolvers.fetch_probe_found hy key .textAttributes p₁
      rw [hagain] at hfetch
      cases hfetch
      exact ⟨name, rfl, hfinds a name _ hy⟩
    · obtain ⟨p₂, hagain, -⟩ := Resolvers.fetch_probe hfound key .textAttributes p₁
      rw [hagain] at hfetch
      cases hfetch
  | _ => exact absurd h reject_ne_some

/-- An attribute that names an entry is set to what the entry is known for. -/
theorem named_adds (hfinds : Finds o known) (hclean : draft.errors = 0) (k : NamedKey) {value : Json}
    {x : k.asset.Value}
    (h : named k.asset (Resolvers.probe o k.asset) owner k.key value p = .ok (some x) p') :
    Adds known metrics [(k.key, value)] draft (draft.set k.key (k.wrap x)) := by
  obtain ⟨name, rfl, hknown⟩ := named_finds hfinds h
  exact .set hclean k hknown

theorem readAttribute_adds (hfinds : Finds o known)
    (hmetrics : ∀ name x, o .metric name = .found x → Metric.HasValue metrics name x) {key : String} {value : Json}
    (hresult : result.errors = 0) (h : readAttribute (.of (.probe o)) owner draft key value p = .ok result p') :
    Adds known metrics [(key, value)] draft result := by
  unfold readAttribute at h
  by_cases hfont : key = "font"
  · subst hfont
    obtain ⟨found, p₁, hfound, h⟩ := bind_eq_ok_iff.mp h
    cases found with
    | none =>
      cases h
      cases hresult
    | some font =>
      cases h
      have hclean : draft.errors = 0 := hresult
      exact named_adds hfinds hclean .font hfound
  rw [if_neg hfont] at h
  by_cases hcolor : key = "foregroundColor" ∨ key = "backgroundColor"
  · rw [if_pos hcolor] at h
    obtain ⟨found, p₁, hfound, h⟩ := bind_eq_ok_iff.mp h
    cases found with
    | none =>
      cases h
      cases hresult
    | some color =>
      cases h
      have hclean : draft.errors = 0 := hresult
      rcases hcolor with rfl | rfl
      · exact named_adds hfinds hclean .foregroundColor hfound
      · exact named_adds hfinds hclean .backgroundColor hfound
  rw [if_neg hcolor] at h
  by_cases htracking : key = "tracking"
  · subst htracking
    rw [if_pos rfl] at h
    obtain ⟨found, p₁, hfound, h⟩ := bind_eq_ok_iff.mp h
    cases found with
    | none =>
      cases h
      cases hresult
    | some found =>
      obtain ⟨-, p₂, -, h⟩ := bind_eq_ok_iff.mp h
      cases h
      have hclean : draft.errors = 0 := hresult
      exact .track hclean (FontLayers.sizeValue_of_extract hmetrics hfound)
  rw [if_neg htracking] at h
  -- all other attributes spoil the draft
  split at h <;> cases h <;> cases hresult

theorem readAttributes_adds (hfinds : Finds o known)
    (hmetrics : ∀ name x, o .metric name = .found x → Metric.HasValue metrics name x) (hresult : result.errors = 0)
    (h : readAttributes (.of (.probe o)) owner items draft p = .ok result p') :
    Adds known metrics items draft result := by
  induction items generalizing draft p with
  | nil =>
    cases h
    exact .nil hresult
  | cons item rest ih =>
    obtain ⟨middle, p₁, hfirst, hrest⟩ := bind_eq_ok_iff.mp h
    have hadds := ih hrest
    exact (readAttribute_adds hfinds hmetrics hadds.clean hfirst).append hadds

/-! ### The spacing -/

/-- A draft has the spacing for its font and its tracking, or the one from before if it has not got both. -/
structure Spaces (draft result : Draft) : Prop where
  clean : draft.errors = 0
  tracking : result.tracking = draft.tracking
  other : ∀ key, key ≠ "kern" → result.attributes.find? key = draft.attributes.find? key
  kern : match draft.tracking, draft.font? with
    | some tracking, some font => leastTracking ≤ tracking ∧ tracking ≤ greatestTracking ∧
        result.attributes.find? "kern" = some (.number (TextAttributes.kern tracking font.pointSize))
    | _, _ => result.attributes.find? "kern" = draft.attributes.find? "kern"

theorem addKern_spaces (hresult : result.errors = 0) (h : addKern draft p = .ok result p') : Spaces draft result := by
  cases htracking : draft.tracking with
  | none =>
    simp only [addKern, htracking] at h
    cases h
    exact ⟨hresult, rfl, fun _ _ => rfl, by simp only [htracking]⟩
  | some tracking =>
    cases hfont : draft.font? with
    | none =>
      simp only [addKern, htracking, hfont] at h
      cases h
      exact ⟨hresult, rfl, fun _ _ => rfl, by simp only [htracking, hfont]⟩
    | some font =>
      simp only [addKern, htracking, hfont] at h
      split at h
      · next hrange =>
        cases h
        refine ⟨hresult, rfl, fun key hkey => ?_, ?_⟩
        · rw [Draft.set, Mapping.find?_insert, if_neg hkey]
        · simp only [htracking, hfont]
          exact ⟨hrange.1, hrange.2, by rw [Draft.set, Mapping.find?_insert, if_pos rfl]⟩
      · cases h
        cases hresult

/-! ### One entry over a chain -/

/-- A set has what the entries of a chain declare, and the spacing for it. -/
structure Gathers (known : (a : Asset) → String → a.Value → Prop) (metrics : Mapping String)
    (chain : List TextAttributesEntry) (text : TextAttributes) : Prop where
  named : ∀ k : NamedKey, TakenFrom (Gives known k) (chain.findSome? (·.attribute? k.key)) none
    (text.attributes.find? k.key)
  tracking : TakenFrom (FontLayers.SizeValue metrics) (chain.findSome? (·.attribute? "tracking")) none text.tracking
  other : ∀ key, (∀ k : NamedKey, key ≠ k.key) → key ≠ "kern" → text.attributes.find? key = none
  kern : match text.tracking, text.font? with
    | some tracking, some font => leastTracking ≤ tracking ∧ tracking ≤ greatestTracking ∧
        text.attributes.find? "kern" = some (.number (TextAttributes.kern tracking font.pointSize))
    | _, _ => text.attributes.find? "kern" = none

/-- The attributes and the tracking of a draft. -/
def Draft.text (draft : Draft) : TextAttributes := ⟨draft.attributes, draft.tracking⟩

theorem Gathers.nothing : Gathers known metrics [] (Draft.text {}) := ⟨fun _ => rfl, rfl, fun _ _ _ => rfl, rfl⟩

theorem Gathers.no_kern {chain : List TextAttributesEntry} {text : TextAttributes}
    (h : Gathers known metrics chain text) (hlacks : text.tracking = none ∨ text.font? = none) :
    text.attributes.find? "kern" = none := by
  have hkern := h.kern
  rcases hlacks with hlacks | hlacks
  · simpa only [hlacks] using hkern
  · cases htracking : text.tracking <;> simpa only [hlacks, htracking] using hkern

/-- A font stays a font: an attribute that is read later on can only be another one. -/
theorem Adds.font_isSome (h : Adds known metrics items draft result) (hfont : draft.font?.isSome = true) :
    result.font?.isSome = true := by
  have hnamed := h.named .font
  unfold TakenFrom at hnamed
  split at hnamed
  · have hsame : result.font? = draft.font? := by
      simp only [Draft.font?, TextAttributes.font?]
      rw [show result.attributes.find? "font" = draft.attributes.find? "font" from hnamed]
    rw [hsame, hfont]
  · obtain ⟨-, ⟨name, font, -, -, rfl⟩, hstored⟩ := hnamed
    have hresult : result.font? = some font := by
      simp only [Draft.font?, TextAttributes.font?]
      rw [show result.attributes.find? "font" = some (.font font) from hstored]
      rfl
    rw [hresult]
    rfl

theorem findSome?_cons_or {α β : Type} (f : α → Option β) (x : α) (rest : List α) :
    (x :: rest).findSome? f = (f x).or (rest.findSome? f) := by
  rw [← List.singleton_append, List.findSome?_append, List.findSome?_singleton]

theorem Gathers.cons {chain : List TextAttributesEntry} {entry : TextAttributesEntry}
    (h : Gathers known metrics chain draft.text) (hdeclared : declared? entry = .ok items)
    (hadds : Adds known metrics items draft middle) (hspaces : Spaces middle result) :
    Gathers known metrics (entry :: chain) result.text where
  named k := by
    rw [findSome?_cons_or, TextAttributesEntry.attribute?_of_declared hdeclared]
    have hkept : result.text.attributes.find? k.key = middle.attributes.find? k.key := hspaces.other _ k.key_ne_kern
    rw [hkept]
    exact (h.named k).layered (hadds.named k)
  tracking := by
    rw [findSome?_cons_or, TextAttributesEntry.attribute?_of_declared hdeclared]
    have hkept : result.text.tracking = middle.tracking := hspaces.tracking
    rw [hkept]
    exact h.tracking.layered hadds.tracking
  other key hkey hkern := (hspaces.other key hkern).trans ((hadds.other key hkey).trans (h.other key hkey hkern))
  kern := by
    have hfont : result.text.font? = middle.font? := by
      simp only [Draft.font?, TextAttributes.font?, Draft.text]
      rw [hspaces.other "font" (by decide)]
    have htracking : result.text.tracking = middle.tracking := hspaces.tracking
    have hkern := hspaces.kern
    have hbelow : middle.attributes.find? "kern" = draft.attributes.find? "kern" :=
      hadds.other "kern" fun k => k.key_ne_kern.symm
    rw [hfont, htracking]
    -- what the draft lacks the set below lacks as well, and so it had no spacing
    cases hmiddle : middle.tracking with
    | none =>
      have hlacks : draft.text.tracking = none := by
        cases hbefore : draft.tracking with
        | none => exact hbefore
        | some tracking =>
          have hstill := hadds.tracking.isSome (by rw [hbefore]; rfl)
          rw [hmiddle] at hstill
          cases hstill
      rw [hmiddle] at hkern
      exact hkern.trans (hbelow.trans (h.no_kern (.inl hlacks)))
    | some tracking =>
      rw [hmiddle] at hkern
      cases hsome : middle.font? with
      | none =>
        have hlacks : draft.text.font? = none := by
          cases hbefore : draft.font? with
          | none => exact hbefore
          | some font =>
            have hstill := hadds.font_isSome (by rw [hbefore]; rfl)
            rw [hsome] at hstill
            cases hstill
        rw [hsome] at hkern
        exact hkern.trans (hbelow.trans (h.no_kern (.inr hlacks)))
      | some font =>
        rw [hsome] at hkern
        exact hkern

/-! ### What has been gathered -/

/-- The names of the attributes that a set can have. -/
def gatheredKeys : List String := ["font", "foregroundColor", "backgroundColor", "kern"]

theorem Gathers.mem_gatheredKeys {chain : List TextAttributesEntry} {text : TextAttributes}
    (h : Gathers known metrics chain text) {key : String} (hkey : key ∈ text.attributes.keys) : key ∈ gatheredKeys := by
  by_contra hnot
  have hnone : text.attributes.find? key = none := by
    refine h.other key (fun k hsame => hnot ?_) fun hsame => hnot ?_
    · rw [hsame]
      cases k <;> decide
    · rw [hsame]
      decide
  rw [← Mapping.find?_isSome_iff, hnone] at hkey
  cases hkey

/-- Under the name of the font there is a font or nothing. -/
theorem Gathers.font_eq {chain : List TextAttributesEntry} {text : TextAttributes}
    (h : Gathers known metrics chain text) : text.attributes.find? "font" = text.font?.map TextValue.font := by
  have hnamed := h.named .font
  unfold TakenFrom at hnamed
  unfold TextAttributes.font?
  split at hnamed
  · rw [show text.attributes.find? "font" = none from hnamed]
    rfl
  · obtain ⟨-, ⟨name, font, -, -, rfl⟩, hstored⟩ := hnamed
    rw [show text.attributes.find? "font" = some (.font font) from hstored]
    rfl

theorem Gathers.kern_isSome {chain : List TextAttributesEntry} {text : TextAttributes}
    (h : Gathers known metrics chain text) : (text.attributes.find? "kern").isSome = true ↔
      (text.attributes.find? "font").isSome = true ∧ text.tracking.isSome = true := by
  have hkern := h.kern
  rw [h.font_eq]
  cases htracking : text.tracking with
  | none =>
    rw [h.no_kern (.inl htracking)]
    simp
  | some tracking =>
    cases hfont : text.font? with
    | none =>
      rw [h.no_kern (.inr hfont)]
      simp
    | some font =>
      rw [htracking, hfont] at hkern
      rw [hkern.2.2]
      simp

/-- The set that stands for invalid ones has an attribute that no other set has. -/
theorem Gathers.ne_invalid {chain : List TextAttributesEntry} {text : TextAttributes}
    (h : Gathers known metrics chain text) : text.equal TextAttributes.invalid = false := by
  rw [Bool.eq_false_iff]
  intro hequal
  simp only [TextAttributes.equal, Bool.and_eq_true, beq_iff_eq, List.all_eq_true] at hequal
  obtain ⟨⟨hlength, hcovered⟩, -⟩ := hequal
  obtain ⟨⟨key, value⟩, hitem⟩ := List.length_eq_one_iff.mp hlength
  have hmem : (key, value) ∈ text.attributes.toList := hitem ▸ List.mem_singleton_self _
  have hkey : key ∈ gatheredKeys := h.mem_gatheredKeys (List.mem_map_of_mem hmem)
  have hother : TextAttributes.invalid.attributes.find? key = none := by
    simp only [gatheredKeys, List.mem_cons, List.not_mem_nil, or_false] at hkey
    rcases hkey with rfl | rfl | rfl | rfl <;> decide
  have hfound := hcovered _ hmem
  rw [hother] at hfound
  cases hfound

/-! ### What is computed -/

/-- A draft without errors starts from nothing, or from the set that the entry is based on. -/
theorem baseDraft_starts {entry : TextAttributesEntry} (hclean : draft.errors = 0)
    (h : baseDraft (Resolvers.probe o .textAttributes) owner entry p = .ok draft p') :
    (entry.base? = none ∧ draft.text = Draft.text {}) ∨
      ∃ name below, entry.base? = some name ∧ o .textAttributes name = .found below ∧ draft.text = below := by
  unfold baseDraft at h
  unfold TextAttributesEntry.base?
  cases hbase : entry.basedOn.filter (!·.isEmpty) with
  | none =>
    rw [hbase] at h
    cases h
    exact .inl ⟨rfl, rfl⟩
  | some name =>
    rw [hbase] at h
    obtain ⟨-, p₁, -, h⟩ := bind_eq_ok_iff.mp h
    obtain ⟨found, p₂, hfetch, h⟩ := bind_eq_ok_iff.mp h
    by_cases hfound : (o .textAttributes name).IsFound
    · obtain ⟨below, hbelow⟩ := hfound
      obtain ⟨p₃, hagain⟩ := Resolvers.fetch_probe_found hbelow "basedOn" .textAttributes p₁
      rw [hagain] at hfetch
      cases hfetch
      cases h
      exact .inr ⟨name, below, rfl, hbelow, rfl⟩
    · obtain ⟨p₃, hagain, -⟩ := Resolvers.fetch_probe hfound "basedOn" .textAttributes p₁
      rw [hagain] at hfetch
      cases hfetch
      cases h
      cases hclean

/-- A set has what its entry declares and, over it, what the set has that the entry is based on. -/
theorem compute_nearest {entry : TextAttributesEntry} {text : TextAttributes} (hfinds : Finds o known)
    (hmetrics : ∀ name x, o .metric name = .found x → Metric.HasValue metrics name x)
    (h : compute (.of (.probe o)) (Resolvers.probe o .textAttributes) owner entry p = .ok (some text) p') :
    (entry.base? = none ∧ Gathers known metrics [entry] text) ∨
      ∃ name below, entry.base? = some name ∧ o .textAttributes name = .found below ∧
        ∀ chain, Gathers known metrics chain below → Gathers known metrics (entry :: chain) text := by
  obtain ⟨base, p₁, hbase, h⟩ := bind_eq_ok_iff.mp h
  cases hdeclared : declared? entry with
  | error value =>
    rw [hdeclared] at h
    exact absurd h reject_ne_some
  | ok items =>
    rw [hdeclared] at h
    obtain ⟨middle, p₂, hread, h⟩ := bind_eq_ok_iff.mp h
    obtain ⟨result, p₃, hkern, h⟩ := bind_eq_ok_iff.mp h
    by_cases herrors : result.errors = 0
    · rw [if_pos herrors] at h
      cases h
      have hspaces := addKern_spaces herrors hkern
      have hadds := readAttributes_adds hfinds hmetrics hspaces.clean hread
      rcases baseDraft_starts hadds.clean hbase with ⟨hnone, hnothing⟩ | ⟨name, below, hname, hbelow, hsame⟩
      · have hstart : Gathers known metrics [] base.text := hnothing ▸ .nothing
        exact .inl ⟨hnone, hstart.cons hdeclared hadds hspaces⟩
      · exact .inr ⟨name, below, hname, hbelow, fun chain hchain =>
          (hsame.symm ▸ hchain : Gathers known metrics chain base.text).cons hdeclared hadds hspaces⟩
    · rw [if_neg herrors] at h
      exact absurd h reject_ne_some

end Reading

end TextLayers

/-! ### Valid sets -/

namespace Document

open TextLayers Progress

variable {d : Document} {p : Progress} {within : Surroundings → Prop} {name : String} {text : TextAttributes}

/-- A set has a chain of entries and has gathered what they declare from the cells of fonts and colors. -/
def Gathered (d : Document) (p : Progress) : (a : Asset) → String → a.Value → Prop
  | .textAttributes, name, text =>
    ∃ chain, d.sections.textAttributes.Lineage TextAttributesEntry.base? name chain ∧
      Gathers (fun a name x => (p.cell a name).memo = .valid x) d.sections.metrics chain text
  | _, _, _ => True

/-- The induction is on what valid sets rest on: the set below has its chain, and the entry comes before it. -/
theorem gathered_of_founded (h : p.Founded d within) (hmemo : (p.cell .textAttributes name).memo = .valid text) :
    d.Gathered p .textAttributes name text := by
  refine (h.stands .textAttributes name (by rw [hmemo]; rfl)).passes (fun s a name entry o value p₁ hknown hentry
    hcompute => ?_) text hmemo
  cases a with
  | textAttributes =>
    have hfinds : Finds o fun a name x => (p.cell a name).memo = .valid x :=
      fun a name x hfound => (hknown a name x hfound).1
    have hmetrics (name : String) (x : Float) (hfound : o .metric name = .found x) :
        Metric.HasValue d.sections.metrics name x := h.comesTo (hfinds .metric name x hfound)
    rcases compute_nearest hfinds hmetrics hcompute with ⟨hbase, hgathers⟩ | ⟨base, below, hbase, hbelow, hover⟩
    · exact ⟨[entry], .last hentry hbase, hgathers⟩
    · obtain ⟨-, chain, hchain, hgathers⟩ := hknown .textAttributes base below hbelow
      exact ⟨entry :: chain, .link hentry hbase hchain, hover chain hgathers⟩
  | _ => trivial

/-- In every state of a document a valid set has a chain of entries. Its font and its colors are what the nearest
declarations on the chain name, and these are valid; its tracking is what the nearest declaration comes to; none of them
is there without a declaration. There are no other attributes but the spacing, which is there exactly if a font and a
tracking are. The tracking is then within range, and the spacing is the one for it and the size of the font. So the set
is told from the sentinel by its value. -/
theorem nearest_text_attributes (d : Document) (within : Surroundings → Prop) (p : Progress)
    (h : d.Reachable within p) (name : String) (text : TextAttributes)
    (hmemo : (p.cell .textAttributes name).memo = .valid text) :
    (∃ chain, d.sections.textAttributes.Lineage TextAttributesEntry.base? name chain) ∧
    (∀ chain, d.sections.textAttributes.Lineage TextAttributesEntry.base? name chain →
      (∀ k : NamedKey, match chain.findSome? (·.attribute? k.key) with
        | none => text.attributes.find? k.key = none
        | some source => ∃ other x, source = .string other ∧ (p.cell k.asset other).memo = .valid x ∧
            text.attributes.find? k.key = some (k.wrap x)) ∧
      (match chain.findSome? (·.attribute? "tracking") with
        | none => text.tracking = none
        | some source => ∃ x, FontLayers.SizeValue d.sections.metrics source x ∧ text.tracking = some x)) ∧
    (∀ key ∈ text.attributes.keys, key ∈ ["font", "foregroundColor", "backgroundColor", "kern"]) ∧
    ((text.attributes.find? "kern").isSome = true ↔
      (text.attributes.find? "font").isSome = true ∧ text.tracking.isSome = true) ∧
    (∀ font tracking, text.attributes.find? "font" = some (.font font) → text.tracking = some tracking →
      -1000.0 ≤ tracking ∧ tracking ≤ 5000.0 ∧
        text.attributes.find? "kern" = some (.number (TextAttributes.kern tracking font.pointSize))) ∧
    text.equal TextAttributes.invalid = false := by
  have hf : p.Founded d within := founded_of_reachable h
  obtain ⟨chain, hchain, hgathers⟩ := gathered_of_founded hf hmemo
  refine ⟨⟨chain, hchain⟩, fun chain' hchain' => ?_, fun key => hgathers.mem_gatheredKeys, hgathers.kern_isSome,
    fun font tracking hfont htracking => ?_, hgathers.ne_invalid⟩
  · obtain rfl := hchain.unique hchain'
    refine ⟨fun k => ?_, hgathers.tracking⟩
    have hnamed := hgathers.named k
    unfold TakenFrom at hnamed
    split at hnamed
    · exact hnamed
    · obtain ⟨-, ⟨other, x, rfl, hx, rfl⟩, hstored⟩ := hnamed
      exact ⟨other, x, rfl, hx, hstored⟩
  · have hkern := hgathers.kern
    have hget : text.font? = some font := by rw [TextAttributes.font?, hfont]
    rw [htracking, hget] at hkern
    exact hkern

end Document

namespace Reading

/-- A font without attributes in a size of its own. -/
def largeFont : FontEntry := ⟨none, some "Menlo", none, some "40", none⟩

/-- A text in the plain font with a tracking. -/
def trackedText : TextAttributesEntry := ⟨none, some (.object [("font", .string "plain"), ("tracking", .int 100)])⟩

/-- The same text in the large font. -/
def enlargedText : TextAttributesEntry := ⟨some "body", some (.object [("font", .string "large")])⟩

/-- A text with a tracking and one above it in another font. -/
def trackedTexts : Reading where
  document := {
    version := none
    sections := {
      fonts := ⟨[("plain", .ofFamily "Menlo"), ("large", largeFont)], (by decide : ["plain", "large"].Nodup)⟩
      textAttributes := ⟨[("body", trackedText), ("title", enlargedText)], (by decide : ["body", "title"].Nodup)⟩ }
    hasEmptyGroups := false }
  surroundings := { storage := none, catalog := .ofFace "Menlo" "Regular" "Menlo-Regular", files := .empty }

theorem trackedTexts_body : trackedTexts.document.sections.textAttributes.find? "body" = some trackedText := rfl

theorem trackedTexts_title : trackedTexts.document.sections.textAttributes.find? "title" = some enlargedText := rfl

theorem trackedTexts_plain : trackedTexts.document.sections.fonts.find? "plain" = some (.ofFamily "Menlo") := rfl

theorem trackedTexts_large : trackedTexts.document.sections.fonts.find? "large" = some largeFont := rfl

theorem run_trackedTexts : ∃ p text spacing,
    (Call.resolve .textAttributes "title").run trackedTexts {} = .ok () p ∧
      (p.cell .textAttributes "title").memo = .valid text ∧ text.attributes.find? "kern" = some (.number spacing) := by
  have hbase : (some "body").filter (!·.isEmpty) = some "body" := by decide
  simp only [Call.run, resolve, resolve?, textAttributes, font, resolveTextAttributes_found trackedTexts_body,
    resolveTextAttributes_found trackedTexts_title, TextLayers.compute, TextLayers.baseDraft, enlargedText, trackedText,
    TextLayers.declared?, TextLayers.readAttributes, TextLayers.readAttribute, TextLayers.named,
    resolveFont_found trackedTexts_plain, resolveFont_found trackedTexts_large, DesignTokens.fetch, hbase, List.mem_cons,
    List.not_mem_nil, String.reduceEq, or_self, ↓reduceIte]
  exact ⟨_, _, _, rfl, rfl, rfl⟩

end Reading

open Reading in
/-- The text on top has the font that it declares, the tracking from below, and the spacing for both. -/
theorem Document.nearest_text_attributes_enlarged :
    ∃ p text font tracking, trackedTexts.document.Reachable (· = trackedTexts.surroundings) p ∧
      (p.cell .textAttributes "title").memo = .valid text ∧ (p.cell .font "large").memo = .valid font ∧
      FontLayers.SizeValue trackedTexts.document.sections.metrics (.int 100) tracking ∧
      text.attributes.find? "kern" = some (.number (TextAttributes.kern tracking font.pointSize)) := by
  obtain ⟨p, text, -, hrun, hmemo, -⟩ := run_trackedTexts
  have hreach : trackedTexts.document.Reachable (· = trackedTexts.surroundings) p := .atRest (.returned rfl .start hrun)
  have hchain : trackedTexts.document.sections.textAttributes.Lineage TextAttributesEntry.base? "title"
      [enlargedText, trackedText] := .link trackedTexts_title rfl (.last trackedTexts_body rfl)
  obtain ⟨-, hnearest, -, -, hkern, -⟩ := nearest_text_attributes _ _ p hreach "title" text hmemo
  obtain ⟨hnamed, tracking, hvalue, htracking⟩ := hnearest _ hchain
  obtain ⟨other, font, hother, hfont, hstored⟩ := hnamed .font
  obtain rfl : "large" = other := Json.string.inj hother
  exact ⟨p, text, font, tracking, hreach, hmemo, hfont, hvalue, (hkern font tracking hstored htracking).2.2⟩

end DesignTokens
