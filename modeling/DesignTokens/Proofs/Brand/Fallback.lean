import Mathlib.Data.List.Nodup
import Mathlib.Data.List.Perm.Subperm
import DesignTokens.Proofs.Brand.Calls
import DesignTokens.Proofs.Resolution.Once

/-!
# Fallbacks

Each brand may fall back on another one, and wherever this comes to an end the brands on the way are different
ones. So the bound on chains cuts none of them off (`Workspace.Chain.chain_eq`), and a question for an entry is
answered by the first brand of the chain that has it. That brand answers as its document does alone, with what is in
its cells and with its own fonts and images, whatever comes of it; the other brands keep their documents and all
cells.

* `Workspace.Chain.nodup` — no brand is asked twice.
* `Work.ask_answers` — what comes of asking a chain.
* `Workspace.first_brand_answers` — every accessor asks that way.
-/

namespace DesignTokens

namespace Workspace

/-- A brand, the brand it falls back on, and so on to one that has no fallback. -/
inductive Chain (w : Workspace) : Nat → List Nat → Prop where
  | last {i : Nat} (h : w.fallback? i = none) : Chain w i [i]
  | onto {i j : Nat} {brands : List Nat} (h : w.fallback? i = some j) (hrest : Chain w j brands) :
      Chain w i (i :: brands)

namespace Chain

variable {w : Workspace} {i j : Nat} {brands brands' : List Nat}

theorem unique (h : w.Chain i brands) (h' : w.Chain i brands') : brands = brands' := by
  induction h generalizing brands' with
  | last hlast =>
    cases h' with
    | last _ => rfl
    | onto hnext _ => rw [hlast] at hnext; cases hnext
  | onto hnext _ ih =>
    cases h' with
    | last hlast => rw [hlast] at hnext; cases hnext
    | onto hnext' hrest' =>
      obtain rfl := Option.some.inj (hnext.symm.trans hnext')
      rw [ih hrest']

/-- Every brand of a chain has a chain of its own, which is the rest of it. -/
theorem exists_suffix (h : w.Chain i brands) (hj : j ∈ brands) : ∃ rest, w.Chain j rest ∧ rest <:+ brands := by
  induction h with
  | last hlast =>
    obtain rfl := List.mem_singleton.mp hj
    exact ⟨_, .last hlast, List.suffix_refl _⟩
  | onto hnext hrest ih =>
    rcases List.mem_cons.mp hj with rfl | hj
    · exact ⟨_, .onto hnext hrest, List.suffix_refl _⟩
    · obtain ⟨rest, hchain, hsuffix⟩ := ih hj
      exact ⟨rest, hchain, hsuffix.trans (List.suffix_cons _ _)⟩

/-- A chain that came back to one of its brands would not end. -/
theorem nodup (h : w.Chain i brands) : brands.Nodup := by
  induction h with
  | last hlast => exact List.nodup_singleton _
  | @onto i j brands hnext hrest ih =>
    refine List.nodup_cons.mpr ⟨?_, ih⟩
    intro hi
    obtain ⟨rest, hchain, hsuffix⟩ := hrest.exists_suffix hi
    obtain rfl := hchain.unique (.onto hnext hrest)
    have hlength := hsuffix.length_le
    rw [List.length_cons] at hlength
    omega

/-- Only the last brand of a chain may be missing from the list of brands. -/
theorem dropLast_lt (h : w.Chain i brands) : ∀ j ∈ brands.dropLast, j < w.brands.length := by
  induction h with
  | last hlast => simp
  | @onto i j brands hnext hrest ih =>
    intro k hk
    have hne : brands ≠ [] := by cases hrest <;> simp
    rw [List.dropLast_cons_of_ne_nil hne] at hk
    rcases List.mem_cons.mp hk with rfl | hk
    · by_contra hout
      rw [fallback?, List.getElem?_eq_none (Nat.le_of_not_lt hout)] at hnext
      cases hnext
    · exact ih k hk

theorem length_le (h : w.Chain i brands) : brands.length ≤ w.brands.length + 1 := by
  have hsub : brands.dropLast ⊆ List.range w.brands.length := by
    intro j hj
    exact List.mem_range.mpr (h.dropLast_lt j hj)
  have hnodup : brands.dropLast.Nodup := h.nodup.sublist (List.dropLast_sublist _)
  have hlength := (hnodup.subperm hsub).length_le
  rw [List.length_dropLast, List.length_range] at hlength
  omega

theorem chainWithin_eq (h : w.Chain i brands) {n : Nat} (hn : brands.length ≤ n + 1) :
    w.chainWithin n i = brands := by
  induction h generalizing n with
  | last hlast =>
    cases n with
    | zero => rfl
    | succ n => simp only [chainWithin, hlast]
  | @onto i j brands hnext hrest ih =>
    cases n with
    | zero =>
      have hlength : 0 < brands.length := by cases hrest <;> simp
      rw [List.length_cons] at hn
      omega
    | succ n =>
      rw [List.length_cons] at hn
      simp only [chainWithin, hnext, ih (Nat.le_of_succ_le_succ hn)]

/-- The bound on chains leaves all of them whole. -/
theorem chain_eq (h : w.Chain i brands) : w.chain i = brands := h.chainWithin_eq h.length_le

end Chain

/-- The result of a call that should be answered by the first of some brands that has an entry: it is what that brand
makes of it by itself, and nothing else but the cells of its document and log files have changed. If there is no such
brand the result is the one given, with a notice. -/
def AnsweredByFirst {α : Type} (w : Workspace) (brands : List Nat) (k : Kind) (name : String)
    (own : Reading → Resolve α) (missing : α) (result : EStateM.Result Fault Workspace α) : Prop :=
  match brands.find? (w.has · k name) with
  | none =>
    ∃ w', result = .ok missing w' ∧ w'.unlogged = w.unlogged ∧ w'.notices = w.notices ++ [.notInBrands k name]
  | some j =>
    ∃ installed p w', w.installed? j = some installed ∧
      w'.unlogged = w.unlogged.modify j (·.settle p.store) ∧ w'.notices = w.notices ++ p.notices ∧
      ((∃ x, own (installed.reading w.files) { store := installed.store } = .ok x p ∧ result = .ok x w') ∨
        ∃ fault, own (installed.reading w.files) { store := installed.store } = .error fault p ∧
          result = .error fault w')

theorem installed?_of_has {w : Workspace} {j : Nat} {k : Kind} {name : String} (h : w.has j k name = true) :
    ∃ installed, w.installed? j = some installed := by
  obtain ⟨b, hb, hown⟩ := (Option.any_eq_true ..).mp h
  obtain ⟨installed, hinstalled, -⟩ := (Option.any_eq_true ..).mp hown
  exact ⟨installed, by rw [installed?, hb]; exact hinstalled⟩

end Workspace

namespace Work

open Workspace

variable {α β : Type} {w : Workspace} {i : Nat} {brands : List Nat}

/-- What comes of asking a chain, when `g` makes the result of what the first brand answers or of nothing. -/
theorem ask_answers (h : w.Chain i brands) (k : Kind) (name : String) (f : Reading → Resolve β) (g : Option β → α)
    {own : Reading → Resolve α} (hown : ∀ r, own r = do return g (some (← f r))) :
    w.AnsweredByFirst brands k name own (g none) ((do return g (← ask i k name f) : Work α) w) := by
  have hprovider : w.provider? i k name = brands.find? (w.has · k name) := by rw [provider?, h.chain_eq]
  unfold AnsweredByFirst
  cases hfind : brands.find? (w.has · k name) with
  | none =>
    rw [hfind] at hprovider
    have hask : ask i k name f w = .ok none (w.told (.notInBrands k name)) := ask_missing hprovider
    refine ⟨_, ?_, w.told_unlogged _, w.told_notices _⟩
    simp only [bind, EStateM.bind, hask]
    rfl
  | some j =>
    rw [hfind] at hprovider
    have hhas : w.has j k name = true := List.find?_some (p := (w.has · k name)) hfind
    obtain ⟨installed, hinstalled⟩ := installed?_of_has hhas
    have hask := (ask_provided (f := f) hprovider).trans (onDocument_some hinstalled)
    cases hrun : f (installed.reading w.files) { store := installed.store } with
    | ok x p =>
      simp only [hrun] at hask
      refine ⟨installed, p, w.settled j p, hinstalled, w.settled_unlogged j p, w.settled_notices j p, ?_⟩
      refine .inl ⟨g (some x), ?_, ?_⟩
      · rw [hown, Resolve.bind_of_ok hrun]
        rfl
      · simp only [bind, EStateM.bind, hask]
        rfl
    | error fault p =>
      simp only [hrun] at hask
      refine ⟨installed, p, w.settled j p, hinstalled, w.settled_unlogged j p, w.settled_notices j p, ?_⟩
      refine .inr ⟨fault, ?_, ?_⟩
      · rw [hown]
        exact Resolve.bind_eq_error_iff.mpr (.inl hrun)
      · simp only [bind, EStateM.bind, hask]

end Work

namespace Workspace

/-- Through any chain of brands, a value, an entry that stands for itself and whatever is read through the accessor of
a parameter come from the first brand of the chain that has loaded an entry of that kind and name, just as its
document alone would answer: also if the entry is invalid, and also if it ends in a fault. If no brand has it they are
the sentinel or nothing. Only the cells of the one document change. -/
theorem first_brand_answers (w : Workspace) (i : Nat) (brands : List Nat) (h : w.Chain i brands) :
    (∀ (a : Asset) (name : String),
        w.AnsweredByFirst brands a.kind name (·.resolve a name) a.invalid (Work.value i a name w)) ∧
      (∀ (k : Kind) (name : String),
        w.AnsweredByFirst brands k name (·.entry k name) none (Work.entry i k name w)) ∧
      ∀ (α : Type) (name : String) (indirect : Bool) (read : Reading → Option Accessor → Resolve α),
        w.AnsweredByFirst brands .customParameters name
          (fun r => do return some (← read r (← Accessor.ofName r name indirect))) none
          (Work.parameter i name indirect read w) := by
  refine ⟨?_, ?_, ?_⟩
  · intro a name
    exact Work.ask_answers h a.kind name (·.resolve a name) (·.getD a.invalid) fun r => (bind_pure _).symm
  · intro k name
    exact Work.ask_answers h k name (·.entry k name) Option.join fun r => (bind_pure _).symm
  · intro α name indirect read
    let f (r : Reading) : Resolve α := do read r (← Accessor.ofName r name indirect)
    have hask : (do return id (← Work.ask i .customParameters name f)) = Work.parameter i name indirect read :=
      bind_pure _
    rw [← hask]
    refine Work.ask_answers h .customParameters name f id fun r => ?_
    simp only [f, bind_assoc, id]

/-- A font of a family that is built in. -/
def knownFont : Reading := .ofSections { fonts := ⟨[("a", ⟨none, some "Helvetica", none, none, none⟩)], by decide⟩ }

theorem knownFont_a : knownFont.document.sections.fonts.find? "a" = some ⟨none, some "Helvetica", none, none, none⟩ :=
  rfl

theorem resolve_knownFont :
    ∃ font p, knownFont.resolve .font "a" {} = .ok font p ∧ (p.cell .font "a").memo.isValid = true := by
  simp only [Reading.resolve, Reading.resolve?, Reading.font, resolveFont_found knownFont_a, FontLayers.compute,
    FontLayers.baseDescriptor, List.not_mem_nil, ↓reduceIte]
  exact ⟨_, _, rfl, rfl⟩

theorem resolve_circularFont : ∃ p, Reading.circularFonts.resolve .font "a" {} = .ok Font.invalid p := by
  simp only [Reading.resolve, Reading.resolve?, Reading.font, resolveFont_found Reading.circularFonts_a,
    resolveFont_found Reading.circularFonts_b, FontLayers.compute, FontLayers.baseDescriptor, DesignTokens.fetch,
    Reading.copyOf_a, Reading.copyOf_b, List.mem_cons, List.not_mem_nil, String.reduceEq, or_false, or_true,
    ↓reduceIte]
  exact ⟨_, rfl⟩

/-- A brand without a document, one with two fonts in a circle, and one with a font of the same name that is known. -/
def threeBrands : Workspace where
  brands := [
    { fallback := some 1 },
    { fallback := some 2, installed := some ⟨Reading.circularFonts.document, none, .builtIn, {}⟩ },
    { installed := some ⟨knownFont.document, none, .builtIn, {}⟩ }]

theorem threeBrands_has : [0, 1, 2].find? (threeBrands.has · Asset.font.kind "a") = some 1 := rfl

/-- The second brand answers with the sentinel, although the third one knows the font. -/
theorem first_brand_answers_circular :
    threeBrands.Chain 0 [0, 1, 2] ∧
      (∃ w', Work.value 0 .font "a" threeBrands = .ok Font.invalid w' ∧
        w'.installed? 2 = some ⟨knownFont.document, none, .builtIn, {}⟩) ∧
      ∃ font p, knownFont.resolve .font "a" {} = .ok font p ∧ (p.cell .font "a").memo.isValid = true := by
  have hchain : threeBrands.Chain 0 [0, 1, 2] := .onto rfl (.onto rfl (.last rfl))
  refine ⟨hchain, ?_, resolve_knownFont⟩
  obtain ⟨hvalue, -, -⟩ := first_brand_answers threeBrands 0 [0, 1, 2] hchain
  have hanswer := hvalue .font "a"
  rw [AnsweredByFirst, threeBrands_has] at hanswer
  obtain ⟨installed, p, w', hinstalled, hkept, -, hresult⟩ := hanswer
  cases hinstalled
  obtain ⟨p', hown⟩ := resolve_circularFont
  rcases hresult with ⟨font, hfont, hresult⟩ | ⟨fault, hfault, -⟩
  · cases hown.symm.trans hfont
    refine ⟨w', hresult, ?_⟩
    rw [installed?_eq_unlogged, hkept]
    rfl
  · cases hown.symm.trans hfault

end Workspace

end DesignTokens
