import DesignTokens.Proofs.Resolution.Account
import DesignTokens.Proofs.Resolution.Past

/-!
# Surroundings that are alike

While a document is in use its files may change. As long as every image file gives the same image as before, or
none for a reason that is noticed, no entry comes to anything else: a computation takes the same course, except
that it may give up with another notice. So the meaning of the document stays the same, and what is known of its
cells holds on.

* `Reading.compute_alike` — what may become of a computation.
* `Reading.examine_alike` — its inquiry finds the same.
* `Reading.Trusts.alike` — cells can be trusted in surroundings that are alike.
-/

namespace DesignTokens

open Resolve

/-- Every image file gives the same in both surroundings, but for the notice that there is no image in it. -/
structure Surroundings.Alike (s s' : Surroundings) : Prop where
  catalog : s'.catalog = s.catalog
  images : ∀ path, ImageLayers.ofFile s' path = ImageLayers.ofFile s path ∨
    ∃ n n', ImageLayers.ofFile s path = reject n ∧ ImageLayers.ofFile s' path = reject n'

theorem Traces.reject {α : Type} {a : Asset} {owner : String} (n : Notice) (p : Progress) :
    Traces a owner (Resolve.reject n : Resolve (Option α)) p ⟨.ok none, [], []⟩ :=
  ⟨p.record (.noticed n), rfl, rfl, (List.append_nil _).symm⟩

namespace Reading

variable {d : Document} {s s' : Surroundings} {a : Asset} {name : String}

/-- In surroundings that are alike a computation is the same, or it gives up in both. -/
theorem compute_alike (h : s.Alike s') (q : Resolvers) (a : Asset) (name : String) (entry : a.kind.Entry) :
    compute ⟨d, s'⟩ q a name entry = compute ⟨d, s⟩ q a name entry ∨
      ∃ n n', compute ⟨d, s⟩ q a name entry = reject n ∧ compute ⟨d, s'⟩ q a name entry = reject n' := by
  cases a with
  | image =>
    change ImageEntry at entry
    cases hsource : entry.source with
    | file path =>
      rcases h.images path with hsame | ⟨n, n', hfails, hfails'⟩
      · exact .inl (by simp only [compute, ImageLayers.compute, ImageLayers.base, hsource, hsame])
      · refine .inr ⟨n, n', ?_, ?_⟩
        · simp only [compute, ImageLayers.compute, ImageLayers.base, hsource, hfails]
          rfl
        · simp only [compute, ImageLayers.compute, ImageLayers.base, hsource, hfails']
          rfl
    | basedOn other => exact .inl (by simp only [compute, ImageLayers.compute, ImageLayers.base, hsource])
    | background b => exact .inl (by simp only [compute, ImageLayers.compute, ImageLayers.base, hsource])
  | font => exact .inl (by simp only [compute, h.catalog])
  | _ => exact .inl rfl

theorem examine_alike (h : s.Alike s') (o : Oracle) (a : Asset) (name : String) (entry : a.kind.Entry) :
    (plan ⟨d, s'⟩ a name entry).examine o = (plan ⟨d, s⟩ a name entry).examine o := by
  have htraces (s : Surroundings) :
      Traces a name (compute ⟨d, s⟩ (.probe o) a name entry) {} ((plan ⟨d, s⟩ a name entry).examine o) := by
    rw [← run_plan]
    exact Inquiry.traces (plan_within ..) o {}
  rcases compute_alike h (.probe o) a name entry with hsame | ⟨n, n', hfails, hfails'⟩
  · have hother := htraces s'
    rw [hsame] at hother
    exact hother.unique (htraces s)
  · have hnothing (s : Surroundings) (n : Notice) (hfails : compute ⟨d, s⟩ (.probe o) a name entry = reject n) :
        (plan ⟨d, s⟩ a name entry).examine o = ⟨.ok none, [], []⟩ := by
      refine (htraces s).unique ?_
      rw [hfails]
      exact Traces.reject n {}
    rw [hnothing s n hfails, hnothing s' n' hfails']

/-! ### Meanings -/

theorem stage_alike (h : s.Alike s') (p : Progress) :
    Usage.stage { reading := ⟨d, s'⟩, progress := p } = Usage.stage { reading := ⟨d, s⟩, progress := p } := by
  funext k
  induction k with
  | zero => rfl
  | succ k ih =>
    funext a name
    simp only [Usage.stage, ih, Usage.outcome, examine_alike h]
    rfl

theorem meaning_alike (h : s.Alike s') (p : Progress) :
    Usage.meaning { reading := ⟨d, s'⟩, progress := p } = Usage.meaning { reading := ⟨d, s⟩, progress := p } := by
  unfold Usage.meaning
  rw [stage_alike h]

theorem sound_alike (h : s.Alike s') {p q : Progress} (hsound : Usage.Sound { reading := ⟨d, s⟩, progress := p } q) :
    Usage.Sound { reading := ⟨d, s'⟩, progress := p } q where
  kept := hsound.kept
  empty := hsound.empty
  final a name hloaded hbegun hidle := by
    obtain ⟨entry, result, hpending, hcell, hresult, hmet⟩ := hsound.final a name hloaded hbegun hidle
    refine ⟨entry, result, ⟨hpending.present, hpending.notLoaded⟩, ?_, ?_, ?_⟩
    · simpa only [Usage.finalCell, meaning_alike h, examine_alike h] using hcell
    · simpa only [meaning_alike h, examine_alike h] using hresult
    · intro question hquestion
      rw [meaning_alike h, examine_alike h] at hquestion
      exact hmet question hquestion

theorem Trusts.alike {p : Progress} (h : s.Alike s') (htrusts : Trusts ⟨d, s⟩ p) : Trusts ⟨d, s'⟩ p := by
  obtain ⟨past, hrests, hsound⟩ := htrusts
  exact ⟨past, hrests, sound_alike h hsound⟩

end Reading

end DesignTokens
