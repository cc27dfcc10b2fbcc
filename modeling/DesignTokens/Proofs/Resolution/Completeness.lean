import DesignTokens.Proofs.Resolution.Foundation
import DesignTokens.Proofs.Resolution.Outcome
import DesignTokens.Proofs.Resolution.Probe

/-!
# Recorded dependencies are complete

What a valid entry has recorded, and what that has recorded in turn, is all that its value depends on. Where a
second document agrees with the first on these entries, the tree of inquiries behind the valid cell can be gone
through there as well, from the leaves up, and the meaning of the second document gives every entry of it the same
value. Of all other entries only the names matter: computations look up whether there is a color or a placement of
a name, and do not ask for it.

* `Reading.compute_congr` — of a document, a computation reads nothing but names.
* `Reading.resolves_alike` — the second document resolves the entry to the same value.
-/

namespace DesignTokens

open Progress

/-- One entry has recorded another one. -/
def Progress.Records (p : Progress) (user dependency : Dependency) : Prop :=
  ∃ a : Asset, a.kind = user.kind ∧ dependency ∈ (p.cell a user.name).dependencies

namespace Reading

variable {d d' : Document} {s : Surroundings} {p : Progress} {a : Asset} {name : String} {value : a.Value}

/-- Of the document, the computation of an entry reads nothing but which names there are. -/
theorem compute_congr (hnames : ∀ k other, (d'.entry? k other).isSome = (d.entry? k other).isSome) (q : Resolvers)
    (a : Asset) (name : String) (entry : a.kind.Entry) :
    compute ⟨d', s⟩ q a name entry = compute ⟨d, s⟩ q a name entry := by
  cases a with
  | color =>
    have hcolors : d'.sections.colors.contains = d.sections.colors.contains := funext (hnames .color)
    simp only [compute, hcolors]
  | image =>
    have hplacements : d'.sections.placements.contains = d.sections.placements.contains := funext (hnames .placement)
    simp only [compute, hplacements]
  | _ => rfl

/-- A document that agrees on what stands behind a valid cell means the same by its entry. -/
theorem meaning_of_stands (hnames : ∀ k other, (d'.entry? k other).isSome = (d.entry? k other).isSome)
    (h : p.Stands d (· = s) a name)
    (hsame : ∀ dependency, Relation.ReflTransGen p.Records (.on (a, name)) dependency →
      d'.entry? dependency.kind dependency.name = d.entry? dependency.kind dependency.name)
    (hvalid : (p.cell a name).memo = .valid value) :
    Usage.meaning { reading := ⟨d', s⟩ } a name = .found value := by
  induction h with
  | @intro a name entry value' s' hs hentry hmemo hresult huses hasked ih =>
    obtain rfl := hs
    obtain rfl : value' = value := Memo.valid.inj (hmemo.symm.trans hvalid)
    have hpending : Usage.Pending { reading := ⟨d', s'⟩ } a name entry :=
      ⟨(hsame _ .refl).trans hentry, by rw [cell_start]; rfl⟩
    have hexamine : (plan ⟨d, s'⟩ a name entry).examine (Usage.meaning { reading := ⟨d', s'⟩ }) =
        (plan ⟨d, s'⟩ a name entry).examine (p.answers d) := by
      refine Inquiry.examine_congr _ fun question hq => ?_
      obtain ⟨answer, hanswer⟩ := plan_earns _ a name entry hresult question hq
      have hrecorded : p.Records (.on (a, name)) (.on question) :=
        ⟨a, rfl, (huses _).mpr ((mem_asked_iff hresult).mp hq)⟩
      rw [hanswer]
      exact ih question hq (fun dependency hpath => hsame dependency (.head hrecorded hpath))
        (memo_of_answers hanswer)
    rw [Usage.meaning_eq_found_iff hpending, result_eq_ok_iff]
    simp only [compute_congr hnames]
    rw [← result_eq_ok_iff, hexamine, hresult]

/-- If an entry of a document is valid, then every document with the same names of entries, and with the same entries
wherever the recorded dependencies lead to from there, resolves it in the same surroundings to the same valid value.
-/
theorem resolves_alike (h : d.Reachable (· = s) p) (hvalid : (p.cell a name).memo = .valid value)
    (hnames : ∀ k other, (d'.entry? k other).isSome = (d.entry? k other).isSome)
    (hsame : ∀ dependency, Relation.ReflTransGen p.Records (.on (a, name)) dependency →
      d'.entry? dependency.kind dependency.name = d.entry? dependency.kind dependency.name) :
    ∃ p', resolve ⟨d', s⟩ a name {} = .ok value p' ∧ (p'.cell a name).memo = .valid value := by
  have hstands := (Document.founded_of_reachable h).stands a name (by rw [hvalid]; rfl)
  exact Usage.resolve_valid (u := { reading := ⟨d', s⟩ }) .start (meaning_of_stands hnames hstands hsame hvalid)

theorem layeredTexts_names (last last' : TextAttributesEntry) (k : Kind) (other : String) :
    ((layeredTexts last').document.entry? k other).isSome = ((layeredTexts last).document.entry? k other).isSome := by
  cases k with
  | textAttributes =>
    rw [Bool.eq_iff_iff, Document.entry?, Document.entry?, Mapping.find?_isSome_iff, Mapping.find?_isSome_iff]
    rfl
  | _ => rfl

/-- The heading has the same value in a document whose last text is based on itself. -/
theorem resolves_alike_texts :
    ∃ p, (layeredTexts strayText).document.Reachable (· = (layeredTexts strayText).surroundings) p ∧
      (p.cell .textAttributes "heading").memo = .valid ⟨∅, none⟩ ∧
      ∃ p', (layeredTexts (.copyOf "last")).resolve .textAttributes "heading" {} = .ok ⟨∅, none⟩ p' ∧
        (p'.cell .textAttributes "heading").memo = .valid ⟨∅, none⟩ := by
  obtain ⟨p, fault, hcall, hplain, hheading⟩ := run_layeredTexts
  have hreachable : (layeredTexts strayText).document.Reachable (· = (layeredTexts strayText).surroundings) p :=
    .atRest (.broken rfl .start hcall)
  have hvalid : (p.cell .textAttributes "heading").memo = .valid ⟨∅, none⟩ := by rw [hheading]
  have hbehind (dependency : Dependency)
      (hpath : Relation.ReflTransGen p.Records (.on (.textAttributes, "heading")) dependency) :
      dependency = ⟨.textAttributes, "heading"⟩ ∨ dependency = ⟨.textAttributes, "plain"⟩ := by
    induction hpath with
    | refl => exact .inl rfl
    | tail _ hstep ih =>
      obtain ⟨b, hkind, hrecorded⟩ := hstep
      rcases ih with rfl | rfl
      · obtain rfl : b = .textAttributes := Asset.kind_injective hkind
        rw [hheading] at hrecorded
        exact .inr (List.mem_singleton.mp hrecorded)
      · obtain rfl : b = .textAttributes := Asset.kind_injective hkind
        rw [hplain] at hrecorded
        cases hrecorded
  refine ⟨p, hreachable, hvalid, resolves_alike hreachable hvalid (layeredTexts_names _ _) fun dependency hpath => ?_⟩
  rcases hbehind dependency hpath with rfl | rfl
  · rfl
  · rfl

end Reading

end DesignTokens
