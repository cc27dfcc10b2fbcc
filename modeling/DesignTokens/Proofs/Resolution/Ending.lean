import DesignTokens.Proofs.Resolution.Probe

/-!
# What computations end in

A computation comes to something or ends in a fault. `Resolve.Ends` says of a part what it may come to and which
faults it may end in, from any state. The resolvers answer from a table here, so that a part may rely on what the
table tells it.

* `Resolve.Ends.bind` — a part may rely on what the parts before it have come to.
* `Resolve.Ends.answer`, `Resolve.Ends.fetch` — what a table tells is found without faults.
-/

namespace DesignTokens

open Resolve

variable {α β : Type}

/-- A computation that comes to nothing but good and ends in no fault but those that may be. -/
structure Resolve.Ends (good : α → Prop) (may : Fault → Prop) (f : Resolve α) : Prop where
  ok : ∀ ⦃p x p'⦄, f p = .ok x p' → good x
  error : ∀ ⦃p fault p'⦄, f p = .error fault p' → may fault

/-- A computation that finds nothing but good values, if it finds one, and ends in no fault but those that may be. -/
abbrev Resolve.Finds (good : α → Prop) (may : Fault → Prop) (f : Resolve (Option α)) : Prop :=
  Resolve.Ends (fun x => ∀ value ∈ x, good value) may f

namespace Resolve.Ends

variable {good good' : α → Prop} {best : β → Prop} {may : Fault → Prop}

theorem pure {value : α} (h : good value) : Ends good may (pure value) where
  ok _ _ _ hx := by
    cases hx
    exact h
  error _ _ _ hx := by cases hx

theorem throw {fault : Fault} (h : may fault) : Ends good may (throw fault) where
  ok _ _ _ hx := by cases hx
  error _ _ _ hx := by
    cases hx
    exact h

theorem bind {f : Resolve α} {g : α → Resolve β} (hf : Ends good may f) (hg : ∀ x, good x → Ends best may (g x)) :
    Ends best may (f >>= g) where
  ok p y p'' hy := by
    obtain ⟨x, p', hfirst, hrest⟩ := bind_eq_ok_iff.mp hy
    exact (hg x (hf.ok hfirst)).ok hrest
  error p fault p'' h := by
    rcases bind_eq_error_iff.mp h with hfirst | ⟨x, p', hfirst, hrest⟩
    · exact hf.error hfirst
    · exact (hg x (hf.ok hfirst)).error hrest

theorem weaken {f : Resolve α} (h : Ends good may f) (hgood : ∀ x, good x → good' x) : Ends good' may f :=
  ⟨fun _ _ _ hx => hgood _ (h.ok hx), h.error⟩

theorem map {f : Resolve α} {g : α → β} (h : Ends good may f) (hg : ∀ x, good x → best (g x)) :
    Ends best may (g <$> f) := by
  rw [map_eq_pure_bind]
  exact h.bind fun x hx => pure (hg x hx)

/-- From every state there is an end of one sort or the other. -/
theorem outcome {f : Resolve α} (h : Ends good may f) (p : Progress) :
    (∃ x p', f p = .ok x p' ∧ good x) ∨ ∃ fault p', f p = .error fault p' ∧ may fault := by
  cases hf : f p with
  | ok x p' => exact .inl ⟨x, p', rfl, h.ok hf⟩
  | error fault p' => exact .inr ⟨fault, p', rfl, h.error hf⟩

theorem warn {notice : Notice} : Ends (fun _ => True) may (Resolve.warn notice) where
  ok _ _ _ _ := trivial
  error _ _ _ h := by cases h

theorem dependOn {a : Asset} {name : String} {dependencies : List Dependency} :
    Ends (fun _ => True) may (Resolve.dependOn a name dependencies) where
  ok _ _ _ _ := trivial
  error _ _ _ h := by cases h

theorem lift {e : Except Fault α} (hok : ∀ x, e = .ok x → good x) (herror : ∀ fault, e = .error fault → may fault) :
    Ends good may (lift e) := by
  cases e with
  | ok x => exact pure (hok x rfl)
  | error fault => exact throw (herror fault rfl)

theorem none {good : α → Prop} : Finds good may (Pure.pure none) := pure (by simp)

theorem some {value : α} {good : α → Prop} (h : good value) : Finds good may (Pure.pure (some value)) :=
  pure fun _ hvalue => Option.some.inj hvalue ▸ h

theorem reject {notice : Notice} {good : α → Prop} : Finds good may (Resolve.reject notice) :=
  warn.bind fun _ _ => none

section Probe

variable {o : Oracle} {a : Asset} {name : String}

theorem answer : Ends (· = o a name) may ((Resolvers.probe o).answer a name) where
  ok p x p' hx := by
    obtain ⟨p₁, hanswer, -⟩ := Resolvers.answer_probe o a name p
    rw [hanswer] at hx
    cases hx
    rfl
  error p fault p' h := by
    obtain ⟨p₁, hanswer, -⟩ := Resolvers.answer_probe o a name p
    rw [hanswer] at h
    cases h

theorem metric : Ends (fun _ => True) may ((Resolvers.probe o).metric name) := answer.bind fun _ _ => pure trivial

theorem color : Ends (· = (o .color name).toColor) may ((Resolvers.probe o).color name) := by
  refine answer.bind fun x hx => ?_
  rw [hx]
  exact pure rfl

/-- A reference leads to what the table finds. -/
theorem fetch {key : String} {user : Kind} :
    Finds (fun value => o a name = .found value) may (fetch a (Resolvers.probe o a) name key user) := by
  rw [Resolvers.fetch_eq]
  refine answer.bind fun x hx => ?_
  cases x with
  | missing => exact .reject
  | invalid => exact .reject
  | found value => exact .some hx.symm

end Probe

end Resolve.Ends

end DesignTokens
