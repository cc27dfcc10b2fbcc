import DesignTokens.Proofs.Resolution.Calls

/-!
# One computation for each entry

The history tells which computations have begun and which of these are still under way, the innermost first.
An entry whose computation has begun either is under way or has a loaded cell (`Progress.Orderly`). A request
enters the computation of an entry only where it is neither: names of its own asset under way are handed to
it, and what else is under way is of assets that may not be asked back (`Progress.Admits`).

So no computation begins twice, and a cell is written to by the computation of its own entry alone, before
the entry is settled.

* `Reading.Runs.conduct` — what a task leaves as it was.
* `Operation.computed_once_then_frozen` — the two facts for every run of operations.
-/

namespace DesignTokens

namespace History

/-- The entries whose computation has begun, the latest first. -/
def begun : List Event → List (Asset × String)
  | [] => []
  | .started a name :: earlier => (a, name) :: begun earlier
  | .settled _ _ _ :: earlier => begun earlier
  | .noticed _ :: earlier => begun earlier

/-- The entries whose computation has begun and not ended, the latest first. -/
def underWay : List Event → List (Asset × String)
  | [] => []
  | .started a name :: earlier => (a, name) :: underWay earlier
  | .settled a name _ :: earlier => (underWay earlier).erase (a, name)
  | .noticed _ :: earlier => underWay earlier

theorem underWay_sublist (h : List Event) : (underWay h).Sublist (begun h) := by
  induction h with
  | nil => exact .slnil
  | cons e earlier ih =>
    cases e with
    | started a name => exact ih.cons_cons _
    | settled a name valid => exact List.erase_sublist.trans ih
    | noticed n => exact ih

theorem begun_suffix {earlier later : List Event} (h : earlier <:+ later) :
    begun earlier <:+ begun later := by
  obtain ⟨events, rfl⟩ := h
  induction events with
  | nil => exact List.suffix_rfl
  | cons e events ih =>
    cases e with
    | started a name => exact ih.trans (List.suffix_cons ..)
    | settled a name valid => exact ih
    | noticed n => exact ih

/-- If no computation has begun twice, none has ever been under way inside itself. -/
theorem underWay_nodup {earlier later : List Event} (honce : (begun later).Nodup) (h : earlier <:+ later) :
    (underWay earlier).Nodup :=
  ((underWay_sublist earlier).trans (begun_suffix h).sublist).nodup honce

end History

namespace Progress

/-- The entries whose computation has begun. -/
def begun (p : Progress) : List (Asset × String) := History.begun p.history

/-- The entries that are being computed. -/
def underWay (p : Progress) : List (Asset × String) := History.underWay p.history

@[simp] theorem underWay_record_started (p : Progress) (a : Asset) (name : String) :
    (p.record (.started a name)).underWay = (a, name) :: p.underWay := rfl

@[simp] theorem underWay_record_settled (p : Progress) (a : Asset) (name : String) (valid : Bool) :
    (p.record (.settled a name valid)).underWay = p.underWay.erase (a, name) := rfl

@[simp] theorem underWay_modify (p : Progress) (a : Asset) (name : String)
    (f : Cell a.Value → Cell a.Value) : (p.modify a name f).underWay = p.underWay := rfl

/-- No computation has begun twice, those that have begun are under way or have loaded their cell, and all other
cells are untouched. Cells that are invalid hold the sentinel. -/
structure Orderly (p : Progress) : Prop where
  once : p.begun.Nodup
  accounted : ∀ question ∈ p.begun,
    (p.cell question.1 question.2).memo.isLoaded = true ∨ question ∈ p.underWay
  fresh : ∀ a name, (a, name) ∉ p.begun → p.cell a name = .fresh
  sentinel : ∀ a name value, (p.cell a name).memo = .invalid value → value = a.invalid

/-- A state between operations. -/
structure Rests (p : Progress) : Prop extends Orderly p where
  idle : p.underWay = []

/-- A state in which an asset may be requested while some of its names are under way: whatever else is under
way is above it. -/
def Admits (p : Progress) (a : Asset) (underWay : List String) : Prop :=
  ∀ question ∈ p.underWay, (question.1 = a ∧ question.2 ∈ underWay) ∨ a.level < question.1.level

/-- The cell of an entry is as it was, if it was loaded or under way. -/
def Keeps (p p' : Progress) (a : Asset) (name : String) : Prop :=
  (p.cell a name).memo.isLoaded = true ∨ (a, name) ∈ p.underWay → p'.cell a name = p.cell a name

theorem Admits.of_idle {p : Progress} (h : p.underWay = []) (a : Asset) (underWay : List String) :
    p.Admits a underWay := by
  simp [Admits, h]

theorem Admits.inside {p : Progress} {a b : Asset} {underWay : List String} (h : p.Admits a underWay)
    (hb : a.MayAsk b) : p.Admits b (Reading.inside a underWay b) := by
  intro question hq
  rcases hb with rfl | hb
  · rw [Reading.inside_same]
    exact h question hq
  · rcases h question hq with ⟨ha, -⟩ | ha
    · exact .inr (ha ▸ hb)
    · exact .inr (Nat.lt_trans hb ha)

theorem Admits.started {p : Progress} {a : Asset} {underWay : List String} (h : p.Admits a underWay)
    (name : String) : (p.record (.started a name)).Admits a (name :: underWay) := by
  intro question hq
  rw [underWay_record_started] at hq
  rcases List.mem_cons.mp hq with rfl | hq
  · exact .inl ⟨rfl, List.mem_cons_self ..⟩
  · exact (h question hq).imp (fun ⟨ha, hn⟩ => ⟨ha, List.mem_cons_of_mem _ hn⟩) id

/-- A name that is not among those under way has no computation under way. -/
theorem Admits.not_underWay {p : Progress} {a : Asset} {underWay : List String} {name : String}
    (h : p.Admits a underWay) (hname : name ∉ underWay) : (a, name) ∉ p.underWay := by
  intro hq
  rcases h _ hq with ⟨-, hn⟩ | hl
  · exact hname hn
  · exact Nat.lt_irrefl _ hl

theorem begun_of_underWay {p : Progress} {question : Asset × String} (h : question ∈ p.underWay) :
    question ∈ p.begun := (History.underWay_sublist _).subset h

theorem cell_start (a : Asset) (name : String) : ({} : Progress).cell a name = .fresh := by
  cases a <;> rfl

theorem Rests.start : ({} : Progress).Rests where
  once := .nil
  accounted := by simp [begun, History.begun]
  fresh a name _ := cell_start a name
  sentinel a name value h := by
    rw [cell_start] at h
    cases h
  idle := rfl

theorem Orderly.noticed {p : Progress} (h : p.Orderly) (n : Notice) : (p.record (.noticed n)).Orderly :=
  ⟨h.once, h.accounted, h.fresh, h.sentinel⟩

theorem Rests.noticed {p : Progress} (h : p.Rests) (n : Notice) : (p.record (.noticed n)).Rests :=
  ⟨h.toOrderly.noticed n, h.idle⟩

/-- Between operations, what has begun has loaded its cell. -/
theorem Rests.isLoaded {p : Progress} (h : p.Rests) {a : Asset} {name : String} (hbegun : (a, name) ∈ p.begun) :
    (p.cell a name).memo.isLoaded = true := by
  rcases h.accounted _ hbegun with hloaded | hunder
  · exact hloaded
  · rw [h.idle] at hunder
    cases hunder

/-- A loaded cell is not untouched. -/
theorem Orderly.begun_of_isLoaded {p : Progress} (h : p.Orderly) {a : Asset} {name : String}
    (hloaded : (p.cell a name).memo.isLoaded = true) : (a, name) ∈ p.begun := by
  by_contra hbegun
  rw [h.fresh a name hbegun] at hloaded
  cases hloaded

theorem Orderly.not_begun {p : Progress} (h : p.Orderly) {a : Asset} {name : String}
    (hmemo : (p.cell a name).memo.payload? = none) (hidle : (a, name) ∉ p.underWay) : (a, name) ∉ p.begun := by
  intro hbegun
  rcases h.accounted _ hbegun with hloaded | hunder
  · simp [Memo.isLoaded, hmemo] at hloaded
  · exact hidle hunder

theorem Orderly.started {p : Progress} (h : p.Orderly) {a : Asset} {name : String}
    (hmemo : (p.cell a name).memo.payload? = none) (hidle : (a, name) ∉ p.underWay) :
    (p.record (.started a name)).Orderly where
  once := List.nodup_cons.mpr ⟨h.not_begun hmemo hidle, h.once⟩
  accounted question hq := by
    rcases List.mem_cons.mp hq with rfl | hq
    · exact .inr (List.mem_cons_self ..)
    · exact (h.accounted question hq).imp id (List.mem_cons_of_mem _)
  fresh b other hb := h.fresh b other fun hq => hb (List.mem_cons_of_mem _ hq)
  sentinel := h.sentinel

/-- Dependencies are added to a cell whose computation has begun. -/
theorem Orderly.dependOn {p : Progress} (h : p.Orderly) {a : Asset} {name : String} (hbegun : (a, name) ∈ p.begun)
    (dependencies : List Dependency) : (p.modify a name (·.dependOn dependencies)).Orderly := by
  refine ⟨h.once, fun question hq => ?_, fun b other hb => ?_, fun b other value hvalue => ?_⟩
  · rw [memo_dependOn]
    exact h.accounted question hq
  · rw [cell_modify_other, h.fresh b other hb]
    rintro ⟨rfl, rfl⟩
    exact hb hbegun
  · rw [memo_dependOn] at hvalue
    exact h.sentinel b other value hvalue

end Progress

theorem Cell.isLoaded_settle {α : Type} (c : Cell α) (sentinel : α) (result : Option α) :
    (c.settle (some sentinel) result).memo.isLoaded = true := by
  rw [Memo.isLoaded, Cell.settle_memo]
  cases result <;> rfl

namespace Progress

/-- The computation of an entry ends with its cell loaded. -/
theorem Orderly.settled {p : Progress} (h : p.Orderly) {a : Asset} {name : String} (hbegun : (a, name) ∈ p.begun)
    (result : Option a.Value) :
    ((p.modify a name (·.settle (some a.invalid) result)).record (.settled a name result.isSome)).Orderly := by
  refine ⟨h.once, fun ⟨b, other⟩ hq => ?_, fun b other hb => ?_, fun b other value hvalue => ?_⟩
  · by_cases hown : b = a ∧ other = name
    · obtain ⟨rfl, rfl⟩ := hown
      left
      rw [cell_record, cell_modify_same]
      exact Cell.isLoaded_settle ..
    · rw [cell_record, cell_modify_other _ _ hown]
      have hne : (b, other) ≠ (a, name) := by
        rintro ⟨⟩
        exact hown ⟨rfl, rfl⟩
      exact (h.accounted _ hq).imp id (List.mem_erase_of_ne hne).mpr
  · rw [cell_record, cell_modify_other, h.fresh b other hb]
    rintro ⟨rfl, rfl⟩
    exact hb hbegun
  · by_cases hown : b = a ∧ other = name
    · obtain ⟨rfl, rfl⟩ := hown
      rw [cell_record, cell_modify_same] at hvalue
      cases result <;> cases hvalue
      rfl
    · rw [cell_record, cell_modify_other _ _ hown] at hvalue
      exact h.sentinel b other value hvalue

end Progress

namespace Reading

open Progress

/-- What a task that returns leaves as it was. A request keeps every cell that is loaded or under way; an
inquiry may add dependencies to the cell of its own entry. -/
def Conduct {a : Asset} (task : Task a) (p p' : Progress) : Prop :=
  p.Orderly →
    match task with
    | .request underWay _ =>
      p.Admits a underWay → p'.Orderly ∧ p'.underWay = p.underWay ∧ ∀ b other, p.Keeps p' b other
    | .inquiry underWay name _ =>
      p.Admits a (name :: underWay) → (a, name) ∈ p.underWay →
        p'.Orderly ∧ p'.underWay = p.underWay ∧ (p'.cell a name).memo = (p.cell a name).memo ∧
          ∀ b other, ¬ (b = a ∧ other = name) → p.Keeps p' b other

theorem Runs.conduct {r : Reading} {a : Asset} {task : Task a} {p p' : Progress} {x : Option a.Value}
    (h : r.Runs a task p (.ok x p')) : Conduct task p p' := by
  generalize hresult : EStateM.Result.ok x p' = result at h
  induction h generalizing p' with
  | missing _ => cases hresult; exact fun ho _ => ⟨ho, rfl, fun _ _ _ => rfl⟩
  | cached _ _ => cases hresult; exact fun ho _ => ⟨ho, rfl, fun _ _ _ => rfl⟩
  | cyclic _ _ _ => cases hresult; exact fun ho _ => ⟨ho.noticed _, rfl, fun _ _ _ => rfl⟩
  | @computed a underWay name p p₁ entry result hentry hmemo hunder hrun ih =>
    cases hresult
    intro ho hadmits
    have hidle : (a, name) ∉ p.underWay := hadmits.not_underWay hunder
    obtain ⟨ho₁, hsame, -, hkeeps⟩ :=
      ih rfl (ho.started hmemo hidle) (hadmits.started name) (List.mem_cons_self ..)
    rw [underWay_record_started] at hsame
    have hbegun : (a, name) ∈ p₁.begun := begun_of_underWay (by rw [hsame]; exact List.mem_cons_self ..)
    refine ⟨ho₁.settled hbegun result, ?_, ?_⟩
    · simp [hsame]
    · intro b other hkept
      have hother : ¬ (b = a ∧ other = name) := by
        rintro ⟨rfl, rfl⟩
        rcases hkept with hl | hl
        · simp [Memo.isLoaded, hmemo] at hl
        · exact hidle hl
      rw [cell_record, cell_modify_other _ _ hother]
      exact hkeeps b other hother (hkept.imp id (List.mem_cons_of_mem _))
  | aborted _ _ _ _ _ => cases hresult
  | done => cases hresult; exact fun ho _ _ => ⟨ho, rfl, rfl, fun _ _ _ _ => rfl⟩
  | fail => cases hresult
  | note _ ih =>
    subst hresult
    exact fun ho hadmits hown => ih rfl (ho.noticed _) hadmits hown
  | @use a underWay name p dependencies rest result _ ih =>
    subst hresult
    intro ho hadmits hown
    obtain ⟨ho₁, hsame, hmemo, hkeeps⟩ := ih rfl (ho.dependOn (begun_of_underWay hown) _) hadmits hown
    refine ⟨ho₁, hsame, ?_, fun b other hother hkept => ?_⟩
    · rw [hmemo, cell_modify_same]
      rfl
    · have hcell := cell_modify_other p (·.dependOn dependencies) hother
      rw [← hcell]
      exact hkeeps b other hother (by rwa [hcell])
  | @ask a b underWay name other p p₁ next y result hmay _ _ ihasked ihrun =>
    subst hresult
    intro ho hadmits hown
    obtain ⟨ho₁, hsame₁, hkeeps₁⟩ := ihasked rfl ho (hadmits.inside hmay)
    have hown₁ : (a, name) ∈ p₁.underWay := hsame₁ ▸ hown
    have hadmits₁ : p₁.Admits a (name :: underWay) := by rwa [Admits, hsame₁]
    obtain ⟨ho₂, hsame₂, hmemo₂, hkeeps₂⟩ := ihrun rfl ho₁ hadmits₁ hown₁
    refine ⟨ho₂, hsame₂.trans hsame₁, ?_, fun c last hlast hkept => ?_⟩
    · rw [hmemo₂, hkeeps₁ a name (.inr hown)]
    · have hfirst := hkeeps₁ c last hkept
      rw [← hfirst]
      refine hkeeps₂ c last hlast ?_
      rwa [hfirst, hsame₁]
  | askAborted _ _ _ => cases hresult

/-- Computations that have begun are not forgotten. -/
theorem Runs.begun_subset {r : Reading} {a : Asset} {task : Task a} {p p' : Progress} {x : Option a.Value}
    (h : r.Runs a task p (.ok x p')) : p.begun ⊆ p'.begun := by
  generalize hresult : EStateM.Result.ok x p' = result at h
  induction h generalizing p' with
  | missing _ => cases hresult; exact List.Subset.refl _
  | cached _ _ => cases hresult; exact List.Subset.refl _
  | cyclic _ _ _ => cases hresult; exact List.Subset.refl _
  | @computed _ _ _ p p₁ _ _ _ _ _ _ ih =>
    cases hresult
    have hinner : p.begun ⊆ p₁.begun := List.Subset.trans (List.subset_cons_self _ _) (ih rfl)
    exact hinner
  | aborted _ _ _ _ _ => cases hresult
  | done => cases hresult; exact List.Subset.refl _
  | fail => cases hresult
  | note _ ih => subst hresult; exact ih rfl
  | use _ ih => subst hresult; exact ih rfl
  | ask _ _ _ ihasked ihrun => subst hresult; exact List.Subset.trans (ihasked rfl) (ihrun rfl)
  | askAborted _ _ _ => cases hresult

end Reading

/-- A request between operations leaves a state between operations. -/
theorem Progress.Rests.requested {r : Reading} {a : Asset} {name : String} {p p' : Progress} {x : Option a.Value}
    (h : p.Rests) (hrequest : r.resolve? a name p = .ok x p') :
    p'.Rests ∧ ∀ b other, (p.cell b other).memo.isLoaded = true → p'.cell b other = p.cell b other := by
  have hruns := Reading.runs_of_resolve? hrequest
  obtain ⟨ho, hsame, hkeeps⟩ := hruns.conduct h.toOrderly (.of_idle h.idle a [])
  exact ⟨⟨ho, hsame.trans h.idle⟩, fun b other hloaded => hkeeps b other (.inl hloaded)⟩

/-- Between operations, what is loaded stays as it is. -/
theorem Document.preserves_loaded (d : Document) (past : Progress) :
    d.Preserves fun p => p.Rests ∧
      ∀ a name, (past.cell a name).memo.isLoaded = true → p.cell a name = past.cell a name where
  notice p n h := ⟨h.1.noticed n, h.2⟩
  request r a name p p' x _ h hrequest := by
    obtain ⟨hrests, hkept⟩ := h
    obtain ⟨hrests', hkept'⟩ := hrests.requested hrequest
    refine ⟨hrests', fun b other hloaded => ?_⟩
    have hcell := hkept b other hloaded
    rw [← hcell]
    exact hkept' b other (by rwa [hcell])

/-! ### A circle of fonts -/

/-- A font entry that names the font it is based on and nothing else. -/
def FontEntry.copyOf (name : String) : FontEntry := ⟨some name, none, none, none, none⟩

namespace Reading

/-- A document of given entries, with the built-in catalog and no files in sight. -/
def ofSections (sections : Sections) : Reading where
  document := { version := none, sections, hasEmptyGroups := false }
  surroundings := { storage := none, catalog := .builtIn, files := .empty }

/-- Two fonts that are based on each other. -/
def circularFonts : Reading := ofSections { fonts := ⟨[("a", .copyOf "b"), ("b", .copyOf "a")], by decide⟩ }

theorem circularFonts_a : circularFonts.document.sections.fonts.find? "a" = some (.copyOf "b") := rfl

theorem circularFonts_b : circularFonts.document.sections.fonts.find? "b" = some (.copyOf "a") := rfl

theorem copyOf_a : (FontEntry.copyOf "a").basedOn.filter (!·.isEmpty) = some "a" := by decide

theorem copyOf_b : (FontEntry.copyOf "b").basedOn.filter (!·.isEmpty) = some "b" := by decide

theorem run_circularFonts {name : String} (h : name = "a" ∨ name = "b") :
    ∃ p, (Call.resolve .font name).run circularFonts {} = .ok () p ∧ (p.cell .font "a").memo.isLoaded = true := by
  rcases h with rfl | rfl <;>
    simp only [Call.run, resolve, resolve?, font, resolveFont_found circularFonts_a,
      resolveFont_found circularFonts_b, FontLayers.compute, FontLayers.baseDescriptor, DesignTokens.fetch,
      copyOf_a, copyOf_b, List.mem_cons, List.not_mem_nil, String.reduceEq, or_false, or_true, ↓reduceIte]
  · exact ⟨_, rfl, rfl⟩
  · exact ⟨_, rfl, rfl⟩

end Reading

namespace Operation

theorem performAll_append (u : Usage) (earlier later : List Operation) :
    performAll u (earlier ++ later) = performAll u earlier >>= fun v => performAll v later := by
  induction earlier generalizing u with
  | nil => rfl
  | cons operation rest ih =>
    simp only [List.cons_append, performAll, bind_assoc]
    exact bind_congr fun v => ih v

theorem performAll_rests {operations : List Operation} {u u' : Usage} (h : performAll u operations = .ok u')
    (hrests : u.progress.Rests) :
    u'.progress.Rests ∧ ∀ a name, (u.progress.cell a name).memo.isLoaded = true →
      u'.progress.cell a name = u.progress.cell a name :=
  (performAll_preserves (u.reading.document.preserves_loaded u.progress) rfl h ⟨hrests, fun _ _ _ => rfl⟩).2

/-- In a run of operations without faults no computation is entered twice, what is being computed at any
moment is pairwise distinct, and no cell changes once it is loaded. -/
theorem computed_once_then_frozen (reading : Reading) (operations : List Operation) (v : Usage)
    (h : performAll { reading } operations = .ok v) :
    (History.begun v.progress.history).Nodup ∧
      (∀ moment, moment <:+ v.progress.history → (History.underWay moment).Nodup) ∧
      ∀ earlier later, operations = earlier ++ later → ∃ u, performAll { reading } earlier = .ok u ∧
        ∀ a name, (u.progress.cell a name).memo.isLoaded = true →
          v.progress.cell a name = u.progress.cell a name := by
  have honce := (performAll_rests h .start).1.once
  refine ⟨honce, fun moment hm => History.underWay_nodup honce hm, ?_⟩
  rintro earlier later rfl
  rw [performAll_append] at h
  cases hearlier : performAll { reading } earlier with
  | error fault => simp [hearlier, bind, Except.bind] at h
  | ok u =>
    simp only [hearlier, bind, Except.bind] at h
    have hrests : u.progress.Rests := (performAll_rests hearlier .start).1
    exact ⟨u, rfl, (performAll_rests h hrests).2⟩

/-- Fonts can be based on each other, and are computed once all the same. -/
theorem computed_once_then_frozen_circular :
    ∃ v, performAll { reading := .circularFonts }
        [.setStorage (Path.ofText "brand"), .call (.resolve .font "a"), .setCatalog .builtIn] = .ok v ∧
      History.begun v.progress.history = [(.font, "b"), (.font, "a")] ∧
      (History.begun v.progress.history).Nodup ∧
      (∀ moment, moment <:+ v.progress.history → (History.underWay moment).Nodup) := by
  have h : ∃ v, performAll { reading := .circularFonts }
        [.setStorage (Path.ofText "brand"), .call (.resolve .font "a"), .setCatalog .builtIn] = .ok v ∧
      History.begun v.progress.history = [(.font, "b"), (.font, "a")] := by
    simp only [performAll, perform, bind, Except.bind, Call.run, Reading.resolve, Reading.resolve?, Reading.font,
      resolveFont_found Reading.circularFonts_a, resolveFont_found Reading.circularFonts_b,
      FontLayers.compute, FontLayers.baseDescriptor, DesignTokens.fetch, Reading.copyOf_a, Reading.copyOf_b,
      List.mem_cons, List.not_mem_nil, String.reduceEq, or_false, or_true, ↓reduceIte]
    exact ⟨_, rfl, rfl⟩
  obtain ⟨v, hrun, hbegun⟩ := h
  obtain ⟨honce, hmoments, -⟩ := computed_once_then_frozen _ _ v hrun
  exact ⟨v, hrun, hbegun, honce, hmoments⟩

end Operation

end DesignTokens
