import Mathlib.Logic.Relation
import DesignTokens.Proofs.Resolution.Moments
import DesignTokens.Proofs.Resolution.Uses

/-!
# What valid entries rest on

A cell gets valid when its inquiry has found a value, and an inquiry with a value has met with valid entries only.
The cells of those were loaded before, and nothing changes a loaded cell. So behind every valid cell stands a tree
of inquiries that can be gone through again with the cells as they are (`Progress.Stands`), although some of the
answers were given while other entries were half done, and in surroundings that may be different now.

While an inquiry is under way, the answers it has got so far cannot change: what it asked about is missing, loaded,
or under way itself (`Progress.Fixed`). That is what makes it one and the same inquiry in the end
(`Reading.Partway`).

* `Document.founded_of_reachable` — in every state of a document, valid cells stand.
* `Document.valid_rests_on_valid` — what a valid entry depends on is there and valid, and not in a circle.
-/

namespace DesignTokens

variable {d : Document} {within : Surroundings → Prop} {p p' : Progress}

namespace Progress

variable {a b : Asset} {name other : String} {entry : a.kind.Entry} {value : a.Value}

/-- What the cells of a document answer. -/
def answers (p : Progress) (d : Document) : Oracle := fun a name =>
  match d.entry? a.kind name with
  | none => .missing
  | some _ => .of (some a.invalid) (p.cell a name).memo

theorem answers_missing (h : d.entry? a.kind name = none) : p.answers d a name = .missing := by
  simp only [answers, h]

theorem answers_present (h : d.entry? a.kind name = some entry) (x : a.Value) :
    p.answers d a name = .of (some x) (p.cell a name).memo := by
  simp only [answers, h, Answer.of]

theorem memo_of_answers (h : p.answers d a name = .found value) : (p.cell a name).memo = .valid value := by
  unfold answers at h
  split at h
  · cases h
  · cases hmemo : (p.cell a name).memo <;> rw [hmemo] at h <;> cases h
    rfl

theorem answers_congr (h : (p'.cell a name).memo = (p.cell a name).memo) : p'.answers d a name = p.answers d a name := by
  simp only [answers, h]

/-- All valid cells are kept. -/
def KeepsValid (p p' : Progress) : Prop :=
  ∀ a name, (p.cell a name).memo.isValid = true → p'.cell a name = p.cell a name

/-- A change to a cell that is not loaded keeps all that are. -/
theorem cell_modify_loaded (hmemo : (p.cell a name).memo.isLoaded = false)
    (hloaded : (p.cell b other).memo.isLoaded = true) (f : Cell a.Value → Cell a.Value) :
    (p.modify a name f).cell b other = p.cell b other := by
  refine cell_modify_other _ _ ?_
  rintro ⟨rfl, rfl⟩
  rw [hloaded] at hmemo
  cases hmemo

theorem KeepsValid.modify (hmemo : (p.cell a name).memo.isLoaded = false) (f : Cell a.Value → Cell a.Value) :
    p.KeepsValid (p.modify a name f) :=
  fun _ _ hvalid => cell_modify_loaded hmemo (Memo.isLoaded_of_isValid hvalid) f

/-- An inquiry that meets with valid cells alone goes the same way as long as these are kept. -/
theorem KeepsValid.examine {α : Type} {t : Inquiry α} (h : p.KeepsValid p')
    (hvalid : ∀ question ∈ (t.examine (p.answers d)).asked, (p.cell question.1 question.2).memo.isValid = true) :
    t.examine (p'.answers d) = t.examine (p.answers d) := by
  refine Inquiry.examine_congr _ fun question hq => answers_congr ?_
  rw [h _ _ (hvalid question hq)]

/-! ### Cells that stand -/

/-- A valid cell of an entry stands if the inquiry of the entry, in surroundings that the document has been in,
finds the value with the answers of the cells as they are, all that it asks about stands as well, and its
dependencies are what the entry uses. -/
inductive Stands (p : Progress) (d : Document) (within : Surroundings → Prop) : Asset → String → Prop where
  | intro {a : Asset} {name : String} {entry : a.kind.Entry} {value : a.Value} {s : Surroundings} (hs : within s)
      (hentry : d.entry? a.kind name = some entry) (hmemo : (p.cell a name).memo = .valid value)
      (hresult : ((Reading.plan ⟨d, s⟩ a name entry).examine (p.answers d)).result = .ok (some value))
      (huses : ∀ dependency, dependency ∈ (p.cell a name).dependencies ↔ dependency ∈ d.uses a entry)
      (hasked : ∀ question ∈ ((Reading.plan ⟨d, s⟩ a name entry).examine (p.answers d)).asked,
        Stands p d within question.1 question.2) :
      Stands p d within a name

theorem Stands.isValid (h : p.Stands d within a name) : (p.cell a name).memo.isValid = true := by
  cases h with
  | intro hs hentry hmemo hresult huses hasked =>
    rw [hmemo]
    rfl

/-- What stands stays so as long as valid cells are kept. -/
theorem Stands.mono (h : p.Stands d within a name) (hkeeps : p.KeepsValid p') : p'.Stands d within a name := by
  induction h with
  | @intro a name entry value s hs hentry hmemo hresult huses hasked ih =>
    have hsame := hkeeps.examine fun question hq => (hasked question hq).isValid
    have hcell : p'.cell a name = p.cell a name := hkeeps a name (by rw [hmemo]; rfl)
    refine .intro hs hentry (hcell ▸ hmemo) (by rw [hsame, hresult]) (hcell ▸ huses) ?_
    rw [hsame]
    exact ih

/-- In a founded state cells list nothing but what their entries use, and valid cells stand. -/
structure Founded (p : Progress) (d : Document) (within : Surroundings → Prop) : Prop where
  recorded : ∀ a name, ∀ dependency ∈ (p.cell a name).dependencies,
    ∃ entry, d.entry? a.kind name = some entry ∧ dependency ∈ d.uses a entry
  stands : ∀ a name, (p.cell a name).memo.isValid = true → p.Stands d within a name

namespace Founded

theorem start : Founded {} d within where
  recorded a name dependency h := by
    rw [cell_start] at h
    cases h
  stands a name h := by
    rw [cell_start] at h
    cases h

theorem record (h : p.Founded d within) (e : Event) : (p.record e).Founded d within where
  recorded := h.recorded
  stands a name hvalid := (h.stands a name hvalid).mono fun _ _ _ => rfl

/-- The cell of an entry that is not loaded may get what the entry uses. -/
theorem dependOn (h : p.Founded d within) (hentry : d.entry? a.kind name = some entry)
    (hmemo : (p.cell a name).memo.isLoaded = false) {dependencies : List Dependency}
    (huses : dependencies ⊆ d.uses a entry) :
    (p.modify a name (·.dependOn dependencies)).Founded d within := by
  refine ⟨fun b other dependency hdependency => ?_, fun b other hvalid => ?_⟩
  · by_cases hown : b = a ∧ other = name
    · obtain ⟨rfl, rfl⟩ := hown
      rw [cell_modify_same] at hdependency
      rcases List.mem_append.mp hdependency with hbefore | hnew
      · exact h.recorded b other dependency hbefore
      · exact ⟨entry, hentry, huses hnew⟩
    · rw [cell_modify_other _ _ hown] at hdependency
      exact h.recorded b other dependency hdependency
  · rw [memo_dependOn] at hvalid
    exact (h.stands b other hvalid).mono (.modify hmemo _)

/-- The cell of an entry stands once it is settled with a value that its inquiry finds in the cells as they are. -/
theorem stands_settled (h : p.Founded d within) {s : Surroundings} (hs : within s)
    (hentry : d.entry? a.kind name = some entry) (hmemo : (p.cell a name).memo.isLoaded = false)
    (hresult : ((Reading.plan ⟨d, s⟩ a name entry).examine (p.answers d)).result = .ok (some value))
    (hused : ((Reading.plan ⟨d, s⟩ a name entry).examine (p.answers d)).used ⊆ (p.cell a name).dependencies) :
    (p.modify a name (·.settle (some a.invalid) (some value))).Stands d within a name := by
  have hkeeps : p.KeepsValid (p.modify a name (·.settle (some a.invalid) (some value))) := .modify hmemo _
  -- what was asked about is valid already, so its cell is not the one that is settled
  have hasked (question : Asset × String)
      (hq : question ∈ ((Reading.plan ⟨d, s⟩ a name entry).examine (p.answers d)).asked) :
      p.Stands d within question.1 question.2 := by
    obtain ⟨answer, hanswer⟩ := Reading.plan_earns _ a name entry hresult question hq
    exact h.stands _ _ (by rw [memo_of_answers hanswer]; rfl)
  have hsame := hkeeps.examine fun question hq => (hasked question hq).isValid
  obtain ⟨-, hall, -⟩ := Reading.account_of_result hresult
  refine .intro hs hentry ?_ (by rw [hsame, hresult]) (fun dependency => ?_) ?_
  · rw [cell_modify_same]
    rfl
  · rw [dependencies_settle]
    constructor
    · intro hdependency
      obtain ⟨entry', hentry', huses⟩ := h.recorded a name dependency hdependency
      obtain rfl : entry = entry' := Option.some.inj (hentry.symm.trans hentry')
      exact huses
    · intro huses
      rw [hall] at hused
      exact hused huses
  · rw [hsame]
    exact fun question hq => (hasked question hq).mono hkeeps

theorem settled (h : p.Founded d within) {s : Surroundings} (hs : within s)
    (hentry : d.entry? a.kind name = some entry) (hmemo : (p.cell a name).memo.isLoaded = false)
    {result : Option a.Value}
    (hresult : ((Reading.plan ⟨d, s⟩ a name entry).examine (p.answers d)).result = .ok result)
    (hused : ((Reading.plan ⟨d, s⟩ a name entry).examine (p.answers d)).used ⊆ (p.cell a name).dependencies) :
    (p.modify a name (·.settle (some a.invalid) result)).Founded d within := by
  refine ⟨fun b other dependency hdependency => ?_, fun b other hvalid => ?_⟩
  · rw [dependencies_settle] at hdependency
    exact h.recorded b other dependency hdependency
  · by_cases hown : b = a ∧ other = name
    · obtain ⟨rfl, rfl⟩ := hown
      rw [cell_modify_same] at hvalid
      cases result with
      | none => cases hvalid
      | some value => exact h.stands_settled hs hentry hmemo hresult hused
    · rw [cell_modify_other _ _ hown] at hvalid
      exact (h.stands b other hvalid).mono (.modify hmemo _)

end Founded

/-! ### Answers that cannot change -/

/-- An entry is missing, loaded, or beyond the requests of an inquiry. -/
def Fixed (p : Progress) (d : Document) (a : Asset) (underWay : List String) (question : Asset × String) : Prop :=
  d.entry? question.1.kind question.2 = none ∨ (p.cell question.1 question.2).memo.isLoaded = true ∨
    Reading.Beyond a underWay question.1 question.2

end Progress

namespace Reading

open Progress

variable {r : Reading} {a b : Asset} {underWay : List String} {name other : String} {entry : a.kind.Entry}

/-- A request gets the answer that the cell gives from then on. -/
theorem Runs.answer {x : Option a.Value} (h : r.Runs a (.request underWay name) p (.ok x p')) :
    p'.answers r.document a name = .of x (p'.cell a name).memo ∧
      (r.document.entry? a.kind name = none ∨ (p'.cell a name).memo.isLoaded = true ∨ name ∈ underWay) := by
  cases h with
  | missing hentry => exact ⟨answers_missing hentry, .inl hentry⟩
  | cached hentry hmemo => exact ⟨answers_present hentry _, .inr (.inl (by rw [Memo.isLoaded, hmemo]; rfl))⟩
  | cyclic hentry _ hunder => exact ⟨answers_present hentry _, .inr (.inr hunder)⟩
  | @computed _ _ _ _ p₁ _ result hentry _ _ _ =>
    refine ⟨answers_present hentry _, .inr (.inl ?_)⟩
    rw [cell_record, cell_modify_same]
    exact Cell.isLoaded_settle ..

/-- An answer is fixed for the inquiry that has asked for it. -/
theorem Runs.fixed {x : Option b.Value}
    (h : r.Runs b (.request (inside a underWay b) other) p (.ok x p')) :
    p'.Fixed r.document a underWay (b, other) := by
  rcases h.answer.2 with hmissing | hloaded | hunder
  · exact .inl hmissing
  · exact .inr (.inl hloaded)
  · by_cases hb : b = a
    · subst hb
      rw [inside_same] at hunder
      exact .inr (.inr (.of_mem hunder))
    · simp [inside, hb] at hunder

/-- Fixed answers stay as they are during requests of the inquiry. -/
theorem Keeps.fixed {question : Asset × String} (hmay : a.MayAsk b)
    (h : Keeps (.request (Reading.inside a underWay b) other : Task b) p p')
    (hfixed : p.Fixed r.document a underWay question) :
    p'.Fixed r.document a underWay question ∧
      p'.answers r.document question.1 question.2 = p.answers r.document question.1 question.2 := by
  rcases hfixed with hmissing | hkept
  · exact ⟨.inl hmissing, by rw [answers_missing hmissing, answers_missing hmissing]⟩
  · have hcell : p'.cell question.1 question.2 = p.cell question.1 question.2 :=
      h _ _ (hkept.symm.imp_left (·.inside hmay))
    exact ⟨.inr (by rwa [hcell]), answers_congr (by rw [hcell])⟩

/-- The rest of the inquiry of an entry. What was asked until now has fixed answers and is apart, and what was used
stands in the cell. -/
structure Partway (r : Reading) (underWay : List String) (name : String) (entry : a.kind.Entry)
    (rest : Inquiry (Option a.Value)) (p : Progress) (asked : List (Asset × String)) (used : List Dependency) :
    Prop where
  present : r.document.entry? a.kind name = some entry
  notLoaded : (p.cell a name).memo.isLoaded = false
  recorded : used ⊆ (p.cell a name).dependencies
  fixed : ∀ question ∈ asked, p.Fixed r.document a (name :: underWay) question
  findings : ∀ o : Oracle,
    (∀ question ∈ asked, o question.1 question.2 = p.answers r.document question.1 question.2) →
      (r.plan a name entry).examine o =
        ⟨(rest.examine o).result, asked ++ (rest.examine o).asked, used ++ (rest.examine o).used⟩

namespace Partway

variable {rest : Inquiry (Option a.Value)} {asked : List (Asset × String)}

theorem start (hentry : r.document.entry? a.kind name = some entry)
    (hmemo : (p.cell a name).memo.payload? = none) :
    r.Partway underWay name entry (r.plan a name entry) (p.record (.started a name)) [] [] where
  present := hentry
  notLoaded := by rw [Memo.isLoaded, cell_record, hmemo]; rfl
  recorded := List.nil_subset _
  fixed := by simp
  findings o _ := rfl

theorem noted {notice : Notice} {used : List Dependency}
    (h : r.Partway underWay name entry (.note notice rest) p asked used) :
    r.Partway underWay name entry rest (p.record (.noticed notice)) asked used :=
  ⟨h.present, h.notLoaded, h.recorded, h.fixed, h.findings⟩

theorem uses {dependencies used : List Dependency}
    (h : r.Partway underWay name entry (.use a name dependencies rest) p asked used) :
    dependencies ⊆ r.document.uses a entry := by
  have hall := r.used_subset_uses a name entry (p.answers r.document)
  rw [h.findings _ fun _ _ => rfl] at hall
  intro dependency hdependency
  exact hall (by simp [Inquiry.examine, hdependency])

theorem used {dependencies used : List Dependency}
    (h : r.Partway underWay name entry (.use a name dependencies rest) p asked used) :
    r.Partway underWay name entry rest (p.modify a name (·.dependOn dependencies)) asked
      (used ++ dependencies) := by
  refine ⟨h.present, by rw [memo_dependOn, h.notLoaded], ?_, fun question hq => ?_, fun o ho => ?_⟩
  · rw [cell_modify_same]
    exact List.append_subset.mpr ⟨List.subset_append_of_subset_left _ h.recorded, List.subset_append_right _ _⟩
  · have hfixed := h.fixed question hq
    unfold Fixed at hfixed ⊢
    rwa [memo_dependOn]
  · rw [h.findings o fun question hq => (ho question hq).trans (answers_congr (memo_dependOn ..))]
    simp [Inquiry.examine]

theorem answered {next : Answer b.Value → Inquiry (Option a.Value)} {x : Option b.Value}
    {used : List Dependency} (hmay : a.MayAsk b)
    (h : r.Partway underWay name entry (.ask b other next) p asked used)
    (hrun : r.Runs b (.request (inside a (name :: underWay) b) other) p (.ok x p')) :
    r.Partway underWay name entry (next (.of x (p'.cell b other).memo)) p' (asked ++ [(b, other)]) used := by
  have hkeeps := hrun.keeps
  have hown : p'.cell a name = p.cell a name := hkeeps.own hmay
  refine ⟨h.present, by rw [hown, h.notLoaded], by rw [hown]; exact h.recorded, fun question hq => ?_, fun o ho => ?_⟩
  · rcases List.mem_append.mp hq with hq | hq
    · exact (hkeeps.fixed hmay (h.fixed question hq)).1
    · obtain rfl := List.mem_singleton.mp hq
      exact hrun.fixed
  · have hanswer : o b other = .of x (p'.cell b other).memo :=
      (ho (b, other) (List.mem_append_right _ (List.mem_cons_self ..))).trans hrun.answer.1
    rw [h.findings o fun question hq =>
      (ho question (List.mem_append_left _ hq)).trans (hkeeps.fixed hmay (h.fixed question hq)).2]
    simp [Inquiry.examine, hanswer]

/-- An inquiry that has ended has found what it finds with the answers of the cells as they are. -/
theorem done {result : Option a.Value} {used : List Dependency}
    (h : r.Partway underWay name entry (.done result) p asked used) :
    (r.plan a name entry).examine (p.answers r.document) = ⟨.ok result, asked, used⟩ := by
  simpa [Inquiry.examine] using h.findings _ fun _ _ => rfl

end Partway

/-- An entry whose inquiry has ended is settled. -/
theorem Partway.settled {result : Option a.Value} {asked : List (Asset × String)} {used : List Dependency}
    (h : r.Partway underWay name entry (.done result) p asked used) (hs : within r.surroundings)
    (hf : p.Founded r.document within) :
    ((p.modify a name (·.settle (some a.invalid) result)).record (.settled a name result.isSome)).Founded
      r.document within := by
  refine Founded.record (hf.settled hs h.present h.notLoaded ?_ ?_) _
  · rw [h.done]
  · rw [h.done]
    exact h.recorded

theorem Partway.founded {rest : Inquiry (Option a.Value)} {asked : List (Asset × String)}
    {dependencies used : List Dependency}
    (h : r.Partway underWay name entry (.use a name dependencies rest) p asked used)
    (hf : p.Founded r.document within) :
    (p.modify a name (·.dependOn dependencies)).Founded r.document within :=
  hf.dependOn h.present h.notLoaded h.uses

/-! ### Tasks -/

/-- An inquiry that returns has been one and the same until its end. -/
theorem Runs.partway {rest : Inquiry (Option a.Value)} {x : Option a.Value} {asked : List (Asset × String)}
    {used : List Dependency} (h : r.Runs a (.inquiry underWay name rest) p (.ok x p'))
    (hpartway : r.Partway underWay name entry rest p asked used) :
    ∃ asked used, r.Partway underWay name entry (.done x) p' asked used := by
  induction rest generalizing p asked used with
  | done value =>
    cases h
    exact ⟨asked, used, hpartway⟩
  | fail fault => cases h
  | note notice rest ih =>
    cases h with
    | note hrun => exact ih hrun hpartway.noted
  | use b other dependencies rest ih =>
    cases h with
    | use hrun => exact ih hrun hpartway.used
  | ask b other next ih =>
    cases h with
    | ask hmay hasked hrun => exact ih _ hrun (hpartway.answered hmay hasked)

/-- The task leads from one founded state to another, if it is a request or an inquiry on its way. -/
def Founds (r : Reading) (within : Surroundings → Prop) {a : Asset} : Task a → Progress → Progress → Prop
  | .request _ _, p, q => p.Founded r.document within → q.Founded r.document within
  | .inquiry underWay name rest, p, q => p.Founded r.document within → ∀ entry asked used,
    r.Partway underWay name entry rest p asked used → q.Founded r.document within

theorem Runs.founds {task : Task a} {x : Option a.Value} (h : r.Runs a task p (.ok x p'))
    (hs : within r.surroundings) : r.Founds within task p p' := by
  generalize hresult : EStateM.Result.ok x p' = result at h
  induction h generalizing p' with
  | missing _ => cases hresult; exact id
  | cached _ _ => cases hresult; exact id
  | cyclic _ _ _ => cases hresult; exact fun hf => hf.record _
  | @computed a underWay name p p₁ entry result hentry hmemo _ hrun ih =>
    cases hresult
    intro hf
    have hstart : r.Partway underWay name entry _ _ [] [] := .start hentry hmemo
    obtain ⟨asked, used, hdone⟩ := hrun.partway hstart
    exact hdone.settled hs (ih rfl (hf.record _) entry [] [] hstart)
  | aborted _ _ _ _ _ => cases hresult
  | done => cases hresult; exact fun hf _ _ _ _ => hf
  | fail => cases hresult
  | note _ ih => exact fun hf entry asked used hpartway => ih hresult (hf.record _) entry asked used hpartway.noted
  | use _ ih =>
    exact fun hf entry asked used hpartway => ih hresult (hpartway.founded hf) entry asked _ hpartway.used
  | ask hmay hasked _ ihasked ihrun =>
    intro hf entry asked used hpartway
    exact ihrun hresult (ihasked rfl hf) entry _ used (hpartway.answered hmay hasked)
  | askAborted _ _ _ => cases hresult

/-- States are founded at every moment of a task. -/
theorem During.founds {task : Task a} {q : Progress} (h : r.During a task p q) (hs : within r.surroundings) :
    r.Founds within task p q := by
  induction h with
  | @here a task p =>
    cases task with
    | request underWay name => exact id
    | inquiry underWay name rest => exact fun hf _ _ _ _ => hf
  | ended hrun => exact hrun.founds hs
  | inside hentry hmemo _ _ ih => exact fun hf => ih (hf.record _) _ [] [] (.start hentry hmemo)
  | note _ ih => exact fun hf entry asked used hpartway => ih (hf.record _) entry asked used hpartway.noted
  | use _ ih => exact fun hf entry asked used hpartway => ih (hpartway.founded hf) entry asked _ hpartway.used
  | asked _ _ ih => exact fun hf _ _ _ _ => ih hf
  | answered hmay hasked _ ih =>
    intro hf entry asked used hpartway
    exact ih (hasked.founds hs hf) entry _ used (hpartway.answered hmay hasked)

end Reading

/-! ### All states -/

namespace Document

open Progress

theorem upholds_founded (d : Document) (within : Surroundings → Prop) :
    d.Upholds within fun p => p.Founded d within where
  start := .start
  notice _ _ hf := hf.record _
  during _ _ _ _ _ hs hf hduring := hduring.founds hs hf

/-- In every state of a document, cells list nothing but what their entries use, and valid cells stand. -/
theorem founded_of_reachable (h : d.Reachable within p) : p.Founded d within := h.invariant (upholds_founded d within)

end Document

namespace Progress

/-- A valid entry has recorded that it depends on another valid one. -/
def RestsOn (p : Progress) (question other : Asset × String) : Prop :=
  (p.cell question.1 question.2).memo.isValid = true ∧ (p.cell other.1 other.2).memo.isValid = true ∧
    .on other ∈ (p.cell question.1 question.2).dependencies

end Progress

namespace Progress.Stands

variable {a : Asset} {name : String}

/-- What a cell that stands depends on is there. It is a placement, or its own cell stands. -/
theorem of_dependency (h : p.Stands d within a name) {dependency : Dependency}
    (hdependency : dependency ∈ (p.cell a name).dependencies) :
    dependency.kind = .placement ∧ (d.entry? .placement dependency.name).isSome = true ∨
      ∃ question, dependency = .on question ∧ p.Stands d within question.1 question.2 := by
  cases h with
  | intro hs hentry hmemo hresult huses hasked =>
    obtain ⟨hasks, -, hplacements⟩ := Reading.account_of_result hresult
    rcases List.mem_append.mp ((huses dependency).mp hdependency) with hask | hplacement
    · rw [← hasks] at hask
      obtain ⟨question, hquestion, rfl⟩ := List.mem_map.mp hask
      exact .inr ⟨question, rfl, hasked question hquestion⟩
    · exact .inl ⟨Document.kind_of_mem_placementUses hplacement, hplacements dependency hplacement⟩

theorem present (h : p.Stands d within a name) : (d.entry? a.kind name).isSome = true := by
  cases h with
  | intro hs hentry hmemo hresult huses hasked =>
    rw [hentry]
    rfl

/-- The inquiries behind a cell that stands come to an end, so it does not rest on itself. -/
theorem not_restsOn_self (h : p.Stands d within a name) : ¬ Relation.TransGen p.RestsOn (a, name) (a, name) := by
  induction h with
  | @intro a name entry value s hs hentry hmemo hresult huses hasked ih =>
    intro hcircle
    obtain ⟨question, hfirst, hback⟩ := Relation.TransGen.head'_iff.mp hcircle
    have hquestion := (Reading.mem_asked_iff hresult).mpr ((huses _).mp hfirst.2.2)
    exact ih question hquestion (.tail' hback hfirst)

end Progress.Stands

/-! ### Texts based on one another -/

/-- Text attributes that are based on others and declare nothing. -/
def TextAttributesEntry.copyOf (name : String) : TextAttributesEntry := ⟨some name, none⟩

namespace Reading

/-- A heading based on plain text, and something based on something else. -/
def layeredTexts (last : TextAttributesEntry) : Reading :=
  ofSections {
    textAttributes := ⟨[("plain", ⟨none, none⟩), ("heading", .copyOf "plain"), ("last", last)],
      (by decide : ["plain", "heading", "last"].Nodup)⟩ }

/-- Text attributes based on the heading, with a tracking whose exponent is a digit that is not ASCII. -/
def strayText : TextAttributesEntry where
  basedOn := some "heading"
  attributes := some (.object [("tracking", .string "0x1p٣")])

section LayeredTexts

variable (last : TextAttributesEntry)

theorem layeredTexts_plain : (layeredTexts last).document.sections.textAttributes.find? "plain" = some ⟨none, none⟩ := rfl

theorem layeredTexts_heading :
    (layeredTexts last).document.sections.textAttributes.find? "heading" = some (.copyOf "plain") := rfl

theorem layeredTexts_last : (layeredTexts last).document.sections.textAttributes.find? "last" = some last := rfl

end LayeredTexts

theorem copyOf_plain : (TextAttributesEntry.copyOf "plain").basedOn.filter (!·.isEmpty) = some "plain" := by decide

theorem strayText_basedOn : strayText.basedOn.filter (!·.isEmpty) = some "heading" := by decide

/-- A call that ends in a fault leaves what it has loaded until then. -/
theorem run_layeredTexts :
    ∃ p fault, (Call.resolve .textAttributes "last").run (layeredTexts strayText) {} = .error fault p ∧
      p.cell .textAttributes "plain" = ⟨.valid ⟨∅, none⟩, []⟩ ∧
      p.cell .textAttributes "heading" = ⟨.valid ⟨∅, none⟩, [⟨.textAttributes, "plain"⟩]⟩ := by
  simp only [Call.run, resolve, resolve?, textAttributes, resolveTextAttributes_found (layeredTexts_plain _),
    resolveTextAttributes_found (layeredTexts_heading _), resolveTextAttributes_found (layeredTexts_last _),
    TextLayers.compute, TextLayers.baseDraft, DesignTokens.fetch, copyOf_plain, strayText_basedOn, List.mem_cons,
    List.not_mem_nil, String.reduceEq, or_self, ↓reduceIte]
  exact ⟨_, _, rfl, rfl, rfl⟩

end Reading

/-- In every state of a document, everything that a valid entry has recorded is an entry of the document, and unless
it is a placement it is loaded and valid as well; and valid entries do not depend on one another in a circle. -/
theorem Document.valid_rests_on_valid (h : d.Reachable within p) :
    (∀ a name, (p.cell a name).memo.isValid = true →
      (d.entry? a.kind name).isSome = true ∧ ∀ dependency ∈ (p.cell a name).dependencies,
        (d.entry? dependency.kind dependency.name).isSome = true ∧
          (dependency.kind ≠ .placement → ∃ b : Asset, b.kind = dependency.kind ∧
            (p.cell b dependency.name).memo.isLoaded = true ∧ (p.cell b dependency.name).memo.isValid = true)) ∧
      ∀ question, ¬ Relation.TransGen p.RestsOn question question := by
  have hfounded := founded_of_reachable h
  refine ⟨fun a name hvalid => ?_, fun question hcircle => ?_⟩
  · have hstands := hfounded.stands a name hvalid
    refine ⟨hstands.present, fun dependency hdependency => ?_⟩
    rcases hstands.of_dependency hdependency with ⟨hkind, hpresent⟩ | ⟨question, rfl, hquestion⟩
    · exact ⟨by rwa [hkind], fun hne => absurd hkind hne⟩
    · exact ⟨hquestion.present, fun _ =>
        ⟨question.1, rfl, Memo.isLoaded_of_isValid hquestion.isValid, hquestion.isValid⟩⟩
  · obtain ⟨other, hfirst, -⟩ := Relation.TransGen.head'_iff.mp hcircle
    exact (hfounded.stands _ _ hfirst.1).not_restsOn_self hcircle

namespace Document

/-- The heading rests on plain text, after a call that has ended in a fault. -/
theorem valid_rests_on_valid_texts :
    ∃ p, (Reading.layeredTexts Reading.strayText).document.Reachable (fun _ => True) p ∧
      p.RestsOn (.textAttributes, "heading") (.textAttributes, "plain") ∧
      (∃ b : Asset, b.kind = .textAttributes ∧ (p.cell b "plain").memo.isLoaded = true ∧
        (p.cell b "plain").memo.isValid = true) ∧
      ∀ question, ¬ Relation.TransGen p.RestsOn question question := by
  obtain ⟨p, fault, hcall, hplain, hheading⟩ := Reading.run_layeredTexts
  have hreachable : (Reading.layeredTexts Reading.strayText).document.Reachable (fun _ => True) p :=
    .atRest (.broken trivial .start hcall)
  have hvalid : (p.cell .textAttributes "heading").memo.isValid = true := by
    rw [hheading]
    rfl
  have hrecorded : ⟨.textAttributes, "plain"⟩ ∈ (p.cell .textAttributes "heading").dependencies := by
    rw [hheading]
    exact List.mem_singleton_self _
  obtain ⟨hrests, hcircle⟩ := valid_rests_on_valid hreachable
  have hfound := ((hrests .textAttributes "heading" hvalid).2 _ hrecorded).2 (by decide)
  exact ⟨p, hreachable, ⟨hvalid, by rw [hplain]; rfl, hrecorded⟩, hfound, hcircle⟩

end Document

end DesignTokens
