import DesignTokens.Proofs.Resolution.Probe

/-!
# Keeping account of questions

While an entry is computed the dependencies in its cell and the questions that are asked go different ways: some
parts of a computation record a dependency before they ask, others after, and some never get to one of the two. In
the end the two agree, because on a good outcome nothing was left out.

`Accounts` says so of a computation, with two lists that are known beforehand. Whatever the answers are, nothing
is recorded beside `uses`; and a good outcome has asked exactly `asks` and recorded exactly `uses`. The first part
also covers computations that end in a fault, and keep what they recorded until then.

* `Accounts.bind` — one computation after the other adds to both lists.
* `Accounts.of_plan` — what the account of its computation says of the inquiry of an entry.
-/

namespace DesignTokens

open Resolve

variable {α β : Type}

/-- A question as a dependency of the entry that asks it. -/
def Dependency.on (question : Asset × String) : Dependency := ⟨question.1.kind, question.2⟩

theorem Dependency.on_injective {question other : Asset × String}
    (h : Dependency.on question = Dependency.on other) : question = other := by
  obtain ⟨a, name⟩ := question
  obtain ⟨b, last⟩ := other
  simp only [on, mk.injEq] at h
  obtain ⟨hkind, rfl⟩ := h
  rw [Asset.kind_injective hkind]

/-- What a computation from a table finds, read off what it does: it begins what it asks about, and adds what it
records to the cell of its entry. -/
def Traces (a : Asset) (owner : String) (f : Resolve α) (p : Progress) (findings : Findings α) : Prop :=
  ∃ p', f p = findings.inState p' ∧ p'.begun = findings.asked.reverse ++ p.begun ∧
    (p'.cell a owner).dependencies = (p.cell a owner).dependencies ++ findings.used

/-- A computation that records nothing but `uses` and always comes to what `post` says. On a good outcome things
stood well before, and it has asked all of `asks` and recorded all of `uses`. -/
structure Accounts (a : Asset) (owner : String) (asks uses : List Dependency) (before : Prop) (post good : α → Prop)
    (f : Resolvers → Resolve α) : Prop where
  findings : ∀ o p, ∃ findings, Traces a owner (f (.probe o)) p findings ∧ findings.used ⊆ uses ∧
    ∀ value, findings.result = .ok value → post value ∧
      (good value → before ∧ findings.asked.map .on = asks ∧ findings.used = uses)

namespace Traces

variable {a : Asset} {owner : String} {p : Progress}

theorem unique {f : Resolve α} {findings findings' : Findings α} (h : Traces a owner f p findings)
    (h' : Traces a owner f p findings') : findings = findings' := by
  obtain ⟨result, asked, used⟩ := findings
  obtain ⟨result', asked', used'⟩ := findings'
  obtain ⟨p', hrun, hbegun, hcell⟩ := h
  obtain ⟨p'', hrun', hbegun', hcell'⟩ := h'
  have hsame : result = result' ∧ p' = p'' := by
    rw [hrun] at hrun'
    cases result <;> cases result' <;> simp_all [Findings.inState]
  obtain ⟨rfl, rfl⟩ := hsame
  obtain rfl : asked = asked' := by simpa using hbegun.symm.trans hbegun'
  obtain rfl : used = used' := by simpa using hcell.symm.trans hcell'
  rfl

theorem bind {f : Resolve α} {g : α → Resolve β} {x : α} {p' : Progress} {findings : Findings β}
    {asked : List (Asset × String)} {used : List Dependency} (hrun : f p = .ok x p')
    (hbegun : p'.begun = asked.reverse ++ p.begun)
    (hcell : (p'.cell a owner).dependencies = (p.cell a owner).dependencies ++ used)
    (h : Traces a owner (g x) p' findings) :
    Traces a owner (f >>= g) p ⟨findings.result, asked ++ findings.asked, used ++ findings.used⟩ := by
  obtain ⟨p'', hrest, hbegun', hcell'⟩ := h
  refine ⟨p'', (bind_of_ok hrun).trans hrest, ?_, ?_⟩
  · rw [hbegun', hbegun, List.reverse_append, List.append_assoc]
  · rw [hcell', hcell, List.append_assoc]

end Traces

/-- Questions that are put to a table change no dependencies. -/
theorem Resolvers.dependencies_probe {o : Oracle} {b : Asset} {name : String} {p p' : Progress} {x : Answer b.Value}
    (h : (probe o).answer b name p = .ok x p') (a : Asset) (other : String) :
    (p'.cell a other).dependencies = (p.cell a other).dependencies := by
  obtain ⟨memo, hstate⟩ : ∃ memo, p' = (p.record (.started b name)).modify b name fun c => { c with memo } := by
    cases h
    exact ⟨_, rfl⟩
  rw [hstate]
  by_cases hown : a = b ∧ other = name
  · obtain ⟨rfl, rfl⟩ := hown
    rw [Progress.cell_modify_same]
    rfl
  · rw [Progress.cell_modify_other _ _ hown, Progress.cell_record]

/-- The run of an inquiry that writes to the cell of one entry leaves a trace of its findings there. -/
theorem Inquiry.traces {a : Asset} {owner : String} {asks : Asset → Prop} {t : Inquiry α}
    (h : t.Within asks fun b m => b = a ∧ m = owner) (o : Oracle) (p : Progress) :
    Traces a owner (t.run (.probe o)) p (t.examine o) := by
  induction t generalizing p with
  | done value => exact ⟨p, rfl, rfl, (List.append_nil _).symm⟩
  | fail fault => exact ⟨p, rfl, rfl, (List.append_nil _).symm⟩
  | note notice rest ih => exact ih h _
  | use b other dependencies rest ih =>
    obtain ⟨⟨rfl, rfl⟩, hrest⟩ := h
    obtain ⟨p', hrun, hbegun, hcell⟩ := ih hrest (p.modify b other (·.dependOn dependencies))
    refine ⟨p', hrun, hbegun, ?_⟩
    rw [hcell, Progress.cell_modify_same, Cell.dependOn, examine, List.append_assoc]
  | ask b other next ih =>
    obtain ⟨p₁, hanswer, hasked⟩ := Resolvers.answer_probe o b other p
    have hbegun : p₁.begun = [(b, other)].reverse ++ p.begun := hasked
    have hcell := Resolvers.dependencies_probe hanswer a owner
    exact .bind hanswer hbegun (hcell.trans (List.append_nil _).symm) (ih _ (h.2 _) p₁)

namespace Accounts

variable {a : Asset} {owner : String} {asks uses : List Dependency} {before : Prop} {post good : α → Prop}

theorem pure {value : α} (hpost : post value) (h : good value → before ∧ [] = asks ∧ [] = uses) :
    Accounts a owner asks uses before post good fun _ => pure value := by
  refine ⟨fun o p => ?_⟩
  refine ⟨⟨.ok value, [], []⟩, ⟨p, rfl, rfl, (List.append_nil _).symm⟩, List.nil_subset _, fun x hx => ?_⟩
  cases hx
  exact ⟨hpost, h⟩

theorem throw {fault : Fault} : Accounts a owner asks uses before post good fun _ => throw fault := by
  refine ⟨fun o p => ?_⟩
  refine ⟨⟨.error fault, [], []⟩, ⟨p, rfl, rfl, (List.append_nil _).symm⟩, List.nil_subset _, fun x hx => ?_⟩
  cases hx

theorem warn {notice : Notice} {f : Resolvers → Resolve α} (h : Accounts a owner asks uses before post good f) :
    Accounts a owner asks uses before post good (fun q => do Resolve.warn notice; f q) :=
  ⟨fun o p => h.findings o (p.record (.noticed notice))⟩

theorem reject {notice : Notice} {post good : Option α → Prop} (hpost : post none) (h : ¬ good none) :
    Accounts a owner asks uses before post good fun _ => reject notice :=
  warn (pure hpost fun hg => absurd hg h)

theorem dependOn {dependencies : List Dependency} {f : Resolvers → Resolve α}
    (h : Accounts a owner asks uses before post good f) :
    Accounts a owner asks (dependencies ++ uses) before post good
      (fun q => do Resolve.dependOn a owner dependencies; f q) := by
  refine ⟨fun o p => ?_⟩
  obtain ⟨findings, htraces, hused, houtcome⟩ := h.findings o (p.modify a owner (·.dependOn dependencies))
  have hcell : ((p.modify a owner (·.dependOn dependencies)).cell a owner).dependencies =
      (p.cell a owner).dependencies ++ dependencies := by
    rw [Progress.cell_modify_same, Cell.dependOn]
  refine ⟨⟨findings.result, [] ++ findings.asked, dependencies ++ findings.used⟩,
    .bind rfl rfl hcell htraces, ?_, ?_⟩
  · exact List.append_subset.mpr ⟨List.subset_append_left _ _,
      List.Subset.trans hused (List.subset_append_right _ _)⟩
  · intro value hvalue
    obtain ⟨hpost, hgood⟩ := houtcome value hvalue
    refine ⟨hpost, fun hg => ?_⟩
    obtain ⟨hbefore, hasked, hall⟩ := hgood hg
    exact ⟨hbefore, hasked, congrArg _ hall⟩

/-- Nothing is recorded after the last dependencies. -/
theorem dependLast {f : Resolvers → Resolve α} (h : Accounts a owner asks [] before post good f) :
    Accounts a owner asks uses before post good (fun q => do Resolve.dependOn a owner uses; f q) := by
  have hlast : Accounts a owner asks (uses ++ []) before post good
      (fun q => do Resolve.dependOn a owner uses; f q) := dependOn h
  rwa [List.append_nil] at hlast

theorem answer {b : Asset} {name : String} {g : Answer b.Value → Resolvers → Resolve α}
    (h : ∀ x, Accounts a owner asks uses (before ∧ x.IsFound) post good (g x)) :
    Accounts a owner (.on (b, name) :: asks) uses before post good (fun q => do g (← q.answer b name) q) := by
  refine ⟨fun o p => ?_⟩
  obtain ⟨p₁, hanswer, hbegun⟩ := Resolvers.answer_probe o b name p
  have hcell := Resolvers.dependencies_probe hanswer a owner
  obtain ⟨findings, htraces, hused, houtcome⟩ := (h (o b name)).findings o p₁
  refine ⟨⟨findings.result, [(b, name)] ++ findings.asked, [] ++ findings.used⟩,
    .bind hanswer hbegun (hcell.trans (List.append_nil _).symm) htraces, hused, ?_⟩
  intro value hvalue
  obtain ⟨hpost, hgood⟩ := houtcome value hvalue
  refine ⟨hpost, fun hg => ?_⟩
  obtain ⟨⟨hbefore, -⟩, hasked, hall⟩ := hgood hg
  exact ⟨hbefore, congrArg _ hasked, hall⟩

/-- What comes second may rely on what is always true of the first value, and owes that it was good. -/
theorem bind {asks' uses' : List Dependency} {f : Resolvers → Resolve α} {post' good' : α → Prop}
    {g : α → Resolvers → Resolve β} {post good : β → Prop}
    (hf : Accounts a owner asks uses before post' good' f)
    (hg : ∀ x, post' x → Accounts a owner asks' uses' (good' x) post good (g x)) :
    Accounts a owner (asks ++ asks') (uses ++ uses') before post good (fun q => do g (← f q) q) := by
  refine ⟨fun o p => ?_⟩
  obtain ⟨⟨result, asked, used⟩, ⟨p₁, hrun, hbegun, hcell⟩, hused, houtcome⟩ := hf.findings o p
  cases result with
  | error fault =>
    refine ⟨⟨.error fault, asked, used⟩, ⟨p₁, ?_, hbegun, hcell⟩, ?_, fun _ h => nomatch h⟩
    · exact bind_eq_error_iff.mpr (.inl hrun)
    · exact List.Subset.trans hused (List.subset_append_left _ _)
  | ok x =>
    obtain ⟨hpost', hgood'⟩ := houtcome x rfl
    obtain ⟨findings, htraces, hused', houtcome'⟩ := (hg x hpost').findings o p₁
    refine ⟨_, .bind hrun hbegun hcell htraces, List.append_subset.mpr ⟨?_, ?_⟩, ?_⟩
    · exact List.Subset.trans hused (List.subset_append_left _ _)
    · exact List.Subset.trans hused' (List.subset_append_right _ _)
    · intro value hvalue
      obtain ⟨hpost, hgood⟩ := houtcome' value hvalue
      refine ⟨hpost, fun hg => ?_⟩
      obtain ⟨hx, hasked', hall'⟩ := hgood hg
      obtain ⟨hbefore, hasked, hall⟩ := hgood' hx
      refine ⟨hbefore, ?_, ?_⟩
      · rw [List.map_append, hasked, hasked']
      · rw [← hall, ← hall']

/-- What comes second neither asks nor records anything. -/
theorem bindLast {f : Resolvers → Resolve α} {post' good' : α → Prop} {g : α → Resolvers → Resolve β}
    {post good : β → Prop} (hf : Accounts a owner asks uses before post' good' f)
    (hg : ∀ x, post' x → Accounts a owner [] [] (good' x) post good (g x)) :
    Accounts a owner asks uses before post good (fun q => do g (← f q) q) := by
  simpa only [List.append_nil] using bind hf hg

/-- What comes first asks, and what comes second records. -/
theorem bindRead {asks' : List Dependency} {f : Resolvers → Resolve α} {post' good' : α → Prop}
    {g : α → Resolvers → Resolve β} {post good : β → Prop}
    (hf : Accounts a owner asks [] before post' good' f)
    (hg : ∀ x, post' x → Accounts a owner asks' uses (good' x) post good (g x)) :
    Accounts a owner (asks ++ asks') uses before post good (fun q => do g (← f q) q) := by
  simpa only [List.nil_append] using bind hf hg

/-- What comes first asks, and what comes second records and asks no more. -/
theorem bindRecord {f : Resolvers → Resolve α} {post' good' : α → Prop} {g : α → Resolvers → Resolve β}
    {post good : β → Prop} (hf : Accounts a owner asks [] before post' good' f)
    (hg : ∀ x, post' x → Accounts a owner [] uses (good' x) post good (g x)) :
    Accounts a owner asks uses before post good (fun q => do g (← f q) q) := by
  simpa only [List.append_nil] using bindRead hf hg

theorem weaken {before' : Prop} {f : Resolvers → Resolve α} (h : Accounts a owner asks uses before' post good f)
    (hb : before' → before) : Accounts a owner asks uses before post good f := by
  refine ⟨fun o p => ?_⟩
  obtain ⟨findings, htraces, hused, houtcome⟩ := h.findings o p
  refine ⟨findings, htraces, hused, fun value hvalue => ?_⟩
  obtain ⟨hpost, hgood⟩ := houtcome value hvalue
  exact ⟨hpost, fun hg => ⟨hb (hgood hg).1, (hgood hg).2⟩⟩

/-- What does not depend on the outcome can be asked of it too. -/
theorem keep (fact : Prop) {f : Resolvers → Resolve α} (h : Accounts a owner asks uses before post good f) :
    Accounts a owner asks uses fact post (fun x => fact ∧ good x) f := by
  refine ⟨fun o p => ?_⟩
  obtain ⟨findings, htraces, hused, houtcome⟩ := h.findings o p
  refine ⟨findings, htraces, hused, fun value hvalue => ?_⟩
  obtain ⟨hpost, hgood⟩ := houtcome value hvalue
  exact ⟨hpost, fun hg => ⟨hg.1, (hgood hg.2).2⟩⟩

theorem imp {post' : α → Prop} {f : Resolvers → Resolve α} (h : Accounts a owner asks uses before post good f)
    (hpost : ∀ x, post x → post' x) : Accounts a owner asks uses before post' good f := by
  refine ⟨fun o p => ?_⟩
  obtain ⟨findings, htraces, hused, houtcome⟩ := h.findings o p
  exact ⟨findings, htraces, hused, fun value hvalue => (houtcome value hvalue).imp_left (hpost value)⟩

theorem lift {e : Except Fault β} {g : β → Resolvers → Resolve α}
    (h : ∀ x, Accounts a owner asks uses before post good (g x)) :
    Accounts a owner asks uses before post good (fun q => do g (← Resolve.lift e) q) := by
  cases e with
  | error fault => exact throw
  | ok x => simpa only [Resolve.lift, pure_bind] using h x

theorem metric {name : String} {g : MetricLookup → Resolvers → Resolve α}
    (h : ∀ x : Answer Float, Accounts a owner asks uses (before ∧ x.IsFound) post good (g x.toMetric)) :
    Accounts a owner (⟨.metric, name⟩ :: asks) uses before post good (fun q => do g (← q.metric name) q) := by
  simpa only [Resolvers.metric, bind_assoc, pure_bind, Dependency.on, Asset.kind] using answer (b := .metric) h

theorem color {name : String} {g : ColorText.Lookup → Resolvers → Resolve α}
    (h : ∀ x : Answer Color, Accounts a owner asks uses (before ∧ x.IsFound) post good (g x.toColor)) :
    Accounts a owner (⟨.color, name⟩ :: asks) uses before post good (fun q => do g (← q.color name) q) := by
  simpa only [Resolvers.color, bind_assoc, pure_bind, Dependency.on, Asset.kind] using answer (b := .color) h

theorem fetch {b : Asset} {name key : String} {user : Kind} :
    Accounts a owner [⟨b.kind, name⟩] [] True (fun _ => True) (·.isSome = true)
      fun q => DesignTokens.fetch b (q b) name key user := by
  simp only [Resolvers.fetch_eq]
  refine answer fun x => ?_
  cases x with
  | missing => exact reject trivial (by simp)
  | invalid => exact reject trivial (by simp)
  | found value => exact pure trivial (by simp)

/-- The account of a computation is that of its inquiry. -/
theorem of_plan {r : Reading} {name : String} {entry : a.kind.Entry} {post good : Option a.Value → Prop}
    (h : Accounts a name asks uses before post good fun q => r.compute q a name entry) (o : Oracle) :
    ((r.plan a name entry).examine o).used ⊆ uses ∧
      ∀ value, ((r.plan a name entry).examine o).result = .ok value → post value ∧
        (good value → before ∧ ((r.plan a name entry).examine o).asked.map .on = asks ∧
          ((r.plan a name entry).examine o).used = uses) := by
  obtain ⟨findings, htraces, haccount⟩ := h.findings o {}
  have hplan := Inquiry.traces (r.plan_within a name entry) o {}
  rw [r.run_plan] at hplan
  rwa [htraces.unique hplan] at haccount

end Accounts

end DesignTokens
