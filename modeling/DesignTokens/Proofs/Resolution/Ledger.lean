import DesignTokens.Proofs.Resolution.Asking
import DesignTokens.Proofs.Resolution.Uses

/-!
# Ledgers

What an entry takes from others are items: a reference, an element, the metrics of expressions that are read
together, a placement. A computation comes to some of its items and books each in its own way. A reference is recorded
before it is asked about, so it is recorded whatever the answer is; an element is recorded only if it is found, and
metrics only if all expressions they belong to can be read.

`Books` says of a computation that whatever it is told, what it asks and what it records are the sums over the items
it comes to. Unlike an account (`Accounts`) this holds of bad outcomes as well.

* `Books.bind` — one computation after the other has the items of both.
* `Books.reference`, `Books.element`, `Books.read`, `Books.placement` — one rule for each sort of item.
* `Ledger.recorded_or_dropped` — what is asked about is recorded, unless its item is of a sort that may drop it.
-/

namespace DesignTokens

open Resolve

variable {α β : Type}

/-- Something that an entry takes from others. -/
inductive Item where
  /-- An entry that is recorded before it is asked about. -/
  | reference (a : Asset) (name : String)
  /-- An entry that is recorded after it has been found. -/
  | element (a : Asset) (name : String)
  /-- The metrics of expressions, which are recorded after all of them have been read. -/
  | metrics (names : List String)
  /-- A placement, which is looked up and not asked about. -/
  | placement (name : String)

namespace Item

/-- What is asked about an item and recorded of it, with the answers in a table. -/
inductive Booked (o : Oracle) : Item → List (Asset × String) → List Dependency → Prop where
  | reference {a : Asset} {name : String} : Booked o (.reference a name) [(a, name)] [⟨a.kind, name⟩]
  | found {a : Asset} {name : String} (h : (o a name).IsFound) :
      Booked o (.element a name) [(a, name)] [⟨a.kind, name⟩]
  | refused {a : Asset} {name : String} (h : ¬ (o a name).IsFound) : Booked o (.element a name) [(a, name)] []
  | read {names : List String} : Booked o (.metrics names) (names.map (.metric, ·)) (names.map (⟨.metric, ·⟩))
  | unread {names : List String} {asked : List (Asset × String)}
      (h : ∀ question ∈ asked, question.1 = .metric ∧ question.2 ∈ names) : Booked o (.metrics names) asked []
  | placement {name : String} : Booked o (.placement name) [] [⟨.placement, name⟩]

/-- An item may leave out that it has asked a question. -/
inductive Drops (o : Oracle) : Item → Asset × String → Prop where
  | element {a : Asset} {name : String} (h : ¬ (o a name).IsFound) : Drops o (.element a name) (a, name)
  | metrics {names : List String} {name : String} (h : name ∈ names) : Drops o (.metrics names) (.metric, name)

theorem Booked.recorded_or_dropped {o : Oracle} {item : Item} {asked : List (Asset × String)}
    {used : List Dependency} (h : item.Booked o asked used) {question : Asset × String} (hq : question ∈ asked) :
    .on question ∈ used ∨ item.Drops o question := by
  cases h with
  | reference =>
    obtain rfl := List.mem_singleton.mp hq
    exact .inl (List.mem_singleton_self _)
  | found _ =>
    obtain rfl := List.mem_singleton.mp hq
    exact .inl (List.mem_singleton_self _)
  | refused hrefused =>
    obtain rfl := List.mem_singleton.mp hq
    exact .inr (.element hrefused)
  | read =>
    obtain ⟨name, hname, rfl⟩ := List.mem_map.mp hq
    exact .inl (List.mem_map_of_mem hname)
  | unread hasked =>
    obtain ⟨b, name⟩ := question
    obtain ⟨rfl, hname⟩ := hasked _ hq
    exact .inr (.metrics hname)
  | placement => cases hq

end Item

/-- The sums over the items that a computation comes to. -/
inductive Ledger (o : Oracle) : List Item → List (Asset × String) → List Dependency → Prop where
  | nil : Ledger o [] [] []
  | skip {item : Item} {items : List Item} {asked : List (Asset × String)} {used : List Dependency}
      (h : Ledger o items asked used) : Ledger o (item :: items) asked used
  | book {item : Item} {items : List Item} {first asked : List (Asset × String)} {recorded used : List Dependency}
      (hitem : item.Booked o first recorded) (h : Ledger o items asked used) :
      Ledger o (item :: items) (first ++ asked) (recorded ++ used)

namespace Ledger

variable {o : Oracle} {items items' : List Item} {asked asked' : List (Asset × String)} {used used' : List Dependency}

theorem empty (items : List Item) : Ledger o items [] [] := by
  induction items with
  | nil => exact .nil
  | cons item rest ih => exact .skip ih

theorem append (h : Ledger o items asked used) (h' : Ledger o items' asked' used') :
    Ledger o (items ++ items') (asked ++ asked') (used ++ used') := by
  induction h with
  | nil => exact h'
  | skip _ ih => exact .skip ih
  | book hitem _ ih =>
    rw [List.append_assoc, List.append_assoc]
    exact .book hitem ih

/-- Every question that is asked is recorded, or it belongs to an item that drops it. -/
theorem recorded_or_dropped (h : Ledger o items asked used) {question : Asset × String} (hq : question ∈ asked) :
    .on question ∈ used ∨ ∃ item ∈ items, item.Drops o question := by
  induction h with
  | nil => cases hq
  | skip _ ih =>
    rcases ih hq with hrecorded | ⟨item, hitem, hdrops⟩
    · exact .inl hrecorded
    · exact .inr ⟨item, List.mem_cons_of_mem _ hitem, hdrops⟩
  | book hitem _ ih =>
    rcases List.mem_append.mp hq with hq | hq
    · rcases hitem.recorded_or_dropped hq with hrecorded | hdrops
      · exact .inl (List.mem_append_left _ hrecorded)
      · exact .inr ⟨_, List.mem_cons_self .., hdrops⟩
    · rcases ih hq with hrecorded | ⟨item, hitem, hdrops⟩
      · exact .inl (List.mem_append_right _ hrecorded)
      · exact .inr ⟨item, List.mem_cons_of_mem _ hitem, hdrops⟩

end Ledger

/-- A computation from a table leaves a trace that is the sum over items, after something else that it has asked and
recorded first. -/
def TracesItems (o : Oracle) (a : Asset) (owner : String) (first : List (Asset × String))
    (recorded : List Dependency) (items : List Item) (f : Resolve α) (p : Progress) : Prop :=
  ∃ findings asked used, Traces a owner f p findings ∧ findings.asked = first ++ asked ∧
    findings.used = recorded ++ used ∧ Ledger o items asked used

/-- A computation that books items, after something else that it asks and records first. -/
structure Books (a : Asset) (owner : String) (first : List (Asset × String)) (recorded : List Dependency)
    (items : List Item) (f : Resolvers → Resolve α) : Prop where
  traces : ∀ o p, TracesItems o a owner first recorded items (f (.probe o)) p

/-- A computation that reads expressions: it asks about nothing but the metrics they name, it records nothing itself,
and what it reads depends on all of them. -/
structure ReadsMetrics (a : Asset) (owner : String) (names : List String) (dependencies : α → List Dependency)
    (f : Resolvers → Resolve (Option α)) : Prop where
  findings : ∀ o p, ∃ result asked, Traces a owner (f (.probe o)) p ⟨result, asked, []⟩ ∧
    (∀ question ∈ asked, question.1 = .metric ∧ question.2 ∈ names) ∧
    ∀ read, result = .ok (some read) → asked = names.map (.metric, ·) ∧ dependencies read = names.map (⟨.metric, ·⟩)

variable {a : Asset} {owner : String} {items items' : List Item} {first : List (Asset × String)}
  {recorded : List Dependency}

/-- What an account and the questions of a computation say about its reading. -/
theorem ReadsMetrics.of_account {names : List String} {dependencies : α → List Dependency}
    {f : Resolvers → Resolve (Option α)}
    (haccount : Accounts a owner (names.map (⟨.metric, ·⟩)) [] True
      (fun x => ∀ read ∈ x, dependencies read = names.map (⟨.metric, ·⟩)) (·.isSome = true) f)
    (hasks : Asks (fun b name => b = .metric ∧ name ∈ names) f) : ReadsMetrics a owner names dependencies f := by
  refine ⟨fun o p => ?_⟩
  obtain ⟨⟨result, asked, used⟩, htraces, hused, houtcome⟩ := haccount.findings o p
  obtain rfl : used = [] := List.eq_nil_of_subset_nil hused
  refine ⟨result, asked, htraces, ?_, fun read hread => ?_⟩
  · obtain ⟨t, hrun, honly⟩ := hasks
    obtain ⟨p', htrace, hbegun, -⟩ := htraces
    obtain ⟨p'', hprobe, hbegun'⟩ := t.run_probe o p
    have hsame : p' = p'' := by
      rw [hrun, hprobe] at htrace
      cases hx : (t.examine o).result <;> cases result <;> simp_all [Findings.inState]
    have hasked : asked = (t.examine o).asked := by simpa [hsame, hbegun'] using hbegun.symm
    rw [hasked]
    exact honly.asked o
  · obtain ⟨hpost, hgood⟩ := houtcome _ hread
    obtain ⟨-, hasked, -⟩ := hgood rfl
    have hall : asked.map Dependency.on = (names.map ((.metric, ·) : String → Asset × String)).map Dependency.on := by
      rw [hasked, List.map_map]
      rfl
    exact ⟨List.map_inj_right (fun _ _ => Dependency.on_injective) |>.mp hall, hpost read rfl⟩

namespace TracesItems

variable {o : Oracle} {p p' : Progress} {asked : List (Asset × String)} {used : List Dependency}

/-- Something that has been asked and recorded before the rest. -/
theorem bind {f : Resolve α} {g : α → Resolve β} {x : α} (hrun : f p = .ok x p')
    (hbegun : p'.begun = asked.reverse ++ p.begun)
    (hcell : (p'.cell a owner).dependencies = (p.cell a owner).dependencies ++ used)
    (h : TracesItems o a owner first recorded items (g x) p') :
    TracesItems o a owner (asked ++ first) (used ++ recorded) items (f >>= g) p := by
  obtain ⟨findings, asked', used', htraces, hasked, hused, hledger⟩ := h
  refine ⟨_, asked', used', .bind hrun hbegun hcell htraces, ?_, ?_, hledger⟩
  · rw [hasked, List.append_assoc]
  · rw [hused, List.append_assoc]

/-- What has been asked and recorded first belongs to an item. -/
theorem book {item : Item} {f : Resolve α} (hitem : item.Booked o first recorded)
    (h : TracesItems o a owner first recorded items f p) : TracesItems o a owner [] [] (item :: items) f p := by
  obtain ⟨findings, asked, used, htraces, hasked, hused, hledger⟩ := h
  exact ⟨findings, _, _, htraces, hasked, hused, .book hitem hledger⟩

end TracesItems

namespace Books

theorem pure {value : α} : Books a owner [] [] items fun _ => pure value :=
  ⟨fun _ p => ⟨⟨.ok value, [], []⟩, [], [], ⟨p, rfl, rfl, (List.append_nil _).symm⟩, rfl, rfl, .empty items⟩⟩

theorem throw {fault : Fault} : Books a owner [] [] items fun _ => (throw fault : Resolve α) :=
  ⟨fun _ p => ⟨⟨.error fault, [], []⟩, [], [], ⟨p, rfl, rfl, (List.append_nil _).symm⟩, rfl, rfl, .empty items⟩⟩

theorem warn {notice : Notice} {f : Resolvers → Resolve α} (h : Books a owner first recorded items f) :
    Books a owner first recorded items (fun q => do Resolve.warn notice; f q) :=
  ⟨fun o p => h.traces o (p.record (.noticed notice))⟩

theorem reject {notice : Notice} : Books a owner [] [] items fun _ => (reject notice : Resolve (Option α)) := warn pure

theorem dependOn {dependencies : List Dependency} {f : Resolvers → Resolve α} (h : Books a owner first [] items f) :
    Books a owner first dependencies items (fun q => do Resolve.dependOn a owner dependencies; f q) := by
  refine ⟨fun o p => ?_⟩
  have hcell : ((p.modify a owner (·.dependOn dependencies)).cell a owner).dependencies =
      (p.cell a owner).dependencies ++ dependencies := by
    rw [Progress.cell_modify_same, Cell.dependOn]
  have hbegun : (p.modify a owner (·.dependOn dependencies)).begun = [].reverse ++ p.begun := rfl
  have hboth := TracesItems.bind (f := Resolve.dependOn a owner dependencies) (g := fun _ => f (.probe o)) rfl hbegun
    hcell (h.traces o _)
  rwa [List.append_nil] at hboth

theorem bind {f : Resolvers → Resolve α} {g : α → Resolvers → Resolve β} (hf : Books a owner first recorded items f)
    (hg : ∀ x, Books a owner [] [] items' (g x)) :
    Books a owner first recorded (items ++ items') (fun q => do g (← f q) q) := by
  refine ⟨fun o p => ?_⟩
  obtain ⟨⟨result, _, _⟩, asked, used, ⟨p₁, hrun, hbegun, hcell⟩, rfl, rfl, hledger⟩ := hf.traces o p
  cases result with
  | error fault =>
    have hrest : Ledger o (items ++ items') asked used := by
      simpa only [List.append_nil] using hledger.append (.empty items')
    exact ⟨⟨.error fault, _, _⟩, asked, used, ⟨p₁, bind_eq_error_iff.mpr (.inl hrun), hbegun, hcell⟩, rfl, rfl, hrest⟩
  | ok x =>
    obtain ⟨findings, asked', used', htraces, hasked, hused, hledger'⟩ := (hg x).traces o p₁
    rw [List.nil_append] at hasked hused
    refine ⟨_, asked ++ asked', used ++ used', .bind hrun hbegun hcell htraces, ?_, ?_, hledger.append hledger'⟩
    · simp only [hasked, List.append_assoc]
    · simp only [hused, List.append_assoc]

/-- What comes second has no items of its own. -/
theorem bindLast {f : Resolvers → Resolve α} {g : α → Resolvers → Resolve β}
    (hf : Books a owner first recorded items f) (hg : ∀ x, Books a owner [] [] [] (g x)) :
    Books a owner first recorded items (fun q => do g (← f q) q) := by
  simpa only [List.append_nil] using bind hf hg

theorem lift {e : Except Fault β} {g : β → Resolvers → Resolve α} (h : ∀ x, Books a owner [] [] items (g x)) :
    Books a owner [] [] items (fun q => do g (← Resolve.lift e) q) := by
  cases e with
  | error fault => exact throw
  | ok x => simpa only [Resolve.lift, pure_bind] using h x

/-- A question, with what is done about its answer. -/
theorem asked {b : Asset} {name : String} {g : Answer b.Value → Resolve α} {o : Oracle} {p : Progress}
    (h : ∀ p, TracesItems o a owner [] recorded items (g (o b name)) p) :
    TracesItems o a owner [(b, name)] recorded items (do g (← Resolvers.answer (.probe o) b name)) p := by
  obtain ⟨p₁, hanswer, hbegun⟩ := Resolvers.answer_probe o b name p
  have hbegun' : p₁.begun = [(b, name)].reverse ++ p.begun := hbegun
  have hcell := Resolvers.dependencies_probe hanswer a owner
  exact .bind hanswer hbegun' (hcell.trans (List.append_nil _).symm) (h p₁)

/-- A question that is recorded first. -/
theorem reference {b : Asset} {name : String} {g : Answer b.Value → Resolvers → Resolve α}
    (h : ∀ x, Books a owner [] [] items (g x)) :
    Books a owner [] [] (.reference b name :: items) (fun q => do
      Resolve.dependOn a owner [⟨b.kind, name⟩]
      g (← q.answer b name) q) := by
  have hasked : Books a owner [(b, name)] [] items (fun q => do g (← q.answer b name) q) :=
    ⟨fun o _ => asked fun p => (h _).traces o p⟩
  exact ⟨fun o p => .book .reference ((dependOn hasked).traces o p)⟩

/-- A reference that is fetched. -/
theorem fetched {b : Asset} {name key : String} {user : Kind} {g : Option b.Value → Resolvers → Resolve α}
    (h : ∀ x, Books a owner [] [] items (g x)) :
    Books a owner [] [] (.reference b name :: items) (fun q => do
      Resolve.dependOn a owner [⟨b.kind, name⟩]
      g (← fetch b (q b) name key user) q) := by
  simp only [Resolvers.fetch_eq, bind_assoc]
  refine reference fun x => ?_
  cases x with
  | missing => exact warn (h none)
  | invalid => exact warn (h none)
  | found value => simpa only [pure_bind] using h (some value)

/-- An entry that is fetched and recorded if it is there. -/
theorem element {b : Asset} {name key : String} {user : Kind} {g : Option b.Value → Resolvers → Resolve α}
    (hnone : Books a owner [] [] items (g none))
    (hsome : ∀ value, Books a owner [] [⟨b.kind, name⟩] items (g (some value))) :
    Books a owner [] [] (.element b name :: items) (fun q => do g (← fetch b (q b) name key user) q) := by
  refine ⟨fun o p => ?_⟩
  have hrefused (notice : Notice) (p : Progress) :
      TracesItems o a owner [] [] items (Resolve.reject notice >>= fun found => g found (.probe o)) p :=
    (warn hnone).traces o p
  simp only [Resolvers.fetch_eq, bind_assoc]
  cases hx : o b name with
  | missing =>
    refine .book (.refused (by rw [hx]; exact Answer.not_isFound_missing)) (asked fun p => ?_)
    rw [hx]
    exact hrefused _ p
  | invalid =>
    refine .book (.refused (by rw [hx]; exact Answer.not_isFound_invalid)) (asked fun p => ?_)
    rw [hx]
    exact hrefused _ p
  | found value =>
    refine .book (.found ⟨value, hx⟩) (asked fun p => ?_)
    rw [hx]
    simpa only [pure_bind] using (hsome value).traces o p

/-- Expressions that are read, and recorded if they can be. -/
theorem read {γ : Type} {names : List String} {dependencies : γ → List Dependency}
    {f : Resolvers → Resolve (Option γ)} {g : Option γ → Resolvers → Resolve α}
    (hf : ReadsMetrics a owner names dependencies f) (hnone : Books a owner [] [] items (g none))
    (hsome : ∀ read, Books a owner [] (dependencies read) items (g (some read))) :
    Books a owner [] [] (.metrics names :: items) (fun q => do g (← f q) q) := by
  refine ⟨fun o p => ?_⟩
  obtain ⟨result, asked, ⟨p₁, hrun, hbegun, hcell⟩, hmetrics, hread⟩ := hf.findings o p
  match result, hrun, hread with
  | .error fault, hrun, _ =>
    refine ⟨⟨.error fault, asked, []⟩, asked ++ [], [] ++ [], ⟨p₁, bind_eq_error_iff.mpr (.inl hrun), hbegun, hcell⟩,
      ?_, rfl, .book (.unread hmetrics) (.empty items)⟩
    rw [List.append_nil, List.nil_append]
  | .ok none, hrun, _ =>
    have hrest := TracesItems.bind (g := fun x => g x (.probe o)) hrun hbegun hcell (hnone.traces o p₁)
    rw [List.append_nil] at hrest
    exact .book (.unread hmetrics) hrest
  | .ok (some found), hrun, hread =>
    obtain ⟨rfl, hdependencies⟩ := hread found rfl
    have hrest := TracesItems.bind (g := fun x => g x (.probe o)) hrun hbegun hcell ((hsome found).traces o p₁)
    rw [List.append_nil, hdependencies] at hrest
    exact .book .read hrest

theorem placement {name : String} {f : Resolvers → Resolve α} (h : Books a owner [] [] items f) :
    Books a owner [] [] (.placement name :: items) (fun q => do
      Resolve.dependOn a owner [⟨.placement, name⟩]
      f q) :=
  ⟨fun o p => .book .placement ((dependOn h).traces o p)⟩

/-- The findings of the inquiry of an entry are those of its computation. -/
theorem of_plan {r : Reading} {name : String} {entry : a.kind.Entry}
    (h : Books a name [] [] items fun q => r.compute q a name entry) (o : Oracle) :
    Ledger o items ((r.plan a name entry).examine o).asked ((r.plan a name entry).examine o).used := by
  obtain ⟨findings, asked, used, htraces, hasked, hused, hledger⟩ := h.traces o {}
  have hplan := Inquiry.traces (r.plan_within a name entry) o {}
  rw [r.run_plan] at hplan
  rw [← htraces.unique hplan, hasked, hused]
  exact hledger

end Books

end DesignTokens
