import DesignTokens.Proofs.Resolution.Likeness

/-!
# Trying again after a fault

An image file cannot be read before the storage root is set: the fault leaves through every computation that is under
way. Their memos stay empty, so the entries can be requested again. But what the computations had recorded until then
stays in the cells too, and the next computation of the entry records it once more behind that.

The history tells how many computations of an entry were never settled. Each of them has left a beginning of what the
entry uses in the end (`Progress.Carries`); the rest of a loaded cell is final, just as in a document that has had its
storage root from the start.

* `Reading.examine_unset` — a computation without storage root takes the same course, or a fault ends it at once.
* `Reading.runs_retries` — every task keeps what the cells carry, however it ends.
* `Document.late_storage_adds_leftovers` — the cells after the storage root is set, beside those where it always was.
-/

namespace DesignTokens

open Resolve

/-- The same catalog and files without a storage root. -/
def Surroundings.unset (s : Surroundings) : Surroundings := { s with storage := none }

variable {d : Document} {s s' : Surroundings} {a b : Asset} {name other : String} {entry : a.kind.Entry}

/-! ### Computations without a storage root -/

theorem Traces.throw {α : Type} {owner : String} (fault : Fault) (p : Progress) :
    Traces a owner (throw fault : Resolve α) p ⟨.error fault, [], []⟩ :=
  ⟨p, rfl, rfl, (List.append_nil _).symm⟩

namespace Reading

/-- Without a storage root a computation is the same, or it cannot even begin. -/
theorem compute_unset (d : Document) (s : Surroundings) (q : Resolvers) (a : Asset) (name : String)
    (entry : a.kind.Entry) :
    compute ⟨d, s.unset⟩ q a name entry = compute ⟨d, s⟩ q a name entry ∨
      ∃ fault, compute ⟨d, s.unset⟩ q a name entry = throw fault := by
  cases a with
  | image =>
    change ImageEntry at entry
    cases hsource : entry.source with
    | file path =>
      refine .inr ⟨.storageNotConfigured path, ?_⟩
      simp only [compute, ImageLayers.compute, ImageLayers.base, hsource]
      rfl
    | basedOn other => exact .inl (by simp only [compute, ImageLayers.compute, ImageLayers.base, hsource])
    | background b => exact .inl (by simp only [compute, ImageLayers.compute, ImageLayers.base, hsource])
  | _ => exact .inl rfl

/-- The inquiries of a document find in the second surroundings what they find in the first, or a fault ends them
before they ask or record anything. -/
def Curtails (d : Document) (s s' : Surroundings) : Prop :=
  ∀ (o : Oracle) (a : Asset) (name : String) (entry : a.kind.Entry),
    (plan ⟨d, s'⟩ a name entry).examine o = (plan ⟨d, s⟩ a name entry).examine o ∨
      ∃ fault, (plan ⟨d, s'⟩ a name entry).examine o = ⟨.error fault, [], []⟩

theorem Curtails.refl (d : Document) (s : Surroundings) : Curtails d s s := fun _ _ _ _ => .inl rfl

theorem examine_unset (d : Document) (s : Surroundings) : Curtails d s s.unset := by
  intro o a name entry
  have htraces (s : Surroundings) :
      Traces a name (compute ⟨d, s⟩ (.probe o) a name entry) {} ((plan ⟨d, s⟩ a name entry).examine o) := by
    rw [← run_plan]
    exact Inquiry.traces (plan_within ..) o {}
  rcases compute_unset d s (.probe o) a name entry with hsame | ⟨fault, hfails⟩
  · have hunset := htraces s.unset
    rw [hsame] at hunset
    exact .inl (hunset.unique (htraces s))
  · have hunset := htraces s.unset
    rw [hfails] at hunset
    exact .inr ⟨fault, hunset.unique (.throw fault {})⟩

end Reading

/-! ### What cells carry -/

/-- A cell with leftovers in front. Each is a beginning of the final list of dependencies; and behind them there is
nothing yet, or the cell is as the final one. -/
structure Cell.Carries {α : Type} (c final : Cell α) (leftovers : List (List Dependency)) : Prop where
  beginnings : ∀ leftover ∈ leftovers, leftover <+: final.dependencies
  cell : c = ⟨.empty, leftovers.flatten⟩ ∨ c = ⟨final.memo, leftovers.flatten ++ final.dependencies⟩

/-- Every cell carries what computations of its entry have left that were not settled. -/
structure Progress.Carries (p : Progress) (r : Reading) : Prop where
  missing : ∀ a name, r.document.entry? a.kind name = none → (p.cell a name).memo = .empty
  present : ∀ a name entry, r.document.entry? a.kind name = some entry →
    ∃ leftovers : List (List Dependency), leftovers.length = p.underWay.count (a, name) ∧
      (p.cell a name).Carries (Usage.finalCell { reading := r } a name entry) leftovers

namespace Usage

theorem pending_start {r : Reading} (hentry : r.document.entry? a.kind name = some entry) :
    Pending { reading := r } a name entry where
  present := hentry
  notLoaded := by
    rw [Progress.cell_start]
    rfl

theorem isLoaded_finalCell (u : Usage) (a : Asset) (name : String) (entry : a.kind.Entry) :
    (u.finalCell a name entry).memo.isLoaded = true := by
  unfold finalCell
  cases u.meaning a name <;> rfl

end Usage

namespace Progress.Carries

variable {r : Reading} {p p' : Progress}

theorem start (r : Reading) : Progress.Carries {} r where
  missing a name _ := by
    rw [cell_start]
    rfl
  present a name entry _ := by
    refine ⟨[], rfl, by simp, .inl ?_⟩
    rw [cell_start]
    rfl

theorem noticed (h : p.Carries r) (n : Notice) : (p.record (.noticed n)).Carries r := ⟨h.missing, h.present⟩

/-- Only the cell of one entry changes, and the computations of that entry that are under way. -/
theorem update (h : p.Carries r) (hentry : r.document.entry? a.kind name = some entry)
    (hcell : ∀ b other, ¬ (b = a ∧ other = name) → p'.cell b other = p.cell b other)
    (hcount : ∀ question, question ≠ (a, name) → p'.underWay.count question = p.underWay.count question)
    (hown : ∃ leftovers : List (List Dependency), leftovers.length = p'.underWay.count (a, name) ∧
      (p'.cell a name).Carries (Usage.finalCell { reading := r } a name entry) leftovers) : p'.Carries r where
  missing b other hmissing := by
    rw [hcell, h.missing b other hmissing]
    rintro ⟨rfl, rfl⟩
    cases hentry.symm.trans hmissing
  present b other entry' hentry' := by
    by_cases hsame : b = a ∧ other = name
    · obtain ⟨rfl, rfl⟩ := hsame
      obtain rfl : entry = entry' := Option.some.inj (hentry.symm.trans hentry')
      exact hown
    · rw [hcell b other hsame, hcount]
      · exact h.present b other entry' hentry'
      · rintro ⟨⟩
        exact hsame ⟨rfl, rfl⟩

/-- What is loaded is final beside the leftovers. -/
theorem loaded (h : p.Carries r) (hloaded : (p.cell a name).memo.isLoaded = true) :
    ∃ (entry : a.kind.Entry) (leftovers : List (List Dependency)), r.document.entry? a.kind name = some entry ∧
      leftovers.length = p.underWay.count (a, name) ∧
      (∀ leftover ∈ leftovers, leftover <+: (Usage.finalCell { reading := r } a name entry).dependencies) ∧
      p.cell a name = ⟨(Usage.finalCell { reading := r } a name entry).memo,
        leftovers.flatten ++ (Usage.finalCell { reading := r } a name entry).dependencies⟩ := by
  cases hentry : r.document.entry? a.kind name with
  | none =>
    rw [h.missing a name hentry] at hloaded
    cases hloaded
  | some entry =>
    obtain ⟨leftovers, hlength, hbeginnings, hempty | hfinal⟩ := h.present a name entry hentry
    · rw [hempty] at hloaded
      cases hloaded
    · exact ⟨entry, leftovers, rfl, hlength, hbeginnings, hfinal⟩

/-- An entry that is not loaded has its leftovers alone. -/
theorem unloaded (h : p.Carries r) (hentry : r.document.entry? a.kind name = some entry)
    (hmemo : (p.cell a name).memo.payload? = none) :
    ∃ leftovers : List (List Dependency), leftovers.length = p.underWay.count (a, name) ∧
      (∀ leftover ∈ leftovers, leftover <+: (Usage.finalCell { reading := r } a name entry).dependencies) ∧
      p.cell a name = ⟨.empty, leftovers.flatten⟩ := by
  obtain ⟨leftovers, hlength, hbeginnings, hempty | hfinal⟩ := h.present a name entry hentry
  · exact ⟨leftovers, hlength, hbeginnings, hempty⟩
  · have hloaded := Usage.isLoaded_finalCell { reading := r } a name entry
    rw [hfinal] at hmemo
    rw [Memo.isLoaded, hmemo] at hloaded
    cases hloaded

/-- A loaded cell answers as the meaning does. -/
theorem cached (h : p.Carries r) {value : a.Value} (hmemo : (p.cell a name).memo.payload? = some value) :
    Answer.of (some value) (p.cell a name).memo = Usage.meaning { reading := r } a name := by
  obtain ⟨entry, leftovers, hentry, -, -, hcell⟩ := h.loaded (by rw [Memo.isLoaded, hmemo]; rfl)
  rw [hcell]
  exact Usage.answer_finalCell (u := { reading := r }) hentry value

/-- A computation begins with nothing recorded. -/
theorem started (h : p.Carries r) (hentry : r.document.entry? a.kind name = some entry)
    (hmemo : (p.cell a name).memo.payload? = none) : (p.record (.started a name)).Carries r := by
  obtain ⟨leftovers, hlength, hbeginnings, hcell⟩ := h.unloaded hentry hmemo
  refine h.update hentry (fun _ _ _ => rfl) (fun question hne => ?_) ⟨leftovers ++ [[]], ?_, ?_, .inl ?_⟩
  · rw [underWay_record_started, List.count_cons_of_ne hne.symm]
  · rw [underWay_record_started, List.count_cons_self, List.length_append, hlength]
    rfl
  · intro leftover hleftover
    rcases List.mem_append.mp hleftover with hbefore | hnew
    · exact hbeginnings leftover hbefore
    · obtain rfl := List.mem_singleton.mp hnew
      exact List.nil_prefix
  · rw [cell_record, hcell]
    simp

end Progress.Carries

/-! ### Tasks -/

namespace Reading

open Progress

variable {r : Reading} {underWay : List String} {p p' : Progress} {rest : Inquiry (Option a.Value)}
  {asked : List (Asset × String)} {used : List Dependency}

/-- A computation that returns is no longer under way, and neither is one that it asked for. -/
theorem Runs.underWay_eq {task : Task a} {x : Option a.Value} (h : r.Runs a task p (.ok x p')) :
    p'.underWay = p.underWay := by
  generalize hresult : EStateM.Result.ok x p' = result at h
  induction h generalizing p' with
  | missing _ => cases hresult; rfl
  | cached _ _ => cases hresult; rfl
  | cyclic _ _ _ => cases hresult; rfl
  | computed _ _ _ _ ih =>
    cases hresult
    rw [underWay_record_settled, underWay_modify, ih rfl, underWay_record_started, List.erase_cons_head]
  | aborted _ _ _ _ _ => cases hresult
  | done => cases hresult; rfl
  | fail => cases hresult
  | note _ ih => exact ih hresult
  | use _ ih => exact ih hresult
  | ask _ _ _ ihasked ihrun => exact (ihrun hresult).trans (ihasked rfl)
  | askAborted _ _ _ => cases hresult

/-- The rest of an inquiry that has got the answers of the meaning so far. The cell of its entry holds what was used
until now behind the leftovers. -/
structure Resumed (r : Reading) (s' : Surroundings) (name : String) (entry : a.kind.Entry)
    (rest : Inquiry (Option a.Value)) (p : Progress) (asked : List (Asset × String)) (used : List Dependency) :
    Prop where
  present : r.document.entry? a.kind name = some entry
  findings : (plan ⟨r.document, s'⟩ a name entry).examine (Usage.meaning { reading := r }) =
    ⟨(rest.examine (Usage.meaning { reading := r })).result,
      asked ++ (rest.examine (Usage.meaning { reading := r })).asked,
      used ++ (rest.examine (Usage.meaning { reading := r })).used⟩
  cell : ∃ leftovers : List (List Dependency), leftovers.length + 1 = p.underWay.count (a, name) ∧
    (∀ leftover ∈ leftovers, leftover <+: (Usage.finalCell { reading := r } a name entry).dependencies) ∧
    p.cell a name = ⟨.empty, leftovers.flatten ++ used⟩

namespace Resumed

theorem start (h : p.Carries r) (hentry : r.document.entry? a.kind name = some entry)
    (hmemo : (p.cell a name).memo.payload? = none) :
    r.Resumed s' name entry (plan ⟨r.document, s'⟩ a name entry) (p.record (.started a name)) [] [] := by
  obtain ⟨leftovers, hlength, hbeginnings, hcell⟩ := h.unloaded hentry hmemo
  refine ⟨hentry, rfl, leftovers, ?_, hbeginnings, ?_⟩
  · rw [underWay_record_started, List.count_cons_self, hlength]
  · rw [cell_record, hcell, List.append_nil]

theorem noted {notice : Notice} (h : r.Resumed s' name entry (.note notice rest) p asked used) :
    r.Resumed s' name entry rest (p.record (.noticed notice)) asked used :=
  ⟨h.present, h.findings, h.cell⟩

theorem recorded {dependencies : List Dependency}
    (h : r.Resumed s' name entry (.use a name dependencies rest) p asked used) :
    r.Resumed s' name entry rest (p.modify a name (·.dependOn dependencies)) asked (used ++ dependencies) := by
  obtain ⟨leftovers, hlength, hbeginnings, hcell⟩ := h.cell
  refine ⟨h.present, ?_, leftovers, hlength, hbeginnings, ?_⟩
  · rw [h.findings]
    simp [Inquiry.examine]
  · rw [cell_modify_same, hcell, Cell.dependOn, List.append_assoc]

theorem answered {next : Answer b.Value → Inquiry (Option a.Value)}
    (h : r.Resumed s' name entry (.ask b other next) p asked used) (hcell : p'.cell a name = p.cell a name)
    (hsame : p'.underWay = p.underWay) :
    r.Resumed s' name entry (next (Usage.meaning { reading := r } b other)) p' (asked ++ [(b, other)]) used := by
  refine ⟨h.present, ?_, by rw [hcell, hsame]; exact h.cell⟩
  rw [h.findings]
  simp [Inquiry.examine]

/-- What was used so far is a beginning of what the entry uses in the end. -/
theorem beginning (h : r.Resumed s' name entry rest p asked used) (hs : Curtails r.document r.surroundings s') :
    used <+: (Usage.finalCell { reading := r } a name entry).dependencies := by
  rcases hs (Usage.meaning { reading := r }) a name entry with hsame | ⟨fault, hfails⟩
  · refine ⟨(rest.examine (Usage.meaning { reading := r })).used, ?_⟩
    exact (congrArg Findings.used (hsame.symm.trans h.findings)).symm
  · have hnone := congrArg Findings.used (hfails.symm.trans h.findings)
    obtain ⟨rfl, -⟩ := List.append_eq_nil_iff.mp hnone.symm
    exact List.nil_prefix

/-- A computation that asks anything takes the course that it takes with the storage root. -/
theorem mem_asked {next : Answer b.Value → Inquiry (Option a.Value)}
    (h : r.Resumed s' name entry (.ask b other next) p asked used) (hs : Curtails r.document r.surroundings s') :
    (b, other) ∈ ((r.plan a name entry).examine (Usage.meaning { reading := r })).asked := by
  have hmem : (b, other) ∈ ((plan ⟨r.document, s'⟩ a name entry).examine (Usage.meaning { reading := r })).asked := by
    rw [h.findings]
    simp [Inquiry.examine]
  rcases hs (Usage.meaning { reading := r }) a name entry with hsame | ⟨fault, hfails⟩
  · rwa [hsame] at hmem
  · rw [hfails] at hmem
    cases hmem

/-- What was recorded now is carried on. -/
theorem carries_used {dependencies : List Dependency}
    (h : r.Resumed s' name entry (.use a name dependencies rest) p asked used)
    (hs : Curtails r.document r.surroundings s') (hcarries : p.Carries r) :
    (p.modify a name (·.dependOn dependencies)).Carries r := by
  have hused := h.recorded
  obtain ⟨leftovers, hlength, hbeginnings, hcell⟩ := hused.cell
  refine hcarries.update h.present (fun _ _ hother => cell_modify_other _ _ hother) (fun _ _ => rfl)
    ⟨leftovers ++ [used ++ dependencies], ?_, ?_, .inl ?_⟩
  · rw [List.length_append]
    exact hlength
  · intro leftover hleftover
    rcases List.mem_append.mp hleftover with hbefore | hnew
    · exact hbeginnings leftover hbefore
    · obtain rfl := List.mem_singleton.mp hnew
      exact hused.beginning hs
  · rw [hcell]
    simp

/-- The entry of a computation that has returned is settled as in the meaning. -/
theorem settled {result : Option a.Value} (h : r.Resumed s' name entry (.done result) p asked used)
    (hs : Curtails r.document r.surroundings s') (hcarries : p.Carries r) :
    ((p.modify a name (·.settle (some a.invalid) result)).record (.settled a name result.isSome)).Carries r ∧
      ((p.modify a name (·.settle (some a.invalid) result)).cell a name).memo =
        (Usage.finalCell { reading := r } a name entry).memo := by
  have hfindings : (r.plan a name entry).examine (Usage.meaning { reading := r }) = ⟨.ok result, asked, used⟩ := by
    have hdone := h.findings
    simp only [Inquiry.examine, List.append_nil] at hdone
    rcases hs (Usage.meaning { reading := r }) a name entry with hsame | ⟨fault, hfails⟩
    · exact hsame.symm.trans hdone
    · cases hfails.symm.trans hdone
  obtain ⟨leftovers, hlength, hbeginnings, hcell⟩ := h.cell
  have hfinal := Usage.settle_eq_finalCell (Usage.pending_start h.present) (congrArg Findings.result hfindings)
  rw [hfindings] at hfinal
  have hmemo : ((p.modify a name (·.settle (some a.invalid) result)).cell a name).memo =
      (Usage.finalCell { reading := r } a name entry).memo := by
    rw [cell_modify_same, ← hfinal]
    rfl
  refine ⟨hcarries.update h.present (fun _ _ hother => ?_) (fun question hne => ?_)
    ⟨leftovers, ?_, hbeginnings, .inr ?_⟩, hmemo⟩
  · rw [cell_record, cell_modify_other _ _ hother]
  · rw [underWay_record_settled, underWay_modify, List.count_erase_of_ne hne]
  · rw [underWay_record_settled, underWay_modify, List.count_erase_self, ← hlength]
    rfl
  · rw [cell_record, ← hfinal, cell_modify_same, hcell]
    cases result <;> rfl

end Resumed

/-- Questions lead from an entry to one whose inquiry ends in a fault in the given surroundings. -/
def LeadsToFault (r : Reading) (s' : Surroundings) (a : Asset) (name : String) (fault : Fault) : Prop :=
  ∃ question entry, Relation.ReflTransGen (Usage.Asks { reading := r }) (a, name) question ∧
    r.document.entry? question.1.kind question.2 = some entry ∧
    ((plan ⟨r.document, s'⟩ question.1 question.2 entry).examine (Usage.meaning { reading := r })).result = .error fault

/-- What a task comes to that may come after faults. A request gets the answer of the meaning; names under way need
the one that is requested. -/
def Retries (r : Reading) (s' : Surroundings) (a : Asset) :
    Task a → Progress → EStateM.Result Fault Progress (Option a.Value) → Prop
  | .request underWay name, p, result =>
    p.Carries r → (∀ outer ∈ underWay, Usage.Needs { reading := r } a outer a name) →
      match result with
      | .ok x p' => p'.Carries r ∧ Answer.of x (p'.cell a name).memo = Usage.meaning { reading := r } a name
      | .error fault p' => p'.Carries r ∧ r.LeadsToFault s' a name fault
  | .inquiry underWay name rest, p, result =>
    p.Carries r → (∀ outer ∈ underWay, Usage.Needs { reading := r } a outer a name) →
      ∀ entry asked used, r.Resumed s' name entry rest p asked used →
        match result with
        | .ok x p' => p'.Carries r ∧ ∃ asked used, r.Resumed s' name entry (.done x) p' asked used
        | .error fault p' => p'.Carries r ∧ r.LeadsToFault s' a name fault

/-- Names under way need what the innermost of them asks about. -/
theorem needs_inside (h : ∀ outer ∈ underWay, Usage.Needs { reading := r } a outer a name)
    (hneeds : Usage.Needs { reading := r } a name b other) :
    ∀ outer ∈ inside a (name :: underWay) b, Usage.Needs { reading := r } b outer b other := by
  intro outer houter
  by_cases hb : b = a
  · subst hb
    rw [inside_same] at houter
    rcases List.mem_cons.mp houter with rfl | houter
    · exact hneeds
    · exact (h outer houter).trans hneeds
  · simp [inside, hb] at houter

theorem runs_retries {task : Task a} {result : EStateM.Result Fault Progress (Option a.Value)}
    (hs : Curtails r.document r.surroundings s') (h : Runs ⟨r.document, s'⟩ a task p result) :
    r.Retries s' a task p result := by
  induction h with
  | missing hentry => exact fun hcarries _ => ⟨hcarries, (Usage.meaning_missing hentry).symm⟩
  | cached _ hmemo => exact fun hcarries _ => ⟨hcarries, hcarries.cached hmemo⟩
  | @cyclic a underWay name p entry hentry hmemo hunder =>
    intro hcarries houter
    refine ⟨hcarries.noticed _, ?_⟩
    -- the refusal is right, because the entry needs itself
    have hfound := Usage.not_isFound_meaning (houter name hunder).not_found
    rw [(Usage.meaning_present (u := { reading := r }) hentry).resolve_right hfound, cell_record]
    cases hm : (p.cell a name).memo <;> simp [hm, Memo.payload?] at hmemo
    rfl
  | @computed a _ name _ _ entry _ hentry hmemo _ _ ih =>
    intro hcarries houter
    obtain ⟨hcarries₁, asked, used, hdone⟩ :=
      ih (hcarries.started hentry hmemo) houter entry [] [] (.start hcarries hentry hmemo)
    obtain ⟨hsettled, hmemo'⟩ := hdone.settled hs hcarries₁
    refine ⟨hsettled, ?_⟩
    rw [cell_record, hmemo']
    exact Usage.answer_finalCell (u := { reading := r }) hentry _
  | aborted hentry hmemo _ _ ih =>
    intro hcarries houter
    exact ih (hcarries.started hentry hmemo) houter _ [] [] (.start hcarries hentry hmemo)
  | done => exact fun hcarries _ entry asked used hresumed => ⟨hcarries, asked, used, hresumed⟩
  | @fail a underWay name p fault =>
    intro hcarries _ entry asked used hresumed
    refine ⟨hcarries, (a, name), entry, .refl, hresumed.present, ?_⟩
    rw [hresumed.findings]
    rfl
  | note _ ih =>
    exact fun hcarries houter entry asked used hresumed => ih (hcarries.noticed _) houter entry asked used hresumed.noted
  | use _ ih =>
    exact fun hcarries houter entry asked used hresumed =>
      ih (hresumed.carries_used hs hcarries) houter entry asked _ hresumed.recorded
  | @ask a b underWay name other p p₁ next x result hmay hasked hrun ihasked ihrun =>
    intro hcarries houter entry asked used hresumed
    have hneeds := Usage.needs_of_asked (Usage.pending_start hresumed.present) (hresumed.mem_asked hs)
    obtain ⟨hcarries₁, hanswer⟩ := ihasked hcarries (needs_inside houter hneeds)
    rw [hanswer] at ihrun
    exact ihrun hcarries₁ houter entry _ used (hresumed.answered (hasked.keeps.own hmay) hasked.underWay_eq)
  | @askAborted a b underWay name other p p₁ next fault hmay hasked ihasked =>
    intro hcarries houter entry asked used hresumed
    have hmem := hresumed.mem_asked hs
    have hpending := Usage.pending_start hresumed.present
    obtain ⟨hcarries₁, question, entry', hpath, hfault⟩ :=
      ihasked hcarries (needs_inside houter (Usage.needs_of_asked hpending hmem))
    exact ⟨hcarries₁, question, entry', .head ⟨entry, hpending, hmem⟩ hpath, hfault⟩

/-! ### Calls -/

/-- What a request between calls comes to after faults. -/
theorem resolve?_retries (hs : Curtails r.document r.surroundings s') (hcarries : p.Carries r) (a : Asset)
    (name : String) :
    match Reading.resolve? ⟨r.document, s'⟩ a name p with
    | .ok x p' => p'.Carries r ∧ Answer.of x (p'.cell a name).memo = Usage.meaning { reading := r } a name
    | .error fault p' => p'.Carries r ∧ r.LeadsToFault s' a name fault := by
  rw [← request_nil]
  exact runs_retries hs (runs_request ⟨r.document, s'⟩ a [] name p) hcarries fun _ hmem => nomatch hmem

theorem Reaches.carries (hs : Curtails r.document r.surroundings s') (h : Reaches ⟨r.document, s'⟩ p p')
    (hcarries : p.Carries r) : p'.Carries r ∧ p'.underWay = p.underWay := by
  generalize hreading : (⟨r.document, s'⟩ : Reading) = r' at h
  induction h with
  | refl p => exact ⟨hcarries, rfl⟩
  | notice n _ ih => exact ih (hcarries.noticed n)
  | @request p p₁ p' b other x hrequest _ ih =>
    subst hreading
    have hruns := runs_of_resolve? hrequest
    have hretries := resolve?_retries hs hcarries b other
    rw [hrequest] at hretries
    obtain ⟨hcarries', hsame⟩ := ih hretries.1
    exact ⟨hcarries', hsame.trans hruns.underWay_eq⟩

end Reading

namespace Usage

/-- In a document that began with empty cells, what is loaded is final. -/
theorem Sound.final_of_start {r : Reading} {p : Progress} (h : Sound { reading := r } p) (ho : p.Orderly)
    (hloaded : (p.cell a name).memo.isLoaded = true) :
    ∃ entry, r.document.entry? a.kind name = some entry ∧ p.cell a name = finalCell { reading := r } a name entry := by
  rcases h.kept_or_final ho hloaded with ⟨hbefore, -⟩ | ⟨entry, hpending, hcell⟩
  · rw [Progress.cell_start] at hbefore
    cases hbefore
  · exact ⟨entry, hpending.present, hcell⟩

end Usage

/-- A loaded cell that carries leftovers, beside the cell of a document that carries none. -/
theorem Progress.Carries.beside {r : Reading} {p₁ p₂ : Progress} (hcarries : p₁.Carries r) (hrests : p₂.Rests)
    (hsound : Usage.Sound { reading := r } p₂) (hloaded : (p₁.cell a name).memo.isLoaded = true)
    (hloaded' : (p₂.cell a name).memo.isLoaded = true) :
    (p₁.cell a name).memo = (p₂.cell a name).memo ∧
      ∃ leftovers : List (List Dependency), leftovers.length = p₁.underWay.count (a, name) ∧
        (∀ leftover ∈ leftovers, leftover <+: (p₂.cell a name).dependencies) ∧
        (p₁.cell a name).dependencies = leftovers.flatten ++ (p₂.cell a name).dependencies := by
  obtain ⟨_, leftovers, hentry, hlength, hbeginnings, hcell⟩ := hcarries.loaded hloaded
  obtain ⟨_, hentry', hcell'⟩ := hsound.final_of_start hrests.toOrderly hloaded'
  cases hentry.symm.trans hentry'
  rw [← hcell'] at hbeginnings hcell
  rw [hcell]
  exact ⟨rfl, leftovers, hlength, hbeginnings, rfl⟩

namespace Reading

variable {r : Reading} {p₁ p₂ p' : Progress} {value : a.Value}

theorem resolve_missing (hentry : r.document.entry? a.kind name = none) (p : Progress) :
    r.resolve a name p = .ok a.invalid (p.record (.noticed (.missingEntry a.kind name))) := by
  have hnone : r.resolve? a name p = .ok none p := by
    rw [← request_nil, request_eq, hentry]
    rfl
  exact bind_of_ok hnone

/-- What an entry resolves to in a document without faults, it resolves to after faults as well. -/
theorem resolve_carries (hcarries : p₁.Carries r) (hrests : p₂.Rests) (hsound : Usage.Sound { reading := r } p₂)
    (h : r.resolve a name p₂ = .ok value p') : ∃ p'', r.resolve a name p₁ = .ok value p'' := by
  cases hentry : r.document.entry? a.kind name with
  | none =>
    rw [resolve_missing hentry] at h
    cases h
    exact ⟨_, resolve_missing hentry p₁⟩
  | some entry =>
    obtain ⟨x, q, hrequest, hreturn⟩ := bind_eq_ok_iff.mp h
    have hrests' := (hrests.requested hrequest).1
    have hearly := Usage.resolve?_exact (u := { reading := r }) hrests hsound a name
    rw [hrequest] at hearly
    obtain ⟨hsound', hmet, hanswer⟩ := hearly
    have hlate := resolve?_retries (.refl r.document r.surroundings) hcarries a name
    cases hrequest' : r.resolve? a name p₁ with
    | error fault q' =>
      rw [hrequest'] at hlate
      obtain ⟨-, question, entry, hpath, hpresent, hfault⟩ := hlate
      exact absurd ⟨fault, question, hpath, entry, Usage.pending_start hpresent, hfault⟩
        (hsound'.not_faulty hrests'.idle hmet)
    | ok y q' =>
      rw [hrequest'] at hlate
      obtain ⟨hcarries', hanswer'⟩ := hlate
      have hnever := Usage.meaning_ne_missing (u := { reading := r }) hentry
      cases x with
      | none => exact absurd hanswer.symm hnever
      | some v =>
        cases y with
        | none => exact absurd hanswer'.symm hnever
        | some w =>
          cases hreturn
          have hpayload := resolve?_payload hrequest
          have hpayload' := resolve?_payload hrequest'
          have hloaded : (p'.cell a name).memo.isLoaded = true := by rw [Memo.isLoaded, hpayload]; rfl
          have hloaded' : (q'.cell a name).memo.isLoaded = true := by rw [Memo.isLoaded, hpayload']; rfl
          rw [(hcarries'.beside hrests' hsound' hloaded' hloaded).1, hpayload] at hpayload'
          cases hpayload'
          exact ⟨q', bind_of_ok hrequest'⟩

end Reading

/-! ### An image that is based on a file -/

namespace Reading

/-- An image in a file, and one that is based on it. -/
def copiedImage : Reading :=
  ofSections {
    images := ⟨[("a", ⟨.file "a.png", none, none, none, none⟩), ("b", ⟨.basedOn "a", none, none, none, none⟩)],
      (by decide : ["a", "b"].Nodup)⟩ }

theorem copiedImage_a :
    copiedImage.document.sections.images.find? "a" = some ⟨.file "a.png", none, none, none, none⟩ := rfl

theorem copiedImage_b :
    copiedImage.document.sections.images.find? "b" = some ⟨.basedOn "a", none, none, none, none⟩ := rfl

theorem ofText_png : Path.ofText "a.png" = ⟨"", ["a.png"]⟩ := by
  have hsplit : "a.png".splitOn "/" = ["a.png"] := by
    rw [String.splitOn, if_neg (by decide)]
    iterate 5 rw [String.splitOnAux, if_neg (by decide), if_neg (by decide)]
    rw [String.splitOnAux, if_pos (by decide)]
    decide
  rw [Path.ofText, hsplit]
  decide

/-- The folder `art`, in which there is nothing. -/
def emptyFolder : Surroundings := { copiedImage.surroundings with storage := some ⟨"", ["art"]⟩ }

theorem ofFile_emptyFolder :
    ImageLayers.ofFile emptyFolder "a.png" = reject (.imageUnreadable "a.png" .missing) := by
  simp only [ImageLayers.ofFile, emptyFolder, ofText_png]
  rfl

/-- The first call ends in a fault for want of a folder. In the folder the call returns, and records the image that is
asked about once more. -/
theorem run_copiedImage :
    ∃ p p₁, (Call.resolve .image "b").run copiedImage {} = .error (.storageNotConfigured "a.png") p ∧
      (Call.resolve .image "b").run ⟨copiedImage.document, emptyFolder⟩ p = .ok () p₁ ∧
      p.underWay = [(.image, "a"), (.image, "b")] ∧
      (p₁.cell .image "b").memo.isLoaded = true ∧ 
      (p₁.cell .image "b").dependencies = [⟨.image, "a"⟩, ⟨.image, "a"⟩] := by
  simp only [Call.run, resolve, resolve?, image, resolveImage_found copiedImage_a, resolveImage_found copiedImage_b,
    ImageLayers.compute, ImageLayers.base, DesignTokens.fetch, ofFile_emptyFolder, List.mem_cons, List.not_mem_nil,
    String.reduceEq, or_self, ↓reduceIte]
  exact ⟨_, _, rfl, rfl, rfl, rfl, rfl⟩

theorem run_copiedImage_start :
    ∃ p₂, (Call.resolve .image "b").run ⟨copiedImage.document, emptyFolder⟩ {} = .ok () p₂ ∧
      (p₂.cell .image "b").memo.isLoaded = true ∧ 
      (p₂.cell .image "b").dependencies = [⟨.image, "a"⟩] := by
  simp only [Call.run, resolve, resolve?, image, resolveImage_found copiedImage_a, resolveImage_found copiedImage_b,
    ImageLayers.compute, ImageLayers.base, DesignTokens.fetch, ofFile_emptyFolder, List.mem_cons, List.not_mem_nil,
    String.reduceEq, or_self, ↓reduceIte]
  exact ⟨_, rfl, rfl, rfl⟩

end Reading

/-! ### Setting the folder late -/

namespace Document

open Reading

/-- However calls end, all cells carry what is left of computations that were not settled. -/
theorem AtRest.carries {within : Surroundings → Prop} {p : Progress}
    (hwithin : ∀ s', within s' → Curtails d s s') (h : d.AtRest within p) : p.Carries ⟨d, s⟩ := by
  induction h with
  | start => exact .start _
  | @returned s' call p p' hs' _ hcall ih =>
    exact (Reaches.carries (r := ⟨d, s⟩) (hwithin s' hs') ((call.run_requests _).ok hcall) ih).1
  | @broken s' call p p' fault hs' _ hcall ih =>
    obtain ⟨p₁, hreaches, hlast⟩ := (call.run_requests _).error hcall
    obtain ⟨hcarries, -⟩ := Reaches.carries (r := ⟨d, s⟩) (hwithin s' hs') hreaches ih
    rcases hlast with rfl | ⟨a, name, fault, hrequest⟩
    · exact hcarries
    · have hretries := resolve?_retries (r := ⟨d, s⟩) (hwithin s' hs') hcarries a name
      rw [hrequest] at hretries
      exact hretries.1

/-- The folder of a document is set after calls that may have ended in faults for want of it. Beside a document whose
folder has been set from the start, an entry that is loaded in both has the same payload and validity, and the list of
its dependencies ends in the same list. In front of that stands what its computations had recorded when a fault ended
them: a beginning of the list for each, and nothing if there was none. What resolves there resolves here, and to the
same. -/
theorem late_storage_adds_leftovers (d : Document) (s : Surroundings) (storage : Path) {p p₁ p₂ : Progress}
    {calls calls' : List Call} (h : d.AtRest (· = s.unset) p)
    (hlate : Call.runAll ⟨d, { s with storage := some storage }⟩ calls p = .ok () p₁)
    (hearly : Call.runAll ⟨d, { s with storage := some storage }⟩ calls' {} = .ok () p₂) :
    (∀ a name, (p₁.cell a name).memo.isLoaded = true → (p₂.cell a name).memo.isLoaded = true →
      (p₁.cell a name).memo = (p₂.cell a name).memo ∧
        ∃ leftovers : List (List Dependency), leftovers.length = p.underWay.count (a, name) ∧
          (∀ leftover ∈ leftovers, leftover <+: (p₂.cell a name).dependencies) ∧
          (p₁.cell a name).dependencies = leftovers.flatten ++ (p₂.cell a name).dependencies) ∧
      ∀ a name value p₂', Reading.resolve ⟨d, { s with storage := some storage }⟩ a name p₂ = .ok value p₂' →
        ∃ p₁', Reading.resolve ⟨d, { s with storage := some storage }⟩ a name p₁ = .ok value p₁' := by
  have hbefore : p.Carries ⟨d, { s with storage := some storage }⟩ := by
    refine h.carries fun s' hs' => ?_
    rw [hs']
    exact examine_unset d { s with storage := some storage }
  obtain ⟨hcarries, hsame⟩ := ((Call.runAll_requests _ calls).ok hlate).carries (.refl _ _) hbefore
  have hstart : Usage.Sound { reading := ⟨d, { s with storage := some storage }⟩ } {} := .start .start
  obtain ⟨hrests, hsound⟩ := ((Call.runAll_requests _ calls').ok hearly).sound .start hstart
  refine ⟨fun a name hloaded hloaded' => ?_, fun a name value p₂' hresolve =>
    resolve_carries hcarries hrests hsound hresolve⟩
  rw [← hsame]
  exact hcarries.beside hrests hsound hloaded hloaded'

/-- One leftover, from the call before the folder was set. -/
theorem late_storage_adds_leftovers_image :
    ∃ p p₁ p₂, copiedImage.document.AtRest (· = emptyFolder.unset) p ∧
      Call.runAll ⟨copiedImage.document, emptyFolder⟩ [.resolve .image "b"] p = .ok () p₁ ∧
      Call.runAll ⟨copiedImage.document, emptyFolder⟩ [.resolve .image "b"] {} = .ok () p₂ ∧
      (p₁.cell .image "b").memo = (p₂.cell .image "b").memo ∧
      ∃ leftovers : List (List Dependency), leftovers.length = 1 ∧
        (∀ leftover ∈ leftovers, leftover <+: (p₂.cell .image "b").dependencies) ∧
        (p₁.cell .image "b").dependencies = leftovers.flatten ++ (p₂.cell .image "b").dependencies := by
  obtain ⟨p, p₁, hbroken, hlate, hunderWay, hloaded, -⟩ := run_copiedImage
  obtain ⟨p₂, hearly, hloaded', -⟩ := run_copiedImage_start
  have hrest : copiedImage.document.AtRest (· = emptyFolder.unset) p := .broken rfl .start hbroken
  have hlate' : Call.runAll ⟨copiedImage.document, emptyFolder⟩ [.resolve .image "b"] p = .ok () p₁ := bind_of_ok hlate
  have hearly' : Call.runAll ⟨copiedImage.document, emptyFolder⟩ [.resolve .image "b"] {} = .ok () p₂ := bind_of_ok hearly
  obtain ⟨hbeside, -⟩ := late_storage_adds_leftovers copiedImage.document emptyFolder ⟨"", ["art"]⟩ hrest hlate' hearly'
  obtain ⟨hmemo, leftovers, hlength, hrecorded⟩ := hbeside .image "b" hloaded hloaded'
  rw [hunderWay] at hlength
  exact ⟨p, p₁, p₂, hrest, hlate', hearly', hmemo, leftovers, hlength, hrecorded⟩

/-- It is not so that cells loaded after the folder is set are as if it had been set from the start. -/
theorem late_storage_not_unnoticed :
    ¬ ∀ (d : Document) (s : Surroundings) (storage : Path) (p p₁ p₂ : Progress) (calls calls' : List Call),
      d.AtRest (· = s.unset) p → Call.runAll ⟨d, { s with storage := some storage }⟩ calls p = .ok () p₁ →
        Call.runAll ⟨d, { s with storage := some storage }⟩ calls' {} = .ok () p₂ →
          ∀ a name, (p₁.cell a name).memo.isLoaded = true → (p₂.cell a name).memo.isLoaded = true →
            p₁.cell a name = p₂.cell a name := by
  intro h
  obtain ⟨p, p₁, hbroken, hlate, -, hloaded, hrecorded⟩ := run_copiedImage
  obtain ⟨p₂, hearly, hloaded', hrecorded'⟩ := run_copiedImage_start
  have hsame := h copiedImage.document emptyFolder ⟨"", ["art"]⟩ p p₁ p₂ [.resolve .image "b"] [.resolve .image "b"]
    (.broken rfl .start hbroken) (bind_of_ok hlate) (bind_of_ok hearly) .image "b" hloaded hloaded'
  rw [hsame, hrecorded'] at hrecorded
  cases hrecorded

end Document

end DesignTokens
