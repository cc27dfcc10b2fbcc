import Mathlib.Logic.Relation
import DesignTokens.Proofs.Resolution.Meaning
import DesignTokens.Proofs.Resolution.Once

/-!
# Resolution does not depend on the order of requests

An entry that is requested inside its own computation is refused, and the entries on the way back are
settled on the assumption that it has no value. The assumption is right: the entry needs itself by way of
those entries, so the meaning of the document gives it no value either. All answers that computations get are
therefore those of the meaning, and so every cell that is loaded on the way holds what the meaning says, beside
the dependencies that the inquiry of its entry uses in the meaning (`Usage.Sound`). Neither mentions an order.

Faults do not depend on it either. A request ends in a fault exactly if some chain of questions leads from
its entry to one whose inquiry fails in the meaning (`Usage.Faulty`).

The meaning is that of a document in use, with what was loaded before its folder or its fonts changed last. So
what holds of the calls after the change holds of them beside whatever the cells held then.

* `Usage.runs_exact` — every task keeps the state sound and gets the answer of the meaning.
* `Usage.resolve?_exact` — what a request between operations comes to.
* `Reading.resolution_order_independent` — two runs of calls agree on every entry that both have loaded.
-/

namespace DesignTokens

namespace Usage

/-! ### What the meaning says about cells and faults -/

/-- The cell that an entry is settled with. -/
noncomputable def finalCell (u : Usage) (a : Asset) (name : String) (entry : a.kind.Entry) :
    Cell a.Value where
  memo := match u.meaning a name with
    | .found value => .valid value
    | _ => .invalid a.invalid
  dependencies := ((u.reading.plan a name entry).examine u.meaning).used

/-- The inquiry of a pending entry asks about another one. -/
def Asks (u : Usage) (question other : Asset × String) : Prop :=
  ∃ entry, u.Pending question.1 question.2 entry ∧
    other ∈ ((u.reading.plan question.1 question.2 entry).examine u.meaning).asked

/-- The inquiry of a pending entry ends in a fault. -/
def Breaks (u : Usage) (question : Asset × String) (fault : Fault) : Prop :=
  ∃ entry, u.Pending question.1 question.2 entry ∧
    ((u.reading.plan question.1 question.2 entry).examine u.meaning).result = .error fault

/-- The questions that start from an entry lead to an inquiry that ends in a fault. -/
def LeadsTo (u : Usage) (a : Asset) (name : String) (fault : Fault) : Prop :=
  ∃ question, Relation.ReflTransGen u.Asks (a, name) question ∧ u.Breaks question fault

/-- Some questions that start from an entry lead to a fault. -/
def Faulty (u : Usage) (a : Asset) (name : String) : Prop := ∃ fault, u.LeadsTo a name fault

variable {u : Usage} {a b : Asset} {name other : String} {entry : a.kind.Entry}

theorem finalCell_eq_valid_iff {value : a.Value} :
    (u.finalCell a name entry).memo = .valid value ↔ u.meaning a name = .found value := by
  unfold finalCell
  cases u.meaning a name <;> simp

/-- The cell of a settled entry answers as the meaning does. -/
theorem answer_finalCell (hentry : u.reading.document.entry? a.kind name = some entry) (x : a.Value) :
    Answer.of (some x) (u.finalCell a name entry).memo = u.meaning a name := by
  unfold finalCell
  rcases meaning_present hentry with h | ⟨value, h⟩
  · simp [h, Answer.of, Memo.value?]
  · simp [h, Answer.of, Memo.value?]

/-- An inquiry that went all its way with the answers of the meaning settles the final cell. -/
theorem settle_eq_finalCell (hpending : u.Pending a name entry) {result : Option a.Value}
    (hresult : ((u.reading.plan a name entry).examine u.meaning).result = .ok result) :
    Cell.settle ⟨.empty, ((u.reading.plan a name entry).examine u.meaning).used⟩ (some a.invalid) result =
      u.finalCell a name entry := by
  cases result with
  | some value =>
    have h : u.meaning a name = .found value := (meaning_eq_found_iff hpending).mpr hresult
    simp [Cell.settle, finalCell, h]
  | none =>
    rcases meaning_present hpending.present with h | ⟨value, h⟩
    · simp [Cell.settle, finalCell, h, Memo.of]
    · rw [meaning_eq_found_iff hpending, hresult] at h
      cases h

/-- What leads to a found entry by questions is found. -/
theorem isFound_of_asks {question last : Asset × String} (hpath : Relation.ReflTransGen u.Asks question last)
    (h : (u.meaning question.1 question.2).IsFound) : (u.meaning last.1 last.2).IsFound := by
  induction hpath with
  | refl => exact h
  | tail _ hstep ih =>
    obtain ⟨entry, hpending, hasked⟩ := hstep
    obtain ⟨value, hvalue⟩ := ih
    rw [meaning_eq_found_iff hpending] at hvalue
    exact u.reading.plan_earns _ _ _ hvalue _ hasked

/-- What is valid does not lead to a fault. -/
theorem not_faulty_of_isFound (h : (u.meaning a name).IsFound) : ¬ u.Faulty a name := by
  rintro ⟨fault, last, hpath, entry, hpending, hbreaks⟩
  obtain ⟨value, hvalue⟩ := isFound_of_asks hpath h
  rw [meaning_eq_found_iff hpending, hbreaks] at hvalue
  cases hvalue

/-! ### Sound states -/

/-- An entry is missing, or its computation has begun. -/
def Met (u : Usage) (p : Progress) (question : Asset × String) : Prop :=
  u.reading.document.entry? question.1.kind question.2 = none ∨ question ∈ p.begun

/-- A state that requests lead to. Cells that were loaded before are kept. All others are empty while the
computation of their entry is under way and final after it; everything that a finished computation asked about
was met before. -/
structure Sound (u : Usage) (p : Progress) : Prop where
  kept : ∀ a name, (u.progress.cell a name).memo.isLoaded = true → p.cell a name = u.progress.cell a name
  empty : ∀ a name, (a, name) ∈ p.underWay → (p.cell a name).memo = .empty
  final : ∀ a name, (u.progress.cell a name).memo.isLoaded = false → (a, name) ∈ p.begun →
    (a, name) ∉ p.underWay →
      ∃ entry result, u.Pending a name entry ∧ p.cell a name = u.finalCell a name entry ∧
        ((u.reading.plan a name entry).examine u.meaning).result = .ok result ∧
        ∀ question ∈ ((u.reading.plan a name entry).examine u.meaning).asked, u.Met p question

/-- The rest of an inquiry that has got the answers of the meaning so far: what was asked and used until now
is apart, and the cell of its entry holds the latter. -/
structure Midway (u : Usage) (a : Asset) (name : String) (entry : a.kind.Entry)
    (rest : Inquiry (Option a.Value)) (p : Progress) (asked : List (Asset × String)) (used : List Dependency) :
    Prop where
  pending : u.Pending a name entry
  findings : (u.reading.plan a name entry).examine u.meaning =
    ⟨(rest.examine u.meaning).result, asked ++ (rest.examine u.meaning).asked,
      used ++ (rest.examine u.meaning).used⟩
  cell : p.cell a name = ⟨.empty, used⟩
  met : ∀ question ∈ asked, u.Met p question

/-- An inquiry that has got all its answers, before its entry is settled. -/
structure Finished (u : Usage) (a : Asset) (name : String) (entry : a.kind.Entry)
    (result : Option a.Value) (p : Progress) : Prop where
  pending : u.Pending a name entry
  concluded : ((u.reading.plan a name entry).examine u.meaning).result = .ok result
  cell : p.cell a name = ⟨.empty, ((u.reading.plan a name entry).examine u.meaning).used⟩
  met : ∀ question ∈ ((u.reading.plan a name entry).examine u.meaning).asked, u.Met p question

theorem Midway.finished {p : Progress} {result : Option a.Value} {asked : List (Asset × String)}
    {used : List Dependency} (h : u.Midway a name entry (.done result) p asked used) :
    u.Finished a name entry result p := by
  have hfindings : (u.reading.plan a name entry).examine u.meaning = ⟨.ok result, asked, used⟩ := by
    simpa [Inquiry.examine] using h.findings
  refine ⟨h.pending, ?_, ?_, ?_⟩ <;> rw [hfindings]
  · exact h.cell
  · exact h.met

theorem Midway.mem_asked {p : Progress} {next : Answer b.Value → Inquiry (Option a.Value)}
    {asked : List (Asset × String)} {used : List Dependency}
    (h : u.Midway a name entry (.ask b other next) p asked used) :
    (b, other) ∈ ((u.reading.plan a name entry).examine u.meaning).asked := by
  rw [h.findings]
  simp [Inquiry.examine]

theorem Met.mono {p p' : Progress} {question : Asset × String} (h : u.Met p question)
    (hsub : p.begun ⊆ p'.begun) : u.Met p' question := h.imp id (@hsub _)

theorem Sound.start (h : u.progress.Rests) : u.Sound u.progress where
  kept _ _ _ := rfl
  empty _ _ hunder := by
    rw [h.idle] at hunder
    cases hunder
  final a name hloaded hbegun _ := by
    rw [h.isLoaded hbegun] at hloaded
    cases hloaded

theorem Sound.noticed {p : Progress} (h : u.Sound p) (n : Notice) : u.Sound (p.record (.noticed n)) :=
  ⟨h.kept, h.empty, h.final⟩

/-- What is not loaded now was not loaded before. -/
theorem Sound.notLoaded {p : Progress} (h : u.Sound p) (hmemo : (p.cell a name).memo.payload? = none) :
    (u.progress.cell a name).memo.isLoaded = false := by
  by_contra hloaded
  rw [Bool.not_eq_false] at hloaded
  rw [← h.kept a name hloaded, Memo.isLoaded, hmemo] at hloaded
  cases hloaded

/-- Outside computations, what is loaded was loaded before or is final. -/
theorem Sound.kept_or_final {p : Progress} (h : u.Sound p) (ho : p.Orderly)
    (hloaded : (p.cell a name).memo.isLoaded = true) :
    (u.progress.cell a name).memo.isLoaded = true ∧ p.cell a name = u.progress.cell a name ∨
      ∃ entry, u.Pending a name entry ∧ p.cell a name = u.finalCell a name entry := by
  cases hbefore : (u.progress.cell a name).memo.isLoaded with
  | true => exact .inl ⟨rfl, h.kept a name hbefore⟩
  | false =>
    have hidle : (a, name) ∉ p.underWay := by
      intro hunder
      rw [h.empty a name hunder] at hloaded
      cases hloaded
    obtain ⟨entry, -, hpending, hcell, -⟩ := h.final a name hbefore (ho.begun_of_isLoaded hloaded) hidle
    exact .inr ⟨entry, hpending, hcell⟩

/-- A loaded cell answers as the meaning does. -/
theorem Sound.cached {p : Progress} (h : u.Sound p) (ho : p.Orderly)
    (hentry : u.reading.document.entry? a.kind name = some entry) {value : a.Value}
    (hmemo : (p.cell a name).memo.payload? = some value) :
    Answer.of (some value) (p.cell a name).memo = u.meaning a name := by
  rcases h.kept_or_final ho (by rw [Memo.isLoaded, hmemo]; rfl) with ⟨hloaded, hcell⟩ | ⟨entry', hpending, hcell⟩
  · rw [meaning_loaded hentry hloaded, hcell]
    rfl
  · rw [hcell]
    exact answer_finalCell hpending.present value

/-- An inquiry starts with nothing asked and nothing used. -/
theorem Sound.midway {p : Progress} (h : u.Sound p) (ho : p.Orderly)
    (hentry : u.reading.document.entry? a.kind name = some entry)
    (hmemo : (p.cell a name).memo.payload? = none) (hidle : (a, name) ∉ p.underWay) :
    u.Midway a name entry (u.reading.plan a name entry) (p.record (.started a name)) [] [] where
  pending := ⟨hentry, h.notLoaded hmemo⟩
  findings := rfl
  cell := ho.fresh a name (ho.not_begun hmemo hidle)
  met := by simp

theorem Midway.used {p : Progress} {dependencies : List Dependency} {rest : Inquiry (Option a.Value)}
    {asked : List (Asset × String)} {used : List Dependency}
    (h : u.Midway a name entry (.use a name dependencies rest) p asked used) :
    u.Midway a name entry rest (p.modify a name (·.dependOn dependencies)) asked (used ++ dependencies) where
  pending := h.pending
  findings := by
    rw [h.findings]
    simp [Inquiry.examine]
  cell := by
    rw [Progress.cell_modify_same, h.cell]
    rfl
  met := h.met

/-- An inquiry goes on after an answer of the meaning. -/
theorem Midway.answered {p p' : Progress} {next : Answer b.Value → Inquiry (Option a.Value)}
    {asked : List (Asset × String)} {used : List Dependency}
    (h : u.Midway a name entry (.ask b other next) p asked used) (hsub : p.begun ⊆ p'.begun)
    (hcell : p'.cell a name = p.cell a name) (hmet : u.Met p' (b, other)) :
    u.Midway a name entry (next (u.meaning b other)) p' (asked ++ [(b, other)]) used where
  pending := h.pending
  findings := by
    rw [h.findings]
    simp [Inquiry.examine]
  cell := by rw [hcell, h.cell]
  met question hq := by
    rcases List.mem_append.mp hq with hq | hq
    · exact (h.met question hq).mono hsub
    · rwa [List.mem_singleton.mp hq]

theorem Sound.started {p : Progress} (h : u.Sound p) (hfresh : p.cell a name = .fresh) :
    u.Sound (p.record (.started a name)) := by
  have hsub : p.begun ⊆ (p.record (.started a name)).begun := List.subset_cons_self _ _
  refine ⟨h.kept, fun b other hb => ?_, fun b other hl hb hu => ?_⟩
  · rcases List.mem_cons.mp hb with hown | hb
    · cases hown
      rw [Progress.cell_record, hfresh]
      rfl
    · exact h.empty b other hb
  · rcases List.mem_cons.mp hb with hown | hb
    · cases hown
      exact absurd (List.mem_cons_self ..) hu
    · obtain ⟨entry, result, hpending, hcell, hresult, hmet⟩ :=
        h.final b other hl hb fun hq => hu (List.mem_cons_of_mem _ hq)
      exact ⟨entry, result, hpending, hcell, hresult, fun question hq => (hmet question hq).mono hsub⟩

/-- What is under way was not loaded before. -/
theorem Sound.kept_ne {p : Progress} (h : u.Sound p) (hown : (a, name) ∈ p.underWay)
    (hloaded : (u.progress.cell b other).memo.isLoaded = true) : ¬ (b = a ∧ other = name) := by
  rintro ⟨rfl, rfl⟩
  rw [← h.kept b other hloaded, h.empty b other hown] at hloaded
  cases hloaded

/-- Dependencies are added to the cell of an entry under way. -/
theorem Sound.dependOn {p : Progress} (h : u.Sound p) (hown : (a, name) ∈ p.underWay)
    (dependencies : List Dependency) :
    u.Sound (p.modify a name (·.dependOn dependencies)) := by
  refine ⟨fun b other hl => ?_, fun b other hb => ?_, fun b other hl hb hu => ?_⟩
  · rw [Progress.cell_modify_other _ _ (h.kept_ne hown hl)]
    exact h.kept b other hl
  · by_cases hq : b = a ∧ other = name
    · obtain ⟨rfl, rfl⟩ := hq
      rw [Progress.cell_modify_same]
      exact h.empty b other hb
    · rw [Progress.cell_modify_other _ _ hq]
      exact h.empty b other hb
  · rw [Progress.cell_modify_other]
    · exact h.final b other hl hb hu
    · rintro ⟨rfl, rfl⟩
      exact hu hown

/-- The computation of the innermost entry under way is settled. -/
theorem Sound.settled {p : Progress} {outer : List (Asset × String)} (h : u.Sound p)
    (hown : p.underWay = (a, name) :: outer) (houter : (a, name) ∉ outer)
    {result : Option a.Value} (hfinished : u.Finished a name entry result p) :
    u.Sound ((p.modify a name (·.settle (some a.invalid) result)).record
      (.settled a name result.isSome)) := by
  refine ⟨fun b other hl => ?_, fun b other hb => ?_, fun b other hl hb hu => ?_⟩
  · rw [Progress.cell_record, Progress.cell_modify_other _ _ (h.kept_ne (hown ▸ List.mem_cons_self ..) hl)]
    exact h.kept b other hl
  · simp only [Progress.underWay_record_settled, Progress.underWay_modify, hown, List.erase_cons_head] at hb
    rw [Progress.cell_record, Progress.cell_modify_other]
    · exact h.empty b other (hown ▸ List.mem_cons_of_mem _ hb)
    · rintro ⟨rfl, rfl⟩
      exact houter hb
  · simp only [Progress.underWay_record_settled, Progress.underWay_modify, hown, List.erase_cons_head] at hu
    by_cases hq : b = a ∧ other = name
    · obtain ⟨rfl, rfl⟩ := hq
      refine ⟨entry, result, hfinished.pending, ?_, hfinished.concluded, hfinished.met⟩
      rw [Progress.cell_record, Progress.cell_modify_same, hfinished.cell,
        settle_eq_finalCell hfinished.pending hfinished.concluded]
    · rw [Progress.cell_record, Progress.cell_modify_other _ _ hq]
      refine h.final b other hl hb fun hmem => ?_
      rw [hown] at hmem
      rcases List.mem_cons.mp hmem with hmem | hmem
      · cases hmem
        exact hq ⟨rfl, rfl⟩
      · exact hu hmem

/-! ### Tasks -/

/-- The computations of names under way have begun, and the names need the one that is requested. -/
def NeededBy (u : Usage) (p : Progress) (a : Asset) (underWay : List String) (name : String) : Prop :=
  ∀ outer ∈ underWay, (a, outer) ∈ p.begun ∧ u.Needs a outer a name

theorem NeededBy.mono {p p' : Progress} {underWay : List String} (h : u.NeededBy p a underWay name)
    (hsub : p.begun ⊆ p'.begun) : u.NeededBy p' a underWay name :=
  fun outer ho => ⟨hsub (h outer ho).1, (h outer ho).2⟩

/-- Names under way need what the innermost of them asks about. -/
theorem NeededBy.inside {p : Progress} {underWay : List String} (h : u.NeededBy p a underWay name)
    (hown : (a, name) ∈ p.underWay) (hneeds : u.Needs a name b other) :
    u.NeededBy p b (Reading.inside a (name :: underWay) b) other := by
  intro outer ho
  by_cases hb : b = a
  · subst hb
    rw [Reading.inside_same] at ho
    rcases List.mem_cons.mp ho with rfl | ho
    · exact ⟨Progress.begun_of_underWay hown, hneeds⟩
    · exact ⟨(h outer ho).1, (h outer ho).2.trans hneeds⟩
  · simp [Reading.inside, hb] at ho

/-- What a task comes to in a sound state. A request gets the answer of the meaning, and an inquiry that has
got right answers so far keeps getting them; names under way need the one that is requested. -/
def Exact (u : Usage) (a : Asset) : Task a → Progress → EStateM.Result Fault Progress (Option a.Value) → Prop
  | .request underWay name, p, result =>
    p.Admits a underWay → u.NeededBy p a underWay name →
      match result with
      | .ok x p' =>
        u.Sound p' ∧ u.Met p' (a, name) ∧ Answer.of x (p'.cell a name).memo = u.meaning a name
      | .error fault _ => u.LeadsTo a name fault
  | .inquiry underWay name rest, p, result =>
    p.Admits a (name :: underWay) → (a, name) ∈ p.underWay → u.NeededBy p a underWay name →
      ∀ entry asked used, u.Midway a name entry rest p asked used →
        match result with
        | .ok x p' => u.Sound p' ∧ u.Finished a name entry x p'
        | .error fault _ => u.LeadsTo a name fault

theorem runs_exact {task : Task a} {p : Progress} {result : EStateM.Result Fault Progress (Option a.Value)}
    (h : u.reading.Runs a task p result) (ho : p.Orderly) (hs : u.Sound p) : u.Exact a task p result := by
  induction h with
  | missing hentry =>
    intro _ _
    exact ⟨hs, .inl hentry, (meaning_missing hentry).symm⟩
  | cached hentry hmemo =>
    intro _ _
    exact ⟨hs, .inr (ho.begun_of_isLoaded (by rw [Memo.isLoaded, hmemo]; rfl)), hs.cached ho hentry hmemo⟩
  | @cyclic a underWay name p entry hentry hmemo hunder =>
    intro _ houter
    obtain ⟨hbegun, hneeds⟩ := houter name hunder
    refine ⟨hs.noticed _, .inr hbegun, ?_⟩
    -- the refusal is right, because the entry needs itself
    have hinvalid := (meaning_present hentry).resolve_right (not_isFound_meaning hneeds.not_found)
    rw [hinvalid, Progress.cell_record]
    cases hm : (p.cell a name).memo <;> simp [hm, Memo.payload?] at hmemo
    rfl
  | @computed a underWay name p p₁ entry result hentry hmemo hunder hrun ih =>
    intro hadmits houter
    have hidle := hadmits.not_underWay hunder
    have hbefore := ho.not_begun hmemo hidle
    have ho₁ := ho.started hmemo hidle
    have hown : (a, name) ∈ (p.record (.started a name)).underWay := List.mem_cons_self ..
    obtain ⟨hs₁, hfinished⟩ := ih ho₁ (hs.started (ho.fresh a name hbefore)) (hadmits.started name) hown
      (houter.mono (List.subset_cons_self _ _)) entry [] [] (hs.midway ho hentry hmemo hidle)
    obtain ⟨-, hsame, -, -⟩ := hrun.conduct ho₁ (hadmits.started name) hown
    have hbegun : (a, name) ∈ p₁.begun := hrun.begun_subset (List.mem_cons_self ..)
    refine ⟨hs₁.settled hsame hidle hfinished, .inr hbegun, ?_⟩
    rw [Progress.cell_record, Progress.cell_modify_same, hfinished.cell,
      settle_eq_finalCell hfinished.pending hfinished.concluded]
    exact answer_finalCell hentry _
  | @aborted a underWay name p p₁ entry fault hentry hmemo hunder hrun ih =>
    intro hadmits houter
    have hidle := hadmits.not_underWay hunder
    have hbefore := ho.not_begun hmemo hidle
    exact ih (ho.started hmemo hidle) (hs.started (ho.fresh a name hbefore)) (hadmits.started name)
      (List.mem_cons_self ..) (houter.mono (List.subset_cons_self _ _)) entry [] []
      (hs.midway ho hentry hmemo hidle)
  | done =>
    intro _ _ _ entry asked used hmid
    exact ⟨hs, hmid.finished⟩
  | @fail a underWay name p fault =>
    intro _ _ _ entry asked used hmid
    exact ⟨_, .refl, entry, hmid.pending, by rw [hmid.findings]; rfl⟩
  | note _ ih =>
    intro hadmits hown houter entry asked used hmid
    exact ih (ho.noticed _) (hs.noticed _) hadmits hown houter entry asked used
      ⟨hmid.pending, hmid.findings, hmid.cell, hmid.met⟩
  | use _ ih =>
    intro hadmits hown houter entry asked used hmid
    exact ih (ho.dependOn (Progress.begun_of_underWay hown) _) (hs.dependOn hown _) hadmits hown houter entry
      asked _ hmid.used
  | @ask a b underWay name other p p₁ next x result hmay hasked hrun ihasked ihrun =>
    intro hadmits hown houter entry asked used hmid
    have hneeds := needs_of_asked hmid.pending hmid.mem_asked
    obtain ⟨hs₁, hmet, hanswer⟩ := ihasked ho hs (hadmits.inside hmay) (houter.inside hown hneeds)
    obtain ⟨ho₁, hsame, hkeeps⟩ := hasked.conduct ho (hadmits.inside hmay)
    have hsub := hasked.begun_subset
    rw [hanswer] at ihrun
    exact ihrun ho₁ hs₁ (by rwa [Progress.Admits, hsame]) (hsame ▸ hown) (houter.mono hsub) entry _ used
      (hmid.answered hsub (hkeeps a name (.inr hown)) hmet)
  | @askAborted a b underWay name other p p₁ next fault hmay hasked ihasked =>
    intro hadmits hown houter entry asked used hmid
    have hmem := hmid.mem_asked
    have hneeds := needs_of_asked hmid.pending hmem
    obtain ⟨last, hpath, hbreaks⟩ := ihasked ho hs (hadmits.inside hmay) (houter.inside hown hneeds)
    exact ⟨last, .head ⟨entry, hmid.pending, hmem⟩ hpath, hbreaks⟩

/-! ### Requests between operations -/

/-- What a request between operations comes to. -/
theorem resolve?_exact {p : Progress} (hrests : p.Rests) (hs : u.Sound p) (a : Asset) (name : String) :
    match u.reading.resolve? a name p with
    | .ok x p' => u.Sound p' ∧ u.Met p' (a, name) ∧ Answer.of x (p'.cell a name).memo = u.meaning a name
    | .error fault _ => u.LeadsTo a name fault := by
  rw [← Reading.request_nil]
  exact runs_exact (u.reading.runs_request a [] name p) hrests.toOrderly hs (.of_idle hrests.idle a [])
    (fun _ hmem => nomatch hmem)

/-- In a sound state with nothing under way, no question of an entry that was met leads to a fault. -/
theorem Sound.not_faulty {p : Progress} (hs : u.Sound p) (hidle : p.underWay = [])
    (hmet : u.Met p (a, name)) : ¬ u.Faulty a name := by
  -- what was met and is pending was computed without a fault
  have hfinal {question : Asset × String} {entry : question.1.kind.Entry} (hmet : u.Met p question)
      (hpending : u.Pending question.1 question.2 entry) :
      ∃ result, ((u.reading.plan question.1 question.2 entry).examine u.meaning).result = .ok result ∧
        ∀ asked ∈ ((u.reading.plan question.1 question.2 entry).examine u.meaning).asked, u.Met p asked := by
    rcases hmet with hmissing | hbegun
    · rw [hpending.present] at hmissing
      cases hmissing
    · obtain ⟨entry', result, hpending', -, hresult, hall⟩ :=
        hs.final question.1 question.2 hpending.notLoaded hbegun (by simp [hidle])
      obtain rfl := hpending.unique hpending'
      exact ⟨result, hresult, hall⟩
  rintro ⟨fault, last, hpath, entry, hpending, hbreaks⟩
  have hlast : u.Met p last := by
    clear hbreaks hpending entry
    induction hpath with
    | refl => exact hmet
    | tail _ hstep ih =>
      obtain ⟨entry, hpending, hasked⟩ := hstep
      obtain ⟨-, -, hall⟩ := hfinal ih hpending
      exact hall _ hasked
  obtain ⟨result, hresult, -⟩ := hfinal hlast hpending
  rw [hbreaks] at hresult
  cases hresult

end Usage

namespace Reading

/-! ### Calls in any order -/

theorem Reaches.sound {u : Usage} {p p' : Progress} (h : u.reading.Reaches p p') (hrests : p.Rests)
    (hs : u.Sound p) : p'.Rests ∧ u.Sound p' := by
  generalize hreading : u.reading = r at h
  induction h with
  | refl p => exact ⟨hrests, hs⟩
  | notice n _ ih => exact ih (hrests.noticed n) (hs.noticed n)
  | @request p p₁ p₂ a name x hrequest _ ih =>
    subst hreading
    have hexact := u.resolve?_exact hrests hs a name
    rw [hrequest] at hexact
    exact ih (hrests.requested hrequest).1 hexact.1

/-- After calls, what is loaded is as the meaning says at the start. -/
theorem loaded_of_calls {r : Reading} {calls : List Call} {p : Progress} {a : Asset} {name : String}
    (h : Call.runAll r calls {} = .ok () p) (hloaded : (p.cell a name).memo.isLoaded = true) :
    ∃ entry, r.document.entry? a.kind name = some entry ∧
      p.cell a name = Usage.finalCell { reading := r } a name entry := by
  have hstart : Usage.Sound { reading := r } {} := .start .start
  obtain ⟨hrests, hs⟩ := Reaches.sound (u := { reading := r }) ((Call.runAll_requests r calls).ok h) .start hstart
  rcases hs.kept_or_final hrests.toOrderly hloaded with ⟨hbefore, -⟩ | ⟨entry, hpending, hcell⟩
  · rw [Progress.cell_start] at hbefore
    cases hbefore
  · exact ⟨entry, hpending.present, hcell⟩

/-- Two runs of calls without faults, whatever they ask for and in which order, agree on the cell of every
entry that both have loaded: on the value, on its validity and on the dependencies. -/
theorem resolution_order_independent (r : Reading) (calls calls' : List Call) (p p' : Progress)
    (h : Call.runAll r calls {} = .ok () p) (h' : Call.runAll r calls' {} = .ok () p') (a : Asset)
    (name : String) (hloaded : (p.cell a name).memo.isLoaded = true)
    (hloaded' : (p'.cell a name).memo.isLoaded = true) : p.cell a name = p'.cell a name := by
  obtain ⟨entry, hentry, hcell⟩ := loaded_of_calls h hloaded
  obtain ⟨entry', hentry', hcell'⟩ := loaded_of_calls h' hloaded'
  obtain rfl : entry = entry' := Option.some.inj (hentry.symm.trans hentry')
  rw [hcell, hcell']

/-- A circle of fonts may be entered at any of them. -/
theorem resolution_order_independent_circular :
    ∃ p p', Call.runAll circularFonts [.resolve .font "a"] {} = .ok () p ∧
      Call.runAll circularFonts [.resolve .font "b"] {} = .ok () p' ∧
      (p.cell .font "a").memo.isLoaded = true ∧ (p'.cell .font "a").memo.isLoaded = true ∧
      p.cell .font "a" = p'.cell .font "a" := by
  obtain ⟨p, hrun, hloaded⟩ := run_circularFonts (.inl rfl)
  obtain ⟨p', hrun', hloaded'⟩ := run_circularFonts (.inr rfl)
  have h : Call.runAll circularFonts [.resolve .font "a"] {} = .ok () p := Resolve.bind_of_ok hrun
  have h' : Call.runAll circularFonts [.resolve .font "b"] {} = .ok () p' := Resolve.bind_of_ok hrun'
  exact ⟨p, p', h, h', hloaded, hloaded', resolution_order_independent _ _ _ p p' h h' .font "a" hloaded hloaded'⟩

end Reading

end DesignTokens
