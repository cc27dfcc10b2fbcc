import DesignTokens.Proofs.Resolution.Once

/-!
# Every state of a document in use

A request passes through states in which the computations of several entries are half done, and a fault leaves
such a state behind for the calls after it. `Reading.During` says by rules which states a task passes through,
however it ends, and `Document.Reachable` which states a document can be in: between calls, some of which may
have been ended by faults, and while a call is at work. Folder, fonts and files may be others from call to call.

What is under way is not read off the history here, because computations that a fault has ended stand there as
if they were still under way. The tasks know enough by themselves: cells that are loaded, names of the own asset
that are under way, and assets of a higher level are out of their reach.

* `Reading.During.keeps` — what a task leaves alone at every moment.
* `Document.Reachable.invariant` — what notices preserve and what requests preserve at every moment holds in every
  state.
-/

namespace DesignTokens

namespace Reading

/-- The states that a task passes through. -/
inductive During (r : Reading) : (a : Asset) → Task a → Progress → Progress → Prop where
  | here {a : Asset} {task : Task a} {p : Progress} : During r a task p p
  | ended {a : Asset} {task : Task a} {p p' : Progress} {x : Option a.Value} (hrun : r.Runs a task p (.ok x p')) :
      During r a task p p'
  | inside {a : Asset} {underWay : List String} {name : String} {p q : Progress} {entry : a.kind.Entry}
      (hentry : r.document.entry? a.kind name = some entry) (hmemo : (p.cell a name).memo.payload? = none)
      (hunder : name ∉ underWay)
      (hrest : During r a (.inquiry underWay name (r.plan a name entry)) (p.record (.started a name)) q) :
      During r a (.request underWay name) p q
  | note {a : Asset} {underWay : List String} {name : String} {p q : Progress} {notice : Notice}
      {rest : Inquiry (Option a.Value)}
      (hrest : During r a (.inquiry underWay name rest) (p.record (.noticed notice)) q) :
      During r a (.inquiry underWay name (.note notice rest)) p q
  | use {a : Asset} {underWay : List String} {name : String} {p q : Progress} {dependencies : List Dependency}
      {rest : Inquiry (Option a.Value)}
      (hrest : During r a (.inquiry underWay name rest) (p.modify a name (·.dependOn dependencies)) q) :
      During r a (.inquiry underWay name (.use a name dependencies rest)) p q
  | asked {a b : Asset} {underWay : List String} {name other : String} {p q : Progress}
      {next : Answer b.Value → Inquiry (Option a.Value)} (hmay : a.MayAsk b)
      (hrest : During r b (.request (inside a (name :: underWay) b) other) p q) :
      During r a (.inquiry underWay name (.ask b other next)) p q
  | answered {a b : Asset} {underWay : List String} {name other : String} {p p' q : Progress}
      {next : Answer b.Value → Inquiry (Option a.Value)} {x : Option b.Value} (hmay : a.MayAsk b)
      (hasked : r.Runs b (.request (inside a (name :: underWay) b) other) p (.ok x p'))
      (hrest : During r a (.inquiry underWay name (next (.of x (p'.cell b other).memo))) p' q) :
      During r a (.inquiry underWay name (.ask b other next)) p q

/-- The state that a fault leaves is one that the task has passed through. -/
theorem Runs.during {r : Reading} {a : Asset} {task : Task a} {p p' : Progress} {fault : Fault}
    (h : r.Runs a task p (.error fault p')) : r.During a task p p' := by
  generalize hresult : EStateM.Result.error fault p' = result at h
  induction h with
  | missing _ => cases hresult
  | cached _ _ => cases hresult
  | cyclic _ _ _ => cases hresult
  | computed _ _ _ _ _ => cases hresult
  | aborted hentry hmemo hunder _ ih =>
    cases hresult
    exact .inside hentry hmemo hunder (ih rfl)
  | done => cases hresult
  | fail =>
    cases hresult
    exact .here
  | note _ ih => exact .note (ih hresult)
  | use _ ih => exact .use (ih hresult)
  | ask hmay hasked _ _ ihrun => exact .answered hmay hasked (ihrun hresult)
  | askAborted hmay _ ih =>
    cases hresult
    exact .asked hmay (ih rfl)

theorem during_resolve? {r : Reading} {a : Asset} {name : String} {p p' : Progress}
    (h : (∃ x, r.resolve? a name p = .ok x p') ∨ ∃ fault, r.resolve? a name p = .error fault p') :
    r.During a (.request [] name) p p' := by
  rcases h with ⟨x, h⟩ | ⟨fault, h⟩
  · exact .ended (runs_of_resolve? h)
  · exact (runs_of_resolve? h).during

/-! ### What tasks leave alone -/

/-- An entry that a task of an asset does not come to: it is neither of an asset below nor one of its own asset
that is not under way. -/
def Beyond (a : Asset) (underWay : List String) (b : Asset) (other : String) : Prop :=
  ¬ b.level < a.level ∧ (b = a → other ∈ underWay)

section Beyond

variable {a b c : Asset} {underWay : List String} {name other : String}

theorem Beyond.of_mem (h : other ∈ underWay) : Beyond a underWay a other := ⟨Nat.lt_irrefl _, fun _ => h⟩

theorem Beyond.started (h : Beyond a underWay b other) (name : String) : Beyond a (name :: underWay) b other :=
  ⟨h.1, fun hb => List.mem_cons_of_mem _ (h.2 hb)⟩

/-- What an inquiry does not come to is not come to by the requests that it makes. -/
theorem Beyond.inside (h : Beyond a underWay c other) (hmay : a.MayAsk b) :
    Beyond b (Reading.inside a underWay b) c other := by
  obtain ⟨hlevel, hunder⟩ := h
  rcases hmay with rfl | hmay
  · rw [inside_same]
    exact ⟨hlevel, hunder⟩
  · refine ⟨fun hc => hlevel (Nat.lt_trans hc hmay), ?_⟩
    rintro rfl
    exact absurd hmay hlevel

end Beyond

/-- A request keeps every cell that is loaded or beyond it. So does an inquiry, beside the cell of its own entry,
where it keeps the memo. -/
def Keeps {a : Asset} : Task a → Progress → Progress → Prop
  | .request underWay _, p, q => ∀ b other, Beyond a underWay b other ∨ (p.cell b other).memo.isLoaded = true →
    q.cell b other = p.cell b other
  | .inquiry underWay name _, p, q => (q.cell a name).memo = (p.cell a name).memo ∧
    ∀ b other, ¬ (b = a ∧ other = name) →
      Beyond a (name :: underWay) b other ∨ (p.cell b other).memo.isLoaded = true →
      q.cell b other = p.cell b other

section Keeps

variable {r : Reading} {a b : Asset} {underWay : List String} {name other : String} {p p' q : Progress}
  {rest : Inquiry (Option a.Value)}

/-- A request for an entry whose cell is empty keeps what the inquiry of the entry keeps. -/
theorem Keeps.inside {entry : a.kind.Entry} (hmemo : (p.cell a name).memo.payload? = none)
    (hunder : name ∉ underWay)
    (h : Keeps (.inquiry underWay name (r.plan a name entry)) (p.record (.started a name)) q)
    (hq : ∀ b other, ¬ (b = a ∧ other = name) → p'.cell b other = q.cell b other) :
    Keeps (.request underWay name : Task a) p p' := by
  intro b other hkept
  have hother : ¬ (b = a ∧ other = name) := by
    rintro ⟨rfl, rfl⟩
    rcases hkept with hbeyond | hloaded
    · exact hunder (hbeyond.2 rfl)
    · simp [Memo.isLoaded, hmemo] at hloaded
  rw [hq b other hother]
  exact h.2 b other hother (hkept.imp_left (·.started name))

theorem Keeps.use {dependencies : List Dependency}
    (h : Keeps (.inquiry underWay name rest) (p.modify a name (·.dependOn dependencies)) q) :
    Keeps (.inquiry underWay name (.use a name dependencies rest)) p q := by
  obtain ⟨hmemo, hkeeps⟩ := h
  refine ⟨?_, fun b other hother hkept => ?_⟩
  · rw [hmemo, Progress.memo_dependOn]
  · have hcell := Progress.cell_modify_other p (·.dependOn dependencies) hother
    rw [← hcell]
    exact hkeeps b other hother (by rwa [hcell])

/-- The cell of the entry that asks is beyond what it asks. -/
theorem Keeps.own (hmay : a.MayAsk b) (h : Keeps (.request (Reading.inside a (name :: underWay) b) other : Task b) p q) :
    q.cell a name = p.cell a name :=
  h a name (.inl ((Beyond.of_mem (List.mem_cons_self ..)).inside hmay))

theorem Keeps.asked {next : Answer b.Value → Inquiry (Option a.Value)} (hmay : a.MayAsk b)
    (h : Keeps (.request (Reading.inside a (name :: underWay) b) other : Task b) p q) :
    Keeps (.inquiry underWay name (.ask b other next)) p q :=
  ⟨by rw [h.own hmay], fun c last _ hkept => h c last (hkept.imp_left (·.inside hmay))⟩

theorem Keeps.answered {next : Answer b.Value → Inquiry (Option a.Value)} (hmay : a.MayAsk b)
    (h : Keeps (.request (Reading.inside a (name :: underWay) b) other : Task b) p p')
    (hrest : Keeps (.inquiry underWay name rest) p' q) :
    Keeps (.inquiry underWay name (.ask b other next)) p q := by
  refine ⟨by rw [hrest.1, h.own hmay], fun c last hlast hkept => ?_⟩
  have hfirst := h c last (hkept.imp_left (·.inside hmay))
  rw [← hfirst]
  exact hrest.2 c last hlast (by rwa [hfirst])

end Keeps

theorem Runs.keeps {r : Reading} {a : Asset} {task : Task a} {p p' : Progress} {x : Option a.Value}
    (h : r.Runs a task p (.ok x p')) : Keeps task p p' := by
  generalize hresult : EStateM.Result.ok x p' = result at h
  induction h generalizing p' with
  | missing _ => cases hresult; exact fun _ _ _ => rfl
  | cached _ _ => cases hresult; exact fun _ _ _ => rfl
  | cyclic _ _ _ => cases hresult; exact fun _ _ _ => rfl
  | computed _ hmemo hunder _ ih =>
    cases hresult
    exact .inside hmemo hunder (ih rfl) fun _ _ hother => Progress.cell_modify_other _ _ hother
  | aborted _ _ _ _ _ => cases hresult
  | done => cases hresult; exact ⟨rfl, fun _ _ _ _ => rfl⟩
  | fail => cases hresult
  | note _ ih => exact ih hresult
  | use _ ih => exact (ih hresult).use
  | ask hmay _ _ ihasked ihrun => exact (ihasked rfl).answered hmay (ihrun hresult)
  | askAborted _ _ _ => cases hresult

/-- Calls keep every cell that is loaded. -/
theorem Reaches.keeps {r : Reading} {b : Asset} {other : String} {p p' : Progress} (h : r.Reaches p p')
    (hloaded : (p.cell b other).memo.isLoaded = true) : p'.cell b other = p.cell b other := by
  induction h with
  | refl p => rfl
  | notice n _ ih => exact ih hloaded
  | @request p p₁ p' c last x hrequest _ ih =>
    have hruns := runs_of_resolve? hrequest
    have hsame : p₁.cell b other = p.cell b other := hruns.keeps b other (.inr hloaded)
    rw [ih (by rwa [hsame]), hsame]

theorem During.keeps {r : Reading} {a : Asset} {task : Task a} {p q : Progress} (h : r.During a task p q) :
    Keeps task p q := by
  induction h with
  | @here a task p =>
    cases task with
    | request underWay name => exact fun _ _ _ => rfl
    | inquiry underWay name rest => exact ⟨rfl, fun _ _ _ _ => rfl⟩
  | ended hrun => exact hrun.keeps
  | inside _ hmemo hunder _ ih => exact .inside hmemo hunder ih fun _ _ _ => rfl
  | note _ ih => exact ih
  | use _ ih => exact ih.use
  | asked hmay _ ih => exact ih.asked hmay
  | answered hmay hasked _ ih => exact hasked.keeps.answered hmay ih

end Reading

/-! ### The states of a document -/

namespace Document

/-- The states between calls, of which some have returned and others were ended by a fault. -/
inductive AtRest (d : Document) (within : Surroundings → Prop) : Progress → Prop where
  | start : AtRest d within {}
  | returned {s : Surroundings} {call : Call} {p p' : Progress} (hs : within s) (h : AtRest d within p)
      (hcall : call.run ⟨d, s⟩ p = .ok () p') : AtRest d within p'
  | broken {s : Surroundings} {call : Call} {p p' : Progress} {fault : Fault} (hs : within s)
      (h : AtRest d within p) (hcall : call.run ⟨d, s⟩ p = .error fault p') : AtRest d within p'

/-- The states between calls, and those during the requests that calls make. -/
inductive Reachable (d : Document) (within : Surroundings → Prop) : Progress → Prop where
  | atRest {p : Progress} (h : AtRest d within p) : Reachable d within p
  | during {s : Surroundings} {a : Asset} {name : String} {p p' q : Progress} (hs : within s)
      (h : AtRest d within p) (hreaches : Reading.Reaches ⟨d, s⟩ p p')
      (hduring : Reading.During ⟨d, s⟩ a (.request [] name) p' q) : Reachable d within q

section Invariant

variable {d : Document} {within : Surroundings → Prop} {Q : Progress → Prop}

/-- Notices preserve a property of states, and so do requests at every moment. -/
structure Upholds (d : Document) (within : Surroundings → Prop) (Q : Progress → Prop) : Prop where
  start : Q {}
  notice : ∀ (p : Progress) (n : Notice), Q p → Q (p.record (.noticed n))
  during : ∀ (s : Surroundings) (a : Asset) (name : String) (p q : Progress), within s → Q p →
    Reading.During ⟨d, s⟩ a (.request [] name) p q → Q q

namespace Upholds

theorem reaches (hQ : d.Upholds within Q) {r : Reading} {p p' : Progress} (hd : r.document = d)
    (hs : within r.surroundings) (h : r.Reaches p p') (hq : Q p) : Q p' := by
  subst hd
  induction h with
  | refl p => exact hq
  | notice n _ ih => exact ih (hQ.notice _ n hq)
  | request hrequest _ ih => exact ih (hQ.during _ _ _ _ _ hs hq (Reading.during_resolve? (.inl ⟨_, hrequest⟩)))

theorem atRest (hQ : d.Upholds within Q) {p : Progress} (h : d.AtRest within p) : Q p := by
  induction h with
  | start => exact hQ.start
  | @returned s call p p' hs _ hcall ih => exact hQ.reaches rfl hs ((call.run_requests _).ok hcall) ih
  | @broken s call p p' fault hs _ hcall ih =>
    obtain ⟨p₁, hreaches, hlast⟩ := (call.run_requests _).error hcall
    have hq : Q p₁ := hQ.reaches rfl hs hreaches ih
    rcases hlast with rfl | ⟨a, name, fault, hrequest⟩
    · exact hq
    · exact hQ.during _ _ _ _ _ hs hq (Reading.during_resolve? (.inr ⟨_, hrequest⟩))

end Upholds

theorem Reachable.invariant {p : Progress} (h : d.Reachable within p) (hQ : d.Upholds within Q) : Q p := by
  cases h with
  | atRest h => exact hQ.atRest h
  | during hs h hreaches hduring => exact hQ.during _ _ _ _ _ hs (hQ.reaches rfl hs hreaches (hQ.atRest h)) hduring

end Invariant

end Document

end DesignTokens
