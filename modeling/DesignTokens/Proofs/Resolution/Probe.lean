import DesignTokens.Proofs.Resolution.Meaning
import DesignTokens.Proofs.Resolution.Once

/-!
# Computing from a table

Resolvers that answer from a table make a computation walk along its inquiry: they put the answer into the
cell that is looked at next, and record the question. So what an inquiry finds when its answers are known can
be read off the computation that it stands for.

* `Reading.compute_probe` — the computation with such resolvers and the inquiry come to the same.
-/

namespace DesignTokens

open Resolve

theorem Resolve.bind_dependOn {β : Type} {a : Asset} {name : String} {dependencies : List Dependency}
    {g : Unit → Resolve β} {p : Progress} :
    (dependOn a name dependencies >>= g) p = g () (p.modify a name (·.dependOn dependencies)) := rfl

namespace Resolvers

/-- Resolvers that answer from a table. A question is recorded as a computation that begins. -/
def probe (o : Oracle) : Resolvers := fun a name => do
  record (.started a name)
  modifyCell a name fun c => { c with memo := match o a name with
    | .found value => .valid value
    | _ => .empty }
  return match o a name with
    | .missing => none
    | _ => some a.invalid

theorem answer_probe (o : Oracle) (a : Asset) (name : String) (p : Progress) :
    ∃ p', (probe o).answer a name p = .ok (o a name) p' ∧ p'.begun = (a, name) :: p.begun := by
  let f : Cell a.Value → Cell a.Value := fun c => { c with memo := match o a name with
    | .found value => .valid value
    | _ => .empty }
  let p' := (p.record (.started a name)).modify a name f
  have hmemo : (p'.cell a name).memo = match o a name with
      | .found value => .valid value
      | _ => .empty := by
    rw [Progress.cell_modify_same]
  have hrun : (probe o).answer a name p =
      .ok (Answer.of (match o a name with | .missing => none | _ => some a.invalid) (p'.cell a name).memo) p' := rfl
  refine ⟨p', ?_, rfl⟩
  rw [hrun, hmemo]
  cases o a name <;> rfl

theorem metric_probe (o : Oracle) (name : String) (p : Progress) :
    ∃ p', (probe o).metric name p = .ok (o .metric name).toMetric p' ∧ p'.begun = (.metric, name) :: p.begun := by
  obtain ⟨p', hanswer, hbegun⟩ := answer_probe o .metric name p
  exact ⟨p', bind_of_ok hanswer, hbegun⟩

theorem color_probe (o : Oracle) (name : String) (p : Progress) :
    ∃ p', (probe o).color name p = .ok (o .color name).toColor p' ∧ p'.begun = (.color, name) :: p.begun := by
  obtain ⟨p', hanswer, hbegun⟩ := answer_probe o .color name p
  exact ⟨p', bind_of_ok hanswer, hbegun⟩

/-- A reference is fetched in vain if the table does not find it. -/
theorem fetch_probe {o : Oracle} {a : Asset} {name : String} (h : ¬ (o a name).IsFound) (key : String)
    (user : Kind) (p : Progress) :
    ∃ p', fetch a (probe o a) name key user p = .ok none p' ∧ p'.begun = (a, name) :: p.begun := by
  obtain ⟨p', hanswer, hbegun⟩ := answer_probe o a name p
  rw [fetch_eq, bind_of_ok hanswer]
  cases hx : o a name with
  | missing => exact ⟨_, rfl, hbegun⟩
  | invalid => exact ⟨_, rfl, hbegun⟩
  | found value => exact absurd ⟨value, hx⟩ h

end Resolvers

/-- The outcome of findings in some state. -/
def Findings.inState {α : Type} (f : Findings α) (p : Progress) : EStateM.Result Fault Progress α :=
  match f.result with
  | .ok value => .ok value p
  | .error fault => .error fault p

theorem Inquiry.run_probe {α : Type} (o : Oracle) (t : Inquiry α) (p : Progress) :
    ∃ p', t.run (.probe o) p = (t.examine o).inState p' ∧ p'.begun = (t.examine o).asked.reverse ++ p.begun := by
  induction t generalizing p with
  | done value => exact ⟨p, rfl, rfl⟩
  | fail fault => exact ⟨p, rfl, rfl⟩
  | note notice rest ih => exact ih (p.record (.noticed notice))
  | use a name dependencies rest ih => exact ih (p.modify a name (·.dependOn dependencies))
  | ask a name next ih =>
    obtain ⟨p₁, hanswer, hbegun₁⟩ := Resolvers.answer_probe o a name p
    obtain ⟨p', hrun, hbegun⟩ := ih (o a name) p₁
    refine ⟨p', ?_, ?_⟩
    · exact (bind_of_ok hanswer).trans hrun
    · rw [hbegun, hbegun₁]
      simp [examine]

/-- A good outcome with a table rests on what had to hold before. -/
theorem Inquires.before_of_probe {α : Type} {asks : Asset → Prop} {writes : Asset → String → Prop} {before : Prop}
    {good : α → Prop} {f : Resolvers → Resolve α} (h : Inquires asks writes before good f) {o : Oracle}
    {p p' : Progress} {value : α} (hrun : f (.probe o) p = .ok value p') (hgood : good value) : before := by
  obtain ⟨t, heq, -, hearns⟩ := h
  obtain ⟨p₁, hprobe, -⟩ := t.run_probe o p
  rw [← heq, hrun, Findings.inState] at hprobe
  cases hresult : (t.examine o).result with
  | error fault => simp [hresult] at hprobe
  | ok other =>
    rw [hresult] at hprobe
    cases hprobe
    exact (hearns o value hresult hgood).1

namespace Reading

/-- The computation of an entry from a table is what its inquiry finds with that table. -/
theorem compute_probe (r : Reading) (o : Oracle) (a : Asset) (name : String) (entry : a.kind.Entry)
    (p : Progress) :
    ∃ p', r.compute (.probe o) a name entry p = ((r.plan a name entry).examine o).inState p' ∧
      p'.begun = ((r.plan a name entry).examine o).asked.reverse ++ p.begun := by
  rw [← run_plan]
  exact Inquiry.run_probe o (r.plan a name entry) p

section Result

variable {r : Reading} {o : Oracle} {a : Asset} {name : String} {entry : a.kind.Entry}

theorem result_eq_ok_iff {x : Option a.Value} :
    ((r.plan a name entry).examine o).result = .ok x ↔
      ∃ p', r.compute (.probe o) a name entry {} = .ok x p' := by
  obtain ⟨p', hrun, -⟩ := r.compute_probe o a name entry {}
  rw [hrun, Findings.inState]
  cases ((r.plan a name entry).examine o).result <;> simp

theorem examine_eq_of_compute {x : Option a.Value} {p' : Progress}
    (h : r.compute (.probe o) a name entry {} = .ok x p') :
    ((r.plan a name entry).examine o).result = .ok x ∧
      ((r.plan a name entry).examine o).asked = p'.begun.reverse := by
  obtain ⟨p₁, hrun, hbegun⟩ := r.compute_probe o a name entry {}
  rw [h, Findings.inState] at hrun
  cases hresult : ((r.plan a name entry).examine o).result with
  | error fault => simp [hresult] at hrun
  | ok y =>
    rw [hresult] at hrun
    cases hrun
    refine ⟨rfl, ?_⟩
    rw [hbegun, show ({} : Progress).begun = [] from rfl, List.append_nil, List.reverse_reverse]

theorem result_eq_error_iff {fault : Fault} :
    ((r.plan a name entry).examine o).result = .error fault ↔
      ∃ p', r.compute (.probe o) a name entry {} = .error fault p' := by
  obtain ⟨p', hrun, -⟩ := r.compute_probe o a name entry {}
  rw [hrun, Findings.inState]
  cases ((r.plan a name entry).examine o).result <;> simp

end Result

end Reading

end DesignTokens
