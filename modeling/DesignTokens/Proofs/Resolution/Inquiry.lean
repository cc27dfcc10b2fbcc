import Mathlib.Tactic.Choose
import DesignTokens.Resolution.Document

/-!
# Computations as inquiries

The computation of an entry learns about other entries in one way only: it requests them and looks at what
their cells hold then. So it is a tree, an inquiry, that branches on answers. The same tree can be walked in
two ways. `Inquiry.run` puts the questions to resolvers and works on cells; `Inquiry.examine` takes the
answers from a table and touches nothing. What a resolver does with cells can then be compared with what the
document means.

`Inquires` says of a computation that it is the run of some inquiry, together with the questions it may ask,
the cells it may write to, and the one thing that all kinds of entries have in common: a good outcome has
met with nothing but valid entries (`Inquiry.Earns`).

* `Inquiry.run_bind`, `Inquiry.examine_bind` — both walks go through one inquiry after another.
* `Inquiry.examine_congr` — only the answers to questions that are asked matter.
-/

namespace DesignTokens

open Resolve

variable {α β : Type}

theorem Resolve.bind_of_ok {f : Resolve α} {g : α → Resolve β} {p p' : Progress} {x : α}
    (h : f p = .ok x p') : (f >>= g) p = g x p' := by
  simp only [Bind.bind, EStateM.bind, h]

theorem Resolve.bind_eq_ok_iff {f : Resolve α} {g : α → Resolve β} {p p'' : Progress} {y : β} :
    (f >>= g) p = .ok y p'' ↔ ∃ x p', f p = .ok x p' ∧ g x p' = .ok y p'' := by
  cases hf : f p with
  | error fault p' => simp [Bind.bind, EStateM.bind, hf]
  | ok x p' =>
    rw [bind_of_ok hf]
    constructor
    · intro h
      exact ⟨x, p', rfl, h⟩
    · rintro ⟨_, _, h, h'⟩
      cases h
      exact h'

theorem Resolve.bind_eq_error_iff {f : Resolve α} {g : α → Resolve β} {p p'' : Progress} {fault : Fault} :
    (f >>= g) p = .error fault p'' ↔
      f p = .error fault p'' ∨ ∃ x p', f p = .ok x p' ∧ g x p' = .error fault p'' := by
  cases hf : f p with
  | error fault' p' => simp [Bind.bind, EStateM.bind, hf]
  | ok x p' =>
    rw [bind_of_ok hf]
    constructor
    · intro h
      exact .inr ⟨x, p', rfl, h⟩
    · rintro (h | ⟨_, _, h, h'⟩)
      · cases h
      · cases h
        exact h'

theorem Resolve.lift_eq_ok_iff {e : Except Fault α} {x : α} {p p' : Progress} :
    lift e p = .ok x p' ↔ e = .ok x ∧ p' = p := by
  cases e with
  | error fault =>
    constructor
    · intro h
      cases h
    · rintro ⟨h, -⟩
      cases h
  | ok y =>
    constructor
    · intro h
      cases h
      exact ⟨rfl, rfl⟩
    · rintro ⟨h, rfl⟩
      cases h
      rfl

theorem Resolve.reject_ne_some {n : Notice} {p p' : Progress} {x : α} :
    (reject n : Resolve (Option α)) p ≠ .ok (some x) p' := by
  intro h
  cases h

/-- What is learnt about an entry that is requested. -/
inductive Answer (α : Type) where
  | missing
  | invalid
  | found (value : α)

namespace Answer

def IsFound (x : Answer α) : Prop := ∃ value, x = .found value

/-- What a resolver's result and the cell after it say about an entry. -/
def of (requested : Option α) (memo : Memo α) : Answer α :=
  match requested with
  | none => .missing
  | some _ =>
    match memo.value? with
    | some value => .found value
    | none => .invalid

@[simp] theorem isFound_found (value : α) : (Answer.found value).IsFound := ⟨value, rfl⟩

@[simp] theorem not_isFound_missing : ¬ (Answer.missing : Answer α).IsFound := by
  rintro ⟨_, h⟩; cases h

@[simp] theorem not_isFound_invalid : ¬ (Answer.invalid : Answer α).IsFound := by
  rintro ⟨_, h⟩; cases h

/-- What an answer means inside a metric expression. -/
def toMetric : Answer Float → MetricLookup
  | .missing => .missing
  | .invalid => .invalid
  | .found value => .found value

/-- What an answer means where colors are looked up. -/
def toColor : Answer Color → ColorText.Lookup
  | .missing => .missing
  | .invalid => .invalid
  | .found value => .found value

end Answer

/-- Resolvers for all assets. -/
abbrev Resolvers := (a : Asset) → String → Resolve (Option a.Value)

namespace Resolvers

/-- Puts a question to the resolvers. -/
def answer (q : Resolvers) (a : Asset) (name : String) : Resolve (Answer a.Value) := do
  let requested ← q a name
  return .of requested (← cell a name).memo

def metric (q : Resolvers) : Metric.Lookup := fun name => do
  return (← q.answer .metric name).toMetric

def color (q : Resolvers) (name : String) : Resolve ColorText.Lookup := do
  return (← q.answer .color name).toColor

/-- Metrics are looked up by requesting them and reading their cells. -/
theorem metric_eq (q : Resolvers) :
    q.metric = fun name => do
      match ← q .metric name with
      | none => return .missing
      | some _ =>
        match (← cell .metric name).memo.value? with
        | some value => return .found value
        | none => return .invalid := by
  funext name
  simp only [metric, answer, bind_assoc, pure_bind]
  refine bind_congr fun requested => ?_
  cases requested with
  | none => rfl
  | some _ =>
    refine bind_congr fun c => ?_
    cases h : c.memo.value? <;> simp [Answer.of, Answer.toMetric, h]

theorem color_eq (q : Resolvers) :
    q.color = fun name => do
      match ← q .color name with
      | none => return .missing
      | some _ =>
        match (← cell .color name).memo.value? with
        | some value => return .found value
        | none => return .invalid := by
  funext name
  simp only [color, answer, bind_assoc, pure_bind]
  refine bind_congr fun requested => ?_
  cases requested with
  | none => rfl
  | some _ =>
    refine bind_congr fun c => ?_
    cases h : c.memo.value? <;> simp [Answer.of, Answer.toColor, h]

theorem fetch_eq (q : Resolvers) (a : Asset) (name key : String) (user : Kind) :
    fetch a (q a) name key user = do
      match ← q.answer a name with
      | .missing => reject (.missingReference user key name)
      | .invalid => reject (.invalidReference user key name)
      | .found value => return some value := by
  simp only [fetch, answer, bind_assoc, pure_bind]
  refine bind_congr fun requested => ?_
  cases requested with
  | none => rfl
  | some _ =>
    refine bind_congr fun c => ?_
    cases h : c.memo.value? <;> simp [Answer.of, h]

end Resolvers

/-- A computation that asks about entries. -/
inductive Inquiry (α : Type) where
  | done (value : α)
  | fail (fault : Fault)
  | note (notice : Notice) (rest : Inquiry α)
  /-- Adds dependencies to the cell of an entry. -/
  | use (a : Asset) (name : String) (dependencies : List Dependency) (rest : Inquiry α)
  | ask (a : Asset) (name : String) (next : Answer a.Value → Inquiry α)

/-- What all questions would be answered. -/
abbrev Oracle := (a : Asset) → String → Answer a.Value

/-- What an inquiry comes to when its answers are known. -/
structure Findings (α : Type) where
  result : Except Fault α
  asked : List (Asset × String) := []
  used : List Dependency := []

namespace Inquiry

def bind : Inquiry α → (α → Inquiry β) → Inquiry β
  | .done value, f => f value
  | .fail fault, _ => .fail fault
  | .note notice rest, f => .note notice (rest.bind f)
  | .use a name dependencies rest, f => .use a name dependencies (rest.bind f)
  | .ask a name next, f => .ask a name fun x => (next x).bind f

/-- The inquiry with its questions put to resolvers. -/
def run (q : Resolvers) : Inquiry α → Resolve α
  | .done value => pure value
  | .fail fault => throw fault
  | .note notice rest => do warn notice; rest.run q
  | .use a name dependencies rest => do dependOn a name dependencies; rest.run q
  | .ask a name next => do (next (← q.answer a name)).run q

/-- The inquiry with its questions answered from a table. -/
def examine (o : Oracle) : Inquiry α → Findings α
  | .done value => { result := .ok value }
  | .fail fault => { result := .error fault }
  | .note _ rest => rest.examine o
  | .use _ _ dependencies rest =>
    let f := rest.examine o
    { f with used := dependencies ++ f.used }
  | .ask a name next =>
    let f := (next (o a name)).examine o
    { f with asked := (a, name) :: f.asked }

/-- An inquiry that asks about `asks` alone and writes to the cells in `writes` alone, whatever it is told. -/
def Within (asks : Asset → Prop) (writes : Asset → String → Prop) : Inquiry α → Prop
  | .done _ => True
  | .fail _ => True
  | .note _ rest => rest.Within asks writes
  | .use a name _ rest => writes a name ∧ rest.Within asks writes
  | .ask a _ next => asks a ∧ ∀ x, (next x).Within asks writes

/-- An inquiry with a good outcome only if things stood well before and it met with valid entries only. -/
def Earns (before : Prop) (good : α → Prop) (t : Inquiry α) : Prop :=
  ∀ o value, (t.examine o).result = .ok value → good value →
    before ∧ ∀ question ∈ (t.examine o).asked, (o question.1 question.2).IsFound

theorem run_bind (q : Resolvers) (t : Inquiry α) (f : α → Inquiry β) :
    (t.bind f).run q = t.run q >>= fun value => (f value).run q := by
  induction t with
  | done value => simp [bind, run]
  | fail fault => rfl
  | note notice rest ih => simp [bind, run, ih]
  | use a name dependencies rest ih => simp [bind, run, ih]
  | ask a name next ih => simp [bind, run, ih]

theorem examine_bind (o : Oracle) (t : Inquiry α) (f : α → Inquiry β) :
    (t.bind f).examine o =
      match (t.examine o).result with
      | .error fault => ⟨.error fault, (t.examine o).asked, (t.examine o).used⟩
      | .ok value =>
        ⟨((f value).examine o).result, (t.examine o).asked ++ ((f value).examine o).asked,
          (t.examine o).used ++ ((f value).examine o).used⟩ := by
  induction t with
  | done value => simp [bind, examine]
  | fail fault => simp [bind, examine]
  | note notice rest ih => simpa [bind, examine] using ih
  | use a name dependencies rest ih =>
    simp only [bind, examine, ih]
    cases (rest.examine o).result <;> simp
  | ask a name next ih =>
    simp only [bind, examine, ih]
    cases ((next (o a name)).examine o).result <;> simp

theorem Within.bind {asks : Asset → Prop} {writes : Asset → String → Prop} {t : Inquiry α}
    {f : α → Inquiry β} (ht : t.Within asks writes) (hf : ∀ value, (f value).Within asks writes) :
    (t.bind f).Within asks writes := by
  induction t with
  | done value => exact hf value
  | fail fault => trivial
  | note notice rest ih => exact ih ht
  | use a name dependencies rest ih => exact ⟨ht.1, ih ht.2⟩
  | ask a name next ih => exact ⟨ht.1, fun x => ih x (ht.2 x)⟩

theorem Within.asked {asks : Asset → Prop} {writes : Asset → String → Prop} {t : Inquiry α}
    (h : t.Within asks writes) (o : Oracle) : ∀ question ∈ (t.examine o).asked, asks question.1 := by
  induction t with
  | done value => simp [examine]
  | fail fault => simp [examine]
  | note notice rest ih => exact ih h
  | use a name dependencies rest ih => exact ih h.2
  | ask a name next ih =>
    intro question hq
    rcases List.mem_cons.mp hq with rfl | hq
    · exact h.1
    · exact ih _ (h.2 _) question hq

/-- Tables that agree on the questions asked lead to the same findings. -/
theorem examine_congr {o o' : Oracle} (t : Inquiry α)
    (h : ∀ question ∈ (t.examine o).asked, o' question.1 question.2 = o question.1 question.2) :
    t.examine o' = t.examine o := by
  induction t with
  | done value => rfl
  | fail fault => rfl
  | note notice rest ih => exact ih h
  | use a name dependencies rest ih => simp only [examine, ih h]
  | ask a name next ih =>
    have hask : o' a name = o a name := h (a, name) (List.mem_cons_self ..)
    simp only [examine, hask]
    rw [ih (o a name) fun question hq => h question (List.mem_cons_of_mem _ hq)]

end Inquiry

/-- A computation is an inquiry that asks about `asks` alone, writes to the cells in `writes` alone and earns
its good outcomes. -/
def Inquires (asks : Asset → Prop) (writes : Asset → String → Prop) (before : Prop) (good : α → Prop)
    (f : Resolvers → Resolve α) : Prop :=
  ∃ t : Inquiry α, (∀ q, f q = t.run q) ∧ t.Within asks writes ∧ t.Earns before good

namespace Inquires

variable {asks : Asset → Prop} {writes : Asset → String → Prop} {before : Prop} {good : α → Prop}

theorem pure {value : α} (h : good value → before) : Inquires asks writes before good fun _ => pure value :=
  ⟨.done value, fun _ => rfl, trivial, fun _ _ hx hg => by
    cases hx
    exact ⟨h hg, by simp [Inquiry.examine]⟩⟩

theorem throw {fault : Fault} : Inquires asks writes before good fun _ => throw fault :=
  ⟨.fail fault, fun _ => rfl, trivial, fun _ _ hx => by cases hx⟩

theorem warn {notice : Notice} {f : Resolvers → Resolve α} (h : Inquires asks writes before good f) :
    Inquires asks writes before good (fun q => do Resolve.warn notice; f q) := by
  obtain ⟨t, hrun, hwithin, hearns⟩ := h
  exact ⟨.note notice t, fun q => by simp only [Inquiry.run, hrun], hwithin, hearns⟩

theorem reject {notice : Notice} {good : Option α → Prop} (h : ¬ good none) :
    Inquires asks writes before good fun _ => reject notice :=
  warn (pure fun hg => absurd hg h)

theorem dependOn {a : Asset} {name : String} {dependencies : List Dependency} {f : Resolvers → Resolve α}
    (hw : writes a name) (h : Inquires asks writes before good f) :
    Inquires asks writes before good (fun q => do Resolve.dependOn a name dependencies; f q) := by
  obtain ⟨t, hrun, hwithin, hearns⟩ := h
  exact ⟨.use a name dependencies t, fun q => by simp only [Inquiry.run, hrun], ⟨hw, hwithin⟩, hearns⟩

theorem answer {a : Asset} {name : String} {g : Answer a.Value → Resolvers → Resolve α} (ha : asks a)
    (h : ∀ x, Inquires asks writes (before ∧ x.IsFound) good (g x)) :
    Inquires asks writes before good (fun q => do g (← q.answer a name) q) := by
  choose next hrun hwithin hearns using h
  refine ⟨.ask a name next, fun q => by simp only [Inquiry.run, hrun], ⟨ha, hwithin⟩, ?_⟩
  intro o value hx hg
  obtain ⟨⟨hbefore, hfound⟩, hrest⟩ := hearns (o a name) o value hx hg
  refine ⟨hbefore, fun question hq => ?_⟩
  rcases List.mem_cons.mp hq with rfl | hq
  · exact hfound
  · exact hrest question hq

theorem bind {f : Resolvers → Resolve α} {good : α → Prop} {g : α → Resolvers → Resolve β} {best : β → Prop}
    (hf : Inquires asks writes before good f) (hg : ∀ x, Inquires asks writes (good x) best (g x)) :
    Inquires asks writes before best (fun q => do g (← f q) q) := by
  obtain ⟨t, hrun, hwithin, hearns⟩ := hf
  choose next hrun' hwithin' hearns' using hg
  refine ⟨t.bind next, fun q => by simp only [Inquiry.run_bind, hrun, hrun'], hwithin.bind hwithin', ?_⟩
  intro o value hx hbest
  rw [Inquiry.examine_bind] at hx ⊢
  cases ht : (t.examine o).result with
  | error fault => simp [ht] at hx
  | ok first =>
    simp only [ht] at hx ⊢
    obtain ⟨hgood, hlast⟩ := hearns' first o value hx hbest
    obtain ⟨hbefore, hfirst⟩ := hearns o first ht hgood
    refine ⟨hbefore, fun question hq => ?_⟩
    rcases List.mem_append.mp hq with hq | hq
    · exact hfirst question hq
    · exact hlast question hq

theorem weaken {before' : Prop} {f : Resolvers → Resolve α} (h : Inquires asks writes before' good f)
    (hb : before' → before) : Inquires asks writes before good f := by
  obtain ⟨t, hrun, hwithin, hearns⟩ := h
  refine ⟨t, hrun, hwithin, fun o value hx hg => ?_⟩
  obtain ⟨hbefore, hasked⟩ := hearns o value hx hg
  exact ⟨hb hbefore, hasked⟩

theorem lift {e : Except Fault β} {g : β → Resolvers → Resolve α}
    (h : ∀ x, Inquires asks writes before good (g x)) :
    Inquires asks writes before good (fun q => do g (← Resolve.lift e) q) := by
  cases e with
  | error fault => exact throw
  | ok x => simpa only [Resolve.lift, pure_bind] using h x

theorem metric {name : String} {g : MetricLookup → Resolvers → Resolve α} (ha : asks .metric)
    (h : ∀ x : Answer Float, Inquires asks writes (before ∧ x.IsFound) good (g x.toMetric)) :
    Inquires asks writes before good (fun q => do g (← q.metric name) q) := by
  simpa only [Resolvers.metric, bind_assoc, pure_bind] using answer ha h

theorem color {name : String} {g : ColorText.Lookup → Resolvers → Resolve α} (ha : asks .color)
    (h : ∀ x : Answer Color, Inquires asks writes (before ∧ x.IsFound) good (g x.toColor)) :
    Inquires asks writes before good (fun q => do g (← q.color name) q) := by
  simpa only [Resolvers.color, bind_assoc, pure_bind] using answer ha h

/-- A reference that is fetched is good if it leads to a valid entry. -/
theorem fetch {a : Asset} {name key : String} {user : Kind} (ha : asks a) :
    Inquires asks writes before (fun x => before ∧ x.isSome = true)
      fun q => DesignTokens.fetch a (q a) name key user := by
  simp only [Resolvers.fetch_eq]
  refine answer ha fun x => ?_
  cases x with
  | missing => exact reject (by simp)
  | invalid => exact reject (by simp)
  | found value => exact pure (by simp)

end Inquires

end DesignTokens
