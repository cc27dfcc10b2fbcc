import DesignTokens.Brand.Workspace
import DesignTokens.Proofs.Resolution.Calls

/-!
# The calls of brands

A notice may add a line to every open log file, so a call may change the log files of all brands. Apart from them
(`Workspace.unlogged`) it changes no more than one brand: a load installs a document or leaves everything as it
was, and a question fills cells of the one document that answers it.

* `Load.run_loads` — what a load comes to, however it ends.
* `Query.run_asks` — what a question comes to, however it ends.
* `Stage.after` — the workspace after a load, a question or another step.
-/

namespace DesignTokens

/-- The brand apart from its log file. -/
def Brand.unlogged (b : Brand) : Brand := { b with log := none }

namespace Workspace

/-- The brands apart from their log files. -/
def unlogged (w : Workspace) : List Brand := w.brands.map Brand.unlogged

/-- The document of a brand, with what it is read with. -/
def installed? (w : Workspace) (i : Nat) : Option Installed := w.brands[i]?.bind (·.installed)

/-- The brand of a number; one that has nothing if there is none. -/
def brand (w : Workspace) (i : Nat) : Brand := w.brands[i]?.getD {}

variable {w w' : Workspace} {i : Nat}

theorem unlogged_getElem? (w : Workspace) (i : Nat) : w.unlogged[i]? = w.brands[i]?.map Brand.unlogged :=
  List.getElem?_map

theorem installed?_eq_unlogged (w : Workspace) (i : Nat) : w.installed? i = w.unlogged[i]?.bind (·.installed) := by
  rw [unlogged_getElem?, installed?]
  cases w.brands[i]? <;> rfl

theorem installed?_congr (h : w'.unlogged = w.unlogged) (i : Nat) : w'.installed? i = w.installed? i := by
  rw [installed?_eq_unlogged, installed?_eq_unlogged, h]

theorem brand_installed (w : Workspace) (i : Nat) : (w.brand i).installed = w.installed? i := by
  unfold brand installed?
  cases w.brands[i]? <;> rfl

theorem modifyBrand_unlogged {f g : Brand → Brand} (h : ∀ b, (f b).unlogged = g b.unlogged) :
    (w.modifyBrand i f).unlogged = w.unlogged.modify i g := by
  refine List.ext_getElem? fun j => ?_
  simp only [unlogged, modifyBrand, List.getElem?_map, List.getElem?_modify]
  cases w.brands[j]? with
  | none => rfl
  | some b =>
    by_cases hown : i = j
    · simp [hown, h]
    · simp [hown]

/-- A log file is opened or closed. -/
theorem modifyBrand_log (w : Workspace) (i : Nat) (log : Option LogFile) :
    (w.modifyBrand i fun b => { b with log }).unlogged = w.unlogged := by
  have hsame (b : Brand) : Brand.unlogged { b with log } = id b.unlogged := rfl
  rw [modifyBrand_unlogged hsame, List.modify_id]

end Workspace

/-! ### Notices -/

theorem writeLogs_unlogged (text : String) (files : Files) (brands : List Brand) :
    (writeLogs text files brands).1.map Brand.unlogged = brands.map Brand.unlogged := by
  induction brands generalizing files with
  | nil => rfl
  | cons b rest ih =>
    unfold writeLogs
    split
    · exact congrArg (b.unlogged :: ·) (ih _)
    · exact congrArg (b.unlogged :: ·) (ih _)

namespace Workspace

theorem told_unlogged (w : Workspace) (n : Notice) : (w.told n).unlogged = w.unlogged := by
  unfold told unlogged
  dsimp only
  split
  · split
    · rfl
    · exact writeLogs_unlogged ..
  · rfl

theorem told_notices (w : Workspace) (n : Notice) : (w.told n).notices = w.notices ++ [n] := by
  unfold told
  dsimp only
  split <;> rfl

theorem toldAll_unlogged (w : Workspace) (ns : List Notice) : (w.toldAll ns).unlogged = w.unlogged := by
  induction ns generalizing w with
  | nil => rfl
  | cons n rest ih => exact (ih (w.told n)).trans (w.told_unlogged n)

theorem toldAll_notices (w : Workspace) (ns : List Notice) : (w.toldAll ns).notices = w.notices ++ ns := by
  induction ns generalizing w with
  | nil => exact (List.append_nil _).symm
  | cons n rest ih =>
    refine (ih (w.told n)).trans ?_
    rw [told_notices, List.append_assoc, List.singleton_append]

end Workspace

/-! ### Loading -/

/-- What a decoder comes to, without the problems. -/
def Checked.value? {α : Type} : Checked α → Option α
  | .ok value => some value
  | .failed _ => none

/-- A way to load a document: from the file of the brand, from another source, or from what is at hand. -/
inductive Load : Type where
  | file
  | source (source : ByteSource)
  | bytes (bytes : ByteArray)
  | text (text : String)

namespace Load

def run (i : Nat) : Load → Work Bool
  | .file => Work.load i
  | .source given => Work.loadFrom i given
  | .bytes given => Work.loadBytes i given
  | .text given => Work.loadText i given

/-- The document that a brand decodes in a load among given files. -/
def document? (b : Brand) (files : Files) : Load → Option Document
  | .file =>
    b.path?.bind fun path =>
      if path.isYaml then (Document.load files path).toOption
      else (files.read path).toOption.bind fun bytes => (Document.ofBytes bytes).value?
  | .source (.ok given) => (Document.ofBytes given).value?
  | .source _ => none
  | .bytes given => (Document.ofBytes given).value?
  | .text given => (Document.ofText given).value?

end Load

namespace Workspace

/-- What a load does to a workspace besides installing a document: it gives notices, and it closes the log file of the
brand or opens a new one. -/
inductive Logs (i : Nat) (w : Workspace) : Workspace → Prop where
  | refl : Logs i w w
  | told {w' : Workspace} (h : Logs i w w') (n : Notice) : Logs i w (w'.told n)
  | closed {w' : Workspace} (h : Logs i w w') : Logs i w (w'.modifyBrand i fun b => { b with log := none })
  | opened {w' : Workspace} {path : Path} {place : List String} {files : Files} (h : Logs i w w')
      (hcreate : w'.files.create path .empty = .ok (place, files)) :
      Logs i w (modifyBrand { w' with files } i fun b => { b with log := some ⟨place, 0⟩ })

theorem Logs.unlogged {w w' : Workspace} {i : Nat} (h : w.Logs i w') : w'.unlogged = w.unlogged := by
  induction h with
  | refl => rfl
  | told _ n ih => exact (told_unlogged _ n).trans ih
  | closed _ ih => exact (modifyBrand_log ..).trans ih
  | opened _ _ ih => exact (modifyBrand_log ..).trans ih

end Workspace

namespace Work

theorem bind_ok {α β : Type} {c : Work α} {g : α → Work β} {w w' : Workspace} {x : α} (h : c w = .ok x w') :
    (c >>= g) w = g x w' := by
  simp only [Bind.bind, EStateM.bind, h]

theorem get_bind {α : Type} (g : Workspace → Work α) (w : Workspace) : (get >>= g : Work α) w = g w w := rfl

theorem brand_bind {α : Type} (i : Nat) (g : Brand → Work α) (w : Workspace) :
    (brand i >>= g) w = g (w.brand i) w := rfl

/-- What a load may come to: the brand has another document, or all is as before apart from log files. -/
inductive Loads (i : Nat) (l : Load) (w : Workspace) : EStateM.Result Fault Workspace Bool → Prop where
  | installed {w' : Workspace} {document : Document} (hkept : w.Logs i w')
      (hdecoded : l.document? (w.brand i) w'.files = some document) :
      Loads i l w (.ok true (w'.modifyBrand i (·.install document)))
  | refused {w' : Workspace} (hkept : w.Logs i w') : Loads i l w (.ok false w')
  | aborted {w' : Workspace} {fault : Fault} (hkept : w.Logs i w') : Loads i l w (.error fault w')

variable {i : Nat} {l : Load} {w w' : Workspace}

theorem startLog_eq (i : Nat) (w : Workspace) :
    startLog i w =
      let closed := w.modifyBrand i fun b => { b with log := none }
      match (closed.brand i).logPath? with
      | none => .ok () closed
      | some path =>
        match path.defect? with
        | some defect => .error (.path defect) closed
        | none =>
          match closed.files.create path .empty with
          | .error e => .error (.file e) closed
          | .ok (place, files) =>
            .ok () (Workspace.modifyBrand { closed with files } i fun b => { b with log := some ⟨place, 0⟩ }) := by
  let closed := w.modifyBrand i fun b => { b with log := none }
  have hclose : modifyBrand i (fun b => { b with log := none }) w = .ok () closed := rfl
  unfold startLog
  rw [bind_ok hclose, brand_bind]
  dsimp only
  cases (closed.brand i).logPath? with
  | none => rfl
  | some path =>
    dsimp only
    cases path.defect? with
    | some defect => rfl
    | none =>
      dsimp only
      rw [get_bind]
      cases closed.files.create path .empty <;> rfl

theorem refuse_loads (hkept : w.Logs i w') (n : Notice) : Loads i l w (refuse n w') := .refused (hkept.told n)

theorem adopt_loads (hkept : w.Logs i w') {decoded : Checked Document}
    (hdecoded : l.document? (w.brand i) w'.files = decoded.value?) : Loads i l w (adopt i decoded w') := by
  cases decoded with
  | failed problems => exact refuse_loads hkept _
  | ok document => exact .installed hkept hdecoded

/-- A load that starts a log file first. -/
theorem startLog_loads {rest : Work Bool} (h : ∀ w', w.Logs i w' → Loads i l w (rest w')) :
    Loads i l w ((startLog i >>= fun _ => rest) w) := by
  have hclosed : w.Logs i (w.modifyBrand i fun b => { b with log := none }) := .closed .refl
  simp only [Bind.bind, EStateM.bind, startLog_eq]
  generalize w.modifyBrand i (fun b => { b with log := none }) = closed at hclosed
  cases (closed.brand i).logPath? with
  | none => exact h closed hclosed
  | some path =>
    dsimp only
    cases path.defect? with
    | some defect => exact .aborted hclosed
    | none =>
      dsimp only
      cases hcreate : closed.files.create path .empty with
      | error e => exact .aborted hclosed
      | ok created => exact h _ (.opened hclosed hcreate)

theorem loadYaml_loads {path : Path} (hpath : (w.brand i).path? = some path) (hyaml : path.isYaml = true)
    (hkept : w.Logs i w') : Loads i .file w (loadYaml i path w') := by
  have hdecoded : Load.file.document? (w.brand i) w'.files = (Document.load w'.files path).toOption := by
    simp only [Load.document?, hpath, Option.bind_some, hyaml, if_true]
  unfold loadYaml
  rw [get_bind]
  cases hload : Document.load w'.files path with
  | ok document => exact .installed hkept (by rw [hdecoded, hload]; rfl)
  | error e =>
    match e with
    | .notText | .yaml .depth | .yaml (.scalar _) => exact .aborted hkept
    | .path _ | .file _ | .undecodable _ => exact refuse_loads hkept _
    | .yaml .character | .yaml .token | .yaml .arrangement | .yaml .reference | .yaml .value =>
      exact refuse_loads hkept _

theorem readFile_loads {path : Path} (hpath : (w.brand i).path? = some path) (hyaml : path.isYaml = false)
    (hkept : w.Logs i w') :
    Loads i .file w ((do
      match (← get).files.read path with
      | .error e => refuse (.documentUnreadable e)
      | .ok bytes => loadBytes i bytes : Work Bool) w') := by
  have hdecoded : Load.file.document? (w.brand i) w'.files =
      (w'.files.read path).toOption.bind fun bytes => (Document.ofBytes bytes).value? := by
    simp only [Load.document?, hpath, Option.bind_some, hyaml, Bool.false_eq_true, if_false]
  rw [get_bind]
  cases hread : w'.files.read path with
  | error e => exact refuse_loads hkept _
  | ok bytes => exact adopt_loads hkept (by rw [hdecoded, hread]; rfl)

theorem load_loads (i : Nat) (w : Workspace) : Loads i .file w (load i w) := by
  unfold load
  rw [brand_bind]
  cases hpath : (w.brand i).path? with
  | none => exact refuse_loads .refl _
  | some path =>
    refine startLog_loads fun w' hkept => ?_
    cases path.defect? with
    | some defect => exact .aborted hkept
    | none =>
      dsimp only
      cases hyaml : path.isYaml with
      | true => exact loadYaml_loads hpath hyaml hkept
      | false => exact readFile_loads hpath hyaml hkept

end Work

namespace Load

/-- Whatever a load does, it is one of three things. -/
theorem run_loads (i : Nat) (l : Load) (w : Workspace) : Work.Loads i l w (l.run i w) := by
  cases l with
  | file => exact Work.load_loads i w
  | source given =>
    refine Work.startLog_loads fun w' hkept => ?_
    cases given with
    | ok given => exact Work.adopt_loads hkept rfl
    | error e => exact Work.refuse_loads hkept _
    | fault f => exact .aborted hkept
  | bytes given => exact Work.adopt_loads .refl rfl
  | text given => exact Work.adopt_loads .refl rfl

end Load

/-! ### Questions -/

namespace Workspace

/-- The workspace after a call on the document of a brand has got to some state. -/
def settled (w : Workspace) (i : Nat) (p : Progress) : Workspace :=
  (w.modifyBrand i (·.settle p.store)).toldAll p.notices

/-- What a question does to a workspace: it gives notices and leads one document, at most, to another state. -/
inductive Touched (leads : Reading → Progress → Progress → Prop) (w : Workspace) : Workspace → Prop where
  | told (ns : List Notice) : Touched leads w (w.toldAll ns)
  | settled {j : Nat} {installed : Installed} {p : Progress} (hinstalled : w.installed? j = some installed)
      (hleads : leads (installed.reading w.files) { store := installed.store } p) :
      Touched leads w (w.settled j p)

variable {w w' : Workspace} {i j : Nat}

theorem Touched.mono {leads leads' : Reading → Progress → Progress → Prop} (h : w.Touched leads w')
    (hsub : ∀ {r p p'}, leads r p p' → leads' r p p') : w.Touched leads' w' := by
  cases h with
  | told ns => exact .told ns
  | settled hinstalled hleads => exact .settled hinstalled (hsub hleads)

theorem settled_unlogged (w : Workspace) (i : Nat) (p : Progress) :
    (w.settled i p).unlogged = w.unlogged.modify i (·.settle p.store) :=
  (toldAll_unlogged ..).trans (modifyBrand_unlogged fun _ => rfl)

theorem settled_notices (w : Workspace) (i : Nat) (p : Progress) :
    (w.settled i p).notices = w.notices ++ p.notices :=
  toldAll_notices ..

theorem settled_installed? {installed : Installed} {p : Progress} (h : w.installed? i = some installed) :
    (w.settled i p).installed? i = some { installed with store := p.store } := by
  rw [installed?_eq_unlogged] at h ⊢
  rw [settled_unlogged, List.getElem?_modify_eq]
  cases hb : w.unlogged[i]? with
  | none => simp [hb] at h
  | some b =>
    rw [hb, Option.bind_some] at h
    simp [Brand.settle, h]

theorem settled_installed?_other {p : Progress} (h : j ≠ i) : (w.settled i p).installed? j = w.installed? j := by
  rw [installed?_eq_unlogged, installed?_eq_unlogged, settled_unlogged, List.getElem?_modify]
  simp [h.symm]

end Workspace

namespace Work

/-- What does no more than questions do, whether it ends in a fault or not. -/
structure Asks {α : Type} (c : Work α) : Prop where
  ok : ∀ ⦃w x w'⦄, c w = .ok x w' → w.Touched Reading.Reaches w'
  error : ∀ ⦃w fault w'⦄, c w = .error fault w' → w.Touched Reading.Stops w'

section

variable {α β : Type} {w : Workspace} {i j : Nat} {k : Kind} {name : String} {f : Reading → Resolve α}

theorem onDocument_none (h : w.installed? i = none) : onDocument i f w = .ok none w := by
  rw [← w.brand_installed] at h
  unfold onDocument
  rw [brand_bind, h]
  rfl

theorem onDocument_some {installed : Installed} (h : w.installed? i = some installed) :
    onDocument i f w =
      match f (installed.reading w.files) { store := installed.store } with
      | .ok x p => .ok (some x) (w.settled i p)
      | .error fault p => .error fault (w.settled i p) := by
  rw [← w.brand_installed] at h
  unfold onDocument
  rw [brand_bind, h]
  dsimp only
  rw [get_bind]
  cases hrun : f (installed.reading w.files) { store := installed.store } with
  | ok x p =>
    simp only [EStateM.run, hrun]
    rfl
  | error fault p =>
    simp only [EStateM.run, hrun]
    rfl

theorem ask_provided (h : w.provider? i k name = some j) : ask i k name f w = onDocument j f w := by
  unfold ask
  rw [get_bind, h]

theorem ask_missing (h : w.provider? i k name = none) :
    ask i k name f w = .ok none (w.told (.notInBrands k name)) := by
  unfold ask
  rw [get_bind, h]
  rfl

theorem Asks.map {c : Work α} (h : Asks c) (g : α → β) : Asks (do return g (← c)) := by
  constructor
  · intro w y w' hrun
    cases hfirst : c w with
    | ok x w₁ =>
      simp only [Bind.bind, EStateM.bind, hfirst] at hrun
      cases hrun
      exact h.ok hfirst
    | error fault w₁ => simp [Bind.bind, EStateM.bind, hfirst] at hrun
  · intro w fault w' hrun
    cases hfirst : c w with
    | ok x w₁ =>
      simp only [Bind.bind, EStateM.bind, hfirst] at hrun
      cases hrun
    | error fault' w₁ =>
      simp only [Bind.bind, EStateM.bind, hfirst] at hrun
      cases hrun
      exact h.error hfirst

theorem onDocument_asks (h : ∀ r : Reading, r.Requests (f r)) : Asks (onDocument i f) := by
  constructor
  · intro w x w' hrun
    cases hinstalled : w.installed? i with
    | none =>
      rw [onDocument_none hinstalled] at hrun
      cases hrun
      exact .told []
    | some installed =>
      rw [onDocument_some hinstalled] at hrun
      split at hrun
      · next value p hf =>
        cases hrun
        exact .settled hinstalled ((h _).ok hf)
      · cases hrun
  · intro w fault w' hrun
    cases hinstalled : w.installed? i with
    | none =>
      rw [onDocument_none hinstalled] at hrun
      cases hrun
    | some installed =>
      rw [onDocument_some hinstalled] at hrun
      split at hrun
      · cases hrun
      · next fault' p hf =>
        cases hrun
        exact .settled hinstalled ((h _).error hf)

theorem ask_asks (h : ∀ r : Reading, r.Requests (f r)) : Asks (ask i k name f) := by
  constructor
  · intro w x w' hrun
    cases hprovider : w.provider? i k name with
    | none =>
      rw [ask_missing hprovider] at hrun
      cases hrun
      exact .told [.notInBrands k name]
    | some j =>
      rw [ask_provided hprovider] at hrun
      exact (onDocument_asks h).ok hrun
  · intro w fault w' hrun
    cases hprovider : w.provider? i k name with
    | none =>
      rw [ask_missing hprovider] at hrun
      cases hrun
    | some j =>
      rw [ask_provided hprovider] at hrun
      exact (onDocument_asks h).error hrun

end

end Work

/-- A question to a brand or to its document. -/
inductive Query : Type where
  | value (a : Asset) (name : String)
  | entry (kind : Kind) (name : String)
  | parameter (name : String) (indirect : Bool) (scopes : List String) (reader : Reader) (keyPath : String)
  | check
  | document (call : Call)

namespace Query

def run (i : Nat) : Query → Work Unit
  | .value a name => do let _ ← Work.value i a name
  | .entry kind name => do let _ ← Work.entry i kind name
  | .parameter name indirect scopes reader keyPath => do
    let _ ← Work.parameter i name indirect fun r found =>
      match found with
      | none => return
      | some accessor => do (← accessor.descend r scopes).read r keyPath reader
  | .check => do let _ ← Work.check i
  | .document call => do let _ ← Work.onDocument i call.run

theorem run_asks (i : Nat) (q : Query) : Work.Asks (q.run i) := by
  cases q with
  | value a name => exact ((Work.ask_asks fun r => r.resolve_requests a name).map _).map _
  | entry kind name => exact ((Work.ask_asks fun r => r.entry_requests kind name).map _).map _
  | parameter name indirect scopes reader keyPath =>
    refine (Work.ask_asks fun r => (Accessor.ofName_requests r name indirect).bind fun found => ?_).map _
    cases found with
    | none => exact .pure
    | some a => exact (Accessor.descend_requests r a scopes).bind fun b => Accessor.read_requests r b keyPath reader
  | check => exact ((Work.onDocument_asks fun r => r.check_requests Asset.all).map _).map _
  | document call => exact (Work.onDocument_asks fun r => call.run_requests r).map _

end Query

/-! ### Steps -/

namespace Workspace

/-- What may happen in a workspace. -/
inductive Step : Type where
  | load (i : Nat) (l : Load)
  | unload (i : Nat)
  | ask (i : Nat) (q : Query)
  | write (files : Files)
  | delete (path : Path)

/-- Takes a step. Only loads have something to return. -/
def Step.run : Step → Work Bool
  | .load i l => l.run i
  | .unload i => do Work.unload i; return false
  | .ask i q => do q.run i; return false
  | .write files => do modify ({ · with files }); return false
  | .delete path => do modify (·.delete path); return false

end Workspace

/-- A step in the workspace where it is taken. -/
structure Stage where
  before : Workspace
  step : Workspace.Step

namespace Stage

/-- What the step comes to. -/
def result (s : Stage) : EStateM.Result Fault Workspace Bool := s.step.run s.before

/-- The workspace after the step, also if it ended in a fault. -/
def after (s : Stage) : Workspace :=
  match s.result with
  | .ok _ w => w
  | .error _ w => w

theorem after_ask (w : Workspace) (i : Nat) (q : Query) : w.Touched Reading.Stops (Stage.mk w (.ask i q)).after := by
  change w.Touched Reading.Stops (match (q.run i >>= fun _ => pure false : Work Bool) w with
    | .ok _ w => w
    | .error _ w => w)
  cases hrun : q.run i w with
  | ok x w' =>
    simp only [bind, EStateM.bind, hrun]
    exact ((q.run_asks i).ok hrun).mono fun h => h.stops ⟨_, .refl _, .inl rfl⟩
  | error fault w' =>
    simp only [bind, EStateM.bind, hrun]
    exact (q.run_asks i).error hrun

end Stage

end DesignTokens
