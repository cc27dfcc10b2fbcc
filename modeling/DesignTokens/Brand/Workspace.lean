import DesignTokens.Brand.Log
import DesignTokens.Document.Load
import DesignTokens.Parameters

/-!
# Brands at work

A workspace is a list of brands among files. Brands load documents, answer for their entries and give
notices, which also go to the open log files. A brand that has no entry of a name passes the question on to
its fallback, another brand of the list.

A load that fails leaves the document that was there. Most failures are notices; a fault ends the load at
the place where it arises.

* `chain_of_last` — a brand without fallback answers alone.
-/

namespace DesignTokens

structure Workspace where
  files : Files := Files.empty
  brands : List Brand := []
  /-- All notices given so far, oldest first. -/
  notices : List Notice := []
  /-- The time of day as log lines show it. -/
  time : String := ""

/-- A call on a workspace. -/
abbrev Work := EStateM Fault Workspace

/-- What a source of bytes other than a file of the brand comes to. -/
inductive ByteSource where
  | ok (bytes : ByteArray)
  /-- The bytes cannot be read. -/
  | error (error : FileError)
  /-- The source fails in a way that no load expects. -/
  | fault (fault : Fault)

namespace Workspace

/-- The workspace after a notice. -/
def told (w : Workspace) (n : Notice) : Workspace :=
  let notices := w.notices ++ [n]
  if n.concernsDocument then
    let line := n.logLine w.time
    let (brands, files) := if Text.hasHalf line then (w.brands, w.files) else writeLogs line w.files w.brands
    { w with brands, files, notices }
  else { w with notices }

/-- The workspace after several notices. -/
def toldAll (w : Workspace) (ns : List Notice) : Workspace := ns.foldl told w

/-- The workspace with one brand changed. -/
def modifyBrand (w : Workspace) (i : Nat) (f : Brand → Brand) : Workspace :=
  { w with brands := w.brands.modify i f }

/-- The brand that a brand falls back on. -/
def fallback? (w : Workspace) (i : Nat) : Option Nat := w.brands[i]?.bind (·.fallback)

/-- A brand and those it falls back on, in order, as far as a number of steps leads. -/
def chainWithin (w : Workspace) : Nat → Nat → List Nat
  | 0, i => [i]
  | n + 1, i =>
    match w.fallback? i with
    | some j => i :: w.chainWithin n j
    | none => [i]

/-- A brand and those it falls back on, in order. No chain that ends is longer than the list of brands. -/
def chain (w : Workspace) (i : Nat) : List Nat := w.chainWithin w.brands.length i

theorem chain_of_last {w : Workspace} {i : Nat} (h : w.fallback? i = none) : w.chain i = [i] := by
  unfold chain
  cases w.brands.length with
  | zero => rfl
  | succ n => simp only [chainWithin, h]

/-- Whether a brand has loaded an entry. -/
def has (w : Workspace) (i : Nat) (k : Kind) (name : String) : Bool := w.brands[i]?.any (·.has k name)

/-- The first brand in the chain that has an entry. -/
def provider? (w : Workspace) (i : Nat) (k : Kind) (name : String) : Option Nat :=
  (w.chain i).find? (w.has · k name)

/-- The files after one has been deleted. What is written to a log file that is deleted is lost. -/
def delete (w : Workspace) (path : Path) : Workspace :=
  match w.files.find path with
  | .ok (.file place _) =>
    let close (b : Brand) : Brand := if b.log.any (·.place == place) then { b with log := none } else b
    { w with files := w.files.delete path, brands := w.brands.map close }
  | _ => w

end Workspace

namespace Work

/-- Gives a notice. -/
def tell (n : Notice) : Work Unit := modify (·.told n)

/-- Gives a notice on why a load fails. -/
def refuse (n : Notice) : Work Bool := do
  tell n
  return false

def modifyBrand (i : Nat) (f : Brand → Brand) : Work Unit := modify (·.modifyBrand i f)

def brand (i : Nat) : Work Brand := do return (← get).brands[i]?.getD {}

/-! ### Loading -/

/-- Closes the log file of a brand and starts a new one, if the brand writes one. -/
def startLog (i : Nat) : Work Unit := do
  modifyBrand i fun b => { b with log := none }
  if let some path := (← brand i).logPath? then
    if let some defect := path.defect? then throw (.path defect)
    match (← get).files.create path .empty with
    | .error e => throw (.file e)
    | .ok (place, files) =>
      modify fun w => { w with files }
      modifyBrand i fun b => { b with log := some ⟨place, 0⟩ }

/-- Installs a document that is decoded without problems. -/
def adopt (i : Nat) : Checked Document → Work Bool
  | .failed problems => refuse (.documentUndecodable problems.length)
  | .ok document => do
    modifyBrand i (·.install document)
    return true

/-- Installs the document in bytes of JSON. -/
def loadBytes (i : Nat) (bytes : ByteArray) : Work Bool := adopt i (Document.ofBytes bytes)

/-- Installs the document in JSON text. -/
def loadText (i : Nat) (text : String) : Work Bool := adopt i (Document.ofText text)

/-- Installs the document in bytes that come from somewhere else, or do not come at all. -/
def loadFrom (i : Nat) (source : ByteSource) : Work Bool := do
  startLog i
  match source with
  | .ok bytes => loadBytes i bytes
  | .error e => refuse (.documentUnreadable e)
  | .fault f => throw f

/-- Installs the document in a YAML file. -/
def loadYaml (i : Nat) (path : Path) : Work Bool := do
  match Document.load (← get).files path with
  | .ok document =>
    modifyBrand i (·.install document)
    return true
  | .error .notText => throw .fileNotText
  | .error (.yaml .depth) => throw .depth
  | .error (.yaml (.scalar e)) => throw (.scalar e)
  | .error e => refuse (.yamlFailure path.name e)

/-- Loads the document of a brand from its storage folder. -/
def load (i : Nat) : Work Bool := do
  match (← brand i).path? with
  | none => refuse .nothingToLoad
  | some path =>
    startLog i
    if let some defect := path.defect? then throw (.path defect)
    else if path.isYaml then loadYaml i path
    else
      match (← get).files.read path with
      | .error e => refuse (.documentUnreadable e)
      | .ok bytes => loadBytes i bytes

def unload (i : Nat) : Work Unit := modifyBrand i Brand.unload

/-! ### Answers -/

/-- A computation on the document of a brand, whose notices are given; none if nothing is loaded. -/
def onDocument {α : Type} (i : Nat) (f : Reading → Resolve α) : Work (Option α) := do
  match (← brand i).installed with
  | none => return none
  | some installed =>
    let settle (p : Progress) : Work Unit := do
      modifyBrand i (·.settle p.store)
      modify (·.toldAll p.notices)
    match (f (installed.reading (← get).files)).run { store := installed.store } with
    | .ok value p =>
      settle p
      return some value
    | .error fault p =>
      settle p
      throw fault

/-- What the first brand of the chain that has an entry makes of it, or a notice that none has. -/
def ask {α : Type} (i : Nat) (k : Kind) (name : String) (f : Reading → Resolve α) : Work (Option α) := do
  match (← get).provider? i k name with
  | some j => onDocument j f
  | none =>
    tell (.notInBrands k name)
    return none

/-- The value of an asset, the sentinel if no brand of the chain has it. -/
def value (i : Nat) (a : Asset) (name : String) : Work a.Value := do
  return (← ask i a.kind name (·.resolve a name)).getD a.invalid

/-- The entry of a kind that stands for itself. -/
def entry (i : Nat) (k : Kind) (name : String) : Work (Option k.Entry) := do
  return (← ask i k name (·.entry k name)).join

/-- What is read through the accessor of a parameter, if a brand of the chain has it. -/
def parameter {α : Type} (i : Nat) (name : String) (indirect : Bool)
    (read : Reading → Option Accessor → Resolve α) : Work (Option α) :=
  ask i .customParameters name fun r => do read r (← Accessor.ofName r name indirect)

/-- The validity of every entry of the loaded document, by asset; nothing if no document is loaded. -/
def check (i : Nat) : Work (List (Asset × List (String × Bool))) := do
  return (← onDocument i (·.check Asset.all)).getD []

end Work

end DesignTokens
