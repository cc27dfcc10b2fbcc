import DesignTokens.Proofs.Brand.Calls

/-!
# Loading again

A brand has the document of its last load that succeeded, unless it was unloaded since, and its sequence number
counts these loads. A load that fails changes nothing of this, nor any cell, whether it returns or ends in a fault.
Brands are loaded, unloaded and asked in any order meanwhile, and files may be written and deleted between any two
calls; a log file may even be the document itself.

* `Stage.keeps_account` — what one step does to the sequence number and the document of a brand.
* `Stage.keeps_brands` — a load that fails leaves all brands as they are.
* `Workspace.loads_are_atomic` — the same of every run of steps.
-/

namespace DesignTokens

namespace Stage

/-- Whether the step is a load for a brand that returns true. -/
def loads (s : Stage) (i : Nat) : Bool :=
  match s.step, s.result with
  | .load j _, .ok true _ => j == i
  | _, _ => false

/-- The document, or none, that a brand is left with by a step that loads it or unloads it. -/
def leaves? (s : Stage) (i : Nat) : Option (Option Document) :=
  match s.step with
  | .load _ l => if s.loads i then some (l.document? (s.before.brand i) s.after.files) else none
  | .unload j => if j = i then some none else none
  | _ => none

end Stage

/-- The sequence number of a brand and its document. -/
def Brand.account (b : Brand) : Nat × Option Document := (b.sequence, b.installed.map (·.document))

/-- A stage counts a load of a brand that returns true, and nothing else; it leaves the document that it says. -/
def Stage.KeepsAccount (s : Stage) (i : Nat) (b : Brand) : Prop :=
  ∃ b', s.after.brands[i]? = some b' ∧
    b'.account = (b.sequence + (if s.loads i then 1 else 0), (s.leaves? i).getD (b.installed.map (·.document)))

namespace Workspace

/-- The stages of a run of steps. Steps are taken after faults too. -/
def stages (w : Workspace) : List Step → List Stage
  | [] => []
  | step :: rest => ⟨w, step⟩ :: (Stage.mk w step).after.stages rest

/-- The workspace after a run of steps. -/
def after (w : Workspace) (steps : List Step) : Workspace := steps.foldl (fun w step => (Stage.mk w step).after) w

variable {w w' : Workspace} {i j : Nat} {b : Brand}

theorem exists_brand_of_same (h : w'.unlogged = w.unlogged) (hb : w.brands[i]? = some b) :
    ∃ b', w'.brands[i]? = some b' ∧ b'.unlogged = b.unlogged := by
  have hsame : w'.brands[i]?.map Brand.unlogged = some b.unlogged := by
    rw [← unlogged_getElem?, h, unlogged_getElem?, hb, Option.map_some]
  exact Option.map_eq_some_iff.mp hsame

theorem exists_brand_of_modify {f : Brand → Brand} (h : w'.unlogged = w.unlogged.modify j f)
    (hb : w.brands[i]? = some b) :
    ∃ b', w'.brands[i]? = some b' ∧ b'.unlogged = if j = i then f b.unlogged else b.unlogged := by
  have hchanged : w'.brands[i]?.map Brand.unlogged = some (if j = i then f b.unlogged else b.unlogged) := by
    rw [← unlogged_getElem?, h, List.getElem?_modify, unlogged_getElem?, hb]
    rfl
  exact Option.map_eq_some_iff.mp hchanged

theorem delete_unlogged (w : Workspace) (path : Path) : (w.delete path).unlogged = w.unlogged := by
  unfold delete
  split
  · refine (List.map_map ..).trans (List.map_congr_left fun b _ => ?_)
    dsimp only [Function.comp]
    split <;> rfl
  · rfl

end Workspace

namespace Stage

open Workspace

variable {s : Stage} {i : Nat} {b : Brand}

/-- What a load leaves behind that does not return true. -/
theorem keeps_brands {j : Nat} {l : Load} (hstep : s.step = .load j l) (hfails : s.loads j = false) :
    s.after.unlogged = s.before.unlogged := by
  have hloads := l.run_loads j s.before
  have hresult : s.result = l.run j s.before := by rw [result, hstep]; rfl
  rw [← hresult] at hloads
  unfold loads at hfails
  unfold after
  rw [hstep] at hfails
  generalize s.result = r at hloads hfails
  cases hloads with
  | installed hkept hdecoded => simp at hfails
  | refused hkept => exact hkept.unlogged
  | aborted hkept => exact hkept.unlogged

/-- What is accounted for does not mention log files. -/
theorem account_unlogged (b : Brand) : b.unlogged.account = b.account := rfl

theorem account_of_same {w w' : Workspace} (h : w'.unlogged = w.unlogged) (hb : w.brands[i]? = some b) :
    ∃ b', w'.brands[i]? = some b' ∧ b'.account = b.account := by
  obtain ⟨b', hb', hsame⟩ := exists_brand_of_same h hb
  exact ⟨b', hb', by rw [← account_unlogged, hsame, account_unlogged]⟩

theorem account_of_modify {w w' : Workspace} {j : Nat} {f : Brand → Brand} (h : w'.unlogged = w.unlogged.modify j f)
    (hb : w.brands[i]? = some b) :
    ∃ b', w'.brands[i]? = some b' ∧ b'.account = if j = i then (f b.unlogged).account else b.account := by
  obtain ⟨b', hb', hchanged⟩ := exists_brand_of_modify h hb
  refine ⟨b', hb', (congrArg Brand.account hchanged).trans ?_⟩
  split <;> rfl

theorem account_of_load {w : Workspace} {j : Nat} {l : Load} (hb : w.brands[i]? = some b) :
    (Stage.mk w (.load j l)).KeepsAccount i b := by
  have hloads := l.run_loads j w
  generalize hresult : l.run j w = result at hloads
  have hrun : (Stage.mk w (.load j l)).result = result := hresult
  cases hloads with
  | @installed w' document hkept hdecoded =>
    have hchanged : (w'.modifyBrand j (·.install document)).unlogged = w.unlogged.modify j (·.install document) := by
      rw [modifyBrand_unlogged (g := (·.install document)) fun _ => rfl, hkept.unlogged]
    obtain ⟨b', hb', haccount⟩ := account_of_modify hchanged hb
    simp only [KeepsAccount, after, loads, leaves?, hrun]
    refine ⟨b', hb', haccount.trans ?_⟩
    by_cases hown : j = i
    · subst hown
      have hleft : l.document? (w.brand j) (w'.modifyBrand j (·.install document)).files = some document := hdecoded
      simp only [if_true, beq_self_eq_true, hleft, Option.getD_some]
      rfl
    · simp [hown, Brand.account]
  | refused hkept =>
    simp only [KeepsAccount, after, loads, leaves?, hrun]
    exact account_of_same hkept.unlogged hb
  | aborted hkept =>
    simp only [KeepsAccount, after, loads, leaves?, hrun]
    exact account_of_same hkept.unlogged hb

theorem account_of_ask {w : Workspace} {j : Nat} {q : Query} (hb : w.brands[i]? = some b) :
    (Stage.mk w (.ask j q)).KeepsAccount i b := by
  have htouched := Stage.after_ask w j q
  generalize hafter : (Stage.mk w (.ask j q)).after = w' at htouched
  simp only [KeepsAccount, loads, leaves?, hafter]
  cases htouched with
  | told ns => exact account_of_same (w.toldAll_unlogged ns) hb
  | @settled k installed p hinstalled hleads =>
    obtain ⟨b', hb', haccount⟩ := account_of_modify (w.settled_unlogged k p) hb
    refine ⟨b', hb', haccount.trans ?_⟩
    have hsettled : ((b.unlogged).settle p.store).account = b.account := by
      simp [Brand.account, Brand.settle, Brand.unlogged, Option.map_map, Function.comp_def]
    rw [hsettled, ite_self]
    rfl

/-- One step counts a load that returns true, and nothing else; it changes the document as `leaves?` says. -/
theorem keeps_account (s : Stage) (hb : s.before.brands[i]? = some b) : s.KeepsAccount i b := by
  obtain ⟨w, step⟩ := s
  cases step with
  | load j l => exact account_of_load hb
  | unload j =>
    have hchanged : (w.modifyBrand j Brand.unload).unlogged = w.unlogged.modify j Brand.unload :=
      modifyBrand_unlogged fun _ => rfl
    obtain ⟨b', hb', haccount⟩ := account_of_modify hchanged hb
    refine ⟨b', hb', haccount.trans ?_⟩
    by_cases hown : j = i
    · simp [hown, loads, leaves?, Brand.account, Brand.unload, Brand.unlogged]
    · simp [hown, loads, leaves?, Brand.account]
  | ask j q => exact account_of_ask hb
  | write files =>
    have hsame : Workspace.unlogged { w with files } = w.unlogged := rfl
    exact account_of_same hsame hb
  | delete path => exact account_of_same (w.delete_unlogged path) hb

/-- A load that returns true has decoded a document. -/
theorem exists_document_of_loads (h : s.loads i = true) : ∃ document, s.leaves? i = some (some document) := by
  obtain ⟨w, step⟩ := s
  cases step with
  | load j l =>
    have hloads := l.run_loads j w
    generalize hresult : l.run j w = result at hloads
    have hrun : (Stage.mk w (.load j l)).result = result := hresult
    cases hloads with
    | @installed w' document hkept hdecoded =>
      have hown : j = i := by simpa [loads, hrun] using h
      subst hown
      refine ⟨document, ?_⟩
      simp only [leaves?, h, if_true, after, hrun]
      exact congrArg some hdecoded
    | refused hkept => simp [loads, hrun] at h
    | aborted hkept => simp [loads, hrun] at h
  | _ => cases h

end Stage

namespace Workspace

/-- What a run of steps counts for a brand, and what it leaves it with. -/
theorem account_after (w : Workspace) (steps : List Step) {i : Nat} {b : Brand} (hb : w.brands[i]? = some b) :
    ∃ b', (w.after steps).brands[i]? = some b' ∧
      b'.account = (b.sequence + ((w.stages steps).filter (·.loads i)).length,
        ((w.stages steps).filterMap (·.leaves? i)).getLast?.getD (b.installed.map (·.document))) := by
  induction steps generalizing w b with
  | nil => exact ⟨b, hb, rfl⟩
  | cons step rest ih =>
    let s : Stage := ⟨w, step⟩
    obtain ⟨b₁, hb₁, haccount₁⟩ := s.keeps_account hb
    obtain ⟨hsequence₁, hdocument₁⟩ := Prod.mk.inj haccount₁
    obtain ⟨b', hb', haccount⟩ := ih s.after hb₁
    refine ⟨b', hb', haccount.trans (Prod.ext ?_ ?_)⟩
    · change b₁.sequence + _ = b.sequence + (List.filter _ (s :: s.after.stages rest)).length
      rw [hsequence₁, List.filter_cons]
      split
      · simp only [List.length_cons]
        omega
      · rfl
    · change (List.getLast? _).getD (b₁.installed.map _) = (List.filterMap _ (s :: s.after.stages rest)).getLast?.getD _
      rw [hdocument₁, List.filterMap_cons]
      cases s.leaves? i with
      | none => rfl
      | some document => simp only [Option.getD_some, List.getLast?_cons]

/-- After any run of loads, unloads and questions, with files changing in between, the sequence number of a brand has
grown by the number of its loads that returned true, and its document is the one that the last of these decoded, or
none if it was unloaded since. A load that returns false or ends in a fault leaves all brands with the same sequence
number, the same document and the same cells. -/
theorem loads_are_atomic (w : Workspace) (steps : List Step) (i : Nat) (b : Brand) (hb : w.brands[i]? = some b) :
    (∃ b', (w.after steps).brands[i]? = some b' ∧
        b'.sequence = b.sequence + ((w.stages steps).filter (·.loads i)).length ∧
        b'.installed.map (·.document) =
          ((w.stages steps).filterMap (·.leaves? i)).getLast?.getD (b.installed.map (·.document))) ∧
      ∀ s ∈ w.stages steps,
        (s.loads i = true → ∃ document, s.leaves? i = some (some document)) ∧
          ∀ j l, s.step = .load j l → s.loads j = false → s.after.unlogged = s.before.unlogged := by
  obtain ⟨b', hb', haccount⟩ := w.account_after steps hb
  obtain ⟨hsequence, hdocument⟩ := Prod.mk.inj haccount
  refine ⟨⟨b', hb', hsequence, hdocument⟩, fun s _ => ⟨Stage.exists_document_of_loads, ?_⟩⟩
  intro j l hstep hfails
  exact Stage.keeps_brands hstep hfails

/-- The document of an empty object. -/
def emptyDocument : Document := ⟨some 0, {}, false⟩

theorem ofText_empty : Document.ofText "\x7b\x7d" = .ok emptyDocument := by
  have hhalf : Text.hasHalf "\x7b\x7d" = false := by decide
  have hread : Json.read? .document "\x7b\x7d" = some (.map []) := by cbv
  rw [Document.ofText_of_read? hhalf hread]
  rfl

/-- A load that succeeds and one whose source cannot be read. -/
def twoLoads : List Step := [.load 0 (.text "\x7b\x7d"), .load 0 (.source (.error .failed))]

theorem stages_twoLoads :
    (stages { brands := [{}] } twoLoads).filter (·.loads 0) = [⟨{ brands := [{}] }, .load 0 (.text "\x7b\x7d")⟩] ∧
      (stages { brands := [{}] } twoLoads).filterMap (·.leaves? 0) = [some emptyDocument] := by
  have hfirst : (Stage.mk { brands := [{}] } (.load 0 (.text "\x7b\x7d"))).result =
      .ok true { brands := [Brand.install {} emptyDocument] } := by
    change Work.adopt 0 (Document.ofText "\x7b\x7d") _ = _
    rw [ofText_empty]
    rfl
  have hsecond : ∃ w', (Stage.mk { brands := [Brand.install {} emptyDocument] }
      (.load 0 (.source (.error .failed)))).result = .ok false w' := ⟨_, rfl⟩
  obtain ⟨w', hsecond⟩ := hsecond
  constructor
  · simp [twoLoads, stages, Stage.loads, Stage.after, hfirst, hsecond]
  · simp [twoLoads, stages, Stage.leaves?, Stage.loads, Stage.after, hfirst, hsecond, Load.document?, ofText_empty,
      Checked.value?]

/-- The second of two loads fails, so the first one is counted and has its document in place. -/
theorem loads_are_atomic_unreadable :
    ∃ b', (after { brands := [{}] } twoLoads).brands[0]? = some b' ∧ b'.sequence = 1 ∧
      b'.installed.map (·.document) = some emptyDocument := by
  obtain ⟨⟨b', hb', hsequence, hdocument⟩, -⟩ := loads_are_atomic { brands := [{}] } twoLoads 0 {} rfl
  obtain ⟨hloads, hleaves⟩ := stages_twoLoads
  rw [hloads] at hsequence
  rw [hleaves] at hdocument
  exact ⟨b', hb', hsequence, hdocument⟩

end Workspace

end DesignTokens
