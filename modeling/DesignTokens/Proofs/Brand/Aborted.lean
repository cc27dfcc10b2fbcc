import DesignTokens.Proofs.Brand.Calls

/-!
# Loads that end in a fault

A load returns whether it has installed a document, so a load that fails should return false. It does wherever a file or
a source cannot be read, wherever JSON is malformed and wherever data do not decode. It does not in the places that
`Load.Hazard` lists: the log file is opened before anything is guarded, a path that no file can have is found out by the
reader of the file, and the reader of YAML knows fewer errors than can arise in it.

* `Load.run_ends` — a load ends in the fault of a hazard, or returns whether there is a document.
* `Workspace.load_returns_or_hazard` — the same as an equivalence.
* `Workspace.not_always_returns` — a YAML file that is no text.
-/

namespace DesignTokens

/-- The files among which a brand reads its document, after it has started its log file. -/
def Brand.filesLogged (b : Brand) (files : Files) : Except Fault Files :=
  match b.logPath? with
  | none => .ok files
  | some path =>
    match path.defect? with
    | some defect => .error (.path defect)
    | none =>
      match files.create path .empty with
      | .error e => .error (.file e)
      | .ok (_, files) => .ok files

namespace Load

/-- The files among which a load takes place. What is at hand needs no log file. -/
def filesSeen (b : Brand) (files : Files) : Load → Except Fault Files
  | .file | .source _ => b.filesLogged files
  | .bytes _ | .text _ => .ok files

/-- The content of a YAML file that is not read as YAML, and not refused either. -/
inductive YamlHazard (content : ByteArray) : Fault → Prop where
  | notText (htext : String.fromUTF8? content = none) : YamlHazard content .fileNotText
  | depth {text : String} (htext : String.fromUTF8? content = some text)
      (hread : Yaml.read (String.ofList (Document.withLineFeeds text.toList)) = .error .depth) :
      YamlHazard content .depth
  | scalar {text : String} {e : Yaml.ScalarError} (htext : String.fromUTF8? content = some text)
      (hread : Yaml.read (String.ofList (Document.withLineFeeds text.toList)) = .error (.scalar e)) :
      YamlHazard content (.scalar e)

/-- The faults that a load of a brand may end in. -/
inductive Hazard (b : Brand) (files : Files) : Load → Fault → Prop where
  /-- The log file cannot be created. -/
  | log {l : Load} {fault : Fault} (hlog : l.filesSeen b files = .error fault) : Hazard b files l fault
  /-- No file can have the path of the document. -/
  | path {path : Path} {defect : Path.Defect} {seen : Files} (hlog : b.filesLogged files = .ok seen)
      (hpath : b.path? = some path) (hdefect : path.defect? = some defect) : Hazard b files .file (.path defect)
  | yaml {path : Path} {seen : Files} {content : ByteArray} {fault : Fault} (hlog : b.filesLogged files = .ok seen)
      (hpath : b.path? = some path) (hdefect : path.defect? = none) (hyaml : path.isYaml = true)
      (hcontent : seen.read path = .ok content) (hhazard : YamlHazard content fault) : Hazard b files .file fault
  /-- The source fails in a way of its own. -/
  | source {seen : Files} {fault : Fault} (hlog : b.filesLogged files = .ok seen) :
      Hazard b files (.source (.fault fault)) fault

variable {b : Brand} {files : Files} {l : Load} {fault fault' : Fault}

theorem YamlHazard.unique {content : ByteArray} (h : YamlHazard content fault) (h' : YamlHazard content fault') :
    fault = fault' := by
  cases h <;> cases h' <;> simp_all

theorem Hazard.unique (h : l.Hazard b files fault) (h' : l.Hazard b files fault') : fault = fault' := by
  cases h with
  | log hlog =>
    cases h' with
    | log hlog' => exact Except.error.inj (hlog.symm.trans hlog')
    | path hlog' => cases hlog.symm.trans hlog'
    | yaml hlog' => cases hlog.symm.trans hlog'
    | source hlog' => cases hlog.symm.trans hlog'
  | path hlog hpath hdefect =>
    cases h' with
    | log hlog' => cases hlog.symm.trans hlog'
    | path hlog' hpath' hdefect' => simp_all
    | yaml hlog' hpath' hdefect' => simp_all
  | yaml hlog hpath hdefect hyaml hcontent hhazard =>
    cases h' with
    | log hlog' => cases hlog.symm.trans hlog'
    | path hlog' hpath' hdefect' => simp_all
    | yaml hlog' hpath' hdefect' hyaml' hcontent' hhazard' =>
      cases hlog.symm.trans hlog'
      cases hpath.symm.trans hpath'
      cases hcontent.symm.trans hcontent'
      exact hhazard.unique hhazard'
  | source hlog =>
    cases h' with
    | log hlog' => cases hlog.symm.trans hlog'
    | source => rfl

/-- How a load may end: it returns whether it has decoded a document, or it ends in a fault that it cannot avoid. -/
inductive Ends (i : Nat) (l : Load) (w : Workspace) : EStateM.Result Fault Workspace Bool → Prop where
  | returned {w' : Workspace} {seen : Files} {loaded : Bool}
      (hsafe : ∀ fault, ¬ l.Hazard (w.brand i) w.files fault) (hseen : l.filesSeen (w.brand i) w.files = .ok seen)
      (hloaded : loaded = (l.document? (w.brand i) seen).isSome) : Ends i l w (.ok loaded w')
  | aborted {fault : Fault} {w' : Workspace} (h : l.Hazard (w.brand i) w.files fault) : Ends i l w (.error fault w')

end Load

/-! ### Reading YAML -/

/-- The fault that an error ends a load of YAML in, if it is not expected there. -/
def LoadError.fault? : LoadError → Option Fault
  | .notText => some .fileNotText
  | .yaml .depth => some .depth
  | .yaml (.scalar e) => some (.scalar e)
  | _ => none

namespace Document

theorem mapError_ok {ε ε' α : Type} (f : ε → ε') (x : α) : (Except.ok x).mapError f = .ok x := rfl

theorem mapError_error {ε ε' α : Type} (f : ε → ε') (e : ε) :
    (Except.error e : Except ε α).mapError f = .error (f e) := rfl

theorem ofYaml_eq_error_iff {text : String} {e : Yaml.Error} : ofYaml text = .error e ↔ Yaml.read text = .error e := by
  unfold ofYaml
  cases Yaml.read text with
  | error e' => simp [bind, Except.bind]
  | ok data => simp [bind, Except.bind, pure, Except.pure]

section Load

variable {files : Files} {path : Path} {content : ByteArray} {text : String} {fault : Fault}

/-! The document of a YAML file, one step after the other. -/

theorem load_unread {e : FileError} (hdefect : path.defect? = none) (hcontent : files.read path = .error e) :
    Document.load files path = .error (.file e) := by
  simp only [Document.load, hdefect, hcontent, mapError_error, Bind.bind, Except.bind]

theorem load_notText (hdefect : path.defect? = none) (hcontent : files.read path = .ok content)
    (htext : String.fromUTF8? content = none) : Document.load files path = .error .notText := by
  simp only [Document.load, hdefect, hcontent, mapError_ok, Bind.bind, Except.bind, htext]
  rfl

theorem load_yaml (hdefect : path.defect? = none) (hyaml : path.isYaml = true)
    (hcontent : files.read path = .ok content) (htext : String.fromUTF8? content = some text) :
    Document.load files path =
      match ofYaml (String.ofList (withLineFeeds text.toList)) with
      | .error e => .error (.yaml e)
      | .ok (.ok document) => .ok document
      | .ok (.failed problems) => .error (.undecodable problems) := by
  simp only [Document.load, hdefect, hcontent, mapError_ok, Bind.bind, Except.bind, htext, hyaml, if_true]
  cases ofYaml (String.ofList (withLineFeeds text.toList)) with
  | error e => rfl
  | ok decoded => cases decoded <;> rfl

theorem load_of_hazard (hdefect : path.defect? = none) (hyaml : path.isYaml = true)
    (hcontent : files.read path = .ok content) (h : Load.YamlHazard content fault) :
    ∃ e, Document.load files path = .error e ∧ e.fault? = some fault := by
  cases h with
  | notText htext => exact ⟨_, load_notText hdefect hcontent htext, rfl⟩
  | depth htext hread =>
    rw [load_yaml hdefect hyaml hcontent htext, ofYaml_eq_error_iff.mpr hread]
    exact ⟨_, rfl, rfl⟩
  | scalar htext hread =>
    rw [load_yaml hdefect hyaml hcontent htext, ofYaml_eq_error_iff.mpr hread]
    exact ⟨_, rfl, rfl⟩

theorem hazard_of_load {e : LoadError} (hdefect : path.defect? = none) (hyaml : path.isYaml = true)
    (hcontent : files.read path = .ok content) (hload : Document.load files path = .error e)
    (hfault : e.fault? = some fault) : Load.YamlHazard content fault := by
  cases htext : String.fromUTF8? content with
  | none =>
    cases (load_notText hdefect hcontent htext).symm.trans hload
    cases hfault
    exact .notText htext
  | some text =>
    rw [load_yaml hdefect hyaml hcontent htext] at hload
    cases hread : ofYaml (String.ofList (withLineFeeds text.toList)) with
    | ok decoded =>
      rw [hread] at hload
      cases decoded <;> cases hload
      cases hfault
    | error problem =>
      rw [hread] at hload
      cases hload
      have hread' := ofYaml_eq_error_iff.mp hread
      cases problem with
      | depth =>
        cases hfault
        exact .depth htext hread'
      | scalar e =>
        cases hfault
        exact .scalar htext hread'
      | _ => cases hfault

/-- The errors that a load of YAML does not expect are those of the hazards of the file. -/
theorem load_fault_iff (hdefect : path.defect? = none) (hyaml : path.isYaml = true) :
    (∃ e, Document.load files path = .error e ∧ e.fault? = some fault) ↔
      ∃ content, files.read path = .ok content ∧ Load.YamlHazard content fault := by
  constructor
  · rintro ⟨e, hload, hfault⟩
    cases hcontent : files.read path with
    | error e' =>
      cases (load_unread hdefect hcontent).symm.trans hload
      cases hfault
    | ok content => exact ⟨content, rfl, hazard_of_load hdefect hyaml hcontent hload hfault⟩
  · rintro ⟨content, hcontent, hhazard⟩
    exact load_of_hazard hdefect hyaml hcontent hhazard

end Load

end Document

/-! ### Running a load -/

namespace Work

variable {i : Nat} {l : Load} {w w' : Workspace}

theorem filesLogged_closed (i : Nat) (w : Workspace) :
    ((w.modifyBrand i fun b => { b with log := none }).brand i).logPath? = (w.brand i).logPath? := by
  simp only [Workspace.brand, Workspace.modifyBrand, List.getElem?_modify_eq]
  cases w.brands[i]? <;> rfl

/-- Starting a log file comes to the files that the brand then reads, or to the fault in its way. -/
theorem startLog_ends (i : Nat) (w : Workspace) :
    match (w.brand i).filesLogged w.files with
    | .error fault => ∃ w', startLog i w = .error fault w'
    | .ok seen => ∃ w', startLog i w = .ok () w' ∧ w'.files = seen := by
  have hfiles : (w.modifyBrand i fun b => { b with log := none }).files = w.files := rfl
  rw [startLog_eq, Brand.filesLogged]
  dsimp only
  rw [filesLogged_closed, hfiles]
  cases (w.brand i).logPath? with
  | none => exact ⟨_, rfl, rfl⟩
  | some path =>
    dsimp only
    cases path.defect? with
    | some defect => exact ⟨_, rfl⟩
    | none =>
      dsimp only
      cases w.files.create path .empty with
      | error e => exact ⟨_, rfl⟩
      | ok created => exact ⟨_, rfl, rfl⟩

theorem bind_error {α β : Type} {c : Work α} {g : α → Work β} {fault : Fault} (h : c w = .error fault w') :
    (c >>= g) w = .error fault w' := by
  simp only [Bind.bind, EStateM.bind, h]

/-- What is decoded is installed, if it is decoded. -/
theorem adopt_eq (decoded : Checked Document) (w : Workspace) : ∃ w', adopt i decoded w = .ok decoded.value?.isSome w' := by
  cases decoded with
  | failed problems => exact ⟨_, rfl⟩
  | ok document => exact ⟨_, rfl⟩

/-- A load that starts a log file first. -/
theorem startLog_bind_ends {rest : Work Bool} (hlogs : l.filesSeen (w.brand i) w.files = (w.brand i).filesLogged w.files)
    (h : ∀ w', (w.brand i).filesLogged w.files = .ok w'.files → l.Ends i w (rest w')) :
    l.Ends i w ((startLog i >>= fun _ => rest) w) := by
  have hstart := startLog_ends i w
  cases hlog : (w.brand i).filesLogged w.files with
  | error fault =>
    rw [hlog] at hstart
    obtain ⟨w', hstart⟩ := hstart
    rw [bind_error hstart]
    exact .aborted (.log (hlogs.trans hlog))
  | ok seen =>
    rw [hlog] at hstart
    obtain ⟨w', hstart, rfl⟩ := hstart
    rw [bind_ok hstart]
    exact h w' hlog

theorem loadYaml_ends {path : Path} (hlog : (w.brand i).filesLogged w.files = .ok w'.files)
    (hpath : (w.brand i).path? = some path) (hdefect : path.defect? = none) (hyaml : path.isYaml = true) :
    Load.file.Ends i w (loadYaml i path w') := by
  have hdocument : Load.file.document? (w.brand i) w'.files = (Document.load w'.files path).toOption := by
    simp only [Load.document?, hpath, Option.bind_some, hyaml, if_true]
  have haborted {fault : Fault} {e : LoadError} (hload : Document.load w'.files path = .error e)
      (hfault : e.fault? = some fault) : Load.file.Hazard (w.brand i) w.files fault := by
    obtain ⟨content, hcontent, hhazard⟩ := (Document.load_fault_iff hdefect hyaml).mp ⟨e, hload, hfault⟩
    exact .yaml hlog hpath hdefect hyaml hcontent hhazard
  have hsafe (h : ∀ e, Document.load w'.files path = .error e → e.fault? = none) (fault : Fault) :
      ¬ Load.file.Hazard (w.brand i) w.files fault := by
    intro hhazard
    cases hhazard with
    | log hlog' => cases hlog.symm.trans hlog'
    | path hlog' hpath' hdefect' => simp_all
    | yaml hlog' hpath' hdefect' hyaml' hcontent hhazard =>
      cases hlog.symm.trans hlog'
      cases hpath.symm.trans hpath'
      obtain ⟨e, hload, hfault⟩ := (Document.load_fault_iff hdefect hyaml).mpr ⟨_, hcontent, hhazard⟩
      rw [h e hload] at hfault
      cases hfault
  have hrefused {e : LoadError} (hload : Document.load w'.files path = .error e) (hfault : e.fault? = none)
      (n : Notice) : Load.file.Ends i w (refuse n w') := by
    refine .returned (hsafe fun e' he' => ?_) hlog ?_
    · cases hload.symm.trans he'
      exact hfault
    · rw [hdocument, hload]
      rfl
  unfold loadYaml
  rw [get_bind]
  cases hload : Document.load w'.files path with
  | ok document =>
    refine .returned (hsafe fun e he => ?_) hlog ?_
    · cases hload.symm.trans he
    · rw [hdocument, hload]
      rfl
  | error e =>
    cases e with
    | notText => exact .aborted (haborted hload rfl)
    | yaml problem =>
      cases problem with
      | depth => exact .aborted (haborted hload rfl)
      | scalar _ => exact .aborted (haborted hload rfl)
      | _ => exact hrefused hload rfl _
    | _ => exact hrefused hload rfl _

theorem load_ends (i : Nat) (w : Workspace) : Load.file.Ends i w (load i w) := by
  unfold load
  rw [brand_bind]
  cases hpath : (w.brand i).path? with
  | none =>
    have hlog : (w.brand i).filesLogged w.files = .ok w.files := by
      simp_all [Brand.path?, Brand.filesLogged, Brand.logPath?]
    refine .returned (fun fault h => ?_) hlog ?_
    · cases h with
      | log hlog' => cases hlog.symm.trans hlog'
      | path hlog' hpath' => simp [hpath] at hpath'
      | yaml hlog' hpath' => simp [hpath] at hpath'
    · simp [Load.document?, hpath]
  | some path =>
    refine startLog_bind_ends rfl fun w' hlog => ?_
    cases hdefect : path.defect? with
    | some defect => exact .aborted (.path hlog hpath hdefect)
    | none =>
      dsimp only
      cases hyaml : path.isYaml with
      | true => exact loadYaml_ends hlog hpath hdefect hyaml
      | false =>
        have hsafe (fault : Fault) : ¬ Load.file.Hazard (w.brand i) w.files fault := by
          intro h
          cases h with
          | log hlog' => cases hlog.symm.trans hlog'
          | path hlog' hpath' hdefect' => simp_all
          | yaml hlog' hpath' hdefect' hyaml' => simp_all
        have hdocument : Load.file.document? (w.brand i) w'.files =
            (w'.files.read path).toOption.bind fun bytes => (Document.ofBytes bytes).value? := by
          simp only [Load.document?, hpath, Option.bind_some, hyaml, Bool.false_eq_true, if_false]
        simp only [Bool.false_eq_true, if_false]
        rw [get_bind]
        cases hread : w'.files.read path with
        | error e => exact .returned hsafe hlog (by rw [hdocument, hread]; rfl)
        | ok bytes =>
          obtain ⟨w'', hadopt⟩ := adopt_eq (i := i) (Document.ofBytes bytes) w'
          dsimp only [loadBytes]
          rw [hadopt]
          exact .returned hsafe hlog (by rw [hdocument, hread]; rfl)

end Work

namespace Load

/-- A load at whose source nothing unforeseen happens has no hazard behind its log file. -/
theorem not_hazard_of_seen {i : Nat} {l : Load} {w : Workspace} {seen : Files} (hfile : l ≠ .file)
    (hsource : ∀ fault, l ≠ .source (.fault fault)) (hseen : l.filesSeen (w.brand i) w.files = .ok seen)
    (fault : Fault) : ¬ l.Hazard (w.brand i) w.files fault := by
  intro h
  cases h with
  | log hlog => cases hseen.symm.trans hlog
  | path => exact hfile rfl
  | yaml => exact hfile rfl
  | source => exact hsource fault rfl

/-- A load ends in the fault of a hazard, or it returns whether there is a document to install. -/
theorem run_ends (i : Nat) (l : Load) (w : Workspace) : l.Ends i w (l.run i w) := by
  cases l with
  | file => exact Work.load_ends i w
  | source given =>
    refine Work.startLog_bind_ends rfl fun w' hlog => ?_
    cases given with
    | ok given =>
      obtain ⟨w'', hadopt⟩ := Work.adopt_eq (i := i) (Document.ofBytes given) w'
      dsimp only [Work.loadBytes]
      rw [hadopt]
      exact .returned (not_hazard_of_seen nofun nofun hlog) hlog rfl
    | error e => exact .returned (not_hazard_of_seen nofun nofun hlog) hlog rfl
    | fault f => exact .aborted (.source hlog)
  | bytes given =>
    obtain ⟨w', hadopt⟩ := Work.adopt_eq (i := i) (Document.ofBytes given) w
    change Ends i _ w (Work.adopt i _ w)
    rw [hadopt]
    exact .returned (not_hazard_of_seen nofun nofun rfl) rfl rfl
  | text given =>
    obtain ⟨w', hadopt⟩ := Work.adopt_eq (i := i) (Document.ofText given) w
    change Ends i _ w (Work.adopt i _ w)
    rw [hadopt]
    exact .returned (not_hazard_of_seen nofun nofun rfl) rfl rfl

end Load

namespace Workspace

/-- In every workspace, a load of a brand ends in a fault exactly if it is one of its hazards: the log file cannot be
created, no file can have the path of the document, the file is YAML that is no text, is nested too deep or has a scalar
that is not what it claims to be, or a source fails in a way of its own. Otherwise it returns, and it returns true
exactly if there is a document among the files that it sees. -/
theorem load_returns_or_hazard (w : Workspace) (i : Nat) (l : Load) :
    (∀ fault, (∃ w', l.run i w = .error fault w') ↔ l.Hazard (w.brand i) w.files fault) ∧
      ((∀ fault, ¬ l.Hazard (w.brand i) w.files fault) → ∃ seen w', l.filesSeen (w.brand i) w.files = .ok seen ∧
        l.run i w = .ok (l.document? (w.brand i) seen).isSome w') := by
  have hends := l.run_ends i w
  generalize l.run i w = result at hends
  cases hends with
  | @returned w' seen loaded hsafe hseen hloaded =>
    subst hloaded
    refine ⟨fun fault => ⟨?_, fun h => absurd h (hsafe fault)⟩, fun _ => ⟨seen, w', hseen, rfl⟩⟩
    rintro ⟨w'', h⟩
    cases h
  | @aborted fault w' h =>
    refine ⟨fun fault' => ⟨?_, fun h' => ⟨w', ?_⟩⟩, fun hsafe => absurd h (hsafe fault)⟩
    · rintro ⟨w'', hsame⟩
      cases hsame
      exact h
    · rw [h.unique h']

/-- A folder with a YAML file in it that is one byte long, and no text. -/
def notTextFolder : Files := Files.empty.put ["art", "brand.yaml"] ⟨#[0xff]⟩

/-- A brand of the document in that file. -/
def notTextBrand : Brand := { storage := some ⟨"", ["art"]⟩, fileName := "brand.yaml" }

theorem notTextBrand_hazard : Load.file.Hazard notTextBrand notTextFolder .fileNotText := by
  have hsplit : "brand.yaml".splitOn "/" = ["brand.yaml"] := by
    rw [String.splitOn, if_neg (by decide)]
    -- one step for each character, and one for the end
    iterate 10 rw [String.splitOnAux, if_neg (by decide), if_neg (by decide)]
    rw [String.splitOnAux, if_pos (by decide)]
    decide
  have hname : Path.ofText "brand.yaml" = ⟨"", ["brand.yaml"]⟩ := by
    rw [Path.ofText, hsplit]
    decide
  have hpath : notTextBrand.path? = some ⟨"", ["art", "brand.yaml"]⟩ := by
    change some (Path.join ⟨"", ["art"]⟩ (Path.ofText "brand.yaml")) = _
    rw [hname]
    rfl
  have htext : String.fromUTF8? ⟨#[0xff]⟩ = none := by
    have hinvalid : ¬ ByteArray.IsValidUTF8 ⟨#[0xff]⟩ := by decide
    exact dif_neg hinvalid
  have hlog : notTextBrand.filesLogged notTextFolder = .ok notTextFolder := rfl
  have hcontent : notTextFolder.read ⟨"", ["art", "brand.yaml"]⟩ = .ok ⟨#[0xff]⟩ := rfl
  have hdefect : Path.defect? ⟨"", ["art", "brand.yaml"]⟩ = none := by decide
  have hyaml : Path.isYaml ⟨"", ["art", "brand.yaml"]⟩ = true := by decide
  exact .yaml hlog hpath hdefect hyaml hcontent (.notText htext)

/-- The fault of the YAML file is the end of the load, as its hazard says. -/
theorem load_returns_or_hazard_notText :
    ∃ w', Load.file.run 0 { files := notTextFolder, brands := [notTextBrand] } = .error .fileNotText w' :=
  ((load_returns_or_hazard { files := notTextFolder, brands := [notTextBrand] } 0 .file).1 .fileNotText).mpr
    notTextBrand_hazard

/-- It is not so that every load returns whose source does not fail in a way of its own. -/
theorem not_always_returns :
    ¬ ∀ (w : Workspace) (i : Nat) (l : Load), (∀ fault, l ≠ .source (.fault fault)) →
      ∃ loaded w', l.run i w = .ok loaded w' := by
  intro h
  obtain ⟨loaded, w', hrun⟩ := h { files := notTextFolder, brands := [notTextBrand] } 0 .file nofun
  have hends := Load.file.run_ends 0 { files := notTextFolder, brands := [notTextBrand] }
  rw [hrun] at hends
  cases hends with
  | returned hsafe => exact hsafe _ notTextBrand_hazard

end Workspace

end DesignTokens
