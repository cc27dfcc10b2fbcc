import DesignTokens.Proofs.Brand.Calls
import DesignTokens.Proofs.Files.Writing
import DesignTokens.Proofs.Json.KeyPath

/-!
# What log files hold

A brand writes a log file from one load on until the next one, which starts the file anew, or until it is unloaded.
So the file holds the lines of the notices that have been given since the last load began and before the brand was
unloaded, in order and each once, as long as nobody else touches it.

Lines are encoded when they are written, and half of a surrogate pair has no encoding. A notice with such a half in its
line is given, but does not get into the file.

* `Workspace.Writes.gives`, `Workspace.Idle.gives` — notices go to the open log file, and nowhere if there is none.
* `Stage.writes_of_restarts`, `Stage.writes_after` — what one step does to the log file.
* `Workspace.log_holds_load` — what the file holds after any run of steps.
-/

namespace DesignTokens

open Files (HasRoom)

/-! ### Lines -/

/-- The lines that a log file has for notices at a time. All notices are warnings at least. -/
def logLines (time : String) (ns : List Notice) : List String :=
  (ns.filter fun n => n.concernsDocument && !Text.hasHalf (n.logLine time)).map (·.logLine time)

theorem hasHalf_join (lines : List String) : Text.hasHalf (String.join lines) = lines.any Text.hasHalf := by
  induction lines with
  | nil => rfl
  | cons line rest ih => rw [String.join_cons, Text.hasHalf_append, ih, List.any_cons]

/-- A log file has no line with half of a surrogate pair. -/
theorem hasHalf_of_mem_logLines {time line : String} {ns : List Notice} (h : line ∈ logLines time ns) :
    Text.hasHalf line = false := by
  obtain ⟨n, hn, rfl⟩ := List.mem_map.mp h
  have hfilter := (List.mem_filter.mp hn).2
  simp only [Bool.and_eq_true, Bool.not_eq_true'] at hfilter
  exact hfilter.2

theorem overwritten_end (content bytes : ByteArray) : overwritten content content.size bytes = content ++ bytes := by
  have hgap : (⟨Array.replicate (content.size - content.size) 0⟩ : ByteArray) = .empty := by
    rw [Nat.sub_self]
    rfl
  have hrest : content.extract (content.size + bytes.size) content.size = .empty :=
    ByteArray.extract_eq_empty_iff.mpr (by omega)
  unfold overwritten
  dsimp only
  rw [hgap, hrest, ByteArray.extract_zero_size, ByteArray.append_empty, ByteArray.append_empty]

namespace Workspace

variable {path : Path} {text : String} {w w' : Workspace} {ns : List Notice} {n : Notice}
  {found : Except FileError Files.Node}

/-! ### One brand and its log file -/

/-- There is one brand only. It writes the log file at a path and has it open, with a text in it. -/
def Writes (path : Path) (text : String) (w : Workspace) : Prop :=
  ∃ b place, w.brands = [b] ∧ b.logPath? = some path ∧ b.log = some ⟨place, text.toUTF8.size⟩ ∧
    w.files.find path = .ok (.file place text.toUTF8)

/-- There is one brand only. It writes the log file at a path, but it has not got it open. -/
def Idle (path : Path) (found : Except FileError Files.Node) (w : Workspace) : Prop :=
  ∃ b, w.brands = [b] ∧ b.logPath? = some path ∧ b.log = none ∧ w.files.HasRoom path ∧ w.files.find path = found

/-- Notices are given, and the only brand changes apart from its log. -/
inductive Gives : Workspace → List Notice → Workspace → Prop where
  | refl {w : Workspace} : Gives w [] w
  | told {w w' : Workspace} {ns : List Notice} (h : Gives w ns w') (n : Notice) : Gives w (ns ++ [n]) (w'.told n)
  | changed {w w' : Workspace} {ns : List Notice} {i : Nat} {f : Brand → Brand} (h : Gives w ns w')
      (hf : ∀ b, (f b).log = b.log ∧ (f b).logPath? = b.logPath?) : Gives w ns (w'.modifyBrand i f)

namespace Gives

theorem toldAll (h : Gives w ns w') (others : List Notice) : Gives w (ns ++ others) (w'.toldAll others) := by
  induction others generalizing w' ns with
  | nil => exact (List.append_nil ns).symm ▸ h
  | cons n rest ih =>
    have hrest := ih (h.told n)
    rw [List.append_assoc] at hrest
    exact hrest

theorem notices (h : Gives w ns w') : w'.notices = w.notices ++ ns := by
  induction h with
  | refl => exact (List.append_nil _).symm
  | told _ n ih => rw [told_notices, ih, List.append_assoc]
  | changed _ _ ih => exact ih

theorem told_time (w : Workspace) (n : Notice) : (w.told n).time = w.time := by
  unfold Workspace.told
  dsimp only
  split <;> rfl

theorem time (h : Gives w ns w') : w'.time = w.time := by
  induction h with
  | refl => rfl
  | told _ n ih => exact (told_time _ n).trans ih
  | changed _ _ ih => exact ih

end Gives

theorem brands_modifyBrand {b : Brand} (h : w.brands = [b]) (i : Nat) (f : Brand → Brand) :
    (w.modifyBrand i f).brands = [b] ∨ (w.modifyBrand i f).brands = [f b] := by
  unfold modifyBrand
  rw [h]
  cases i with
  | zero => exact .inr rfl
  | succ i => exact .inl (by rw [List.modify_succ_cons, List.modify_nil])

/-- Whether the line of a notice gets into a log file. -/
def IsLogged (n : Notice) (time : String) : Prop := n.concernsDocument = true ∧ Text.hasHalf (n.logLine time) = false

theorem logLines_of_logged (h : IsLogged n w.time) : logLines w.time [n] = [n.logLine w.time] := by
  simp [logLines, h.1, h.2]

theorem logLines_of_not_logged (h : ¬ IsLogged n w.time) : logLines w.time [n] = [] := by
  simpa [logLines, IsLogged] using h

theorem told_of_not_logged (h : ¬ IsLogged n w.time) : w.told n = { w with notices := w.notices ++ [n] } := by
  unfold told
  dsimp only
  split
  · next hdocument =>
    have hhalf : Text.hasHalf (n.logLine w.time) = true := by simpa [IsLogged, hdocument] using h
    rw [if_pos hhalf]
  · rfl

theorem told_of_logged {b : Brand} {log : LogFile} (h : IsLogged n w.time) (hbrands : w.brands = [b])
    (hlog : b.log = some log) :
    w.told n = { w with
      brands := [{ b with log := some (log.append w.files (n.logLine w.time)).1 }]
      files := (log.append w.files (n.logLine w.time)).2
      notices := w.notices ++ [n] } := by
  unfold told
  dsimp only
  rw [if_pos h.1, if_neg (by simp [h.2]), hbrands]
  simp only [writeLogs, hlog]

theorem told_of_idle {b : Brand} (hbrands : w.brands = [b]) (hlog : b.log = none) :
    w.told n = { w with notices := w.notices ++ [n] } := by
  by_cases h : IsLogged n w.time
  · unfold told
    dsimp only
    rw [if_pos h.1, if_neg (by simp [h.2]), hbrands]
    simp only [writeLogs, hlog]
  · exact told_of_not_logged h

/-- What is told goes to the end of the open log file. -/
theorem Writes.told (h : w.Writes path text) (n : Notice) :
    (w.told n).Writes path (text ++ String.join (logLines w.time [n])) := by
  by_cases hlogged : IsLogged n w.time
  · obtain ⟨b, place, hbrands, hpath, hlog, hfind⟩ := h
    have htext : (text ++ n.logLine w.time).toUTF8 = text.toUTF8 ++ (n.logLine w.time).toUTF8 :=
      String.toByteArray_append
    rw [told_of_logged hlogged hbrands hlog, logLines_of_logged hlogged, String.join_cons, String.join_nil,
      String.append_empty]
    refine ⟨_, place, rfl, hpath, ?_, ?_⟩
    · rw [htext, ByteArray.size_append]
      rfl
    · simp only [LogFile.append, Files.lookup_of_find hfind, Option.getD_some, overwritten_end, htext]
      exact Files.find_overwrite hfind
  · rw [told_of_not_logged hlogged, logLines_of_not_logged hlogged, String.join_nil, String.append_empty]
    exact h

theorem Writes.gives (h : w.Writes path text) (hgives : Gives w ns w') :
    w'.Writes path (text ++ String.join (logLines w.time ns)) := by
  induction hgives with
  | refl => simpa [logLines] using h
  | told hbefore n ih =>
    have htold := ih.told n
    rw [hbefore.time, String.append_assoc, ← String.join_append] at htold
    simpa [logLines] using htold
  | @changed w' ns i f _ hf ih =>
    obtain ⟨b, place, hbrands, hpath, hlog, hfind⟩ := ih
    rcases brands_modifyBrand hbrands i f with hkept | hchanged
    · exact ⟨b, place, hkept, hpath, hlog, hfind⟩
    · exact ⟨f b, place, hchanged, (hf b).2.trans hpath, (hf b).1.trans hlog, hfind⟩

theorem Idle.told (h : w.Idle path found) (n : Notice) : (w.told n).Idle path found := by
  obtain ⟨b, hbrands, hpath, hlog, hroom, hfind⟩ := h
  rw [told_of_idle hbrands hlog]
  exact ⟨b, hbrands, hpath, hlog, hroom, hfind⟩

/-- What is told is not written anywhere if the log file is not open. -/
theorem Idle.gives (h : w.Idle path found) (hgives : Gives w ns w') : w'.Idle path found := by
  induction hgives with
  | refl => exact h
  | told _ n ih => exact ih.told n
  | @changed w' ns i f _ hf ih =>
    obtain ⟨b, hbrands, hpath, hlog, hroom, hfind⟩ := ih
    rcases brands_modifyBrand hbrands i f with hkept | hchanged
    · exact ⟨b, hkept, hpath, hlog, hroom, hfind⟩
    · exact ⟨f b, hchanged, (hf b).2.trans hpath, (hf b).1.trans hlog, hroom, hfind⟩

end Workspace

/-! ### Steps -/

namespace Work

open Workspace (Gives)

variable {i : Nat} {w w₁ : Workspace} {path : Path}

/-- The workspace that a computation gets to, also if it ends in a fault. -/
def reached {α : Type} : EStateM.Result Fault Workspace α → Workspace
  | .ok _ w => w
  | .error _ w => w

theorem refuse_gives (n : Notice) (w : Workspace) : ∃ ns, Gives w ns (reached (refuse n w)) := ⟨_, .told .refl n⟩

theorem adopt_gives (i : Nat) (decoded : Checked Document) (w : Workspace) :
    ∃ ns, Gives w ns (reached (adopt i decoded w)) := by
  cases decoded with
  | failed problems => exact refuse_gives _ w
  | ok document => exact ⟨[], .changed .refl fun b => ⟨rfl, rfl⟩⟩

theorem loadYaml_gives (i : Nat) (path : Path) (w : Workspace) : ∃ ns, Gives w ns (reached (loadYaml i path w)) := by
  unfold loadYaml
  rw [get_bind]
  cases Document.load w.files path with
  | ok document => exact ⟨[], .changed .refl fun b => ⟨rfl, rfl⟩⟩
  | error e =>
    match e with
    | .notText | .yaml .depth | .yaml (.scalar _) => exact ⟨[], .refl⟩
    | .path _ | .file _ | .undecodable _ => exact refuse_gives _ w
    | .yaml .character | .yaml .token | .yaml .arrangement | .yaml .reference | .yaml .value =>
      exact refuse_gives _ w

/-- A load starts the log file, and after that it gives notices only and changes the brand apart from its log. -/
theorem load_gives (hpath : (w.brand i).path? = some path) (hstart : startLog i w = .ok () w₁) :
    ∃ ns, Gives w₁ ns (reached (load i w)) := by
  unfold load
  rw [brand_bind, hpath]
  dsimp only
  rw [bind_ok hstart]
  cases path.defect? with
  | some defect => exact ⟨[], .refl⟩
  | none =>
    dsimp only
    split
    · exact loadYaml_gives i path w₁
    · rw [get_bind]
      cases w₁.files.read path with
      | error e => exact refuse_gives _ w₁
      | ok bytes => exact adopt_gives i _ w₁

theorem loadFrom_gives (source : ByteSource) (hstart : startLog i w = .ok () w₁) :
    ∃ ns, Gives w₁ ns (reached (loadFrom i source w)) := by
  unfold loadFrom
  rw [bind_ok hstart]
  cases source with
  | ok bytes => exact adopt_gives i _ w₁
  | error e => exact refuse_gives _ w₁
  | fault f => exact ⟨[], .refl⟩

end Work

namespace Workspace

variable {path : Path} {text : String} {w w' : Workspace} {found : Except FileError Files.Node}

theorem Touched.gives {leads : Reading → Progress → Progress → Prop} (h : w.Touched leads w') :
    ∃ ns, Gives w ns w' := by
  cases h with
  | told ns => exact ⟨_, Gives.refl.toldAll ns⟩
  | @settled j _ p _ _ =>
    have hsettle : Gives w [] (w.modifyBrand j (·.settle p.store)) := .changed .refl fun b => ⟨rfl, rfl⟩
    exact ⟨_, hsettle.toldAll p.notices⟩

/-- The log file of the only brand is open, or could be. -/
def Ready (path : Path) (w : Workspace) : Prop := (∃ text, w.Writes path text) ∨ ∃ found, w.Idle path found

/-- A new log file has nothing in it. -/
theorem startLog_creates (h : w.Ready path) (hdefect : path.defect? = none) :
    ∃ b place files, w.brands = [b] ∧ b.logPath? = some path ∧ files.find path = .ok (.file place .empty) ∧
      Work.startLog 0 w = .ok () { w with files, brands := [{ b with log := some ⟨place, 0⟩ }] } := by
  have hready : ∃ b, w.brands = [b] ∧ b.logPath? = some path ∧ w.files.HasRoom path := by
    rcases h with ⟨_, b, place, hbrands, hpath, -, hfind⟩ | ⟨_, b, hbrands, hpath, -, hroom, -⟩
    · exact ⟨b, hbrands, hpath, Files.hasRoom_of_find hfind⟩
    · exact ⟨b, hbrands, hpath, hroom⟩
  obtain ⟨b, hbrands, hpath, place, files, hcreate⟩ := hready
  refine ⟨b, place, files, hbrands, hpath, Files.find_of_create hcreate, ?_⟩
  have hclosed : w.modifyBrand 0 (fun b => { b with log := none }) = { w with brands := [{ b with log := none }] } := by
    rw [modifyBrand, hbrands]
    rfl
  have hpath' : Brand.logPath? { b with log := none } = some path := hpath
  rw [Work.startLog_eq, hclosed]
  simp only [brand, List.getElem?_cons_zero, Option.getD_some, hpath', hdefect, hcreate]
  rfl

/-- Whether a step is a load that starts the log file anew. -/
def Step.Restarts : Step → Prop
  | .load _ .file | .load _ (.source _) => True
  | _ => False

/-- Whether a step unloads a brand. -/
def Step.unloads : Step → Bool
  | .unload _ => true
  | _ => false

/-- Whether a step is a call of a brand. -/
def Step.IsCall (i : Nat) : Step → Prop
  | .load j _ | .unload j | .ask j _ => j = i
  | .write _ | .delete _ => False

end Workspace

namespace Stage

open Workspace

variable {s : Stage} {path : Path} {text : String} {found : Except FileError Files.Node} {ns : List Notice}

/-- The notices that a stage gives. -/
def notices (s : Stage) : List Notice := s.after.notices.drop s.before.notices.length

/-- The lines that a stage adds to the log file. -/
def lines (s : Stage) : List String := logLines s.before.time s.notices

theorem notices_eq {w : Workspace} (h : Gives w ns s.after) (hsame : w.notices = s.before.notices) :
    s.notices = ns := by
  rw [notices, h.notices, hsame, List.drop_left]

theorem after_eq_reached (w : Workspace) (i : Nat) (l : Load) :
    (Stage.mk w (.load i l)).after = Work.reached (l.run i w) := by
  have hresult : (Stage.mk w (.load i l)).result = l.run i w := rfl
  unfold Stage.after
  rw [hresult]
  cases l.run i w <;> rfl

/-- A load that starts the log file leaves it with what is told from then on. -/
theorem writes_of_restarts (h : s.before.Ready path) (hdefect : path.defect? = none) (hcall : s.step.IsCall 0)
    (hrestarts : s.step.Restarts) : s.after.Writes path (String.join s.lines) := by
  obtain ⟨w, step⟩ := s
  obtain ⟨b, place, files, hbrands, hpath, hfind, hstart⟩ := startLog_creates h hdefect
  have hstarted : Writes path "" { w with files, brands := [{ b with log := some ⟨place, 0⟩ }] } :=
    ⟨_, place, rfl, hpath, rfl, hfind⟩
  have hlines {ns : List Notice} (hgives : Gives { w with files, brands := [{ b with log := some ⟨place, 0⟩ }] } ns
      (Stage.mk w step).after) :
      (Stage.mk w step).after.Writes path (String.join (Stage.mk w step).lines) := by
    have hall := hstarted.gives hgives
    rw [String.empty_append] at hall
    rw [lines, notices_eq hgives rfl]
    exact hall
  match step, hrestarts with
  | .load j .file, _ =>
    obtain rfl : j = 0 := hcall
    have hdocument : ∃ document, (w.brand 0).path? = some document := by
      rw [Workspace.brand, hbrands]
      unfold Brand.logPath? at hpath
      split at hpath
      · obtain ⟨storage, hstorage, -⟩ := Option.map_eq_some_iff.mp hpath
        exact ⟨_, Option.map_eq_some_iff.mpr ⟨storage, hstorage, rfl⟩⟩
      · cases hpath
    obtain ⟨document, hdocument⟩ := hdocument
    obtain ⟨ns, hgives⟩ := Work.load_gives hdocument hstart
    exact hlines (after_eq_reached w 0 .file ▸ hgives)
  | .load j (.source given), _ =>
    obtain rfl : j = 0 := hcall
    obtain ⟨ns, hgives⟩ := Work.loadFrom_gives given hstart
    exact hlines (after_eq_reached w 0 (.source given) ▸ hgives)

/-- Whatever else is called, except for unloading, gives notices and leaves the log as it is. -/
theorem gives_of_call (hcall : s.step.IsCall 0) (hrestarts : ¬ s.step.Restarts) (hunloads : s.step.unloads = false) :
    Gives s.before s.notices s.after := by
  have hgives : ∃ ns, Gives s.before ns s.after := by
    obtain ⟨w, step⟩ := s
    cases step with
    | load j l =>
      rw [after_eq_reached]
      cases l with
      | file => exact absurd trivial hrestarts
      | source given => exact absurd trivial hrestarts
      | bytes given => exact Work.adopt_gives j _ w
      | text given => exact Work.adopt_gives j _ w
    | unload j => cases hunloads
    | ask j q => exact (after_ask w j q).gives
    | write files => exact hcall.elim
    | delete path => exact hcall.elim
  obtain ⟨ns, hgives⟩ := hgives
  rw [notices_eq hgives rfl]
  exact hgives

theorem writes_after (h : s.before.Writes path text) (hcall : s.step.IsCall 0) (hrestarts : ¬ s.step.Restarts)
    (hunloads : s.step.unloads = false) : s.after.Writes path (text ++ String.join s.lines) :=
  h.gives (gives_of_call hcall hrestarts hunloads)

theorem after_of_unloads (hcall : s.step.IsCall 0) (hunloads : s.step.unloads = true) :
    s.after = s.before.modifyBrand 0 Brand.unload := by
  obtain ⟨w, step⟩ := s
  cases step with
  | unload j =>
    obtain rfl : j = 0 := hcall
    rfl
  | _ => cases hunloads

theorem idle_of_unloads (h : s.before.Writes path text) (hcall : s.step.IsCall 0) (hunloads : s.step.unloads = true) :
    ∃ place, s.after.Idle path (.ok (.file place text.toUTF8)) := by
  obtain ⟨b, place, hbrands, hpath, -, hfind⟩ := h
  rw [after_of_unloads hcall hunloads]
  refine ⟨place, b.unload, ?_, hpath, rfl, Files.hasRoom_of_find hfind, hfind⟩
  rw [modifyBrand, hbrands]
  rfl

theorem idle_after (h : s.before.Idle path found) (hcall : s.step.IsCall 0) (hrestarts : ¬ s.step.Restarts) :
    s.after.Idle path found := by
  cases hunloads : s.step.unloads with
  | false => exact h.gives (gives_of_call hcall hrestarts hunloads)
  | true =>
    obtain ⟨b, hbrands, hpath, -, hroom, hfind⟩ := h
    rw [after_of_unloads hcall hunloads]
    refine ⟨b.unload, ?_, hpath, rfl, hroom, hfind⟩
    rw [modifyBrand, hbrands]
    rfl

theorem ready_after (h : s.before.Ready path) (hdefect : path.defect? = none) (hcall : s.step.IsCall 0) :
    s.after.Ready path := by
  by_cases hrestarts : s.step.Restarts
  · exact .inl ⟨_, writes_of_restarts h hdefect hcall hrestarts⟩
  rcases h with ⟨text, hwrites⟩ | ⟨found, hidle⟩
  · cases hunloads : s.step.unloads with
    | false => exact .inl ⟨_, writes_after hwrites hcall hrestarts hunloads⟩
    | true =>
      obtain ⟨place, hidle⟩ := idle_of_unloads hwrites hcall hunloads
      exact .inr ⟨_, hidle⟩
  · exact .inr ⟨_, idle_after hidle hcall hrestarts⟩

end Stage

/-! ### Runs -/

/-- A call of the only brand comes next. Time has passed, and files have changed, but not the log file. -/
structure Stage.Follows (path : Path) (w : Workspace) (s : Stage) : Prop where
  call : s.step.IsCall 0
  brands : s.before.brands = w.brands
  notices : s.before.notices = w.notices
  log : s.before.files.find path = w.files.find path
  folder : s.before.files.find path.parent = w.files.find path.parent

/-- A call that comes next immediately. -/
theorem Stage.follows_before {path : Path} {s : Stage} (h : s.step.IsCall 0) : s.Follows path s.before :=
  ⟨h, rfl, rfl, rfl, rfl⟩

namespace Workspace

/-- Calls of the only brand, one after the other. -/
inductive Course (path : Path) : Workspace → List Stage → Workspace → Prop where
  | done {w : Workspace} : Course path w [] w
  | call {w w' : Workspace} {s : Stage} {rest : List Stage} (next : s.Follows path w)
      (onward : Course path s.after rest w') : Course path w (s :: rest) w'

variable {path : Path} {text : String} {w w' : Workspace} {found : Except FileError Files.Node} {s : Stage}
  {earlier later stages : List Stage}

theorem Writes.follows (h : w.Writes path text) (hnext : s.Follows path w) : s.before.Writes path text := by
  obtain ⟨b, place, hbrands, hpath, hlog, hfind⟩ := h
  exact ⟨b, place, hnext.brands.trans hbrands, hpath, hlog, hnext.log.trans hfind⟩

theorem Idle.follows (h : w.Idle path found) (hnext : s.Follows path w) : s.before.Idle path found := by
  obtain ⟨b, hbrands, hpath, hlog, hroom, hfind⟩ := h
  exact ⟨b, hnext.brands.trans hbrands, hpath, hlog, hroom.congr hnext.log hnext.folder, hnext.log.trans hfind⟩

theorem Ready.follows (h : w.Ready path) (hnext : s.Follows path w) : s.before.Ready path := by
  rcases h with ⟨text, hwrites⟩ | ⟨found, hidle⟩
  · exact .inl ⟨text, hwrites.follows hnext⟩
  · exact .inr ⟨found, hidle.follows hnext⟩

/-- The log file can be started anew after any run. -/
theorem Course.ready_append (hcourse : Course path w (earlier ++ later) w') (h : w.Ready path)
    (hdefect : path.defect? = none) : ∃ w₁, w₁.Ready path ∧ Course path w₁ later w' := by
  induction earlier generalizing w with
  | nil => exact ⟨w, h, hcourse⟩
  | cons s earlier ih =>
    cases hcourse with
    | call next onward => exact ih onward (Stage.ready_after (h.follows next) hdefect next.call)

/-- A file that is not open stays as it is until the next load. -/
theorem Course.idle (hcourse : Course path w stages w') (h : w.Idle path found)
    (hstages : ∀ s ∈ stages, ¬ s.step.Restarts) : w'.files.find path = found := by
  induction hcourse with
  | done =>
    obtain ⟨b, -, -, -, -, hfind⟩ := h
    exact hfind
  | call next _ ih =>
    obtain ⟨hfirst, hrest⟩ := List.forall_mem_cons.mp hstages
    exact ih (Stage.idle_after (h.follows next) next.call hfirst) hrest

/-- Every call adds its lines to the open log file, until the brand is unloaded. -/
theorem Course.writes (hcourse : Course path w stages w') (h : w.Writes path text)
    (hstages : ∀ s ∈ stages, ¬ s.step.Restarts) :
    w'.files.read path =
      .ok (text ++ String.join ((stages.takeWhile (!·.step.unloads)).flatMap Stage.lines)).toUTF8 := by
  induction hcourse generalizing text with
  | done =>
    obtain ⟨b, place, -, -, -, hfind⟩ := h
    rw [List.takeWhile_nil, List.flatMap_nil, String.join_nil, String.append_empty, Files.read, hfind]
  | @call w w' s rest next onward ih =>
    obtain ⟨hfirst, hrest⟩ := List.forall_mem_cons.mp hstages
    have hbefore := h.follows next
    cases hunloads : s.step.unloads with
    | false =>
      have hafter := ih (Stage.writes_after hbefore next.call hfirst hunloads) hrest
      rw [List.takeWhile_cons_of_pos (by simp [hunloads]), List.flatMap_cons, String.join_append,
        ← String.append_assoc]
      exact hafter
    | true =>
      obtain ⟨place, hidle⟩ := Stage.idle_of_unloads hbefore next.call hunloads
      rw [List.takeWhile_cons_of_neg (by simp [hunloads]), List.flatMap_nil, String.join_nil, String.append_empty,
        Files.read, onward.idle hidle hrest]

theorem Course.holds {first : Stage} (hcourse : Course path w (earlier ++ first :: later) w') (h : w.Ready path)
    (hdefect : path.defect? = none) (hfirst : first.step.Restarts) (hlater : ∀ s ∈ later, ¬ s.step.Restarts) :
    w'.files.read path =
      .ok (String.join ((first :: later.takeWhile (!·.step.unloads)).flatMap Stage.lines)).toUTF8 := by
  obtain ⟨w₁, hready, hrest⟩ := hcourse.ready_append h hdefect
  cases hrest with
  | call next onward =>
    have hwrites := Stage.writes_of_restarts (hready.follows next) hdefect next.call hfirst
    rw [List.flatMap_cons, String.join_append]
    exact onward.writes hwrites hlater

/-- There is one brand, and its log file is touched by nobody else. After any run of calls, with a load among them, the
file holds the lines of the notices that have been given since the last load began and before the brand was unloaded
after it, in order and each once. Only lines that have no encoding are missing. -/
theorem log_holds_load {b : Brand} {first : Stage} (hbrand : w.brands = [b]) (hclosed : b.log = none)
    (hpath : b.logPath? = some path) (hdefect : path.defect? = none) (hroom : w.files.HasRoom path)
    (hcourse : Course path w (earlier ++ first :: later) w') (hfirst : first.step.Restarts)
    (hlater : ∀ s ∈ later, ¬ s.step.Restarts) :
    w'.files.read path =
      .ok (String.join ((first :: later.takeWhile (!·.step.unloads)).flatMap Stage.lines)).toUTF8 :=
  hcourse.holds (.inr ⟨_, b, hbrand, hpath, hclosed, hroom, rfl⟩) hdefect hfirst hlater

/-- A brand with a log file, before anything is loaded. -/
def loggingBrand : Workspace where
  files := ⟨[], [[], ["art"]]⟩
  brands := [{ storage := some ⟨"", ["art"]⟩, writesLog := true }]
  time := "10:00:00"

/-- The path of its log file. -/
def artLog : Path := ⟨"", ["art", "appearance.log"]⟩

/-- A load whose source cannot be read. -/
def unreadableLoad : Stage := ⟨loggingBrand, .load 0 (.source (.error .failed))⟩

/-- A question about a metric, with nothing loaded. -/
def lateQuestion (name : String) : Stage := ⟨unreadableLoad.after, .ask 0 (.value .metric name)⟩

theorem logPath?_loggingBrand : Brand.logPath? { storage := some ⟨"", ["art"]⟩, writesLog := true } = some artLog := by
  have hsplit : Brand.logName.splitOn "/" = ["appearance.log"] :=
    (splitOn_singleton '/' Brand.logName).trans (by decide)
  have hname : Path.ofText Brand.logName = ⟨"", ["appearance.log"]⟩ := by
    rw [Path.ofText, hsplit]
    decide
  show some (Path.join ⟨"", ["art"]⟩ (Path.ofText Brand.logName)).straightened = _
  rw [hname]
  rfl

theorem hasRoom_loggingBrand : loggingBrand.files.HasRoom artLog := by
  have hfind : loggingBrand.files.find artLog = .error .missing := rfl
  have hfolder : loggingBrand.files.find artLog.parent = .ok (.folder ["art"]) := rfl
  have hfits : ¬ (Files.isTooLong artLog = true ∨ Files.maximalNameLength < artLog.name.utf8ByteSize) := by decide
  exact ⟨["art", "appearance.log"], _, by simp only [Files.create, hfind, hfolder, if_neg hfits]; rfl⟩

theorem course_lateQuestion (name : String) :
    Course artLog loggingBrand ([] ++ unreadableLoad :: [lateQuestion name]) (lateQuestion name).after := by
  have hload : unreadableLoad.step.IsCall 0 := rfl
  have hask : (lateQuestion name).step.IsCall 0 := rfl
  exact .call (Stage.follows_before hload) (.call (Stage.follows_before hask) .done)

/-- A brand that has nothing to answer with. -/
theorem after_ask_unloaded {b : Brand} {a : Asset} {name : String} (hbrands : w.brands = [b])
    (hinstalled : b.installed = none) (hfallback : b.fallback = none) :
    (Stage.mk w (.ask 0 (.value a name))).after = w.told (.notInBrands a.kind name) := by
  have hlast : w.fallback? 0 = none := by simp [fallback?, hbrands, hfallback]
  have hprovider : w.provider? 0 a.kind name = none := by
    simp [provider?, chain_of_last hlast, has, hbrands, Brand.has, hinstalled]
  have hvalue : Work.value 0 a name w = .ok a.invalid (w.told (.notInBrands a.kind name)) := by
    unfold Work.value
    rw [Work.bind_ok (Work.ask_missing hprovider)]
    rfl
  have hask : (Query.value a name).run 0 w = .ok () (w.told (.notInBrands a.kind name)) := by
    show (Work.value 0 a name >>= fun _ => pure ()) w = _
    rw [Work.bind_ok hvalue]
    rfl
  have hresult : (Stage.mk w (.ask 0 (.value a name))).result = .ok false (w.told (.notInBrands a.kind name)) := by
    show ((Query.value a name).run 0 >>= fun _ => pure false : Work Bool) w = _
    rw [Work.bind_ok hask]
    rfl
  rw [Stage.after, hresult]

theorem ready_loggingBrand : loggingBrand.Ready artLog :=
  .inr ⟨_, _, rfl, logPath?_loggingBrand, rfl, hasRoom_loggingBrand, rfl⟩

theorem after_unreadableLoad : ∃ w₁ : Workspace, w₁.notices = [] ∧ w₁.time = "10:00:00" ∧
    w₁.unlogged = loggingBrand.unlogged ∧ unreadableLoad.after = w₁.told (.documentUnreadable .failed) := by
  obtain ⟨b, place, files, hbrands, -, -, hstart⟩ := startLog_creates ready_loggingBrand (by decide)
  refine ⟨{ loggingBrand with files, brands := [{ b with log := some ⟨place, 0⟩ }] }, rfl, rfl, ?_, ?_⟩
  · unfold unlogged
    rw [hbrands]
    rfl
  · rw [unreadableLoad, Stage.after_eq_reached]
    show Work.reached ((Work.startLog 0 >>= fun _ => Work.refuse (.documentUnreadable .failed)) loggingBrand) = _
    rw [Work.bind_ok hstart]
    rfl

theorem lines_unreadableLoad : unreadableLoad.lines = [(Notice.documentUnreadable .failed).logLine "10:00:00"] := by
  obtain ⟨w₁, hnotices, -, -, hafter⟩ := after_unreadableLoad
  have hgiven : unreadableLoad.notices = [.documentUnreadable .failed] := by
    rw [Stage.notices, hafter, told_notices, hnotices]
    rfl
  rw [Stage.lines, hgiven]
  rfl

theorem notices_lateQuestion (name : String) : (lateQuestion name).notices = [.notInBrands .metric name] := by
  obtain ⟨w₁, -, -, hunlogged, hafter⟩ := after_unreadableLoad
  have hsame : unreadableLoad.after.unlogged = loggingBrand.unlogged := by
    rw [hafter, told_unlogged, hunlogged]
  obtain ⟨b, hbrands, hb⟩ := List.map_eq_singleton_iff.mp hsame
  have hask : (lateQuestion name).after = unreadableLoad.after.told (.notInBrands .metric name) :=
    after_ask_unloaded (a := .metric) hbrands (congrArg Brand.installed hb) (congrArg Brand.fallback hb)
  rw [Stage.notices, hask, told_notices]
  exact List.drop_left

theorem time_lateQuestion (name : String) : (lateQuestion name).before.time = "10:00:00" := by
  obtain ⟨w₁, -, htime, -, hafter⟩ := after_unreadableLoad
  rw [lateQuestion, hafter, Gives.told_time, htime]

theorem not_restarts_lateQuestion (name : String) : ∀ s ∈ [lateQuestion name], ¬ s.step.Restarts :=
  List.forall_mem_singleton.mpr id

theorem takeWhile_lateQuestion (name : String) :
    [lateQuestion name].takeWhile (!·.step.unloads) = [lateQuestion name] := rfl

/-- A load that fails and a question with no answer leave a line each. -/
theorem log_holds_load_missing :
    (lateQuestion "size").after.files.read artLog =
      .ok (String.join [(Notice.documentUnreadable .failed).logLine "10:00:00",
        (Notice.notInBrands .metric "size").logLine "10:00:00"]).toUTF8 := by
  have hlines : (lateQuestion "size").lines = [(Notice.notInBrands .metric "size").logLine "10:00:00"] := by
    rw [Stage.lines, time_lateQuestion, notices_lateQuestion]
    rfl
  have hholds := log_holds_load rfl rfl logPath?_loggingBrand (by decide) hasRoom_loggingBrand
    (course_lateQuestion "size") trivial (not_restarts_lateQuestion "size")
  rw [takeWhile_lateQuestion, List.flatMap_cons, List.flatMap_singleton, lines_unreadableLoad, hlines] at hholds
  exact hholds

/-- A notice with half of a surrogate pair in it does not get into the log file. -/
theorem not_log_holds_all :
    ¬ ∀ (w w' : Workspace) (b : Brand) (path : Path) (earlier later : List Stage) (first : Stage),
      w.brands = [b] → b.log = none → b.logPath? = some path → path.defect? = none → w.files.HasRoom path →
      Course path w (earlier ++ first :: later) w' → first.step.Restarts → (∀ s ∈ later, ¬ s.step.Restarts) →
      w'.files.read path = .ok (String.join ((first :: later.takeWhile (!·.step.unloads)).flatMap fun s =>
        (s.notices.filter (·.concernsDocument)).map (·.logLine s.before.time))).toUTF8 := by
  intro hholds
  let name := String.singleton (Text.ofHalf 0xd800)
  have hclaimed := hholds _ _ _ artLog [] _ _ rfl rfl logPath?_loggingBrand (by decide) hasRoom_loggingBrand
    (course_lateQuestion name) trivial (not_restarts_lateQuestion name)
  have hheld := (course_lateQuestion name).holds ready_loggingBrand (by decide) trivial (not_restarts_lateQuestion name)
  have hsame := String.toByteArray_inj.mp (Except.ok.inj (hheld.symm.trans hclaimed))
  have hnone (stages : List Stage) : Text.hasHalf (String.join (stages.flatMap Stage.lines)) = false := by
    rw [hasHalf_join, List.any_eq_false]
    intro line hline
    obtain ⟨s, -, hs⟩ := List.mem_flatMap.mp hline
    exact ne_true_of_eq_false (hasHalf_of_mem_logLines hs)
  have hhalf : Text.hasHalf ((Notice.notInBrands .metric name).logLine "10:00:00") = true := by
    decide
  have hsome := hnone (unreadableLoad :: [lateQuestion name].takeWhile (!·.step.unloads))
  rw [hsame, takeWhile_lateQuestion, List.flatMap_cons, List.flatMap_singleton, notices_lateQuestion,
    time_lateQuestion, hasHalf_join, List.any_append, Bool.or_eq_false_iff] at hsome
  exact Bool.false_ne_true (by simpa [Notice.concernsDocument, hhalf] using hsome.2)

end Workspace

end DesignTokens
