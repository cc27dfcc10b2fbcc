import DesignTokens.Proofs.Brand.Calls
import DesignTokens.Proofs.Resolution.Likeness

/-!
# Log files and image files

An image may name the log file of a brand as its file, and then every notice changes what the image is read from.
This does no harm: a log file begins like a text, which no image file does, and it goes on beginning like one
whatever is written to it. So all surroundings remain alike while brands are asked.

* `Files.Alike.surroundings` — where no file has become or ceased to be an image, all images are the same.
* `Workspace.Touched.alike` — questions leave files alike.
* `Workspace.Arises.logsApart` — open log files begin like texts, whatever has been done to brands.
-/

namespace DesignTokens

/-! ### Beginnings of files -/

theorem Bytes.toList_loop (bytes : ByteArray) (i : Nat) (done : List UInt8) :
    ByteArray.toList.loop bytes i done = done.reverse ++ bytes.data.toList.drop i := by
  fun_induction ByteArray.toList.loop bytes i done with
  | case1 i done hlt ih =>
    have hget : bytes.get! i = bytes.data.toList[i] := getElem!_pos bytes.data i hlt
    rw [ih, List.drop_eq_getElem_cons hlt, hget]
    simp
  | case2 i done hge =>
    have hlength : bytes.data.toList.length ≤ i := Nat.le_of_not_lt hge
    simp [List.drop_eq_nil_of_le hlength]

theorem Bytes.toList_eq (bytes : ByteArray) : bytes.toList = bytes.data.toList := by
  rw [ByteArray.toList, toList_loop]
  rfl

/-- The content of a file is empty, or its first byte may begin a character. -/
def BeginsAsText (content : ByteArray) : Prop := ∀ h : 0 < content.size, content[0].IsUTF8FirstByte

namespace BeginsAsText

variable {content other : ByteArray}

theorem toUTF8 (text : String) : BeginsAsText text.toUTF8 :=
  fun h => text.isValidUTF8.isUTF8FirstByte_getElem_zero h

theorem append (h : BeginsAsText content) (hother : content.size = 0 → BeginsAsText other) :
    BeginsAsText (content ++ other) := by
  intro hsize
  by_cases hempty : content.size = 0
  · rw [ByteArray.getElem_append_right (Nat.le_of_eq hempty)]
    simpa only [hempty] using hother hempty (by simpa [hempty] using hsize)
  · rw [ByteArray.getElem_append_left (Nat.pos_of_ne_zero hempty)]
    exact h (Nat.pos_of_ne_zero hempty)

theorem extract (h : BeginsAsText content) (stop : Nat) : BeginsAsText (content.extract 0 stop) := by
  intro hsize
  rw [ByteArray.getElem_extract]
  exact h (by rw [ByteArray.size_extract] at hsize; omega)

theorem zeros (count : Nat) : BeginsAsText ⟨Array.replicate count 0⟩ := by
  intro hsize
  change (Array.replicate count (0 : UInt8))[0].IsUTF8FirstByte
  rw [Array.getElem_replicate]
  decide

/-- Text that is written over text, at any place, leaves something that begins like one. -/
theorem overwritten (h : BeginsAsText content) (offset : Nat) (text : String) :
    BeginsAsText (overwritten content offset text.toUTF8) := by
  refine (((h.extract offset).append fun _ => zeros _).append fun _ => toUTF8 text).append fun hempty => ?_
  have hgap : (⟨Array.replicate (offset - content.size) 0⟩ : ByteArray).size = offset - content.size :=
    Array.size_replicate
  have hstart : offset + text.toUTF8.size = 0 := by
    rw [ByteArray.size_append, ByteArray.size_append, ByteArray.size_extract, hgap] at hempty
    omega
  rw [hstart]
  exact h.extract _

/-- No image file begins like a text. -/
theorem not_signature (h : BeginsAsText content) :
    (content.extract 0 Png.signature.length).toList ≠ Png.signature := by
  intro hsigned
  have hbegins := h.extract Png.signature.length
  generalize content.extract 0 Png.signature.length = start at hsigned hbegins
  rw [Bytes.toList_eq] at hsigned
  have hsize : 0 < start.size := by
    rw [← ByteArray.size_data, ← Array.length_toList, hsigned]
    decide
  have hfirst : start[0] = 0x89 := by
    have hhead : start.data.toList[0]? = some 0x89 := by rw [hsigned]; rfl
    exact (List.getElem_eq_iff hsize).mpr hhead
  have hfirst' := hbegins hsize
  rw [hfirst] at hfirst'
  exact absurd hfirst' (by decide)

end BeginsAsText

/-! ### Trees of files -/

/-- The same content, or contents that begin like texts both. -/
def ContentsAlike (content content' : ByteArray) : Prop :=
  content' = content ∨ BeginsAsText content ∧ BeginsAsText content'

namespace Files

/-- The same folders and files, but a file that begins like a text may hold something else that does. -/
structure Alike (f g : Files) : Prop where
  folders : g.folders = f.folders
  contents : ∀ place, Option.Rel ContentsAlike (f.contents.lookup place) (g.contents.lookup place)

/-- The file at a location, if there is one, begins like a text. -/
def HoldsText (f : Files) (place : List String) : Prop :=
  ∀ content, f.contents.lookup place = some content → BeginsAsText content

variable {f g h : Files} {place : List String} {content : ByteArray}

theorem Alike.refl (f : Files) : f.Alike f := by
  refine ⟨rfl, fun place => ?_⟩
  cases f.contents.lookup place with
  | none => exact .none
  | some content => exact .some (.inl rfl)

theorem Alike.trans (hfg : f.Alike g) (hgh : g.Alike h) : f.Alike h := by
  refine ⟨hgh.folders.trans hfg.folders, fun place => ?_⟩
  have hfirst := hfg.contents place
  have hsecond := hgh.contents place
  generalize f.contents.lookup place = x at hfirst
  generalize g.contents.lookup place = y at hfirst hsecond
  generalize h.contents.lookup place = z at hsecond
  cases hfirst with
  | none => exact hsecond
  | some hfirst =>
    cases hsecond with
    | some hsecond =>
      refine .some ?_
      rcases hfirst with rfl | ⟨hf, hg⟩
      · exact hsecond
      · rcases hsecond with rfl | ⟨-, hh⟩
        · exact .inr ⟨hf, hg⟩
        · exact .inr ⟨hf, hh⟩

theorem HoldsText.alike (hfg : f.Alike g) (htext : f.HoldsText place) : g.HoldsText place := by
  intro content hcontent
  have hsame := hfg.contents place
  unfold HoldsText at htext
  rw [hcontent] at hsame
  generalize f.contents.lookup place = x at hsame htext
  cases hsame with
  | some hsame =>
    rcases hsame with rfl | ⟨-, hg⟩
    · exact htext _ rfl
    · exact hg

theorem alike_overwrite (htext : f.HoldsText place) (hcontent : BeginsAsText content) :
    f.Alike (f.overwrite place content) := by
  refine ⟨rfl, fun other => ?_⟩
  rw [lookup_overwrite]
  by_cases hplace : other = place
  · subst hplace
    rw [if_pos rfl]
    unfold HoldsText at htext
    generalize f.contents.lookup other = x at htext
    cases x with
    | none => exact .none
    | some old => exact .some (.inr ⟨htext old rfl, hcontent⟩)
  · rw [if_neg hplace]
    exact (Alike.refl f).contents other

/-- What a path leads to in files that are alike. -/
inductive FoundAlike : Except FileError Node → Except FileError Node → Prop where
  | error (e : FileError) : FoundAlike (.error e) (.error e)
  | folder (parts : List String) : FoundAlike (.ok (.folder parts)) (.ok (.folder parts))
  | file (parts : List String) {content content' : ByteArray} (h : ContentsAlike content content') :
      FoundAlike (.ok (.file parts content)) (.ok (.file parts content'))

theorem Alike.walk (hfg : f.Alike g) (folder parts : List String) :
    FoundAlike (f.walk folder parts) (g.walk folder parts) := by
  induction parts generalizing folder with
  | nil => exact .folder folder
  | cons part rest ih =>
    simp only [Files.walk, node?, hfg.folders]
    split
    · exact ih _
    split
    · exact .error _
    by_cases hfolder : f.folders.contains (folder ++ [part]) = true
    · simp only [hfolder, if_true]
      exact ih _
    · have hsame := hfg.contents (folder ++ [part])
      simp only [hfolder, Bool.false_eq_true, if_false]
      generalize f.contents.lookup (folder ++ [part]) = x at hsame
      generalize g.contents.lookup (folder ++ [part]) = y at hsame
      cases hsame with
      | none => exact .error _
      | some hcontents =>
        simp only [Option.map_some]
        split
        · exact .file _ hcontents
        · exact .error _

theorem Alike.find (hfg : f.Alike g) (path : Path) : FoundAlike (f.find path) (g.find path) := by
  unfold Files.find
  split
  · exact .error _
  · exact hfg.walk _ _

/-- A file is read to the same, or to contents that begin like texts. -/
theorem Alike.read (hfg : f.Alike g) (path : Path) :
    g.read path = f.read path ∨
      ∃ content content', f.read path = .ok content ∧ g.read path = .ok content' ∧
        BeginsAsText content ∧ BeginsAsText content' := by
  have hfound := hfg.find path
  unfold Files.read
  generalize f.find path = x at hfound
  generalize g.find path = y at hfound
  cases hfound with
  | error e => exact .inl rfl
  | folder parts => exact .inl rfl
  | @file parts content content' hcontents =>
    rcases hcontents with rfl | ⟨hf, hg⟩
    · exact .inl rfl
    · exact .inr ⟨content, content', rfl, rfl, hf, hg⟩

end Files

theorem ImageLayers.ofFile_defect {s : Surroundings} {storage : Path} {path : String} {defect : Path.Defect}
    (hstorage : s.storage = some storage) (hdefect : (storage.join (Path.ofText path)).defect? = some defect) :
    ofFile s path = throw (.path defect) := by
  unfold ofFile
  rw [hstorage]
  dsimp only
  rw [hdefect]
  rfl

/-- A file that begins like a text is no image. -/
theorem ImageLayers.ofFile_text {s : Surroundings} {storage : Path} {path : String} {content : ByteArray}
    (hstorage : s.storage = some storage) (hdefect : (storage.join (Path.ofText path)).defect? = none)
    (hread : s.files.read (storage.join (Path.ofText path)) = .ok content) (htext : BeginsAsText content) :
    ∃ n, ofFile s path = Resolve.reject n := by
  have hpng := Png.read_unsigned htext.not_signature
  simp only [ofFile, hstorage, hdefect, hread, hpng]
  split
  · exact ⟨_, rfl⟩
  · exact ⟨_, rfl⟩

/-- Images come to the same among files that are alike. -/
theorem Files.Alike.surroundings {f g : Files} (h : f.Alike g) (storage : Option Path) (catalog : Catalog) :
    Surroundings.Alike ⟨storage, catalog, f⟩ ⟨storage, catalog, g⟩ := by
  refine ⟨rfl, fun path => ?_⟩
  cases storage with
  | none => exact .inl rfl
  | some storage =>
    cases hdefect : (storage.join (Path.ofText path)).defect? with
    | some defect =>
      exact .inl ((ImageLayers.ofFile_defect rfl hdefect).trans (ImageLayers.ofFile_defect rfl hdefect).symm)
    | none =>
      rcases h.read (storage.join (Path.ofText path)) with hsame | ⟨content, content', hf, hg, htext, htext'⟩
      · exact .inl (by simp only [ImageLayers.ofFile, hsame])
      · obtain ⟨n, hn⟩ := ImageLayers.ofFile_text (s := ⟨storage, catalog, f⟩) rfl hdefect hf htext
        obtain ⟨n', hn'⟩ := ImageLayers.ofFile_text (s := ⟨storage, catalog, g⟩) rfl hdefect hg htext'
        exact .inr ⟨n, n', hn, hn'⟩

/-! ### Logs -/

/-- Where the open log files of some brands lie. -/
def logPlaces (brands : List Brand) : List (List String) := brands.filterMap fun b => b.log.map (·.place)

/-- A line that is written to logs leaves files that are alike, and leaves the logs where they are. -/
theorem alike_writeLogs (text : String) (files : Files) (brands : List Brand)
    (h : ∀ place ∈ logPlaces brands, files.HoldsText place) :
    files.Alike (writeLogs text files brands).2 ∧ logPlaces (writeLogs text files brands).1 = logPlaces brands := by
  induction brands generalizing files with
  | nil => exact ⟨.refl files, rfl⟩
  | cons b rest ih =>
    cases hlog : b.log with
    | none =>
      have hplaces : logPlaces (b :: rest) = logPlaces rest := by simp [logPlaces, hlog]
      rw [hplaces] at h
      obtain ⟨halike, hkept⟩ := ih files h
      have hwrite : writeLogs text files (b :: rest) =
          (b :: (writeLogs text files rest).1, (writeLogs text files rest).2) := by
        simp only [writeLogs, hlog]
      rw [hwrite, hplaces]
      exact ⟨halike, by simpa [logPlaces, hlog] using hkept⟩
    | some log =>
      have hplaces : logPlaces (b :: rest) = log.place :: logPlaces rest := by simp [logPlaces, hlog]
      rw [hplaces] at h
      have htext := h log.place (List.mem_cons_self ..)
      have hold : BeginsAsText ((files.contents.lookup log.place).getD .empty) := by
        cases hcontent : files.contents.lookup log.place with
        | none => intro hsize; cases hsize
        | some content => exact htext content hcontent
      have hwritten : files.Alike (log.append files text).2 :=
        Files.alike_overwrite htext (hold.overwritten log.written text)
      obtain ⟨halike, hkept⟩ := ih (log.append files text).2 fun place hplace =>
        (h place (List.mem_cons_of_mem _ hplace)).alike hwritten
      have hwrite : writeLogs text files (b :: rest) =
          ({ b with log := some (log.append files text).1 } :: (writeLogs text (log.append files text).2 rest).1,
            (writeLogs text (log.append files text).2 rest).2) := by
        simp only [writeLogs, hlog]
      rw [hwrite, hplaces]
      exact ⟨hwritten.trans halike, by simpa [logPlaces, LogFile.append] using hkept⟩

namespace Workspace

variable {w : Workspace}

/-- No open log file is mixed up with anything that does not begin like a text. -/
def LogsApart (w : Workspace) : Prop := ∀ place ∈ logPlaces w.brands, w.files.HoldsText place

theorem LogsApart.told (h : w.LogsApart) (n : Notice) : w.files.Alike (w.told n).files ∧ (w.told n).LogsApart := by
  unfold Workspace.told
  dsimp only
  split
  · split
    · exact ⟨.refl _, h⟩
    · obtain ⟨halike, hkept⟩ := alike_writeLogs (n.logLine w.time) w.files w.brands h
      refine ⟨halike, fun place hplace => ?_⟩
      rw [hkept] at hplace
      exact (h place hplace).alike halike
  · exact ⟨.refl _, h⟩

theorem LogsApart.toldAll (h : w.LogsApart) (ns : List Notice) :
    w.files.Alike (w.toldAll ns).files ∧ (w.toldAll ns).LogsApart := by
  induction ns generalizing w with
  | nil => exact ⟨.refl _, h⟩
  | cons n rest ih =>
    obtain ⟨halike, hnext⟩ := h.told n
    obtain ⟨hrest, hlast⟩ := ih hnext
    exact ⟨halike.trans hrest, hlast⟩

/-- Where log files lie after one brand has changed: where they lay before, or where that brand now has one. -/
theorem mem_logPlaces_modifyBrand {i : Nat} {f : Brand → Brand} {place : List String}
    (h : place ∈ logPlaces (w.modifyBrand i f).brands) :
    place ∈ logPlaces w.brands ∨ ∃ b ∈ w.brands, (f b).log.map (·.place) = some place := by
  obtain ⟨b, hb, hplace⟩ := List.mem_filterMap.mp h
  obtain ⟨j, hj⟩ := List.mem_iff_getElem?.mp hb
  change (w.brands.modify i f)[j]? = some b at hj
  rw [List.getElem?_modify] at hj
  obtain ⟨old, hold, hchanged⟩ := Option.map_eq_some_iff.mp hj
  have hmem := List.mem_of_getElem? hold
  split at hchanged
  · subst hchanged
    exact .inr ⟨old, hmem, hplace⟩
  · subst hchanged
    exact .inl (List.mem_filterMap.mpr ⟨old, hmem, hplace⟩)

/-- A brand changes, but its log file, if it is still open, remains where it is. -/
theorem LogsApart.modifyBrand (h : w.LogsApart) {i : Nat} {f : Brand → Brand}
    (hf : ∀ b place, (f b).log.map (·.place) = some place → b.log.map (·.place) = some place) :
    (w.modifyBrand i f).LogsApart := by
  intro place hplace
  rcases mem_logPlaces_modifyBrand hplace with hold | ⟨b, hb, hlog⟩
  · exact h place hold
  · exact h place (List.mem_filterMap.mpr ⟨b, hb, hf b place hlog⟩)

theorem LogsApart.settled (h : w.LogsApart) (i : Nat) (p : Progress) :
    w.files.Alike (w.settled i p).files ∧ (w.settled i p).LogsApart :=
  LogsApart.toldAll (h.modifyBrand (i := i) (f := (·.settle p.store)) fun _ _ hlog => hlog) p.notices

/-- Questions leave all images as they are. -/
theorem Touched.alike {leads : Reading → Progress → Progress → Prop} {w' : Workspace} (h : w.Touched leads w')
    (hlogs : w.LogsApart) : w.files.Alike w'.files ∧ w'.LogsApart := by
  cases h with
  | told ns => exact hlogs.toldAll ns
  | settled _ _ => exact hlogs.settled _ _

/-- A new log file is empty. -/
theorem LogsApart.opened (h : w.LogsApart) {i : Nat} {path : Path} {place : List String} {files : Files}
    (hcreate : w.files.create path .empty = .ok (place, files)) :
    (Workspace.modifyBrand { w with files } i fun b => { b with log := some ⟨place, 0⟩ }).LogsApart := by
  have hfiles := Files.eq_put_of_create hcreate
  intro other hother content hcontent
  change files.contents.lookup other = some content at hcontent
  rw [hfiles, Files.lookup_put] at hcontent
  split at hcontent
  · cases hcontent
    intro hsize
    cases hsize
  · next helsewhere =>
    rcases mem_logPlaces_modifyBrand hother with hold | ⟨b, -, hlog⟩
    · exact h other hold content hcontent
    · cases hlog
      exact absurd rfl helsewhere

theorem LogsApart.logs {i : Nat} {w' : Workspace} (hlogs : w.Logs i w') (h : w.LogsApart) : w'.LogsApart := by
  induction hlogs with
  | refl => exact h
  | told _ n ih => exact (ih.told n).2
  | closed _ ih => exact ih.modifyBrand fun b place hlog => by cases hlog
  | opened _ hcreate ih => exact ih.opened hcreate

theorem LogsApart.load (h : w.LogsApart) (i : Nat) (l : Load) : (Stage.mk w (.load i l)).after.LogsApart := by
  have hloads := l.run_loads i w
  have hresult : (Stage.mk w (.load i l)).result = l.run i w := rfl
  unfold Stage.after
  rw [hresult]
  generalize l.run i w = result at hloads
  cases hloads with
  | installed hkept _ => exact (LogsApart.logs hkept h).modifyBrand fun _ _ hlog => hlog
  | refused hkept => exact .logs hkept h
  | aborted hkept => exact .logs hkept h

theorem LogsApart.delete (h : w.LogsApart) (path : Path) : (w.delete path).LogsApart := by
  unfold Workspace.delete
  split
  · next parts old hfind =>
    intro place hplace content hcontent
    change (w.files.delete path).contents.lookup place = some content at hcontent
    rw [Files.lookup_delete hfind] at hcontent
    split at hcontent
    · cases hcontent
    · obtain ⟨b, hb, hlog⟩ := List.mem_filterMap.mp hplace
      obtain ⟨old, hold, hclosed⟩ := List.mem_map.mp hb
      refine h place (List.mem_filterMap.mpr ⟨old, hold, ?_⟩) content hcontent
      rw [← hclosed] at hlog
      split at hlog
      · cases hlog
      · exact hlog
  · exact h

/-- A workspace that has come about by steps from one where no log file was open. Whatever writes to files there
leaves open log files alone. -/
inductive Arises : Workspace → Prop where
  | start {w : Workspace} (h : ∀ b ∈ w.brands, b.log = none) : Arises w
  | step {w : Workspace} (h : Arises w) (s : Step)
      (halone : ∀ files, s = .write files → ∀ place ∈ logPlaces w.brands,
        files.contents.lookup place = w.files.contents.lookup place) : Arises (Stage.mk w s).after

theorem Arises.logsApart (h : w.Arises) : w.LogsApart := by
  induction h with
  | start h =>
    intro place hplace
    obtain ⟨b, hb, hlog⟩ := List.mem_filterMap.mp hplace
    rw [h b hb] at hlog
    cases hlog
  | @step w _ s halone ih =>
    cases s with
    | load i l => exact ih.load i l
    | unload i => exact ih.modifyBrand fun b place hlog => by cases hlog
    | ask i q => exact ((Stage.after_ask w i q).alike ih).2
    | write files =>
      intro place hplace content hcontent
      change files.contents.lookup place = some content at hcontent
      rw [halone files rfl place hplace] at hcontent
      exact ih place hplace content hcontent
    | delete path => exact ih.delete path

end Workspace

end DesignTokens
