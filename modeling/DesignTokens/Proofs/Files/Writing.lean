import DesignTokens.Files
import Mathlib.Data.List.Basic

/-!
# Files that are written

A path leads to a file if all parts but the last lead to a folder and the last names a file in it. Creating a file adds
folders at most, so whatever led to a folder before still does, and writing over a file changes its content alone.

* `find_eq_file_iff` — what it is that a path leads to a file.
* `find_of_create` — a file that is created at a path is found there.
* `find_overwrite` — so is other content that is written over it.
-/

namespace DesignTokens.Files

variable {f g : Files} {folder inner place : List String} {parts rest : List String} {part : String} {path : Path}
  {content other : ByteArray}

/-! ### Walks -/

/-- A walk goes on from the folder where its beginning ends. -/
theorem walk_append (h : f.walk folder parts = .ok (.folder inner)) :
    f.walk folder (parts ++ rest) = f.walk inner rest := by
  induction parts generalizing folder with
  | nil =>
    cases h
    rfl
  | cons part parts ih =>
    rw [List.cons_append]
    rw [walk] at h ⊢
    split
    · next hback => exact ih (by simpa [hback] using h)
    · next hback =>
      rw [if_neg hback] at h
      split
      · next hlong => simp [hlong] at h
      · next hlong =>
        rw [if_neg hlong] at h
        split
        · next hnode => simp [hnode] at h
        · next next hnode => exact ih (by simpa [hnode] using h)
        · next hnode =>
          simp only [hnode] at h
          split at h <;> cases h

/-- Where there are more folders, what led to a folder still does. -/
theorem walk_of_folders (hmore : ∀ location, f.folders.contains location = true → g.folders.contains location = true)
    (h : f.walk folder parts = .ok (.folder inner)) : g.walk folder parts = .ok (.folder inner) := by
  induction parts generalizing folder with
  | nil => exact h
  | cons part parts ih =>
    unfold walk at h ⊢
    split
    · next hback => exact ih (by simpa [hback] using h)
    · next hback =>
      rw [if_neg hback] at h
      split
      · next hlong => simp [hlong] at h
      · next hlong =>
        rw [if_neg hlong] at h
        by_cases hfolder : f.folders.contains (folder ++ [part]) = true
        · simp only [node?, hfolder, hmore _ hfolder, if_true] at h ⊢
          exact ih h
        · simp only [node?, hfolder, Bool.false_eq_true, if_false] at h
          cases hlookup : f.contents.lookup (folder ++ [part]) with
          | none => simp [hlookup] at h
          | some content =>
            simp only [hlookup, Option.map_some] at h
            split at h <;> cases h

/-- A name that can stand for something in a folder. -/
def IsName (part : String) : Prop := part ≠ ".." ∧ ¬ maximalNameLength < part.utf8ByteSize

theorem walk_name (hname : IsName part) (hfile : f.folders.contains (folder ++ [part]) = false) :
    f.walk folder [part] = match f.contents.lookup (folder ++ [part]) with
      | none => .error .missing
      | some content => .ok (.file (folder ++ [part]) content) := by
  have hfile' : ¬ f.folders.contains (folder ++ [part]) = true := hfile ▸ Bool.false_ne_true
  unfold walk
  rw [if_neg hname.1, if_neg hname.2, node?, if_neg hfile']
  cases f.contents.lookup (folder ++ [part]) <;> rfl

/-- A file lies in the folder that all parts but the last lead to. -/
structure LiesAt (f : Files) (folder parts : List String) (place : List String) : Prop where
  exists_name : ∃ before inner part, parts = before ++ [part] ∧ f.walk folder before = .ok (.folder inner) ∧
    IsName part ∧ place = inner ++ [part]
  noFolder : f.folders.contains place = false

theorem walk_eq_file_iff :
    f.walk folder parts = .ok (.file place content) ↔
      f.LiesAt folder parts place ∧ f.contents.lookup place = some content := by
  constructor
  · intro h
    induction parts generalizing folder with
    | nil => cases h
    | cons part parts ih =>
      have hlonger {inner : List String} (hstep : f.walk folder [part] = .ok (.folder inner))
          (hrest : f.walk inner parts = .ok (.file place content)) :
          f.LiesAt folder (part :: parts) place ∧ f.contents.lookup place = some content := by
        obtain ⟨⟨⟨before, last, name, rfl, hbefore, hname, hplace⟩, hfile⟩, hlookup⟩ := ih hrest
        refine ⟨⟨⟨part :: before, last, name, rfl, ?_, hname, hplace⟩, hfile⟩, hlookup⟩
        exact (walk_append hstep).trans hbefore
      unfold walk at h
      split at h
      · next hback => exact hlonger (by simp [walk, hback]) h
      · next hback =>
        split at h
        · cases h
        · next hlong =>
          split at h
          · cases h
          · next inner hnode =>
            refine hlonger ?_ h
            rw [walk, if_neg hback, if_neg hlong]
            simp only [hnode, walk]
          · next found old hnode =>
            split at h
            · next hlast =>
              cases h
              obtain rfl : parts = [] := List.isEmpty_iff.mp hlast
              unfold node? at hnode
              split at hnode
              · cases hnode
              · next hfile =>
                obtain ⟨c, hlookup, hsame⟩ := Option.map_eq_some_iff.mp hnode
                cases hsame
                exact ⟨⟨⟨[], folder, part, rfl, rfl, ⟨hback, hlong⟩, rfl⟩, by simpa using hfile⟩, hlookup⟩
            · cases h
  · rintro ⟨⟨⟨before, inner, part, rfl, hbefore, hname, rfl⟩, hfile⟩, hlookup⟩
    rw [walk_append hbefore, walk_name hname hfile, hlookup]

/-! ### Paths -/

theorem find_eq_file_iff :
    f.find path = .ok (.file place content) ↔
      isTooLong path = false ∧ f.LiesAt (origin path) path.parts place ∧ f.contents.lookup place = some content := by
  unfold find
  cases isTooLong path with
  | true => simp
  | false => simp [walk_eq_file_iff]

theorem lookup_of_find (h : f.find path = .ok (.file place content)) : f.contents.lookup place = some content :=
  (find_eq_file_iff.mp h).2.2

theorem LiesAt.mono (hmore : ∀ location, f.folders.contains location = true → g.folders.contains location = true)
    (hfile : g.folders.contains place = false) (h : f.LiesAt folder parts place) : g.LiesAt folder parts place := by
  obtain ⟨⟨before, inner, part, hparts, hbefore, hname, hplace⟩, -⟩ := h
  exact ⟨⟨before, inner, part, hparts, walk_of_folders hmore hbefore, hname, hplace⟩, hfile⟩

theorem find_overwrite (h : f.find path = .ok (.file place content)) :
    (f.overwrite place other).find path = .ok (.file place other) := by
  obtain ⟨hshort, hlies, hlookup⟩ := find_eq_file_iff.mp h
  refine find_eq_file_iff.mpr ⟨hshort, hlies.mono (f := f) (fun _ h => h) hlies.noFolder, ?_⟩
  rw [lookup_overwrite, if_pos rfl, hlookup]
  rfl

/-! ### New files -/

theorem contains_put (h : f.folders.contains place = true) : (f.put parts content).folders.contains place = true := by
  simp only [put, List.contains_eq_mem, List.mem_append, decide_eq_true_eq] at h ⊢
  exact .inl h

/-- A location is no folder on the way to itself. -/
theorem not_contains_put (h : f.folders.contains place = false) :
    (f.put place content).folders.contains place = false := by
  have hlonger : place ∉ ancestors place := by
    intro hmem
    obtain ⟨n, hn, hsame⟩ := List.mem_map.mp hmem
    have hlength := congrArg List.length hsame
    rw [List.length_take] at hlength
    have := List.mem_range.mp hn
    omega
  simp only [put, List.contains_eq_mem, List.mem_append, List.mem_filter, decide_eq_false_iff_not, not_or] at h ⊢
  exact ⟨h, fun hmem => hlonger hmem.1⟩

theorem find_put (hshort : isTooLong path = false) (h : f.LiesAt (origin path) path.parts place) :
    (f.put place content).find path = .ok (.file place content) := by
  refine find_eq_file_iff.mpr ⟨hshort, h.mono (fun _ => contains_put) (not_contains_put h.noFolder), ?_⟩
  rw [lookup_put, if_pos rfl]

/-- There is a file at a path, or room for one. -/
def HasRoom (f : Files) (path : Path) : Prop := ∃ place g, f.create path .empty = .ok (place, g)

theorem liesAt_of_create (h : f.create path content = .ok (place, g)) :
    isTooLong path = false ∧ f.LiesAt (origin path) path.parts place := by
  unfold create at h
  split at h
  · next parts old hfind =>
    cases h
    obtain ⟨hshort, hlies, -⟩ := find_eq_file_iff.mp hfind
    exact ⟨hshort, hlies⟩
  · cases h
  · next e hfind =>
    split at h
    · next inner hparent =>
      split at h
      · cases h
      · next hfits =>
        cases h
        rw [not_or] at hfits
        obtain ⟨hshort, hname⟩ := hfits
        have hshort : isTooLong path = false := by simpa using hshort
        have hparent : f.walk (origin path) path.parts.dropLast = .ok (.folder inner) := by
          unfold find at hparent
          split at hparent
          · cases hparent
          · exact hparent
        have hfind : f.walk (origin path) path.parts = .error e := by
          simpa [find, hshort] using hfind
        -- The path has parts, or it would be its own parent.
        have hne : path.parts ≠ [] := by
          intro hempty
          rw [hempty] at hparent hfind
          cases hparent.symm.trans hfind
        have hparts : path.parts = path.parts.dropLast ++ [path.name] := by
          rw [Path.name, List.getLast?_eq_getLast_of_ne_nil hne, Option.getD_some, List.dropLast_append_getLast hne]
        have hlast : f.walk inner [path.name] = .error e := by
          rw [← walk_append hparent, ← hparts, hfind]
        have hnotBack : path.name ≠ ".." := by
          intro hback
          rw [hback] at hlast
          cases hlast
        refine ⟨hshort, ⟨_, inner, path.name, hparts, hparent, ⟨hnotBack, hname⟩, rfl⟩, ?_⟩
        by_contra hfolder
        rw [walk, if_neg hnotBack, if_neg hname, node?, if_pos (by simpa using hfolder)] at hlast
        cases hlast
    · cases h
    · cases h

/-- What is created at a path is found there. -/
theorem find_of_create (h : f.create path content = .ok (place, g)) : g.find path = .ok (.file place content) := by
  obtain ⟨hshort, hlies⟩ := liesAt_of_create h
  rw [eq_put_of_create h]
  exact find_put hshort hlies

theorem hasRoom_of_find (h : f.find path = .ok (.file place content)) : f.HasRoom path :=
  ⟨place, f.put place .empty, by simp only [create, h]⟩

/-- Whether there is room for a file shows at its path and at the folder. -/
theorem HasRoom.congr (h : f.HasRoom path) (hfind : g.find path = f.find path)
    (hfolder : g.find path.parent = f.find path.parent) : g.HasRoom path := by
  obtain ⟨place, files, hcreate⟩ := h
  have hcreate' : ∃ files', g.create path .empty = .ok (place, files') := by
    unfold create at hcreate ⊢
    rw [hfind, hfolder]
    split at hcreate
    · cases hcreate
      exact ⟨_, rfl⟩
    · cases hcreate
    · split at hcreate
      · split at hcreate
        · cases hcreate
        · next hfits =>
          cases hcreate
          exact ⟨_, if_neg hfits⟩
      · cases hcreate
      · cases hcreate
  obtain ⟨files', hcreate'⟩ := hcreate'
  exact ⟨place, files', hcreate'⟩

end DesignTokens.Files
