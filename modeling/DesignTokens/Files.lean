import DesignTokens.Path

/-!
# File trees

The files in sight: contents at locations, and the folders they lie in. A location is a list of names from
the working folder on, or from the root, which is the name `/`. A path is walked part by part, so that it
fails where a folder is missing, even if a later part leads back out of it.

* `lookup_overwrite` — what is written over the content of a file is found there, and nothing else changes.
* `lookup_put` — what is put at a location is found there, and nothing else changes.
* `eq_put_of_create` — a file is created by putting it somewhere.
* `lookup_delete` — a file that is deleted is gone, and nothing else is.
-/

namespace DesignTokens

/-- Why a file cannot be used. -/
inductive FileError where
  | missing
  | isFolder
  | notAFolder
  | nameTooLong
  /-- Reading failed for a reason outside the tree. -/
  | failed
  deriving DecidableEq, Repr

/-- The name of the error in notices. -/
def FileError.name : FileError → String
  | .missing => "FileNotFoundError"
  | .isFolder => "IsADirectoryError"
  | .notAFolder => "NotADirectoryError"
  | .nameTooLong => "OSError"
  | .failed => "OSError"

/-- Contents of files, and folders; the working folder is `[]`. -/
structure Files where
  contents : List (List String × ByteArray)
  folders : List (List String)

namespace Files

/-- No files, and the working folder alone. -/
def empty : Files := ⟨[], [[]]⟩

/-- What a path leads to. -/
inductive Node where
  | file (parts : List String) (content : ByteArray)
  | folder (parts : List String)

/-- The longest name of a file, in bytes. -/
def maximalNameLength : Nat := 255

/-- The node of a location whose parts are all names. -/
def node? (files : Files) (parts : List String) : Option Node :=
  if files.folders.contains parts then some (.folder parts)
  else (files.contents.lookup parts).map (.file parts)

/-- The folder that holds a folder. The root holds itself; above the working folder there is only one more
folder in sight, which stands for all those further up. -/
def holder (folder : List String) : List String :=
  match folder.getLast? with
  | none => [".."]
  | some last => if last = "/" ∨ last = ".." then folder else folder.dropLast

/-- The node that parts lead to from a folder. -/
def walk (files : Files) (folder : List String) : List String → Except FileError Node
  | [] => .ok (.folder folder)
  | part :: rest =>
    if part = ".." then files.walk (holder folder) rest
    else if maximalNameLength < part.utf8ByteSize then .error .nameTooLong
    else
      match files.node? (folder ++ [part]) with
      | none => .error .missing
      | some (.folder inner) => files.walk inner rest
      | some (.file parts content) => if rest.isEmpty then .ok (.file parts content) else .error .notAFolder

/-- The folder that a path starts from. -/
def origin (path : Path) : List String := if path.isAbsolute then ["/"] else []

/-- The location that a path names if all folders on the way are there. -/
def location (path : Path) : List String :=
  path.parts.foldl (fun folder part => if part = ".." then holder folder else folder ++ [part])
    (origin path)

/-- The longest text of a path, in bytes. -/
def maximalPathLength : Nat := 4095

/-- Whether the text of a path is too long. -/
def isTooLong (path : Path) : Bool := maximalPathLength < path.text.utf8ByteSize

/-- The node at a path. -/
def find (files : Files) (path : Path) : Except FileError Node :=
  if isTooLong path then .error .nameTooLong else files.walk (origin path) path.parts

def exists? (files : Files) (path : Path) : Bool := (files.find path).isOk

/-- The content of the file at a path. -/
def read (files : Files) (path : Path) : Except FileError ByteArray :=
  match files.find path with
  | .ok (.file _ content) => .ok content
  | .ok (.folder _) => .error .isFolder
  | .error e => .error e

/-- All folders on the way to a location. -/
def ancestors (parts : List String) : List (List String) := (List.range parts.length).map parts.take

/-- The tree with a file put at a location, and the folders that it needs. -/
def put (files : Files) (parts : List String) (content : ByteArray) : Files where
  contents :=
    if (files.contents.lookup parts).isSome then
      files.contents.map fun file => if file.1 = parts then (parts, content) else file
    else files.contents ++ [(parts, content)]
  folders := files.folders ++ (ancestors parts).filter (!files.folders.contains ·)

/-- The tree with a folder, and those that it lies in. -/
def putFolder (files : Files) (parts : List String) : Files :=
  { files with
    folders := files.folders ++ (ancestors parts ++ [parts]).filter (!files.folders.contains ·) }

/-- The tree with other content in the file at a location, if there is one. -/
def overwrite (files : Files) (parts : List String) (content : ByteArray) : Files :=
  { files with contents := files.contents.map fun file => if file.1 = parts then (parts, content) else file }

theorem lookup_overwrite (files : Files) (parts place : List String) (content : ByteArray) :
    (files.overwrite parts content).contents.lookup place =
      if place = parts then (files.contents.lookup place).map fun _ => content
      else files.contents.lookup place := by
  unfold overwrite
  generalize files.contents = contents
  induction contents with
  | nil => simp
  | cons file rest ih =>
    obtain ⟨location, old⟩ := file
    rw [List.map_cons, List.lookup_cons, List.lookup_cons]
    by_cases hold : location = parts
    · subst hold
      by_cases hplace : place = location
      · simp [hplace]
      · have hother : (place == location) = false := by simpa using hplace
        simpa [hplace, hother] using ih
    · by_cases hplace : place = location
      · subst hplace
        simp [hold]
      · have hother : (place == location) = false := by simpa using hplace
        simpa [hold, hother] using ih

theorem lookup_put (files : Files) (parts place : List String) (content : ByteArray) :
    (files.put parts content).contents.lookup place =
      if place = parts then some content else files.contents.lookup place := by
  have hoverwrite := lookup_overwrite files parts place content
  cases hold : files.contents.lookup parts with
  | some old =>
    have hput : (files.put parts content).contents = (files.overwrite parts content).contents := by
      simp only [put, overwrite, hold, Option.isSome_some, if_true]
    rw [hput, hoverwrite]
    by_cases hplace : place = parts
    · simp [hplace, hold]
    · simp [hplace]
  | none =>
    have hput : (files.put parts content).contents = files.contents ++ [(parts, content)] := by
      simp only [put, hold, Option.isSome_none, Bool.false_eq_true, if_false]
    rw [hput, List.lookup_append]
    by_cases hplace : place = parts
    · simp [hplace, hold]
    · have hother : (place == parts) = false := by simpa using hplace
      rw [if_neg hplace, List.lookup_cons, hother, List.lookup_nil, Option.or_none]

/-- Where a file lies that is put at a path, in a folder that must exist, and the tree with that file. -/
def create (files : Files) (path : Path) (content : ByteArray) : Except FileError (List String × Files) :=
  match files.find path with
  | .ok (.file parts _) => .ok (parts, files.put parts content)
  | .ok (.folder _) => .error .isFolder
  | .error _ =>
    match files.find path.parent with
    | .ok (.folder folder) =>
      if isTooLong path ∨ maximalNameLength < path.name.utf8ByteSize then .error .nameTooLong
      else .ok (folder ++ [path.name], files.put (folder ++ [path.name]) content)
    | .ok (.file ..) => .error .notAFolder
    | .error e => .error e

/-- What is created is put. -/
theorem eq_put_of_create {files files' : Files} {path : Path} {content : ByteArray} {place : List String}
    (h : files.create path content = .ok (place, files')) : files' = files.put place content := by
  unfold create at h
  split at h
  · cases h
    rfl
  · cases h
  · split at h
    · split at h
      · cases h
      · cases h
        rfl
    · cases h
    · cases h

/-- The tree without the file at a path. -/
def delete (files : Files) (path : Path) : Files :=
  match files.find path with
  | .ok (.file parts _) => { files with contents := files.contents.filter (·.1 ≠ parts) }
  | _ => files

theorem lookup_delete {files : Files} {path : Path} {parts : List String} {content : ByteArray}
    (h : files.find path = .ok (.file parts content)) (place : List String) :
    (files.delete path).contents.lookup place = if place = parts then none else files.contents.lookup place := by
  unfold delete
  rw [h]
  dsimp only
  generalize files.contents = contents
  induction contents with
  | nil => simp
  | cons file rest ih =>
    obtain ⟨location, old⟩ := file
    by_cases hold : location = parts
    · subst hold
      rw [List.filter_cons_of_neg (by simp), ih, List.lookup_cons]
      by_cases hplace : place = location
      · rw [if_pos hplace, if_pos hplace]
      · have hother : (place == location) = false := by simpa using hplace
        rw [hother]
    · rw [List.filter_cons_of_pos (by simpa using hold), List.lookup_cons, List.lookup_cons, ih]
      by_cases hplace : place = location
      · subst hplace
        simp [hold]
      · have hother : (place == location) = false := by simpa using hplace
        rw [hother]

/-- Whether a location lies below a folder, at any depth. -/
def isBelow (folder location : List String) : Bool :=
  folder.isPrefixOf location && folder.length < location.length &&
    (folder ≠ [] || location.head?.all fun first => first ≠ "/" && first ≠ "..")

/-- The files below a folder. -/
def below (files : Files) (folder : List String) : List (List String × ByteArray) :=
  files.contents.filter fun file => isBelow folder file.1

/-- The folders below a folder. -/
def foldersBelow (files : Files) (folder : List String) : List (List String) :=
  files.folders.filter (isBelow folder)

end Files

end DesignTokens
