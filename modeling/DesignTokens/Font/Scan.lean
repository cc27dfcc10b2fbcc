import DesignTokens.Files
import DesignTokens.Font.Catalog
import DesignTokens.Font.FontFile
import DesignTokens.Notice

/-!
# Scanning folders for fonts

A scan adds the fonts of all font files below some folders to a catalog, at any depth. A file is a font file
by the ending of its name. One that cannot be read is noticed; one without a family name is passed over.

* `scanFolders_nil` — without folders nothing changes.
-/

namespace DesignTokens

namespace Catalog

/-- The endings of font files, in the order in which they are looked for. -/
def fontEndings : List String := [".ttf", ".TTF", ".otf", ".OTF"]

/-- A catalog in a scan, with the number of fonts added and the notices given so far. -/
structure Scan where
  catalog : Catalog
  count : Nat := 0
  notices : List Notice := []
  /-- Why the scan ended ahead of the last folder. -/
  failure : Option FileError := none

/-- The scan with the font of a file added. -/
def Scan.add (s : Scan) (name : String) (content : ByteArray) : Scan :=
  match FontFile.names? content with
  | none => { s with notices := s.notices ++ [.fontFileUnreadable name] }
  | some (family, style) =>
    match family.filter (!·.isEmpty) with
    | none => s
    | some family =>
      let face := (style.filter (!·.isEmpty)).getD defaultFace
      { s with catalog := s.catalog.addFace family face none, count := s.count + 1 }

/-- The files and folders below a folder whose names end in `ending`, a folder with no content. -/
def candidates (files : Files) (folder : List String) (ending : String) : List (String × ByteArray) :=
  let folders := (files.foldersBelow folder).map fun inner => (inner, ByteArray.empty)
  (folders ++ files.below folder).filterMap fun (parts, content) =>
    let name := parts.getLast?.getD ""
    if name.endsWith ending then some (name, content) else none

/-- The scan with the fonts below a folder added, ending by ending. -/
def Scan.addFolder (s : Scan) (files : Files) (folder : List String) : Scan :=
  (fontEndings.flatMap (candidates files folder)).foldl (fun s (name, content) => s.add name content) s

/-- The scan with the fonts below the folder at a path. What is no folder is passed over; a path that is too
long ends the scan. -/
def Scan.addPath (s : Scan) (files : Files) (path : Path) : Scan :=
  if s.failure.isSome then s
  else
    match files.find path with
    | .ok (.folder folder) => s.addFolder files folder
    | .error .nameTooLong => if path.defect?.isSome then s else { s with failure := some .nameTooLong }
    | _ => s

/-- The scan of several folders in turn. -/
def scanFolders (c : Catalog) (files : Files) (paths : List Path) : Scan :=
  paths.foldl (·.addPath files ·) { catalog := c }

theorem scanFolders_nil (c : Catalog) (files : Files) : c.scanFolders files [] = { catalog := c } := rfl

end Catalog

end DesignTokens
