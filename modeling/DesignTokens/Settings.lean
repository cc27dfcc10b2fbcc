import DesignTokens.Document.Record
import DesignTokens.Document.Scalar
import DesignTokens.LogLevel
import DesignTokens.Path
import DesignTokens.Text.Blank

/-!
# Settings

Where a check finds its document and its fonts, and what it logs. Settings are decoded from values under the
names of their fields; a field without value has its default, and a value under another name is a problem.

* `decode_nil` — without values all settings have their defaults.
-/

namespace DesignTokens

structure Settings where
  brandDir : Path := ⟨"", []⟩
  fileName : String := "appearance.json"
  logLevel : LogLevel := .info
  writesLogFile : Bool := false
  /-- The folders of the fonts; none for the folders of the system. -/
  fontDirs : List Path := []

namespace Settings

/-- The path of the document. -/
def documentPath (s : Settings) : Path := s.brandDir.join (Path.ofText s.fileName)

/-- The path of the log file. -/
def logPath (s : Settings) : Path := s.brandDir.join (Path.ofText "appearance.log")

/-- The names of the fields, in order. -/
def fieldNames : List String := ["brand_dir", "file_name", "log_level", "write_log_file", "font_dirs"]

def decodePath : Datum → Checked Path
  | .string s => .ok (Path.ofText s)
  | _ => .fail .notPath

/-- A name of a file, in which there must be more than blanks. -/
def decodeFileName (data : Datum) : Checked String :=
  (Scalar.text data).andThen fun name =>
    if name.toList.all Text.isBlank then .fail (.broken .emptyFileName) else .ok name

def decodeLevel (data : Datum) : Checked LogLevel :=
  (Scalar.text data).andThen fun name =>
    match LogLevel.ofText? name with
    | some level => .ok level
    | none => .fail (.broken .unknownLogLevel)

/-- The values that are no fields, each a problem. -/
def decodeOthers (values : List (String × Datum)) : Checked (List Unit) :=
  Checked.all ((values.filter fun value => !fieldNames.contains value.1).map fun value =>
    (Checked.fail .unknownField).below (.name value.1))

/-- The settings of values under names. -/
def decode (values : List (String × Datum)) : Checked Settings :=
  let field {α : Type} (name : String) (decode : Datum → Checked α) (default : α) : Checked α :=
    match values.lookup name with
    | some data => (decode data).below (.name name)
    | none => .ok default
  (fun brandDir fileName logLevel writesLogFile fontDirs _ =>
      Settings.mk brandDir fileName logLevel writesLogFile fontDirs)
    <$> field "brand_dir" decodePath ⟨"", []⟩
    <*> field "file_name" decodeFileName "appearance.json"
    <*> field "log_level" decodeLevel .info
    <*> field "write_log_file" Scalar.flag false
    <*> field "font_dirs" (Datum.items {} decodePath) []
    <*> decodeOthers values

theorem decode_nil : decode [] = .ok {} := rfl

end Settings

end DesignTokens
