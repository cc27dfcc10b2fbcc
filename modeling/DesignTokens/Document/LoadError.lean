import DesignTokens.Document.Problem
import DesignTokens.Files
import DesignTokens.Yaml.Error

/-!
# Load errors

Why a document could not be loaded from a file: its path, the file, its text, its YAML or its content.
-/

namespace DesignTokens

inductive LoadError where
  /-- No file can have the path. -/
  | path (defect : Path.Defect)
  | file (error : FileError)
  /-- The file is no UTF-8 text. -/
  | notText
  | yaml (error : Yaml.Error)
  | undecodable (problems : List Problem)
  deriving Repr

/-- The name of the sort of an error. -/
def LoadError.name : LoadError → String
  | .path defect => defect.name
  | .file error => error.name
  | .notText => "UnicodeDecodeError"
  | .yaml error => error.name
  | .undecodable _ => "ValidationError"

end DesignTokens
