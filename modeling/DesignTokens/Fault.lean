import DesignTokens.Files
import DesignTokens.Yaml.Error

/-!
# Faults

A problem in a document is reported as a notice and ends in a value: the sentinel of the kind. A fault is
the other sort of problem, one that no reader in the library turns into a value, so that it ends the call
in which it arises.
-/

namespace DesignTokens

/-- Why a call ends without a value. -/
inductive Fault where
  /-- An image file was asked for before the document had a storage root. -/
  | storageNotConfigured (image : String)
  /-- A hexadecimal literal whose exponent has digits outside ASCII. -/
  | exponentNotAscii (token : String)
  /-- A key path segment that is made of digits but is no integer. -/
  | indexNotInteger (segment : String)
  /-- A font family or face that is neither text nor absent, where a font name is put together. -/
  | fontNamePart
  /-- A list or an object where a font family or face is looked up. -/
  | fontLookupKey
  /-- A point size too large for a double. -/
  | pointSizeRange
  /-- A number without integer part where a count of pixels is needed. -/
  | infinitePixels
  | undefinedPixels
  /-- A component of a color that is too large to be painted. -/
  | componentRange
  /-- A path that no file can have. -/
  | path (defect : Path.Defect)
  /-- An image file with a chunk of an impossible length. -/
  | imageChunkLength
  /-- An image file whose pixels end in front of something that is no chunk. -/
  | imageChunkName
  /-- Text with half a surrogate pair in it, where Unicode text is to be written. -/
  | notUnicode
  /-- A file that holds no text. -/
  | fileNotText
  /-- A file that a step needs and that cannot be used. -/
  | file (error : FileError)
  /-- Collections of YAML text that are nested too deep. -/
  | depth
  /-- A scalar of YAML text that is not of the sort it claims to be. -/
  | scalar (error : Yaml.ScalarError)
  deriving DecidableEq, Repr

/-- The wording of the one fault that is reported in words. -/
def Fault.message? : Fault → Option String
  | .storageNotConfigured image =>
    some ("Storage root must be set before resolving image file \"" ++ image ++ "\"")
  | _ => none

end DesignTokens
