import DesignTokens.Document.Decode
import DesignTokens.Document.LoadError
import DesignTokens.Json.Reader
import DesignTokens.Yaml.Value

/-!
# Loading documents

A document is loaded from JSON text or bytes, or from a file, whose name tells whether it holds YAML. Text
that is no JSON is a problem like any other, at the top of the data. YAML without a value, or with one that
counts as absent, is an empty document.

* `ofText_of_read?` — a document from JSON text is the document of the data in it.
-/

namespace DesignTokens.Document

/-- The document that JSON text holds. -/
def ofText (text : String) : Checked Document :=
  if Text.hasHalf text then .fail .notUnicode
  else
    match Json.read? .document text with
    | some data => decode {} data
    | none => .fail .notJson

/-- The document that the bytes of JSON text hold. -/
def ofBytes (bytes : ByteArray) : Checked Document :=
  match String.fromUTF8? bytes with
  | some text => ofText text
  | none => .fail .notJson

theorem ofText_of_read? {text : String} {data : Datum} (hhalf : Text.hasHalf text = false)
    (h : Json.read? .document text = some data) : ofText text = decode {} data := by
  simp [ofText, hhalf, h]

/-- The document that YAML text holds. -/
def ofYaml (text : String) : Except Yaml.Error (Checked Document) := do
  let data ← Yaml.read text
  let c : Datum.Context := { parts := data.parts, saturates := false }
  return decode c (if data.isBlank then .map [] else data.root)

/-- The characters of a text with every end of a line written as a line feed. -/
def withLineFeeds : List Char → List Char
  | '\r' :: '\n' :: rest => '\n' :: withLineFeeds rest
  | '\r' :: rest => '\n' :: withLineFeeds rest
  | c :: rest => c :: withLineFeeds rest
  | [] => []

/-- The document in the file at a path. -/
def load (files : Files) (path : Path) : Except LoadError Document := do
  if let some defect := path.defect? then throw (.path defect)
  let bytes ← (files.read path).mapError .file
  match String.fromUTF8? bytes with
  | none => throw .notText
  | some text =>
    let text := String.ofList (withLineFeeds text.toList)
    let decoded ← if path.isYaml then (ofYaml text).mapError .yaml else pure (ofText text)
    match decoded with
    | .ok document => return document
    | .failed problems => throw (.undecodable problems)

end DesignTokens.Document
