import DesignTokens.Proofs.Brand.Aborted
import DesignTokens.Proofs.Document.Sharing

/-!
# JSON and YAML files

A document may be kept in a file of either format. The formats have readers of their own: what an anchor names is a part
of the data of YAML, which may be referred to in several places, and an integer beyond all doubles is an infinite number
in JSON and no number in YAML. Where both readers find the same value, and no such integer is wanted as a number, the
decoder makes the same of it.

The value of a YAML file that counts as absent is replaced by an empty object before it is decoded. This is meant for
files without content, whose value is null. A JSON file of null holds no document.

* `Files.HoldsYaml.load` — a YAML file is loaded like the tree of its value, or like an empty object.
* `Document.decode_saturates` — where all numbers are doubles, it does not matter which format they come from.
* `Document.load_formats_agree` — files of both formats give the same, except for values that count as absent.
* `Document.not_formats_agree` — two files that hold null.
-/

namespace DesignTokens

open Datum (Holds ofJson)

/-! ### Files that hold a value -/

/-- The file at a path is text, which is read with line feeds at the ends of its lines. -/
structure Files.HasText (files : Files) (path : Path) (text : String) : Prop where
  sound : path.defect? = none
  content : ∃ bytes raw, files.read path = .ok bytes ∧ String.fromUTF8? bytes = some raw ∧
    String.ofList (Document.withLineFeeds raw.toList) = text

/-- JSON text, which is Unicode, holds a value. -/
def Json.InText (text : String) (v : Json) : Prop :=
  Text.hasHalf text = false ∧ ∃ d, Json.read? .document text = some d ∧ Holds #[] d v

/-- YAML text holds a value. -/
def Yaml.InText (text : String) (v : Json) : Prop := ∃ g, Yaml.read text = .ok g ∧ Holds g.parts g.root v

instance (text : String) (v : Json) : Decidable (Json.InText text v) :=
  decidable_of_iff (Text.hasHalf text = false ∧ (Json.read? .document text).any (Holds #[] · v) = true) (by
    simp [Json.InText, Option.any_eq_true])

instance (text : String) (v : Json) : Decidable (Yaml.InText text v) :=
  decidable_of_iff ((Yaml.read text).toOption.any (fun g => Holds g.parts g.root v) = true) (by
    unfold Yaml.InText
    cases Yaml.read text <;> simp [Except.toOption])

/-- The file at a path is one of JSON and holds a value. -/
structure Files.HoldsJson (files : Files) (path : Path) (v : Json) : Prop where
  format : path.isYaml = false
  holds : ∃ text, files.HasText path text ∧ Json.InText text v

/-- The file at a path is one of YAML and holds a value. -/
structure Files.HoldsYaml (files : Files) (path : Path) (v : Json) : Prop where
  format : path.isYaml = true
  holds : ∃ text, files.HasText path text ∧ Yaml.InText text v

/-- A folder with one file, of text. -/
def Files.alone (name text : String) : Files := Files.empty.put [name] text.toUTF8

theorem Files.hasText_alone {name text : String} (hread : (alone name text).read ⟨"", [name]⟩ = .ok text.toUTF8)
    (hsound : Path.defect? ⟨"", [name]⟩ = none) (hlines : String.ofList (Document.withLineFeeds text.toList) = text) :
    (alone name text).HasText ⟨"", [name]⟩ text where
  sound := hsound
  content := by
    refine ⟨text.toUTF8, text, hread, ?_, hlines⟩
    simp only [String.fromUTF8?, String.toUTF8_eq_toByteArray, text.isValidUTF8]
    rfl

/-! ### Loads -/

namespace Document

/-- What a load gives if its data are decoded. -/
def loaded : Checked Document → Except LoadError Document
  | .ok document => .ok document
  | .failed problems => .error (.undecodable problems)

/-- The document without entries. -/
def blank : Document := ⟨some 0, {}, false⟩

/-- Two loads agree: no data are decoded, or the documents have the same version and the same entries, in one order. -/
inductive Agree : Except LoadError Document → Except LoadError Document → Prop where
  | undecodable (problems problems' : List Problem) :
      Agree (.error (.undecodable problems)) (.error (.undecodable problems'))
  | decoded {document document' : Document} (hversion : document.version = document'.version)
      (hentries : ∀ k, document.entries k = document'.entries k) : Agree (.ok document) (.ok document')

theorem Agree.of_decoded (decoded : Checked Document) : Agree (loaded decoded) (loaded decoded) := by
  cases decoded with
  | ok document => exact .decoded rfl fun _ => rfl
  | failed problems => exact .undecodable problems problems

end Document

variable {files files' : Files} {path path' : Path} {v : Json}

/-- Data are blank if the value in them is not truthy. -/
theorem Datum.Holds.isBlank {parts : Array Datum} {d : Datum} (h : Holds parts d v) :
    (d.whole parts).isBlank = !v.isTruthy := by
  have hshows := h.shows
  generalize d.whole parts = e at hshows ⊢
  cases hshows with
  | @list data items hdata => cases data <;> cases items <;> first | rfl | cases hdata
  | @map data members hdata => cases data <;> cases members <;> first | rfl | cases hdata
  | scalar hscalar =>
    cases v with
    | list | object => exact absurd trivial hscalar
    | _ => simp [ofJson, Datum.isBlank, Json.isTruthy, bne]

/-- A JSON file is loaded like the value in it. -/
theorem Files.HoldsJson.load (h : files.HoldsJson path v) :
    Document.load files path = Document.loaded (Document.decode {} (ofJson v)) := by
  obtain ⟨text, htext, hunicode, d, hread, hholds⟩ := h.holds
  obtain ⟨bytes, raw, hcontent, hraw, rfl⟩ := htext.content
  have hdecoded : Document.ofText (String.ofList (Document.withLineFeeds raw.toList)) =
      Document.decode {} (ofJson v) := by
    rw [Document.ofText_of_read? hunicode hread]
    exact Document.decode_holds hholds rfl (fun _ _ => rfl) rfl rfl
  simp only [Document.load, htext.sound, hcontent, Document.mapError_ok, Bind.bind, Except.bind, hraw, h.format,
    Bool.false_eq_true, if_false, hdecoded, pure, Except.pure]
  cases Document.decode {} (ofJson v) <;> rfl

/-- A value whose integers are doubles is decoded alike, be it read from JSON or from YAML. -/
theorem Document.decode_saturates (v : Json)
    (hnumbers : ∀ n ∈ v.factors, Scalar.number false (.int n) = Scalar.number true (.int n)) :
    Document.decode { saturates := false } (ofJson v) = Document.decode {} (ofJson v) :=
  Document.decode_holds (Datum.holds_ofJson v) rfl hnumbers rfl rfl

/-- A YAML file is loaded like the value in it, if this does not count as absent, and like an empty object otherwise. -/
theorem Files.HoldsYaml.load (h : files.HoldsYaml path v) :
    Document.load files path =
      Document.loaded (Document.decode { saturates := false } (ofJson (if v.isTruthy then v else .object []))) := by
  obtain ⟨text, htext, g, hread, hholds⟩ := h.holds
  obtain ⟨bytes, raw, hcontent, hraw, rfl⟩ := htext.content
  have hdecoded : Document.ofYaml (String.ofList (Document.withLineFeeds raw.toList)) =
      .ok (Document.decode { saturates := false } (ofJson (if v.isTruthy then v else .object []))) := by
    rw [Document.ofYaml, hread]
    refine congrArg Except.ok ?_
    rw [DataGraph.isBlank, DataGraph.whole, hholds.isBlank]
    cases v.isTruthy with
    | true => exact Document.decode_holds hholds rfl (fun _ _ => rfl) rfl rfl
    | false => exact Document.decode_holds ⟨[], rfl, trivial⟩ rfl (fun _ _ => rfl) rfl rfl
  rw [Document.load_yaml htext.sound h.format hcontent hraw, hdecoded]
  cases Document.decode { saturates := false } (ofJson (if v.isTruthy then v else .object [])) <;> rfl

namespace Document

theorem load_json_null (h : files.HoldsJson path .null) :
    Document.load files path = .error (.undecodable [⟨[], .notRecord⟩]) := h.load

theorem load_yaml_null (h : files.HoldsYaml path .null) : Document.load files path = .ok blank := h.load

/-- A JSON file and a YAML file that hold one value give the same: no data are decoded in either, or they are the same
document. Null is no document in JSON; in YAML it is the content of an empty file, and so of an empty document. -/
theorem load_formats_agree (hjson : files.HoldsJson path v) (hyaml : files'.HoldsYaml path' v)
    (hvalidated : decode { saturates := false } (ofJson v) = decode {} (ofJson v)) :
    (v.isTruthy = true ∨ v = .object [] →
      load files path = load files' path' ∧ Agree (load files path) (load files' path')) ∧
    (v = .null →
      load files path = .error (.undecodable [⟨[], .notRecord⟩]) ∧ load files' path' = .ok blank) := by
  refine ⟨fun hpresent => ?_, ?_⟩
  · have hsame : (if v.isTruthy then v else .object []) = v := by
      rcases hpresent with htruthy | rfl
      · rw [if_pos htruthy]
      · rfl
    rw [hjson.load, hyaml.load, hsame, hvalidated]
    exact ⟨rfl, .of_decoded _⟩
  · rintro rfl
    exact ⟨load_json_null hjson, load_yaml_null hyaml⟩

/-- A font that two entries share: the value, the text of JSON and the text of YAML with an anchor. -/
def sharedFont : Json :=
  .object [("fonts", .object
    [("body", .object [("family", .string "Menlo")]), ("title", .object [("family", .string "Menlo")])])]

def sharedFontJson : String :=
  "\x7b\"fonts\": \x7b\"body\": \x7b\"family\": \"Menlo\"\x7d, \"title\": \x7b\"family\": \"Menlo\"\x7d\x7d\x7d"

def sharedFontYaml : String := "fonts: \x7bbody: &f \x7bfamily: Menlo\x7d, title: *f\x7d"

theorem load_formats_agree_shared :
    (Files.alone "a.json" sharedFontJson).HoldsJson ⟨"", ["a.json"]⟩ sharedFont ∧
      (Files.alone "a.yaml" sharedFontYaml).HoldsYaml ⟨"", ["a.yaml"]⟩ sharedFont ∧
      load (.alone "a.json" sharedFontJson) ⟨"", ["a.json"]⟩ =
        load (.alone "a.yaml" sharedFontYaml) ⟨"", ["a.yaml"]⟩ := by
  have hjson : (Files.alone "a.json" sharedFontJson).HoldsJson ⟨"", ["a.json"]⟩ sharedFont :=
    ⟨by decide, _, Files.hasText_alone rfl (by decide) (by decide +kernel), by decide +kernel⟩
  have hyaml : (Files.alone "a.yaml" sharedFontYaml).HoldsYaml ⟨"", ["a.yaml"]⟩ sharedFont :=
    ⟨by decide, _, Files.hasText_alone rfl (by decide) (by decide +kernel), by decide +kernel⟩
  have hvalidated := decode_saturates sharedFont fun _ hn => nomatch hn
  exact ⟨hjson, hyaml, ((load_formats_agree hjson hyaml hvalidated).1 (.inl rfl)).1⟩

/-- Files of both formats that hold null do not agree. -/
theorem not_formats_agree :
    ¬ ∀ (files files' : Files) (path path' : Path) (v : Json), files.HoldsJson path v → files'.HoldsYaml path' v →
      decode { saturates := false } (ofJson v) = decode {} (ofJson v) →
      Agree (load files path) (load files' path') := by
  intro hagree
  have hjson : (Files.alone "a.json" "null").HoldsJson ⟨"", ["a.json"]⟩ .null :=
    ⟨by decide, _, Files.hasText_alone rfl (by decide) (by decide +kernel), by decide +kernel⟩
  have hyaml : (Files.alone "a.yaml" "null").HoldsYaml ⟨"", ["a.yaml"]⟩ .null :=
    ⟨by decide, _, Files.hasText_alone rfl (by decide) (by decide +kernel), by decide +kernel⟩
  have hnull := hagree _ _ _ _ _ hjson hyaml rfl
  rw [load_json_null hjson, load_yaml_null hyaml] at hnull
  cases hnull

end Document

end DesignTokens
