import DesignTokens.Settings
import DesignTokens.Settings.EnvFile
import DesignTokens.Settings.Options

/-!
# Sources of settings

A setting may be given as an argument, in the environment or in an environment file, and counts in this
order. Variables have the name of the field behind `BRANDKIT_`, in letters of either case, unless options say
otherwise. A list is given in a variable as JSON. Other variables of the environment are of no concern; other
variables of the file, and other arguments, are problems.

* `ofArgument_field` — an argument under the name of a field is that field.
-/

namespace DesignTokens

/-- Why there are no settings. -/
inductive SettingsError where
  | option (error : OptionError)
  /-- The environment file is no text. -/
  | fileNotText
  /-- A variable that must be JSON is not. -/
  | notJson
  | invalid (problems : List Problem)
  deriving Repr

namespace Settings

structure Sources where
  arguments : List (String × Datum) := []
  environment : List (String × String) := []
  files : Files := Files.empty

/-- The names of the variables that may matter if no options are given: those of the fields, in capital and in
small letters, and those that the text of an environment file refers to. -/
def variableNames (envFile : String) : List String :=
  let names := fieldNames.map (({} : SourceOptions).start ++ ·)
  names.map (fun name => String.ofList (name.toList.map Char.toUpper)) ++ names.map Text.inSmallLetters ++
    EnvFile.mentioned envFile.toList

/-- The field that an argument is for, whatever the case of its name. -/
def ofArgument (name : String) : String :=
  let small := Text.inSmallLetters name
  if fieldNames.contains small then small else name

theorem ofArgument_field {name : String} (h : Text.inSmallLetters name ∈ fieldNames) :
    ofArgument name = Text.inSmallLetters name := by
  simp [ofArgument, h]

/-! ### Variables -/

/-- Variables with their texts, under the names that are compared. A variable of a file may have no text. -/
abbrev Variables := Mapping (Option String)

/-- Variables with more of them; of two with one name the later counts. -/
def addVariables (o : SourceOptions) (known : Variables) (more : List (String × Option String)) : Variables :=
  (more.filter fun (_, text) => !(o.ignoresEmpty && text == some "")).foldl (fun known (name, text) =>
    known.insert (o.variableName name) text) known

/-- The variables of the environment. -/
def environmentVariables (o : SourceOptions) (sources : Sources) : Variables :=
  addVariables o ∅ (sources.environment.map fun (name, text) => (name, some text))

/-- The variables of the environment files, as far as these exist. -/
def fileVariables (o : SourceOptions) (sources : Sources) : Except SettingsError Variables :=
  o.envFiles.foldlM (fun known path =>
    match sources.files.read (Path.ofText path) with
    | .error _ => .ok known
    | .ok content =>
      match String.fromUTF8? content with
      | none => .error .fileNotText
      | some text => .ok (addVariables o known (EnvFile.assignments sources.environment text).toList)) ∅

/-- The value of a field in a variable. JSON null is none. -/
def fieldValue (o : SourceOptions) (field text : String) : Except SettingsError (Option Datum) :=
  if o.absent = some text then .ok (some .null)
  else if field = "font_dirs" then
    match Json.read? .embedded text with
    | some .null => .ok none
    | some data => .ok (some data)
    | none => .error .notJson
  else .ok (some (.string text))

/-- The values of the given fields among variables. -/
def valuesOf (o : SourceOptions) (found : Variables) :
    List String → Except SettingsError (List (String × Datum))
  | [] => .ok []
  | field :: rest => do
    let value ← match (found.find? (o.fieldVariable field)).join with
      | some text => fieldValue o field text
      | none => pure none
    return value.toList.map (field, ·) ++ (← valuesOf o found rest)

/-- Whether a variable of an environment file is of no concern: it belongs to a field, or bears the bare name
of one. -/
def isKnown (o : SourceOptions) (name : String) : Bool :=
  (fieldNames.map o.fieldVariable).contains name || (o.start ≠ "" && fieldNames.contains name)

/-- The variables of the environment files that belong to no setting, with their texts. -/
def others (o : SourceOptions) (found : Variables) : List (String × Datum) :=
  found.toList.filterMap fun (name, text) =>
    match text with
    | none => none
    | some text => if text.isEmpty || isKnown o name then none else some (name, .string text)

/-- The settings that the sources give together. -/
def gather (sources : Sources) : Except SettingsError Settings := do
  let o ← (SourceOptions.ofArguments sources.arguments).mapError .option
  let fromFiles ← fileVariables o sources
  let environment ← valuesOf o (environmentVariables o sources) fieldNames
  let file ← valuesOf o fromFiles fieldNames
  let arguments := (sources.arguments.filter fun argument => !SourceOptions.isOption argument.1).map
    fun (name, data) => (ofArgument name, data)
  let fields := fieldNames.filterMap fun name =>
    ((arguments ++ environment ++ file).lookup name).map (name, ·)
  let unknown := others o fromFiles
  let otherArguments := arguments.filter fun (name, _) =>
    !fieldNames.contains name && !(unknown.map Prod.fst).contains name
  match decode (fields ++ unknown ++ otherArguments) with
  | .ok settings => return settings
  | .failed problems => throw (.invalid problems)

end Settings

end DesignTokens
