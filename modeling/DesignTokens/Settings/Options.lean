import DesignTokens.Datum
import DesignTokens.Path
import DesignTokens.Text.SmallLetter

/-!
# Options of the sources of settings

Some arguments are no settings, but say where settings are looked for: in which environment files, and among
which variables. Their names start with a low line. An option that is null is left as it is, except for the
environment files, of which there are none then.

* `ofArguments_nil` — without arguments all options are left as they are.
-/

namespace DesignTokens

/-- Why there are no settings to be found in the way that is asked for. -/
inductive OptionError where
  /-- The environment files are not given as paths. -/
  | envFileKind
  /-- The start of the names of variables is no text. -/
  | startKind
  deriving DecidableEq, Repr

structure SourceOptions where
  /-- The paths of the environment files. What a later one says counts. -/
  envFiles : List String := [".env"]
  /-- What the names of the variables start with. -/
  start : String := "BRANDKIT_"
  /-- Whether capital and small letters differ in the name of a variable. -/
  isCaseSensitive : Bool := false
  /-- Whether an empty variable is none. -/
  ignoresEmpty : Bool := false
  /-- The text of a variable that means no value. -/
  absent : Option String := none
  deriving DecidableEq, Repr

namespace SourceOptions

/-- The options that change where settings are looked for. -/
def effectiveNames : List String :=
  ["_env_file", "_env_prefix", "_case_sensitive", "_env_ignore_empty", "_env_parse_none_str"]

/-- The options that change nothing for settings of these kinds, or nothing without a command line. -/
def idleNames : List String :=
  ["_env_file_encoding", "_env_nested_delimiter", "_env_nested_max_split", "_env_parse_enums",
   "_nested_model_default_partial_update", "_secrets_dir", "_cli_prog_name", "_cli_parse_args",
   "_cli_settings_source", "_cli_parse_none_str", "_cli_hide_none_type", "_cli_avoid_json",
   "_cli_enforce_required", "_cli_use_class_docs_for_groups", "_cli_exit_on_error", "_cli_prefix",
   "_cli_flag_prefix_char", "_cli_implicit_flags", "_cli_ignore_unknown_args", "_cli_kebab_case",
   "_cli_shortcuts"]

/-- Whether an argument is an option. -/
def isOption (name : String) : Bool := effectiveNames.contains name || idleNames.contains name

/-- The text of data. -/
def text? : Datum → Option String
  | .string s => some s
  | _ => none

/-- The paths of environment files. A path alone is given as it is. -/
def paths? : Datum → Option (List String)
  | .null => some []
  | .string s => some [s]
  | .list items => items.mapM text?
  | .map members => (members.map Prod.fst).mapM text?
  | _ => none

/-- The options with one more. -/
def set (o : SourceOptions) (name : String) (value : Datum) : Except OptionError SourceOptions :=
  match name, value with
  | "_env_file", value =>
    match paths? value with
    | some envFiles => .ok { o with envFiles }
    | none => .error .envFileKind
  | _, .null => .ok o
  | "_env_prefix", .string start => .ok { o with start }
  | "_env_prefix", _ => .error .startKind
  | "_case_sensitive", value => .ok { o with isCaseSensitive := !value.isBlank }
  | "_env_ignore_empty", value => .ok { o with ignoresEmpty := !value.isBlank }
  | "_env_parse_none_str", .string absent => .ok { o with absent := some absent }
  | _, _ => .ok o

/-- The options among arguments. -/
def ofArguments (arguments : List (String × Datum)) : Except OptionError SourceOptions :=
  (arguments.filter fun argument => isOption argument.1).foldlM (fun o (name, value) => o.set name value) {}

theorem ofArguments_nil : ofArguments [] = .ok {} := rfl

/-- The name of a variable as names are compared. -/
def variableName (o : SourceOptions) (name : String) : String :=
  if o.isCaseSensitive then name else Text.inSmallLetters name

/-- The variable of a field. -/
def fieldVariable (o : SourceOptions) (field : String) : String := o.variableName (o.start ++ field)

end SourceOptions

end DesignTokens
