import DesignTokens.Brand.Workspace
import DesignTokens.Check.Arguments
import DesignTokens.Check.Report
import DesignTokens.Font.Scan
import DesignTokens.Settings.Sources

/-!
# Checking a document

A check loads the document that the settings name, resolves all its entries and reports those that are
invalid. It succeeds if there are none.

* `conclude_success_iff` — a check succeeds exactly if its report holds no invalid entry.
-/

namespace DesignTokens.Check

/-- Why a check comes to no end of its own. -/
inductive Failure where
  | settings (error : SettingsError)
  | fault (fault : Fault)
  deriving Repr

/-- The wording of a failure. -/
def Failure.message : Failure → String
  | .settings .fileNotText => "The environment file is no text"
  | .settings (.option _) => "The settings cannot be looked for"
  | .settings .notJson => "The folders of fonts are no list"
  | .settings (.invalid problems) => toString problems.length ++ " invalid settings"
  | .fault f => f.message?.getD "The document cannot be checked"

/-- How a check ends: with an exit code, a text, the notices given and the files as they are then. -/
structure Outcome where
  exitCode : Nat
  output : String
  notices : List Notice
  files : Files

/-- The exit codes. -/
def success : Nat := 0
def failure : Nat := 1
def misuse : Nat := 2

/-- What a check is run in. -/
structure Environment where
  assignments : List (String × String) := []
  files : Files := Files.empty
  /-- Where fonts lie if the settings do not say. -/
  systemFonts : List Path := []
  time : String := ""

def usage : String := "usage: check_brand [-h] [--brand-dir BRAND_DIR] [--file FILE_NAME]\n"

/-- The settings of a check. -/
def settings (env : Environment) (brandDir file : Option String) : Except SettingsError Settings :=
  Settings.gather {
    arguments :=
      (brandDir.map fun dir => ("brand_dir", Datum.string dir)).toList ++
        (file.map fun name => ("file_name", Datum.string name)).toList
    environment := env.assignments
    files := env.files }

/-- The fonts that a check finds. -/
def fonts (env : Environment) (s : Settings) : Catalog.Scan :=
  Catalog.builtIn.scanFolders env.files (if s.fontDirs.isEmpty then env.systemFonts else s.fontDirs)

/-- The workspace of a check, with one brand that uses the fonts of a scan. -/
def workspace (env : Environment) (s : Settings) (scan : Catalog.Scan) : Workspace :=
  let brand : Brand := {
    storage := some s.brandDir
    fileName := s.fileName
    catalog := scan.catalog
    writesLog := s.writesLogFile }
  { files := env.files, brands := [brand], notices := scan.notices, time := env.time }

/-- The exit code and the text of a report, with a notice if it holds invalid entries. -/
def conclude (s : Settings) (report : Report) : Work (Nat × String) := do
  if report.failures = 0 then return (success, report.text)
  else
    Work.tell (.checkInvalid report.failures s.documentPath.text)
    return (failure, report.text)

theorem conclude_success_iff {s : Settings} {report : Report} {w w' : Workspace} {code : Nat} {text : String}
    (h : (conclude s report).run w = .ok (code, text) w') : code = success ↔ report.failures = 0 := by
  unfold conclude at h
  split at h
  · next hf =>
    cases h
    simp [hf]
  · next hf =>
    cases h
    simp [hf, failure, success]

/-- The check of the document of the only brand. -/
def checkDocument (s : Settings) : Work (Nat × String) := do
  if ← Work.load 0 then conclude s (Report.ofCheck (← Work.check 0))
  else
    Work.tell (.checkNotLoaded s.documentPath.text)
    return (failure, "")

/-- Runs what the words of a command line ask for. -/
def run (env : Environment) (words : List String) : Except Failure Outcome :=
  match Request.parse words with
  | .help => .ok ⟨success, usage, [], env.files⟩
  | .misuse => .ok ⟨misuse, "", [], env.files⟩
  | .check brandDir file =>
    match settings env brandDir file with
    | .error e => .error (.settings e)
    | .ok s =>
      let scan := fonts env s
      match scan.failure with
      | some e => .error (.fault (.file e))
      | none =>
        match (checkDocument s).run (workspace env s scan) with
        | .ok (exitCode, output) w => .ok ⟨exitCode, output, w.notices, w.files⟩
        | .error fault _ => .error (.fault fault)

end DesignTokens.Check
