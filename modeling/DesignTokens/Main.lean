import DesignTokens.Check.Run
import Std.Time.DateTime.Timestamp

/-!
# The command line

Checks the document of a brand. What the check may need is read first: the environment, the environment
file, the document, its images and the fonts. What it gives is written at the end.
-/

namespace DesignTokens.CommandLine

/-- The files in sight with what lies at a path, and the folders on the way. -/
def lookAt (files : Files) (path : Path) : IO Files := do
  let here ← IO.currentDir
  let mut files := files
  for n in List.range (path.parts.length + 1) do
    let part : Path := { path with parts := path.parts.take n }
    let place := here / part.text
    try
      if ← place.isDir then files := files.putFolder (Files.location part)
      else if ← place.pathExists then
        files := files.put (Files.location part) (← IO.FS.readBinFile place)
    catch _ => pure ()
  return files

/-- The files in sight with all font files below a folder. -/
partial def lookForFonts (files : Files) (path : Path) : IO Files := do
  let here ← IO.currentDir
  let mut files ← lookAt files path
  try
    for entry in ← (here / path.text).readDir do
      let inner := path.join ⟨"", [entry.fileName]⟩
      if ← (here / inner.text).isDir then files ← lookForFonts files inner
      else if Catalog.fontEndings.any fun ending => entry.fileName.endsWith ending then files ← lookAt files inner
  catch _ => pure ()
  return files

/-- The folders where fonts lie on most systems. -/
def systemFonts : IO (List Path) := do
  let home := (← IO.getEnv "HOME").getD ""
  return ["/usr/share/fonts", "/usr/local/share/fonts", home ++ "/.local/share/fonts", home ++ "/.fonts"].map
    Path.ofText

/-- The path of the environment file. -/
def envFile : Path := Path.ofText ".env"

/-- The variables of the environment that settings may come from. -/
def assignments (files : Files) : IO (List (String × String)) := do
  let text := match files.read envFile with
    | .ok content => (String.fromUTF8? content).getD ""
    | .error _ => ""
  (Settings.variableNames text).filterMapM fun name => do return (← IO.getEnv name).map (name, ·)

/-- The files that a check with given settings looks at. -/
def lookFor (s : Settings) (fonts : List Path) (files : Files) : IO Files := do
  let mut files ← lookAt (← lookAt files s.brandDir) s.documentPath
  match Document.load files s.documentPath with
  | .ok document =>
    for path in document.imageFiles do
      files ← lookAt files (s.brandDir.join (Path.ofText path))
  | .error _ => pure ()
  for path in fonts do
    files ← lookForFonts files path
  return files

/-- Shows notices that are serious enough. -/
def showNotices (s : Settings) (time : String) (notices : List Notice) : IO Unit := do
  for notice in notices do
    if s.logLevel.number ≤ notice.level.number then IO.eprint (notice.logLine time)

/-- Writes the log file, if there is one. -/
def writeLog (s : Settings) (files : Files) : IO Unit := do
  if s.writesLogFile then
    if let .ok content := files.read s.logPath then
      IO.FS.writeBinFile ((← IO.currentDir) / s.logPath.text) content

def fail (f : Check.Failure) : IO UInt32 := do
  IO.eprintln f.message
  return 1

end DesignTokens.CommandLine

open DesignTokens DesignTokens.CommandLine in
/-- Runs the check that the words of the command line ask for, and gives its exit code. -/
def main (words : List String) : IO UInt32 := do
  let files ← lookAt Files.empty envFile
  let now ← Std.Time.Timestamp.now
  let time := timeOfDay now.toSecondsSinceUnixEpoch.val.toNat
  let env : Check.Environment :=
    { assignments := ← assignments files, files, systemFonts := ← systemFonts, time }
  match Check.Request.parse words with
  | .check brandDir file =>
    match Check.settings env brandDir file with
    | .error e => fail (.settings e)
    | .ok s =>
      let fonts := if s.fontDirs.isEmpty then env.systemFonts else s.fontDirs
      let env := { env with files := ← lookFor s fonts files }
      match Check.run env words with
      | .error e => fail e
      | .ok o =>
        IO.print o.output
        showNotices s time o.notices
        writeLog s o.files
        return o.exitCode.toUInt32
  | .help =>
    IO.print Check.usage
    return Check.success.toUInt32
  | .misuse =>
    IO.eprint Check.usage
    return Check.misuse.toUInt32
