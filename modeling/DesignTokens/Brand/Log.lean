import DesignTokens.Brand

/-!
# Log files

A brand may write the notices that concern documents to a log file in its storage folder, each on a line of
its own.

* `append_written` — a line counts with all its bytes.
-/

namespace DesignTokens

/-- Bytes with others put over them from an offset on. A gap in between is filled with zeros. -/
def overwritten (content : ByteArray) (offset : Nat) (bytes : ByteArray) : ByteArray :=
  let gap : ByteArray := ⟨Array.replicate (offset - content.size) 0⟩
  content.extract 0 offset ++ gap ++ bytes ++ content.extract (offset + bytes.size) content.size

/-- The time of day after so many seconds of it. -/
def timeOfDay (seconds : Nat) : String :=
  let two (n : Nat) : String := if n < 10 then "0" ++ toString n else toString n
  two (seconds / 3600 % 24) ++ ":" ++ two (seconds / 60 % 60) ++ ":" ++ two (seconds % 60)

namespace LogFile

/-- The log file with a text written to it, and the files with that text in them. -/
def append (log : LogFile) (files : Files) (text : String) : LogFile × Files :=
  let bytes := text.toUTF8
  let content := (files.contents.lookup log.place).getD .empty
  (⟨log.place, log.written + bytes.size⟩, files.overwrite log.place (overwritten content log.written bytes))

theorem append_written (log : LogFile) (files : Files) (text : String) :
    (log.append files text).1.written = log.written + text.toUTF8.size := rfl

end LogFile

/-- The brands and the files after a text has been written to the log of each brand that has one. -/
def writeLogs (text : String) (files : Files) : List Brand → List Brand × Files
  | [] => ([], files)
  | b :: rest =>
    match b.log with
    | none =>
      let (rest, files) := writeLogs text files rest
      (b :: rest, files)
    | some log =>
      let (log, files) := log.append files text
      let (rest, files) := writeLogs text files rest
      ({ b with log := some log } :: rest, files)

/-- The path with each step back taken off, together with the part it leads back from. -/
def Path.straightened (p : Path) : Path :=
  { p with parts := p.parts.foldl (fun done part =>
      if part = ".." ∧ done.getLast?.any (· ≠ "..") then done.dropLast else done ++ [part]) [] }

namespace Brand

/-- The path of the log file, if the brand writes one. -/
def logPath? (b : Brand) : Option Path :=
  if b.writesLog then b.storage.map fun storage => (storage.join (Path.ofText logName)).straightened
  else none

end Brand

end DesignTokens
