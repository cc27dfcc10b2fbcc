import DesignTokens.Resolution.Document

/-!
# Brands

A brand has a storage folder with a document in it, fonts, and perhaps another brand to fall back on. What it
has loaded is a document with its cells. The sequence number of a brand counts the documents it has
installed.

* `install_sequence` — installing counts one on.
* `unload_sequence` — unloading does not.
-/

namespace DesignTokens

/-- A document as a brand holds it: with the folder of its images, its fonts and its cells. -/
structure Installed where
  document : Document
  storage : Option Path
  catalog : Catalog
  store : Store := {}

/-- The document as it is read among the files in sight. -/
def Installed.reading (i : Installed) (files : Files) : Reading :=
  ⟨i.document, ⟨i.storage, i.catalog, files⟩⟩

/-- An open log file: where it lies, and how many bytes of it have been written. -/
structure LogFile where
  place : List String
  written : Nat
  deriving DecidableEq, Repr

structure Brand where
  storage : Option Path := none
  fileName : String := "appearance.json"
  /-- The number of the brand that answers for what this one does not have. -/
  fallback : Option Nat := none
  catalog : Catalog := Catalog.builtIn
  writesLog : Bool := false
  installed : Option Installed := none
  sequence : Nat := 0
  log : Option LogFile := none

namespace Brand

/-- The name of the log file in the storage folder. -/
def logName : String := "appearance.log"

/-- The path of the document, if the brand has a storage folder. -/
def path? (b : Brand) : Option Path := b.storage.map (·.join (Path.ofText b.fileName))

/-- Whether the loaded document has an entry. -/
def has (b : Brand) (k : Kind) (name : String) : Bool :=
  b.installed.any fun i => (i.document.entry? k name).isSome

/-- The brand with a document installed in place of the one before. -/
def install (b : Brand) (document : Document) : Brand :=
  { b with
    installed := some { document, storage := b.storage, catalog := b.catalog }
    sequence := b.sequence + 1 }

/-- The brand without a document and without a log. -/
def unload (b : Brand) : Brand := { b with installed := none, log := none }

/-- The brand with the cells of its document as a call has left them. -/
def settle (b : Brand) (store : Store) : Brand :=
  { b with installed := b.installed.map ({ · with store }) }

theorem install_sequence (b : Brand) (document : Document) :
    (b.install document).sequence = b.sequence + 1 := rfl

theorem unload_sequence (b : Brand) : b.unload.sequence = b.sequence := rfl

end Brand

end DesignTokens
