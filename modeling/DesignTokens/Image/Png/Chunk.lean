import DesignTokens.Bytes
import DesignTokens.Bytes.Checksum

/-!
# Chunks of a PNG file

A PNG file is a signature and a row of chunks. A chunk has a length, a name of four letters, its data and a
check. Where chunks start is known from their lengths alone, so that a file can be cut into chunks even if
data is missing at its end.

* `read_start` — a chunk starts behind its heading, within the file.
-/

namespace DesignTokens.Png

/-- The bytes that every PNG file starts with. -/
def signature : List UInt8 := [0x89, 0x50, 0x4e, 0x47, 0x0d, 0x0a, 0x1a, 0x0a]

/-- Why no chunk starts at a place. -/
inductive ChunkError where
  /-- There is not even a length. -/
  | missing
  /-- What stands there is no name. -/
  | misnamed
  deriving DecidableEq, Repr

structure Chunk where
  name : String
  /-- Where the data starts. -/
  start : Nat
  /-- The length of the data as the file says it. -/
  length : Nat
  deriving DecidableEq, Repr

namespace Chunk

/-- Whether a byte can stand in a name: an ASCII letter or digit, or a low line. -/
def isNameByte (byte : UInt8) : Bool := (Char.ofNat byte.toNat).isAlphanum || byte = 0x5f

/-- The chunk whose heading starts at a place. -/
def read (content : ByteArray) (place : Nat) : Except ChunkError Chunk :=
  if content.size < place + 4 then .error .missing
  else
    let name := (content.extract (place + 4) (place + 8)).toList
    if place + 8 ≤ content.size ∧ name.all isNameByte then
      .ok { name := String.ofList (name.map fun byte => Char.ofNat byte.toNat)
            start := place + 8
            length := Bytes.bigEndian (content.extract place (place + 4)).toList }
    else .error .misnamed

theorem read_start {content : ByteArray} {place : Nat} {c : Chunk} (h : read content place = .ok c) :
    c.start = place + 8 ∧ c.start ≤ content.size := by
  unfold read at h
  split at h
  · cases h
  · simp only at h
    split at h
    · next hin =>
      obtain rfl := Except.ok.inj h
      exact ⟨rfl, hin.1⟩
    · cases h

/-- Where the data ends. -/
def stop (c : Chunk) : Nat := c.start + c.length

/-- The data, or what there is of it. -/
def data (content : ByteArray) (c : Chunk) : ByteArray := content.extract c.start c.stop

/-- Whether all of the data is there. -/
def isWhole (content : ByteArray) (c : Chunk) : Bool := c.stop ≤ content.size

/-- Whether the check that follows the data is right. -/
def isChecked (content : ByteArray) (c : Chunk) : Bool :=
  Bytes.number? content c.stop 4 =
    some (Bytes.crc32 (c.name.toUTF8.toList ++ (c.data content).toList)).toNat

/-- The chunks from a place on, and why there are no more of them. -/
def all (content : ByteArray) (place : Nat) : List Chunk × ChunkError :=
  match _hread : read content place with
  | .error e => ([], e)
  | .ok c =>
    let (rest, e) := all content (c.stop + 4)
    (c :: rest, e)
termination_by content.size - place
decreasing_by
  have := read_start _hread
  simp only [stop]
  omega

end Chunk

end DesignTokens.Png
