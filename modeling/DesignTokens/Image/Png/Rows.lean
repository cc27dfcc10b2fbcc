import DesignTokens.Deflate.Stream
import DesignTokens.Image.Png.Heading

/-!
# Rows of pixels

The pixels of a PNG file are a compressed stream in one or more chunks. The stream holds rows, and each row
starts with the number of a filter. An interlaced image is sent in seven passes, each with rows of its own.

The stream is taken piece by piece, and rows are filled one by one. A row that fills up as a piece runs out
waits for the next piece, unless it is the last row.

* `Outlook.taken_le` — a stream takes no more than it is handed.
-/

namespace DesignTokens.Png

open Deflate (Step)

/-- Rows of one length, in bytes with the filter. -/
structure RowGroup where
  length : Nat
  count : Nat
  deriving DecidableEq, Repr

/-- How a pass is laid over the image: how many columns and rows lie between two of its own, and where its
first ones are. -/
structure Pass where
  columnStep : Nat
  firstColumn : Nat
  rowStep : Nat
  firstRow : Nat
  deriving DecidableEq, Repr

/-- The passes of an interlaced image. -/
def passes : List Pass :=
  [⟨8, 0, 8, 0⟩, ⟨8, 4, 8, 0⟩, ⟨4, 0, 8, 4⟩, ⟨4, 2, 4, 0⟩, ⟨2, 0, 4, 2⟩, ⟨2, 1, 2, 0⟩, ⟨1, 0, 2, 1⟩]

/-- How many of `total` places there are from the first one on in steps. -/
def placesIn (total first step : Nat) : Nat := (total - first + step - 1) / step

/-- The bytes of a row of pixels with its filter. -/
def rowLength (pixels bits : Nat) : Nat := (pixels * bits + 7) / 8 + 1

/-- The rows in the stream of an image, without empty ones. -/
def rowGroups (h : Heading) (bits : Nat) : List RowGroup :=
  let all := if h.isInterlaced then passes else [⟨1, 0, 1, 0⟩]
  all.filterMap fun pass =>
    let columns := placesIn h.width pass.firstColumn pass.columnStep
    let count := placesIn h.height pass.firstRow pass.rowStep
    if columns = 0 ∨ count = 0 then none else some ⟨rowLength columns bits, count⟩

/-- A part of the stream that is taken at once. -/
structure Piece where
  /-- The bytes of the stream up to its end. -/
  limit : Nat
  /-- The chunks after the one that the piece is from. -/
  after : List Chunk

/-- The longest piece. -/
def pieceLength : Nat := 65536

/-- The data of the pixel chunks in front, in pieces. -/
def pieces (content : ByteArray) (offset : Nat) : List Chunk → List Piece
  | [] => []
  | c :: rest =>
    if c.name = "IDAT" then
      let size := (c.data content).size
      let cuts := (List.range ((size + pieceLength - 1) / pieceLength)).map fun i =>
        ⟨offset + min size (pieceLength * (i + 1)), rest⟩
      cuts ++ pieces content (offset + size) rest
    else []

/-- How the filling of rows ends. -/
inductive Filling where
  /-- All rows are full, or the stream ended with a row; the chunks are those after the pixels taken. -/
  | full (after : List Chunk)
  | damaged
  /-- There are no more pieces. -/
  | starved

/-- A row that is being filled: how many bytes are missing, its filter once there is one, and the rows
of the same length with it. -/
structure Row where
  missing : Nat
  filter : Option UInt8
  group : RowGroup

/-- An empty row of the first of some groups. -/
def Row.first? : List RowGroup → Option (Row × List RowGroup)
  | [] => none
  | group :: later => some (⟨group.length, none, group⟩, later)

/-- The row after a row. -/
def Row.next? (row : Row) (later : List RowGroup) : Option (Row × List RowGroup) :=
  if 1 < row.group.count then
    some (⟨row.group.length, none, { row.group with count := row.group.count - 1 }⟩, later)
  else Row.first? later

/-- The greatest number of a filter. -/
def maximalFilter : UInt8 := 4

/-- What a stream that has just filled a row shows before it needs room again: an end, damage, or how many of
`limit` bytes it has taken. -/
inductive Outlook where
  | finished
  | damaged
  | taken (bytes : Nat)

/-- The outlook on the steps to come. -/
def Outlook.of (limit : Nat) : List Step → Outlook
  | .byte _ waits _ :: _ => .taken (min waits limit)
  | .finished takes :: _ => if takes ≤ limit then .finished else .taken limit
  | .broken takes needsRoom :: _ =>
    if limit < takes then .taken limit else if needsRoom then .taken takes else .damaged
  | [] => .taken limit

theorem Outlook.taken_le {limit bytes : Nat} {steps : List Step}
    (h : Outlook.of limit steps = .taken bytes) : bytes ≤ limit := by
  unfold Outlook.of at h
  split at h
  · obtain rfl := Outlook.taken.inj h
    exact Nat.min_le_right _ _
  · split at h
    · cases h
    · exact Nat.le_of_eq (Outlook.taken.inj h).symm
  · split at h
    · exact Nat.le_of_eq (Outlook.taken.inj h).symm
    · next hlimit =>
      split at h
      · obtain rfl := Outlook.taken.inj h
        exact Nat.le_of_not_lt hlimit
      · cases h
  · exact Nat.le_of_eq (Outlook.taken.inj h).symm

/-- Fills rows with the steps of a stream. -/
def fill (row : Row) (later : List RowGroup) (pieces : List Piece) : List Step → Filling
  | [] => .starved
  | .finished _ :: _ => .starved
  | .broken takes _ :: _ => if pieces.any (takes ≤ ·.limit) then .damaged else .starved
  | .byte value _ takes :: steps =>
    match pieces.dropWhile (·.limit < takes) with
    | [] => .starved
    | piece :: rest =>
      let filter := row.filter.getD value
      if 1 < row.missing then
        fill { row with missing := row.missing - 1, filter := some filter } later (piece :: rest) steps
      else
        match Outlook.of piece.limit steps with
        | .damaged => .damaged
        | outlook =>
          if maximalFilter < filter then .damaged
          else
            match outlook, row.next? later with
            | .taken bytes, some (row, later) =>
              fill row later (if bytes < piece.limit then piece :: rest else rest) steps
            | _, _ => .full piece.after

end DesignTokens.Png
