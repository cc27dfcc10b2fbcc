import DesignTokens.Image
import DesignTokens.Image.Png.Rows

/-!
# PNG files

An image in a PNG file is read as far as needed to know that it is there: what is said ahead of the pixels,
the rows of pixels, and the chunks after them. Of the image only size and color bands are kept.

* `read_unsigned` — without its signature a file is no PNG file.
-/

namespace DesignTokens.Png

/-- The longest palette: 256 colors, and what is left of one more. -/
def maximalPalette : Nat := 3 * 256 + 2

/-- Whether the chunks after the pixels are whole, up to the one that ends the file. -/
def isWhole (content : ByteArray) : List Chunk → Bool
  | [] => true
  | c :: rest =>
    c.name = "IEND" || ((c.name = "IDAT" || c.isWhole content) && isWhole content rest)

/-- The chunks of pixels in front of some chunks, as one stream. -/
def stream (content : ByteArray) (chunks : List Chunk) : ByteArray :=
  (chunks.takeWhile (·.name = "IDAT")).foldl (fun stream c => stream ++ c.data content) .empty

/-- Reads the pixels in the chunks from the first one with pixels on. -/
def readPixels (content : ByteArray) (h : Heading) (bits : Nat) (chunks : List Chunk)
    (ending : ChunkError) : Except Flaw Unit :=
  match Row.first? (rowGroups h bits) with
  | none => .error .unidentified
  | some (row, later) =>
    let room := (rowGroups h bits).foldl (fun room group => room + group.length * group.count) 0
    match fill row later (pieces content 0 chunks) (Deflate.steps (stream content chunks) room) with
    | .damaged => .error .damaged
    | .full after => if isWhole content after then .ok () else .error .damaged
    | .starved =>
      if (chunks.dropWhile (·.name = "IDAT")).isEmpty ∧ ending = .misnamed then .error .chunkName
      else .error .damaged

/-- The raster in a PNG file. -/
def read (content : ByteArray) : Except Flaw Raster :=
  if (content.extract 0 signature.length).toList ≠ signature then .error .unidentified
  else do
    let (chunks, ending) := Chunk.all content signature.length
    let (h, chunks) ← ({} : Heading).addAll content chunks
    match h.bands with
    | none => .error .unidentified
    | some bands =>
      if h.width = 0 ∨ h.height = 0 then .error .unidentified
      else if chunks.head?.any (·.name = "IEND") then .error .damaged
      else if maximalPalette < h.paletteLength ∧ bands.mode = "P" then .error .chunkLength
      else
        readPixels content h bands.bits chunks ending
        return ⟨h.width, h.height, bands.mode, .stored⟩

theorem read_unsigned {content : ByteArray}
    (h : (content.extract 0 signature.length).toList ≠ signature) : read content = .error .unidentified := by
  simp [read, h]

end DesignTokens.Png
