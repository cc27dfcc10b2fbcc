import DesignTokens.Image.Png.Chunk

/-!
# What a PNG file says ahead of its pixels

Size, color bands and palette stand in chunks ahead of the pixels. Each of these chunks must be whole and its
check must be right; of some kinds of chunks a length or a byte is looked at as well.
-/

namespace DesignTokens.Png

/-- Why a PNG file gives no image. -/
inductive Flaw where
  /-- The file is not made as a PNG file is. -/
  | unidentified
  /-- Data is missing or damaged. -/
  | damaged
  /-- A chunk has an impossible length. -/
  | chunkLength
  /-- The pixels end in front of something that is no chunk. -/
  | chunkName
  deriving DecidableEq, Repr

/-- The color bands of a pixel and the bits that hold them. -/
structure Bands where
  mode : String
  bits : Nat
  deriving DecidableEq, Repr

/-- The bands for a bit depth and a color type. -/
def Bands.of? (depth colorType : Nat) : Option Bands :=
  match colorType with
  | 0 =>
    if depth = 1 then some ⟨"1", 1⟩
    else if depth = 16 then some ⟨"I;16", 16⟩
    else if [2, 4, 8].contains depth then some ⟨"L", depth⟩
    else none
  | 2 => if [8, 16].contains depth then some ⟨"RGB", 3 * depth⟩ else none
  | 3 => if [1, 2, 4, 8].contains depth then some ⟨"P", depth⟩ else none
  | 4 => if depth = 8 then some ⟨"LA", 2 * depth⟩ else if depth = 16 then some ⟨"RGBA", 2 * depth⟩ else none
  | 6 => if [8, 16].contains depth then some ⟨"RGBA", 4 * depth⟩ else none
  | _ => none

/-- What has been said. -/
structure Heading where
  width : Nat := 0
  height : Nat := 0
  bands : Option Bands := none
  isInterlaced : Bool := false
  paletteLength : Nat := 0

namespace Heading

/-- The mode; empty as long as it is not known. -/
def mode (h : Heading) : String := (h.bands.map (·.mode)).getD ""

/-- The bytes that a chunk on a transparent color must have at least. -/
def transparencyLength (mode : String) : Nat :=
  if ["1", "L", "I;16"].contains mode then 2 else if mode = "RGB" then 6 else 0

/-- What follows the first zero of data. -/
def afterZero (data : List UInt8) : List UInt8 := (data.dropWhile (· ≠ 0)).drop 1

/-- Takes in the data of a chunk. -/
def add (h : Heading) (name : String) (data : List UInt8) : Except Flaw Heading :=
  match name with
  | "IHDR" =>
    match data.drop 8 with
    | depth :: colorType :: _ :: filters :: interlacing :: _ =>
      if filters ≠ 0 then .error .unidentified
      else .ok { h with
        width := Bytes.bigEndian (data.take 4)
        height := Bytes.bigEndian ((data.drop 4).take 4)
        bands := (Bands.of? depth.toNat colorType.toNat) <|> h.bands
        isInterlaced := h.isInterlaced || interlacing ≠ 0 }
    | _ => .error .chunkLength
  | "PLTE" => .ok (if h.mode = "P" then { h with paletteLength := data.length } else h)
  | "tRNS" => if data.length < transparencyLength h.mode then .error .unidentified else .ok h
  | "iCCP" => if (afterZero data).head? = some 0 then .ok h else .error .unidentified
  | "zTXt" => if (afterZero data).head?.any (· ≠ 0) then .error .unidentified else .ok h
  | "gAMA" => if data.length < 4 then .error .unidentified else .ok h
  | "cHRM" => if data.length % 4 ≠ 0 then .error .unidentified else .ok h
  | "sRGB" => if data.length < 1 then .error .chunkLength else .ok h
  | "pHYs" => if data.length < 9 then .error .chunkLength else .ok h
  | _ => .ok h

/-- Takes in the chunks ahead of the pixels. The chunks from the pixels on remain. -/
def addAll (content : ByteArray) (h : Heading) : List Chunk → Except Flaw (Heading × List Chunk)
  | [] => .error .unidentified
  | c :: rest =>
    if c.name = "IDAT" ∨ c.name = "IEND" then .ok (h, c :: rest)
    else if !c.isWhole content then .error .damaged
    else
      match h.add c.name (c.data content).toList with
      | .error flaw => .error flaw
      | .ok h => if c.isChecked content then h.addAll content rest else .error .unidentified

end Heading

end DesignTokens.Png
