import DesignTokens.Bytes
import DesignTokens.Bytes.Checksum
import DesignTokens.Deflate.Block

/-!
# Compressed streams

A stream is compressed data with a heading of two bytes and Adler's sum of what comes out of it at the end.
What it says is listed in steps: the bytes that come out, and how it ends. A reader that has room for some
bytes only, or to which the stream is handed piece by piece, needs to know how much of the stream a step
takes; each step tells it.

* `push_text` — a byte that comes out is the last of the text.
-/

namespace DesignTokens.Deflate

/-- What a stream goes on with. -/
inductive Step where
  /-- A byte comes out. As long as there is no room for it `waits` bytes of the stream are taken, and then
  `takes`. -/
  | byte (value : UInt8) (waits takes : Nat)
  /-- The stream ends. -/
  | finished (takes : Nat)
  /-- The stream means nothing from here on; this shows at once, or when there is room for a byte. -/
  | broken (takes : Nat) (needsRoom : Bool)
  deriving DecidableEq, Repr

/-- How far a stream has been read: up to the position of a bit. -/
structure Progress where
  position : Nat := 0
  /-- What has come out. -/
  text : ByteArray := .empty
  steps : Array Step := #[]

namespace Progress

/-- A byte comes out. -/
def push (p : Progress) (value : UInt8) (waits takes : Nat) : Progress :=
  { p with text := p.text.push value, steps := p.steps.push (.byte value waits takes) }

/-- A step without a byte. -/
def close (p : Progress) (step : Step) : Progress := { p with steps := p.steps.push step }

theorem push_text (p : Progress) (value : UInt8) (waits takes : Nat) :
    (p.push value waits takes).text.data.toList = p.text.data.toList ++ [value] := by
  rw [push, ByteArray.data_push, Array.toList_push]

/-- Bytes come out that came out before. -/
def copy (distance : Nat) : Nat → Progress → Progress
  | 0, p => p
  | n + 1, p =>
    let taken := bytesBefore p.position
    let source := p.text.size - distance
    let value := if h : source < p.text.size then p.text[source] else 0
    copy distance n (p.push value taken taken)

/-- Bytes of the stream come out as they are. -/
def store (content : ByteArray) : Nat → Progress → Progress
  | 0, p => p
  | n + 1, p =>
    let index := bytesBefore p.position
    if h : index < content.size then
      store content n { p.push content[index] index (index + 1) with position := 8 * (index + 1) }
    else p

/-- The sum of what has come out. -/
def sum (p : Progress) : Nat :=
  (p.text.foldl Bytes.Adler.push {}).value

end Progress

/-- What is expected in a stream. -/
inductive Expectation where
  | heading
  | block
  /-- The rest of a block, which may be the last one. -/
  | elements (isLast : Bool) (codes : Codes)
  | sum

namespace Expectation

/-- What follows a block. -/
def afterBlock (isLast : Bool) : Expectation := if isLast then .sum else .block

/-- Reads what is expected, if it is there. Then there are a new expectation and what has been read, or the
stream ends. -/
def next (content : ByteArray) (p : Progress) : Expectation → Except Stop (Option Expectation × Progress)
  | .heading => do
    let (flags, position) ← (do
      let first ← Reader.number 8
      let second ← Reader.number 8
      if (first * 256 + second) % 31 ≠ 0 ∨ first % 16 ≠ 8 ∨ 7 < first / 16 then Reader.reject
      return second : Reader Nat) content p.position
    -- A stream that builds on a text agreed on cannot be read any further.
    if flags.testBit 5 then .error .short
    else return (some .block, { p with position })
  | .block => do
    match ← blockStart content p.position with
    | ((isLast, .coded codes), position) => return (some (.elements isLast codes), { p with position })
    | ((isLast, .stored length), position) =>
      let stored := ({ p with position } : Progress).store content length
      return (if stored.text.size = p.text.size + length then some (afterBlock isLast) else none, stored)
  | .elements isLast codes => do
    match ← element codes content p.position with
    | (.endOfBlock, position) => return (some (afterBlock isLast), { p with position })
    | (.literal byte, position) =>
      let taken := bytesBefore position
      return (some (.elements isLast codes), { p.push byte taken taken with position })
    | (.copy length distance, position) =>
      if p.text.size < distance then
        return (none, p.close (.broken (bytesBefore position) true))
      else
        return (some (.elements isLast codes), ({ p with position } : Progress).copy distance length)
  | .sum => do
    let (isRight, position) ← (do
      Reader.align
      let bytes ← (List.range 4).mapM fun _ => Reader.number 8
      return Bytes.bigEndian (bytes.map Nat.toUInt8) = p.sum : Reader Bool) content p.position
    if isRight then return (none, { p with position }.close (.finished (bytesBefore position)))
    else .error (.malformed position)

/-- Reads on, until more bytes have come out than there is room for. -/
def run (content : ByteArray) (room : Nat) : Nat → Expectation → Progress → Progress
  | 0, _, p => p
  | fuel + 1, expectation, p =>
    if room < p.text.size then p
    else
      match next content p expectation with
      | .error .short => p
      | .error (.malformed position) => p.close (.broken (bytesBefore position) false)
      | .ok (none, after) => after
      | .ok (some following, after) => run content room fuel following after

end Expectation

/-- The steps of a stream; those after more bytes than there is room for are left out. Each expectation takes
a bit of the stream at least. -/
def steps (content : ByteArray) (room : Nat) : List Step :=
  (Expectation.heading.run content room (8 * content.size + 1) {}).steps.toList

end DesignTokens.Deflate
