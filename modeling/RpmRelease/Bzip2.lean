import RpmRelease.Bzip2.Block
import RpmRelease.World

/-!
# The compression of archives

A stream begins with its name and the size of its blocks and ends with the checksum of all blocks.
`Bzip2.codec` compresses archives; what is read may have been written by any other program that
writes this format.
-/

set_option autoImplicit false

namespace RpmRelease.Bzip2

/-- What a stream begins with. -/
def name : Bytes := Text.Utf8.ofString "BZh"

/-- The mark in front of a block. -/
def blockMark : Nat := 0x314159265359

/-- The mark at the end of a stream. -/
def endMark : Nat := 0x177245385090

/-- The number of bits of a mark. -/
def markWidth : Nat := 48

/-- The size of the blocks that are written, in units. -/
def level : Nat := 9

/-- How many bytes of a block stay unused. -/
def reserve : Nat := 19

/-- Runs cut into blocks. -/
structure Cut where
  /-- the finished blocks, the latest first -/
  blocks : List (List Run)
  /-- the runs of the block at work, the latest first -/
  runs : List Run
  /-- how many bytes these runs take -/
  size : Nat

/-- Puts one more run into the block at work, or into a new one. -/
def Cut.push (cut : Cut) (run : Run) : Cut :=
  let size := run.encode.length
  if level * Block.sizeUnit < cut.size + size + reserve then
    ⟨cut.runs.reverse :: cut.blocks, [run], size⟩
  else ⟨cut.blocks, run :: cut.runs, cut.size + size⟩

/-- Runs as blocks. -/
def blocks (runs : List Run) : List (List Run) :=
  match runs with
  | [] => []
  | _ =>
    let cut := runs.foldl Cut.push ⟨[], [], 0⟩
    (cut.runs.reverse :: cut.blocks).reverse

/-- Compresses a byte sequence. -/
def compress (bytes : Bytes) : Bytes :=
  let blocks := blocks (Run.ofBytes bytes)
  let checksum := blocks.foldl
    (fun c runs => Checksum.combine c (Checksum.ofBytes (runs.flatMap Run.bytes))) 0
  let body := blocks.flatMap fun runs => Bits.ofNat markWidth blockMark ++ Block.encode runs
  name ++ [UInt8.ofNat (0x30 + level)] ++
    Bits.toBytes (body ++ Bits.ofNat markWidth endMark ++ Bits.ofNat 32 checksum.toNat)

/-- Reads blocks up to the end of the stream, at most `steps`. -/
def readBlocks (bound : Nat) : Nat → List Bytes → UInt32 → Reader Bytes
  | 0, _, _ => failure
  | steps + 1, found, checksum => do
    let mark ← Reader.number markWidth
    if mark = endMark then
      let stated ← Reader.number 32
      if stated != checksum.toNat then failure
      return found.reverse.flatten
    else
      if mark != blockMark then failure
      let block ← Block.read bound
      readBlocks bound steps (block.bytes :: found) (Checksum.combine checksum block.checksum)

/-- Reads the stream that a byte sequence begins with. -/
def decompress (bytes : Bytes) : Option Bytes :=
  if name.isPrefixOf bytes then
    match bytes.drop name.length with
    | size :: rest =>
      if 0x31 ≤ size ∧ size ≤ 0x39 then
        let bound := (size.toNat - 0x30) * Block.sizeUnit
        (readBlocks bound (rest.length + 1) [] 0 (Bits.ofBytes rest)).map (·.1)
      else none
    | [] => none
  else none

/-- The compression of archives. -/
def codec : Codec := ⟨compress, decompress⟩

end RpmRelease.Bzip2
