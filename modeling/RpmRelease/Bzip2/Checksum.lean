import RpmRelease.Text.Utf8

/-!
# Checksums of blocks

The checksum of a block is the remainder of its bits, as a polynomial, by a fixed polynomial of
degree 32.  The checksum of a stream stirs those of its blocks together.
-/

set_option autoImplicit false

namespace RpmRelease.Bzip2.Checksum

/-- The polynomial, without its highest term. -/
def polynomial : UInt32 := 0x04c11db7

/-- The checksum after so many more bits, which stand at its upper end. -/
def shift : Nat → UInt32 → UInt32
  | 0, c => c
  | n + 1, c => shift n (if c &&& 0x80000000 != 0 then (c <<< 1) ^^^ polynomial else c <<< 1)

/-- The checksum after one more byte. -/
def step (c : UInt32) (b : UInt8) : UInt32 :=
  shift 8 (c ^^^ (b.toUInt32 <<< 24))

/-- The checksum of a block. -/
def ofBytes (bytes : Bytes) : UInt32 :=
  ~~~ bytes.foldl step 0xffffffff

/-- The checksum of a stream after one more block. -/
def combine (stream block : UInt32) : UInt32 :=
  ((stream <<< 1) ||| (stream >>> 31)) ^^^ block

end RpmRelease.Bzip2.Checksum
