import RpmRelease.Text.Utf8

/-!
# Bits

A compressed stream is a sequence of bits.  Numbers are written with their most significant bit
first, and so are the bits of a byte; the last byte is filled up with zeros.

A `Reader` takes bits from the front of a stream.
-/

set_option autoImplicit false

namespace RpmRelease.Bzip2

/-- A sequence of bits. -/
abbrev Bits := List Bool

namespace Bits

/-- The lowest bits of a number, as many as `width` says, in front of others. -/
def pushNat : Nat → Nat → Bits → Bits
  | 0, _, rest => rest
  | width + 1, n, rest => pushNat width (n / 2) ((n % 2 == 1) :: rest)

/-- The lowest bits of a number, as many as `width` says. -/
def ofNat (width n : Nat) : Bits := pushNat width n []

/-- The number that bits write. -/
def toNat (bits : Bits) : Nat :=
  bits.foldl (fun n b => 2 * n + (if b then 1 else 0)) 0

/-- The bits of bytes. -/
def ofBytes (bytes : Bytes) : Bits :=
  (bytes.reverse.foldl (fun rest b => pushNat 8 b.toNat rest) [])

/-- The bytes that bits fill. -/
def toBytes : Bits → Bytes
  | b₇ :: b₆ :: b₅ :: b₄ :: b₃ :: b₂ :: b₁ :: b₀ :: rest =>
    UInt8.ofNat (toNat [b₇, b₆, b₅, b₄, b₃, b₂, b₁, b₀]) :: toBytes rest
  | [] => []
  | last => [UInt8.ofNat (toNat last <<< (8 - last.length))]

end Bits

/-- A reader of bits, which may refuse them. -/
abbrev Reader (α : Type) : Type := StateT Bits Option α

namespace Reader

/-- Reads a bit. -/
def bit : Reader Bool
  | [] => none
  | b :: rest => some (b, rest)

/-- Reads bits of which `width` make a number, behind a number read before. -/
def numberFrom : Nat → Nat → Reader Nat
  | 0, n, rest => some (n, rest)
  | _ + 1, _, [] => none
  | width + 1, n, b :: rest => numberFrom width (2 * n + (if b then 1 else 0)) rest

/-- Reads a number of so many bits. -/
def number (width : Nat) : Reader Nat := numberFrom width 0

/-- Reads something so many times. -/
def times {α : Type} (read : Reader α) : Nat → Reader (List α)
  | 0 => pure []
  | n + 1 => do return (← read) :: (← times read n)

/-- Reads ones up to the first zero, of which there must be fewer than `bound`. -/
def ones : Nat → Reader Nat
  | 0 => failure
  | bound + 1 => do
    if ← bit then return (← ones bound) + 1 else return 0

end Reader

end RpmRelease.Bzip2
