import RpmRelease.Text.Utf8

/-!
# Sorting the rotations of a block

All rotations of a block are sorted; the last bytes of the sorted rotations, together with the place
of the block itself among them, are enough to find the block again, and equal bytes tend to stand
side by side there.

The rotations are first sorted by one byte.  When they are sorted by `width` bytes, a rotation that
begins `width` bytes later is sorted by the bytes behind, so that they can be sorted by twice as
many.
-/

set_option autoImplicit false

namespace RpmRelease.Bzip2.Rotation

/-- For each key below a bound, how many places have a lower one. -/
def offsets (bound : Nat) (key : Nat → Nat) (places : Array Nat) : Array Nat :=
  let counts := places.foldl (fun counts p => counts.modify (key p + 1) (· + 1))
    (Array.replicate (bound + 1) 0)
  (counts.foldl (fun (sums, total) n => (sums.push (total + n), total + n))
    ((#[] : Array Nat), 0)).1

/-- Places in the order of their keys, which are below a bound.  Places with the same key keep their
order. -/
def sortBy (bound : Nat) (key : Nat → Nat) (places : Array Nat) : Array Nat :=
  (places.foldl (fun (sorted, next) p =>
      (sorted.setIfInBounds (next.getD (key p) 0) p, next.modify (key p) (· + 1)))
    (Array.replicate places.size 0, offsets bound key places)).1

/-- Rotations sorted by some bytes. -/
structure Sorted where
  /-- where the rotations begin, in their order -/
  order : Array Nat
  /-- for each beginning, how many of the rotations in front differ from the next one -/
  rank : Array Nat
  /-- how many different ranks there are -/
  ranks : Nat

/-- Ranks for places in order, of which neighbours may be `same`. -/
def Sorted.ofOrder (order : Array Nat) (same : Nat → Nat → Bool) : Sorted :=
  let (rank, _, ranks) := order.foldl (fun (rank, before, ranks) p =>
      let ranks :=
        match before with
        | some q => if same q p then ranks else ranks + 1
        | none => 1
      (rank.setIfInBounds p (ranks - 1), some p, ranks))
    (Array.replicate order.size 0, (none : Option Nat), 0)
  ⟨order, rank, ranks⟩

/-- The rotations sorted by their first byte. -/
def Sorted.byFirst (block : Array UInt8) : Sorted :=
  let byte (p : Nat) : Nat := (block.getD p 0).toNat
  .ofOrder (sortBy 256 byte (Array.range block.size)) fun p q => byte p = byte q

/-- Rotations sorted by `width` bytes, sorted by twice as many. -/
def Sorted.double (s : Sorted) (width : Nat) : Sorted :=
  let size := s.order.size
  let rank (p : Nat) : Nat := s.rank.getD p 0
  let behind (p : Nat) : Nat := rank ((p + width) % size)
  let shifted := s.order.map fun p => (p + size - width % size) % size
  .ofOrder (sortBy s.ranks rank shifted) fun p q => rank p = rank q && behind p = behind q

/-- Doubles the number of sorted bytes, at most `steps` times, until no two rotations are the same
or all bytes are sorted. -/
def Sorted.refine (s : Sorted) : Nat → Nat → Sorted
  | 0, _ => s
  | steps + 1, width =>
    if s.order.size ≤ width || s.ranks = s.order.size then s
    else (s.double width).refine steps (2 * width)

/-- Where the rotations of a block begin, in their order. -/
def sort (block : Array UInt8) : Array Nat :=
  ((Sorted.byFirst block).refine block.size 1).order

/-- A block in the order of its rotations. -/
structure Column where
  /-- the last bytes of the sorted rotations -/
  last : Array UInt8
  /-- the place of the block itself among its rotations -/
  origin : Nat

/-- The last bytes of the sorted rotations of a block. -/
def encode (block : Array UInt8) : Column :=
  let order := sort block
  let size := block.size
  ⟨order.map fun p => block.getD ((p + size - 1) % size) 0, (order.toList.idxOf? 0).getD 0⟩

/-- Follows the rotations one byte at a time, `n` times. -/
def trace (last : Array UInt8) (next : Array Nat) : Nat → Nat → Array UInt8 → Array UInt8
  | 0, _, found => found
  | n + 1, place, found =>
    let p := next.getD place 0
    trace last next n p (found.push (last.getD p 0))

/-- The block that has these last bytes; nothing if no rotation stands at the origin. -/
def decode (column : Column) : Option (Array UInt8) :=
  let last := column.last
  if column.origin < last.size then
    let byte (p : Nat) : Nat := (last.getD p 0).toNat
    some (trace last (sortBy 256 byte (Array.range last.size)) last.size column.origin #[])
  else none

end RpmRelease.Bzip2.Rotation
