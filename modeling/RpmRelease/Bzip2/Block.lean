import RpmRelease.Bzip2.Checksum
import RpmRelease.Bzip2.PrefixCode
import RpmRelease.Bzip2.Ranks
import RpmRelease.Bzip2.Rotation
import RpmRelease.Bzip2.Runs

/-!
# Blocks

A block is written as its checksum, the place of the block among its rotations, the bytes that
occur, the lengths of the codes and the codes themselves.  There is more than one table of codes,
and for each group of fifty symbols a selector says which table it uses.
-/

set_option autoImplicit false

namespace RpmRelease.Bzip2.Block

/-- How many symbols use the same table in a row. -/
def groupSize : Nat := 50

/-- How many bytes are counted as a unit of the size of blocks. -/
def sizeUnit : Nat := 100000

/-- The longest code that is read. -/
def maxCode : Nat := 20

/-- How many steps there may be from one length to the next one. -/
def maxSteps : Nat := 1000

/-- Which bytes occur: first which groups of sixteen, then the bytes of these groups. -/
def encodeUsed (used : List UInt8) : Bits :=
  let groups := (List.range 16).map fun i =>
    (List.range 16).map fun k => used.contains (UInt8.ofNat (16 * i + k))
  groups.map (·.any id) ++ (groups.filter (·.any id)).flatten

/-- Reads which bytes occur. -/
def readUsed : Reader (List UInt8) := do
  let groups ← Reader.times Reader.bit 16
  let members ← groups.zipIdx.mapM fun (present, i) => do
    if !present then return []
    let bits ← Reader.times Reader.bit 16
    return (bits.zipIdx.filter (·.1)).map fun (_, k) => UInt8.ofNat (16 * i + k)
  return members.flatten

/-- The steps from one length to the next one. -/
def encodeStep (before length : Nat) : Bits :=
  (List.replicate (length - before) [true, false]).flatten ++
    (List.replicate (before - length) [true, true]).flatten ++ [false]

/-- The lengths of the codes of a table. -/
def encodeLengths (lengths : List Nat) : Bits :=
  match lengths with
  | [] => []
  | first :: _ =>
    Bits.ofNat 5 first ++ ((first :: lengths).zip lengths).flatMap fun (a, b) => encodeStep a b

/-- Reads a length that differs from another one by less than `steps`. -/
def readLength : Nat → Nat → Reader Nat
  | 0, _ => failure
  | steps + 1, length => do
    if length = 0 ∨ maxCode < length then failure
    if ← Reader.bit then
      if ← Reader.bit then readLength steps (length - 1) else readLength steps (length + 1)
    else return length

/-- Reads so many lengths of codes, each beginning with the one before. -/
def readLengths : Nat → Nat → Reader (List Nat)
  | 0, _ => pure []
  | n + 1, before => do
    let length ← readLength maxSteps before
    return length :: (← readLengths n length)

/-- Reads the lengths of a table with so many symbols. -/
def readTable (symbols : Nat) : Reader PrefixCode.Tree := do
  let first ← Reader.number 5
  return .ofLengths (← readLengths symbols first)

/-- Reads at most `n` symbols with a table, up to the one that ends the block; the symbols before
it, the latest first, and whether it was read. -/
def readGroup (stop : Nat) (tree : PrefixCode.Tree) :
    Nat → List Nat → Bits → Option ((List Nat × Bool) × Bits)
  | 0, symbols, rest => some ((symbols, false), rest)
  | n + 1, symbols, rest =>
    match tree.read rest with
    | none => none
    | some (symbol, rest) =>
      if symbol = stop then some ((symbols, true), rest)
      else readGroup stop tree n (symbol :: symbols) rest

/-- Reads symbols with one table after the other; those before the end of the block, the latest
first. -/
def readGroups (stop : Nat) :
    List PrefixCode.Tree → List Nat → Bits → Option (List Nat × Bits)
  | [], _, _ => none
  | tree :: trees, symbols, rest =>
    match readGroup stop tree groupSize symbols rest with
    | none => none
    | some ((symbols, true), rest) => some (symbols, rest)
    | some ((symbols, false), rest) => readGroups stop trees symbols rest

/-- Writes a block that consists of runs, behind the mark of a block. -/
def encode (runs : List Run) : Bits :=
  let column := Rotation.encode (runs.flatMap Run.encode).toArray
  let used := Ranks.used column.last
  let symbols := Ranks.encode used column.last
  let counts := symbols.foldl (fun counts s => counts.modify s (· + 1))
    (Array.replicate (used.length + 2) 0)
  let lengths := (PrefixCode.lengths 32 (counts.toList.map (· + 1))).toList
  let table := (PrefixCode.codes lengths).foldl
    (fun table (symbol, bits) => table.setIfInBounds symbol bits)
    (Array.replicate lengths.length ([] : Bits))
  let selectors := (symbols.length + groupSize - 1) / groupSize
  Bits.ofNat 32 (Checksum.ofBytes (runs.flatMap Run.bytes)).toNat ++ [false] ++
    Bits.ofNat 24 column.origin ++ encodeUsed used ++ Bits.ofNat 3 2 ++ Bits.ofNat 15 selectors ++
    List.replicate selectors false ++ encodeLengths lengths ++ encodeLengths lengths ++
    symbols.flatMap fun s => table.getD s []

/-- The item at a place, and the list with that item in front. -/
def moveToFront {α : Type} (items : List α) (place : Nat) : Option (α × List α) := do
  let item ← items[place]?
  return (item, item :: items.eraseIdx place)

/-- The tables that selectors choose. -/
def choose (tables : List PrefixCode.Tree) : List Nat → Option (List PrefixCode.Tree)
  | [] => some []
  | selector :: rest => do
    let (tree, tables) ← moveToFront tables selector
    return tree :: (← choose tables rest)

/-- A block that was read, and the checksum that was written with it. -/
structure Contents where
  bytes : Bytes
  checksum : UInt32

/-- Reads a block behind the mark of a block; blocks have at most `bound` bytes before runs are
written out.  Blocks that were stirred with random numbers are refused. -/
def read (bound : Nat) : Reader Contents := do
  let checksum ← Reader.number 32
  if ← Reader.bit then failure
  let origin ← Reader.number 24
  let used ← readUsed
  if used.isEmpty then failure
  let tables ← Reader.number 3
  if tables < 2 ∨ 6 < tables then failure
  let selectors ← Reader.number 15
  if selectors = 0 then failure
  let places ← Reader.times (Reader.ones tables) selectors
  let trees ← Reader.times (readTable (used.length + 2)) tables
  let chosen ← choose trees places
  let symbols ← readGroups (Ranks.stop used) chosen []
  let last ← Ranks.decode bound used symbols.reverse
  let block ← Rotation.decode ⟨last, origin⟩
  let bytes := Run.decode 0 0 block.toList
  if (Checksum.ofBytes bytes).toNat != checksum then failure
  return ⟨bytes, UInt32.ofNat checksum⟩

end RpmRelease.Bzip2.Block
