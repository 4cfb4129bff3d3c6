import RpmRelease.Bzip2.Bits

/-!
# Codes without a common beginning

Symbols that occur often get short codes.  No code is the beginning of another one.  Only the
lengths of the codes are written down: among codes of one length those of lower symbols come first,
and all shorter codes come before.
-/

set_option autoImplicit false

namespace RpmRelease.Bzip2.PrefixCode

/-- Symbols that share the beginnings of their codes, and how often they occur together. -/
structure Group where
  weight : Nat
  symbols : List Nat

/-- Groups in the order of their weights, with one more. -/
def insert (group : Group) : List Group → List Group
  | [] => [group]
  | first :: rest =>
    if group.weight ≤ first.weight then group :: first :: rest else first :: insert group rest

/-- The lengths of the codes when the symbols of a group get one more bit. -/
def lengthen (lengths : Array Nat) (group : Group) : Array Nat :=
  group.symbols.foldl (fun lengths symbol => lengths.modify symbol (· + 1)) lengths

/-- Joins the two lightest groups, at most `steps` times. -/
def join : Nat → Array Nat → List Group → Array Nat
  | steps + 1, lengths, first :: second :: rest =>
    let both : Group := ⟨first.weight + second.weight, first.symbols ++ second.symbols⟩
    join steps (lengthen (lengthen lengths first) second) (insert both rest)
  | _, lengths, _ => lengths

/-- The lengths of the best codes for weights. -/
def bestLengths (weights : List Nat) : Array Nat :=
  let groups := weights.zipIdx.map fun (weight, symbol) => Group.mk weight [symbol]
  let sorted := groups.mergeSort fun a b => a.weight ≤ b.weight
  join weights.length (Array.replicate weights.length 0) sorted

/-- The longest code that is used. -/
def maxLength : Nat := 17

/-- The lengths of good codes that are not too long.  Weights are levelled, at most `steps` times,
while the best codes for them are too long. -/
def lengths : Nat → List Nat → Array Nat
  | 0, weights => bestLengths (weights.map fun _ => 1)
  | steps + 1, weights =>
    let found := bestLengths weights
    if found.all (· ≤ maxLength) then found
    else lengths steps (weights.map fun weight => weight / 2 + 1)

/-- The codes of symbols with these lengths. -/
def codes (lengths : List Nat) : List (Nat × Bits) :=
  let sorted := lengths.zipIdx.mergeSort fun a b => a.1 ≤ b.1
  let assigned := sorted.foldl (fun (codes, next, width) (length, symbol) =>
      let code := next <<< (length - width)
      ((symbol, Bits.ofNat length code) :: codes, code + 1, length))
    (([] : List (Nat × Bits)), 0, 0)
  assigned.1.reverse

/-- Codes arranged by their bits. -/
inductive Tree
  | vacant
  | leaf (symbol : Nat)
  | fork (zero one : Tree)

namespace Tree

/-- The tree with one more code. -/
def insert (symbol : Nat) : Bits → Tree → Tree
  | [], _ => leaf symbol
  | false :: bits, fork zero one => fork (insert symbol bits zero) one
  | true :: bits, fork zero one => fork zero (insert symbol bits one)
  | false :: bits, _ => fork (insert symbol bits vacant) vacant
  | true :: bits, _ => fork vacant (insert symbol bits vacant)

/-- The tree of codes with these lengths. -/
def ofLengths (lengths : List Nat) : Tree :=
  (codes lengths).foldl (fun tree (symbol, bits) => tree.insert symbol bits) vacant

/-- Reads a code. -/
def read : Tree → Reader Nat
  | leaf symbol, rest => some (symbol, rest)
  | fork zero one, b :: rest => if b then read one rest else read zero rest
  | _, _ => none

end Tree

end RpmRelease.Bzip2.PrefixCode
