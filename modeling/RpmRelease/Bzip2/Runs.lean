import RpmRelease.Text.Utf8

/-!
# Runs of one byte

Four equal bytes are followed by a byte that says how many more of them there are.
-/

set_option autoImplicit false

namespace RpmRelease.Bzip2

/-- A byte and how often it stands in a row. -/
structure Run where
  byte : UInt8
  length : Nat
deriving DecidableEq, Repr

namespace Run

/-- The longest run. -/
def maxLength : Nat := 255

/-- How many equal bytes are followed by a count. -/
def threshold : Nat := 4

/-- The runs behind one more byte, the latest first. -/
def extend (latest : List Run) (b : UInt8) : List Run :=
  match latest with
  | run :: earlier =>
    if run.byte = b ∧ run.length < maxLength then ⟨b, run.length + 1⟩ :: earlier
    else ⟨b, 1⟩ :: latest
  | [] => [⟨b, 1⟩]

/-- The runs of a byte sequence. -/
def ofBytes (bytes : Bytes) : List Run :=
  (bytes.foldl extend []).reverse

/-- The bytes of a run. -/
def bytes (run : Run) : Bytes :=
  List.replicate run.length run.byte

/-- A run as it is written. -/
def encode (run : Run) : Bytes :=
  if run.length < threshold then run.bytes
  else List.replicate threshold run.byte ++ [UInt8.ofNat (run.length - threshold)]

/-- The bytes of runs that are written one after the other; `seen` bytes equal to `last` stand in
front. -/
def decode (last : UInt8) (seen : Nat) : Bytes → Bytes
  | [] => []
  | b :: rest =>
    if seen = threshold then List.replicate b.toNat last ++ decode last 0 rest
    else b :: decode b (if b = last then seen + 1 else 1) rest

end Run

end RpmRelease.Bzip2
