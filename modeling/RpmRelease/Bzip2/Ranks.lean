import RpmRelease.Text.Utf8

/-!
# Ranks

A byte is written as the number of other bytes that have been used since it was last used.  As
equal bytes stand side by side most of these ranks are zero, and a run of zeros is written as its
length, in digits that stand for one and for two.
-/

set_option autoImplicit false

namespace RpmRelease.Bzip2.Ranks

/-- The digits of the length of a run, the lowest first: zero stands for one, one for two. -/
def digits (n : Nat) : List Nat :=
  match n with
  | 0 => []
  | n + 1 => n % 2 :: digits (n / 2)
termination_by n
decreasing_by omega

/-- What has been written. -/
structure Written where
  /-- the bytes, the one used last first -/
  order : List UInt8
  /-- the length of the run of zeros at the end -/
  zeros : Nat
  /-- the symbols, the latest first -/
  symbols : List Nat

/-- Writes the run of zeros at the end. -/
def Written.flush (w : Written) : Written :=
  { w with zeros := 0, symbols := (digits w.zeros).reverse ++ w.symbols }

/-- Writes one more byte. -/
def Written.push (w : Written) (b : UInt8) : Written :=
  match w.order.idxOf b with
  | 0 => { w with zeros := w.zeros + 1 }
  | rank =>
    let w := w.flush
    { w with order := b :: w.order.erase b, symbols := (rank + 1) :: w.symbols }

/-- The bytes that occur, in order. -/
def used (bytes : Array UInt8) : List UInt8 :=
  let seen := bytes.foldl (fun seen b => seen.setIfInBounds b.toNat true)
    (Array.replicate 256 false)
  ((List.range 256).filter fun n => seen.getD n false).map UInt8.ofNat

/-- The symbol that ends a block. -/
def stop (used : List UInt8) : Nat := used.length + 1

/-- The symbols for bytes, with the one that ends a block. -/
def encode (used : List UInt8) (bytes : Array UInt8) : List Nat :=
  let written := (bytes.foldl Written.push ⟨used, 0, []⟩).flush
  (stop used :: written.symbols).reverse

/-- What has been read. -/
structure Found where
  order : List UInt8
  /-- what the next digit counts for -/
  weight : Nat
  bytes : Array UInt8

/-- Reads one more symbol, unless the bytes become more than `bound`. -/
def Found.push (bound : Nat) (f : Found) (symbol : Nat) : Option Found :=
  if symbol ≤ 1 then
    let n := (symbol + 1) * f.weight
    if bound < f.bytes.size + n then none
    else
      let bytes := f.bytes ++ Array.replicate n (f.order.headD 0)
      some { f with weight := 2 * f.weight, bytes }
  else if bound ≤ f.bytes.size then none
  else
    let b := f.order.getD (symbol - 1) 0
    some ⟨b :: f.order.erase b, 1, f.bytes.push b⟩

/-- The bytes for symbols without the one that ends a block. -/
def decode (bound : Nat) (used : List UInt8) (symbols : List Nat) : Option (Array UInt8) :=
  (symbols.foldlM (Found.push bound) ⟨used, 1, #[]⟩).map (·.bytes)

end RpmRelease.Bzip2.Ranks
