/-!
# Decimal numbers in text

A number is one or more ASCII digits after an optional sign, with nothing around it.  A reader
accepts exactly the numbers that fit into 64 bits: `readUnsigned` those without a minus sign,
`readSigned` those that fit together with their sign.
-/

set_option autoImplicit false

namespace RpmRelease.Text

/-- The first number that does not fit into 64 bits. -/
def unsignedLimit : Nat := 18446744073709551616

/-- The first number that does not fit into 64 bits together with a sign. -/
def signedLimit : Nat := 9223372036854775808

/-- The value of a digit in a base up to ten. -/
def digitValue (base : Nat) (c : Char) : Option Nat :=
  if '0' ≤ c ∧ c.toNat < '0'.toNat + base then some (c.toNat - '0'.toNat) else none

/-- The number written by one or more digits in a base up to ten. -/
def readDigits (base : Nat) (cs : List Char) : Option Nat :=
  if cs.isEmpty then none
  else cs.foldlM (fun value c => (digitValue base c).map (value * base + ·)) 0

/-- A number of 64 bits in a base up to ten, after an optional plus sign. -/
def readUnsignedIn (base : Nat) (cs : List Char) : Option Nat :=
  let digits := if cs.head? = some '+' then cs.tail else cs
  (readDigits base digits).filter (· < unsignedLimit)

/-- A decimal number of 64 bits, after an optional plus sign. -/
def readUnsigned (cs : List Char) : Option Nat :=
  readUnsignedIn 10 cs

/-- A decimal number of 64 bits with its sign, which may be left out. -/
def readSigned (cs : List Char) : Option Int :=
  match cs with
  | '-' :: digits => (readDigits 10 digits).bind fun n => if n ≤ signedLimit then some (-n) else none
  | '+' :: digits => (readDigits 10 digits).bind fun n => if n < signedLimit then some n else none
  | digits => (readDigits 10 digits).bind fun n => if n < signedLimit then some n else none

/-- The digits of a number in a base up to ten, without leading zeros. -/
def digits (base n : Nat) : List Char :=
  Nat.toDigits base n

/-- The text with zeros in front up to a width. -/
def padZeros (width : Nat) (cs : List Char) : List Char :=
  List.replicate (width - cs.length) '0' ++ cs

end RpmRelease.Text
