/-!
# Reading and writing UTF-8

`pieces` reads a byte sequence from left to right into characters and ill-formed runs.  An
ill-formed run is a *maximal subpart*: a lead byte with the continuation bytes that could still
have belonged to a character, or one byte that starts none.  `decode` accepts only sequences
without ill-formed runs, `decodeLossy` writes U+FFFD for each of them.
-/

set_option autoImplicit false

namespace RpmRelease

/-- A sequence of bytes: the contents of a file, an argument, the output of a program. -/
abbrev Bytes := List UInt8

namespace Text.Utf8

/-- The ranges for the continuation bytes after a lead byte; nothing for a byte that starts no
character. -/
def continuations (lead : UInt8) : Option (List (UInt8 × UInt8)) :=
  let any : UInt8 × UInt8 := (0x80, 0xBF)
  if lead < 0x80 then some []
  else if lead < 0xC2 then none
  else if lead < 0xE0 then some [any]
  else if lead == 0xE0 then some [(0xA0, 0xBF), any]
  else if lead == 0xED then some [(0x80, 0x9F), any]
  else if lead < 0xF0 then some [any, any]
  else if lead == 0xF0 then some [(0x90, 0xBF), any, any]
  else if lead < 0xF4 then some [any, any, any]
  else if lead == 0xF4 then some [(0x80, 0x8F), any, any]
  else none

/-- The bits of the character that a lead byte carries itself. -/
def leadBits (lead : UInt8) : Nat :=
  if lead < 0x80 then lead.toNat
  else if lead < 0xE0 then lead.toNat - 0xC0
  else if lead < 0xF0 then lead.toNat - 0xE0
  else lead.toNat - 0xF0

/-- Follows the continuation ranges as far as the bytes allow: the number read so far, or nothing
when a range was not met, and the number of bytes taken. -/
def follow : List (UInt8 × UInt8) → Nat → Bytes → Option Nat × Nat
  | [], value, _ => (some value, 0)
  | _ :: _, _, [] => (none, 0)
  | (low, high) :: ranges, value, b :: bs =>
    if low ≤ b && b ≤ high then
      let (result, taken) := follow ranges (value * 64 + (b.toNat - 0x80)) bs
      (result, taken + 1)
    else (none, 0)

/-- The characters of a byte sequence, with nothing in the place of each ill-formed run. -/
def pieces : Bytes → List (Option Char)
  | [] => []
  | lead :: rest =>
    match continuations lead with
    | none => none :: pieces rest
    | some ranges =>
      match follow ranges (leadBits lead) rest with
      | (some value, taken) => some (Char.ofNat value) :: pieces (rest.drop taken)
      | (none, taken) => none :: pieces (rest.drop taken)
termination_by bytes => bytes.length
decreasing_by all_goals simp only [List.length_cons, List.length_drop]; omega

/-- The text written by well-formed bytes. -/
def decode (bytes : Bytes) : Option (List Char) :=
  (pieces bytes).mapM id

/-- The text written by any bytes, U+FFFD standing for each ill-formed run. -/
def decodeLossy (bytes : Bytes) : List Char :=
  (pieces bytes).map (·.getD '\uFFFD')

/-- The bytes that write a text. -/
def encode (cs : List Char) : Bytes :=
  cs.flatMap String.utf8EncodeChar

/-- The bytes that write a string. -/
def ofString (s : String) : Bytes :=
  encode s.toList

/-- The string written by any bytes, U+FFFD standing for each ill-formed run. -/
def toString (bytes : Bytes) : String :=
  String.ofList (decodeLossy bytes)

/-- The string written by well-formed bytes. -/
def toString? (bytes : Bytes) : Option String :=
  (decode bytes).map String.ofList

end Text.Utf8

end RpmRelease
