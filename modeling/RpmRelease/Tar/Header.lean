import RpmRelease.Path
import RpmRelease.Text.Decimal
import RpmRelease.Text.Utf8

/-!
# Header blocks of tar archives

An archive consists of blocks of 512 bytes.  A header block has fields of fixed widths.  Numbers are
octal digits with a NUL at the end; a number too large for that is binary, with the highest bit of
its field set.  The checksum is the sum of all bytes, with blanks in the place of the checksum
itself.

`Header.encode` writes a header block in the format that allows names of any length, and the
readers below it take any block apart.
-/

set_option autoImplicit false

namespace RpmRelease.Tar

/-- The size of a block. -/
def blockSize : Nat := 512

/-- The part of a header block that a field takes up. -/
structure Field where
  offset : Nat
  width : Nat

namespace Field

def name : Field := ⟨0, 100⟩
def mode : Field := ⟨100, 8⟩
def user : Field := ⟨108, 8⟩
def group : Field := ⟨116, 8⟩
def size : Field := ⟨124, 12⟩
def time : Field := ⟨136, 12⟩
def checksum : Field := ⟨148, 8⟩
def kind : Field := ⟨156, 1⟩
def linkName : Field := ⟨157, 100⟩
def magic : Field := ⟨257, 8⟩
/-- What goes in front of the name, in the format that has this field. -/
def directory : Field := ⟨345, 155⟩
/-- The four chunks of a sparse file that its header lists. -/
def chunks : Field := ⟨386, 96⟩
/-- Whether more chunks are listed behind the header. -/
def moreChunks : Field := ⟨482, 1⟩
/-- The size of a sparse file with its gaps. -/
def realSize : Field := ⟨483, 12⟩

/-- The bytes of a field. -/
def get (f : Field) (block : Bytes) : Bytes :=
  (block.drop f.offset).take f.width

end Field

/-- The bytes up to the first NUL. -/
def cut (bytes : Bytes) : Bytes :=
  bytes.takeWhile (· != 0)

/-- Bytes with NULs behind them up to a width. -/
def pad (width : Nat) (bytes : Bytes) : Bytes :=
  bytes ++ List.replicate (width - bytes.length) 0

/-- The lowest octal digits of a number, as many as a field holds, and a NUL. -/
def octal (width n : Nat) : Bytes :=
  let digits := Text.digits 8 n
  let digits := Text.padZeros (width - 1) (digits.drop (digits.length - (width - 1)))
  Text.Utf8.encode digits ++ [0]

/-- The bytes of a number, the most significant first. -/
def binaryDigits : Nat → Nat → Bytes
  | 0, _ => []
  | width + 1, n => binaryDigits width (n / 256) ++ [UInt8.ofNat n]

/-- A number in a field as binary digits. -/
def binary (width n : Nat) : Bytes :=
  match binaryDigits width n with
  | [] => []
  | first :: rest => (first ||| 0x80) :: rest

/-- The first number that needs more than eleven octal digits. -/
def octalLimit : Nat := 8589934592

/-- A number in a field of twelve bytes. -/
def number (n : Nat) : Bytes :=
  if octalLimit ≤ n then binary 12 n else octal 12 n

/-- The mark of the format with long names. -/
def longMagic : Bytes := Text.Utf8.ofString "ustar  \x00"

/-- The mark of the standard format. -/
def standardMagic : Bytes := Text.Utf8.ofString "ustar\x0000"

/-- What a header says; owner and group are always those with the number zero. -/
structure Header where
  name : Bytes
  mode : Nat
  size : Nat
  time : Nat
  kind : UInt8
  linkName : Bytes

/-- The sum of bytes. -/
def sum (bytes : Bytes) : Nat :=
  bytes.foldl (fun total b => total + b.toNat) 0

/-- The checksum for the bytes before and behind the checksum field. -/
def checksum (before after : Bytes) : Nat :=
  sum before + sum after + 8 * 32

/-- The block of a header. -/
def Header.encode (h : Header) : Bytes :=
  let before := pad 100 h.name ++ octal 8 h.mode ++ octal 8 0 ++ octal 8 0 ++ number h.size ++
    number h.time
  let after := h.kind :: pad 100 h.linkName ++ longMagic ++ List.replicate 247 0
  before ++ octal 8 (checksum before after) ++ after

/-- Reads an octal number. -/
def readOctal (field : Bytes) : Except String Nat :=
  match Text.Utf8.decode (cut field) with
  | none =>
    .error ("numeric field did not have utf-8 text: " ++ Text.Utf8.toString (cut field))
  | some text =>
    match Text.readUnsignedIn 8 (Text.trim text) with
    | some n => .ok n
    | none => .error ("numeric field was not a number: " ++ String.ofList text)

/-- Reads a number in octal or, when the highest bit is set, from its last eight bytes. -/
def readNumber (field : Bytes) : Except String Nat :=
  if (field.headD 0) &&& 0x80 != 0 then
    .ok ((field.drop (field.length - 8)).foldl (fun n b => n * 256 + b.toNat) 0)
  else readOctal field

/-- Whether a header block is in the format with long names. -/
def isLongFormat (block : Bytes) : Bool :=
  Field.magic.get block == longMagic

/-- Whether a header block is in the standard format. -/
def isStandardFormat (block : Bytes) : Bool :=
  Field.magic.get block == standardMagic

/-- The name in a header block. -/
def nameOf (block : Bytes) : Bytes :=
  let name := cut (Field.name.get block)
  if isStandardFormat block then
    let directory := cut (Field.directory.get block)
    if directory.isEmpty then name else directory ++ 0x2F :: name
  else name

/-- The name in a header block, for messages. -/
def nameText (block : Bytes) : String :=
  Text.Utf8.toString (nameOf block)

/-- The name that a link in a header block leads to, if there is one. -/
def linkNameOf (block : Bytes) : Option Bytes :=
  let name := cut (Field.linkName.get block)
  if name.isEmpty then none else some name

/-- The kind of member that a header block announces. -/
def kindOf (block : Bytes) : UInt8 :=
  (Field.kind.get block).headD 0

/-- The mode in a header block. -/
def modeOf (block : Bytes) : Except String Nat :=
  readOctal (Field.mode.get block)

/-- The time in a header block. -/
def timeOf (block : Bytes) : Except String Nat :=
  readNumber (Field.time.get block)

namespace Kind

def file : UInt8 := 0x30
def hardLink : UInt8 := 0x31
def link : UInt8 := 0x32
def directory : UInt8 := 0x35
/-- The name of the next member, when it is too long for a header. -/
def longName : UInt8 := 0x4C
/-- The link name of the next member, when it is too long for a header. -/
def longLink : UInt8 := 0x4B
/-- A file with gaps. -/
def sparse : UInt8 := 0x53
/-- Remarks on all members that follow. -/
def globalRemarks : UInt8 := 0x67
/-- Remarks on the next member. -/
def remarks : UInt8 := 0x78

end Kind

end RpmRelease.Tar
