import RpmRelease.FileSystem.Error
import RpmRelease.Tar.Header

/-!
# Reading tar archives

An archive is read member by member.  Long names, long link targets and remarks come before the
member they belong to and are joined with it.  The chunks of a sparse file are listed in its header
and, when there are many, in blocks behind it.

`members` gives the members up to the end of the archive or to the first defect, and the defect.
-/

set_option autoImplicit false

namespace RpmRelease.Tar

/-- A part of the contents of a file. -/
inductive Chunk
  /-- so many bytes of the archive -/
  | data (length : Nat)
  /-- so many NULs -/
  | gap (length : Nat)
deriving DecidableEq, Repr

/-- A member of an archive. -/
structure Member where
  /-- the header block -/
  header : Bytes
  longName : Option Bytes
  longLink : Option Bytes
  remarks : Option Bytes
  chunks : List Chunk
  /-- the archive from the contents of the member on -/
  data : Bytes

/-- A defect of an archive. -/
def defect (text : String) : FileError := .custom .other text

/-- A remark: a key and a value. -/
abbrev Remark := Bytes × Bytes

/-- Reads one line of remarks: its own length, a blank, the key, an equals sign and the value. -/
def readRemark (line : Bytes) : Option Remark := do
  let length ← Text.Utf8.decode (line.takeWhile (· != 0x20))
  let stated ← Text.readUnsigned length
  match line.dropWhile (· != 0x20) with
  | [] => none
  | _ :: pair =>
    if stated != line.length + 1 then none
    else
      match pair.dropWhile (· != 0x3D) with
      | [] => none
      | _ :: value => some (pair.takeWhile (· != 0x3D), value)

/-- Reads remarks up to the first empty line; nothing stands for a malformed one. -/
def readRemarks (bytes : Bytes) : List (Option Remark) :=
  ((Text.splitWhen (· == 0x0A) bytes).takeWhile (!·.isEmpty)).map readRemark

/-- The value of a key in remarks. -/
def remarked (key : String) (remarks : Bytes) : Option Bytes :=
  ((readRemarks remarks).filterMap id).lookup (Text.Utf8.ofString key)

/-- The number that remarks give to a key, if no malformed remark stands before it. -/
def remarkedNumber (key : String) (remarks : Bytes) : Option Nat := do
  let sound := (readRemarks remarks).takeWhile (·.isSome)
  let value ← (sound.filterMap id).lookup (Text.Utf8.ofString key)
  Text.readUnsigned (← Text.Utf8.decode value)

namespace Member

/-- A name without one NUL at its end. -/
def dropStop (bytes : Bytes) : Bytes :=
  if bytes.getLast? = some 0 then bytes.dropLast else bytes

/-- The name of a member. -/
def name (m : Member) : Bytes :=
  match m.longName with
  | some name => dropStop name
  | none => (m.remarks.bind (remarked "path")).getD (nameOf m.header)

/-- The name that a link leads to, if there is one. -/
def linkName (m : Member) : Option Bytes :=
  match m.longLink with
  | some name => some (dropStop name)
  | none => (m.remarks.bind (remarked "linkpath")).or (linkNameOf m.header)

/-- The contents that chunks make up, and whether the archive holds all of them. -/
def assemble : List Chunk → Bytes → Bytes × Bool
  | [], _ => ([], true)
  | .gap length :: chunks, data =>
    let (content, complete) := assemble chunks data
    (List.replicate length 0 ++ content, complete)
  | .data length :: chunks, data =>
    let piece := data.take length
    if piece.length < length then (piece, false)
    else
      let (content, complete) := assemble chunks (data.drop length)
      (piece ++ content, complete)

/-- The contents of a member, and whether the archive holds all of them. -/
def content (m : Member) : Bytes × Bool :=
  assemble m.chunks m.data

end Member

/-- A header with what follows it. -/
structure Raw where
  header : Bytes
  size : Nat
  /-- the archive behind the header -/
  data : Bytes

/-- The archive behind the contents of a member, which fill whole blocks; nothing when the archive
ends before. -/
def behind (size : Nat) (data : Bytes) : Option Bytes :=
  let whole := (size + blockSize - 1) / blockSize * blockSize
  if data.length < whole then none else some (data.drop whole)

/-- How many different checksums there are; higher digits are passed over. -/
def checksumRange : Nat := 4294967296

/-- Reads the header at the front of what is left of an archive; none at its end.  Remarks may give
the member another size. -/
def readRaw (rest : Option Bytes) (remarks : Option Bytes) : Except FileError (Option Raw) := do
  let some rest := rest | throw (defect "unexpected EOF during skip")
  if rest.isEmpty then return none
  let header := rest.take blockSize
  if header.length < blockSize then throw (defect "failed to read entire block")
  if header.all (· == 0) then return none
  let stated ← (readOctal (Field.checksum.get header)).mapError fun reason =>
    defect (reason ++ " when getting cksum for " ++ nameText header)
  if checksum (header.take 148) (header.drop 156) != stated % checksumRange then
    throw (defect "archive header checksum mismatch")
  let size ← (readNumber (Field.size.get header)).mapError fun reason =>
    defect (reason ++ " when getting size for " ++ nameText header)
  let size := (remarks.bind (remarkedNumber "size")).getD size
  if Text.unsignedLimit ≤ size + (blockSize - 1) then throw (defect "size overflow")
  return some ⟨header, size, rest.drop blockSize⟩

/-- How far the chunks of a sparse file have been read. -/
structure Sparse where
  /-- where in the file the next chunk may begin -/
  reached : Nat
  /-- how many bytes of the archive are still to be accounted for -/
  remaining : Nat
  /-- the chunks, the last one first -/
  chunks : List Chunk

/-- Takes in the chunk that an entry of 24 bytes lists. -/
def Sparse.add (total : Nat) (s : Sparse) (entry : Bytes) : Except FileError Sparse := do
  let offsetField := entry.take 12
  let lengthField := entry.drop 12
  if offsetField.headD 0 == 0 || lengthField.headD 0 == 0 then return s
  let offset ← (readOctal offsetField).mapError fun reason =>
    defect (reason ++ " when getting offset from sparse header")
  let length ← (readOctal lengthField).mapError fun reason =>
    defect (reason ++ " when getting length from sparse header")
  if length != 0 && (total - s.remaining) % blockSize != 0 then
    throw (defect "previous block in sparse file was not aligned to 512-byte boundary")
  if offset < s.reached then throw (defect "out of order or overlapping sparse blocks")
  let chunks := if s.reached < offset then .gap (offset - s.reached) :: s.chunks else s.chunks
  if Text.unsignedLimit ≤ offset + length then
    throw (defect "more bytes listed in sparse file than u64 can hold")
  if s.remaining < length then
    throw (defect "sparse file consumed more data than the header listed")
  return ⟨offset + length, s.remaining - length, .data length :: chunks⟩

/-- Takes in the first entries of a list, 24 bytes each. -/
def Sparse.addAll (total : Nat) : Nat → Sparse → Bytes → Except FileError Sparse
  | 0, s, _ => .ok s
  | count + 1, s, entries => do
    addAll total count (← s.add total (entries.take 24)) (entries.drop 24)

/-- Takes in the blocks of further entries that stand in front of the contents. -/
def Sparse.extend (total : Nat) : Nat → Sparse → Bytes → Except FileError (Sparse × Bytes)
  | 0, s, data => .ok (s, data)
  | blocks + 1, s, data => do
    let block := data.take blockSize
    if block.isEmpty then throw (defect "failed to read extension")
    if block.length < blockSize then throw (defect "failed to read entire block")
    let s ← s.addAll total 21 block
    let data := data.drop blockSize
    if (block.drop 504).headD 0 == 1 then extend total blocks s data else return (s, data)

/-- The chunks of a sparse file, and the archive from its contents on. -/
def readSparse (raw : Raw) : Except FileError (List Chunk × Bytes) := do
  if !isLongFormat raw.header then
    throw (defect "sparse entry type listed but not GNU header")
  let s ← Sparse.addAll raw.size 4 ⟨0, raw.size, []⟩ (Field.chunks.get raw.header)
  let (s, data) ←
    if (Field.moreChunks.get raw.header).headD 0 == 1 then
      s.extend raw.size (raw.data.length / blockSize + 1) raw.data
    else pure (s, raw.data)
  let real ← (readOctal (Field.realSize.get raw.header)).mapError fun reason =>
    defect (reason ++ " when getting real_size for " ++ nameText raw.header)
  if s.reached != real then
    throw (defect "mismatch in sparse file chunks and size in header")
  if s.remaining != 0 then
    throw (defect "mismatch in sparse file chunks and entry size in header")
  return (s.chunks.reverse, data)

/-- What has been read for a member before its own header. -/
structure Lead where
  longName : Option Bytes := none
  longLink : Option Bytes := none
  remarks : Option Bytes := none

/-- Whether nothing has been read yet. -/
def Lead.isEmpty (lead : Lead) : Bool :=
  lead.longName.isNone && lead.longLink.isNone && lead.remarks.isNone

/-- Takes in a member that belongs to the next one; nothing for a member of its own. -/
def Lead.add? (lead : Lead) (raw : Raw) : Except FileError (Option Lead) := do
  let kind := kindOf raw.header
  let content := raw.data.take raw.size
  if !(isLongFormat raw.header || isStandardFormat raw.header) then return none
  else if kind == Kind.longName then
    if lead.longName.isSome then
      throw (defect "two long name entries describing the same member")
    return some { lead with longName := some content }
  else if kind == Kind.longLink then
    if lead.longLink.isSome then
      throw (defect "two long name entries describing the same member")
    return some { lead with longLink := some content }
  else if kind == Kind.remarks then
    if lead.remarks.isSome then
      throw (defect "two pax extensions entries describing the same member")
    return some { lead with remarks := some content }
  else return none

/-- Reads one member and gives it with what is left of the archive; none at the end.  `steps` bounds
the number of headers. -/
def readMember : Nat → Lead → Option Bytes → Except FileError (Option (Member × Option Bytes))
  | 0, _, _ => .ok none
  | steps + 1, lead, rest => do
    match ← readRaw rest lead.remarks with
    | none =>
      if lead.isEmpty then return none
      else throw (defect
        "members found describing a future member but no future member found")
    | some raw =>
      match ← lead.add? raw with
      | some lead => readMember steps lead (behind raw.size raw.data)
      | none =>
        let (chunks, data) ←
          if kindOf raw.header == Kind.sparse then readSparse raw
          else pure ([.data raw.size], raw.data)
        return some
          (⟨raw.header, lead.longName, lead.longLink, lead.remarks, chunks, data⟩,
            behind raw.size data)

/-- Reads members up to the end or to the first defect; `steps` bounds their number. -/
def membersFrom : Nat → Option Bytes → List Member × Option FileError
  | 0, _ => ([], none)
  | steps + 1, rest =>
    match readMember (steps + 1) {} rest with
    | .error e => ([], some e)
    | .ok none => ([], none)
    | .ok (some (member, rest)) =>
      let (members, error) := membersFrom steps rest
      (member :: members, error)

/-- The members of an archive up to its end or to the first defect, and the defect. -/
def members (archive : Bytes) : List Member × Option FileError :=
  membersFrom (archive.length / blockSize + 2) (some archive)

end RpmRelease.Tar
