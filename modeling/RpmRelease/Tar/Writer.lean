import RpmRelease.FileSystem.Error
import RpmRelease.Tar.Header

/-!
# Writing tar archives

Each item becomes a header and, for a file, its contents.  A name or link target that does not fit
into its field goes in front, as a member of its own.  Names must be relative and must not lead
upwards; empty and single-dot components are left out.

A writer that fails keeps what it has written before.
-/

set_option autoImplicit false

namespace RpmRelease.Tar

/-- What an item is. -/
inductive Body
  | directory
  | file (content : Bytes)
  | link (target : Path)
deriving DecidableEq, Repr

/-- What goes into an archive. -/
structure Item where
  path : Path
  mode : Nat
  time : Nat
  body : Body
deriving DecidableEq, Repr

/-- A field for a name while it is filled: its bytes, and how many of them are used. -/
structure Slot where
  bytes : Bytes
  used : Nat

/-- A field for a name with nothing in it. -/
def Slot.empty : Slot := ⟨List.replicate 100 0, 0⟩

/-- Filling a field for a name may fail with a reason. -/
abbrev Filling : Type := ExceptT String (StateM Slot) Unit

namespace Slot

/-- Puts bytes behind those that are there, and a NUL behind them if there is room. -/
def put (bytes : Bytes) : Filling := do
  let slot ← get
  if 100 - slot.used < bytes.length then throw "provided value is too long"
  if bytes.contains 0 then throw "provided value contains a nul byte"
  let stop := if slot.used + bytes.length < 100 then [0] else []
  let front := slot.bytes.take slot.used ++ bytes ++ stop
  set (⟨front ++ slot.bytes.drop front.length, slot.used + bytes.length⟩ : Slot)

/-- Puts the components of a path.  `lead` tells whether a slash has to go in front of the next one,
`begun` whether there has been one. -/
def putComponents (isLink : Bool) (cutShort : Bool) (only : Bool) :
    Bool → Bool → List Path.Component → Filling
  | _, begun, [] => if begun then pure () else throw "paths in archives must have at least one component"
  | lead, begun, c :: rest => do
    if !isLink then
      match c with
      | .root => throw "paths in archives must be relative"
      | .parent => if !cutShort || !rest.isEmpty then throw "paths in archives must not have \x60..\x60"
      | _ => pure ()
    if !isLink && c == .current && !only then putComponents isLink cutShort only lead begun rest
    else
      if lead then put [0x2F]
      put (Text.Utf8.ofString c.path.text)
      putComponents isLink cutShort only (lead || c != .root) true rest

/-- Puts a path.  A path that was cut short may end in two dots. -/
def putPath (isLink cutShort : Bool) (path : Path) : Filling := do
  let components := path.components
  putComponents isLink cutShort (components.length == 1) false false components
  if path.text.toList.getLast? == some '/' then put [0x2F]

/-- Fills a field anew from its beginning; what was behind stays behind. -/
def fill (slot : Slot) (isLink cutShort : Bool) (path : Path) : Except String Unit × Slot :=
  (putPath isLink cutShort path).run { slot with used := 0 }

end Slot

/-- Writing an archive: what has been written, and how it failed. -/
abbrev Writer (α : Type) : Type := ExceptT FileError (StateM Bytes) α

namespace Writer

/-- Writes bytes. -/
def emit (bytes : Bytes) : Writer Unit :=
  modify (· ++ bytes)

/-- Writes a header and contents, which are filled up to whole blocks. -/
def emitMember (header : Header) (content : Bytes) : Writer Unit := do
  emit header.encode
  emit (pad ((content.length + blockSize - 1) / blockSize * blockSize) content)

/-- Writes a name as a member of its own. -/
def emitLong (kind : UInt8) (name : Bytes) : Writer Unit :=
  emitMember
    ⟨Text.Utf8.ofString "././@LongLink", 0o644, name.length + 1, 0, kind, []⟩ (name ++ [0])

/-- The longest beginning of a text that is written in no more bytes than a field for a name
holds. -/
def shorten : Nat → List Char → List Char
  | _, [] => []
  | room, c :: rest =>
    let width := (String.utf8EncodeChar c).length
    if width ≤ room then c :: shorten (room - width) rest else []

/-- The failure to set a name. -/
def nameError (what reason : String) (slot : Slot) : FileError :=
  .custom .other (reason ++ " when setting " ++ what ++ " for " ++ Text.Utf8.toString (cut slot.bytes))

/-- Prepares the field for a name, with a member in front when the name does not fit. -/
def prepareName (path : Path) : Writer Slot := do
  match Slot.empty.fill false false path with
  | (.ok _, slot) => return slot
  | (.error reason, slot) =>
    let bytes := Text.Utf8.ofString path.text
    if bytes.length < 100 then throw (nameError "path" reason slot)
    emitLong Kind.longName bytes
    match slot.fill false true ⟨String.ofList (shorten 100 path.text.toList)⟩ with
    | (.ok _, slot) => return slot
    | (.error reason, slot) => throw (nameError "path" reason slot)

/-- Prepares the field for a link target, with a member in front when the target does not fit. -/
def prepareTarget (name : Slot) (target : Path) : Writer Slot := do
  match Slot.empty.fill true false target with
  | (.ok _, slot) => return slot
  | (.error reason, slot) =>
    let bytes := Text.Utf8.ofString target.text
    if bytes.length < 100 then throw (nameError "link name" reason name)
    emitLong Kind.longLink bytes
    return slot

/-- Writes an item. -/
def append (item : Item) : Writer Unit := do
  let name ← prepareName item.path
  match item.body with
  | .directory => emitMember ⟨name.bytes, item.mode, 0, item.time, Kind.directory, []⟩ []
  | .file content =>
    emitMember ⟨name.bytes, item.mode, content.length, item.time, Kind.file, []⟩ content
  | .link target =>
    let link ← prepareTarget name target
    emitMember ⟨name.bytes, item.mode, 0, item.time, Kind.link, link.bytes⟩ []

end Writer

/-- The two blocks that end an archive. -/
def ending : Bytes := List.replicate (2 * blockSize) 0

end RpmRelease.Tar
