import RpmRelease.FileSystem.Storage
import RpmRelease.Tar.Reader

/-!
# Unpacking members

A member is unpacked below a destination.  The root and single dots in its name mean nothing; a
member whose name leads upwards is passed over, and so is one whose name comes to nothing.  Missing
directories are created.  Nothing is written through a link that leads out of the destination.

A file takes the place of whatever file or link stood there before, and a link likewise; a directory
that is there already is kept.  Of a mode only the permissions count.
-/

set_option autoImplicit false

namespace RpmRelease.Tar

namespace Member

/-- The path of a member below a destination; nothing for a name that leads upwards. -/
def place? (destination : Path) (name : Path) : Option Path :=
  if name.components.contains .parent then none
  else some ((name.components.filter fun c => c != .root && c != .current).foldl
    (fun path c => path.join c.path) destination)

/-- The error of a step that a text describes. -/
def failed (text : String) (e : FileError) : FileError := .custom e.kind text

/-- Checks that a path stays inside the destination with every link followed, and gives the
destination in the same form. -/
def checkInside (destination path : Path) : Storage FileError Path :=
  Storage.query fun caller fs => do
    let inside ← (fs.canonical caller path).mapError fun e =>
      failed (e.text ++ " while canonicalizing " ++ path.text) e
    let outer ← (fs.canonical caller destination).mapError fun e =>
      failed (e.text ++ " while canonicalizing " ++ destination.text) e
    if inside.startsWith outer then return outer
    else throw (defect ("trying to unpack outside of destination path: " ++ outer.text))

/-- The paths above and including a path that are missing, the longest first. -/
def missing (caller : Caller) (fs : FileSystem) (path : Path) : List Path :=
  path.ancestors.takeWhile fun above => !(fs.lstat caller above).isOk

/-- Creates a directory below the destination with the directories above it that are missing. -/
def ensureDirectory (destination directory : Path) : Storage FileError Unit := do
  let absent ← Storage.query fun caller fs => .ok (missing caller fs directory)
  absent.reverse.forM fun path => do
    match path.parent? with
    | some above => let _ ← checkInside destination above
    | none => pure ()
    Storage.createDirectories path

/-- Sets the permissions of what was unpacked, if the header has them. -/
def setMode (m : Member) (path : Path) : Storage FileError Unit :=
  match modeOf m.header with
  | .ok mode => Storage.change fun caller fs =>
    fs.changeMode caller (Mode.permissions (BitVec.ofNat 12 mode)) path
  | .error _ => pure ()

/-- Sets the time of what was unpacked, if the header has it.  The first second of the epoch stands
for none. -/
def setTime (m : Member) (path : Path) : Storage FileError Unit :=
  match timeOf m.header with
  | .ok time => Storage.change fun caller fs => do
    let time := if time == 0 then 1 else time
    let (l, node) ← Lookup.find caller fs false path
    return fs.set l (node.setTime (BitVec.ofNat 64 time).toInt)
  | .error _ => pure ()

/-- Unpacks a directory. -/
def unpackDirectory (m : Member) (path : Path) : Storage FileError Unit := do
  match ← Storage.attempt (Storage.change fun caller fs => fs.makeDirectory caller path) with
  | .ok () => pure ()
  | .error e =>
    let there ← Storage.query fun caller fs => .ok
      (match fs.lstat caller path with
        | .ok node => node.kind == .directory
        | .error _ => false)
    if e.kind != .alreadyExists || !there then throw e
  m.setMode path

/-- Does something that needs a vacant path; when the path is taken, frees it and tries again. -/
def replacing (path : Path) (program : Storage FileError Unit) : Storage FileError Unit := do
  match ← Storage.attempt program with
  | .ok () => pure ()
  | .error e =>
    if e.kind == .alreadyExists then
      Storage.change fun caller fs => fs.removeFile caller path
      program
    else throw e

/-- The path that a link leads to. -/
def target (m : Member) : Storage FileError Path :=
  match m.linkName with
  | none => throw (defect "link listed but no link name found")
  | some name =>
    if name.isEmpty then throw (defect "link destination is empty")
    else pure ⟨Text.Utf8.toString name⟩

/-- Unpacks a symbolic link. -/
def unpackLink (m : Member) (path : Path) : Storage FileError Unit := do
  let target ← m.target
  replacing path (Storage.change fun caller fs => fs.makeLink caller target path)
  m.setTime path

/-- Unpacks a second name for a file inside the destination. -/
def unpackHardLink (m : Member) (destination path : Path) : Storage FileError Unit := do
  let source := destination.join (← m.target)
  let _ ← checkInside destination source
  Storage.change fun caller fs => fs.makeHardLink caller source path

/-- The mode of a file while it is written. -/
def fileMode : Mode := 0o666#12

/-- Unpacks a file.  When the archive ends too early, the file keeps what there was. -/
def unpackFile (m : Member) (path : Path) : Storage FileError Unit := do
  let (content, complete) := m.content
  replacing path (Storage.change fun caller fs => do
    let (l, fs) ← fs.openNew caller fileMode path
    return fs.fill caller l content)
  if !complete then throw (defect "failed to write entire file")
  m.setTime path
  m.setMode path

/-- Whether a member of some kind only says something about others. -/
def isRemark (kind : UInt8) : Bool :=
  kind == Kind.globalRemarks || kind == Kind.remarks || kind == Kind.longName ||
    kind == Kind.longLink

/-- Unpacks a member to a path. -/
def unpackAt (m : Member) (destination path : Path) : Storage FileError Unit :=
  let kind := kindOf m.header
  if kind == Kind.directory then m.unpackDirectory path
  else if kind == Kind.hardLink then m.unpackHardLink destination path
  else if kind == Kind.link then m.unpackLink path
  else if isRemark kind then pure ()
  else if !isStandardFormat m.header && m.name.getLast? == some 0x2F then m.unpackDirectory path
  else m.unpackFile path

/-- Unpacks a member below a destination. -/
def unpack (m : Member) (destination : Path) : Storage FileError Unit := do
  match place? destination ⟨Text.Utf8.toString m.name⟩ with
  | none => pure ()
  | some path =>
    if path.same destination then return
    match path.parent? with
    | none => pure ()
    | some above =>
      (ensureDirectory destination above).mapError
        (failed ("failed to create \x60" ++ above.text ++ "\x60"))
      let inside ← checkInside destination above
      (m.unpackAt inside path).mapError (failed ("failed to unpack \x60" ++ path.text ++ "\x60"))

end Member

end RpmRelease.Tar
