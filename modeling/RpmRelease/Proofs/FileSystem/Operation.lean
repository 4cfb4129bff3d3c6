import RpmRelease.FileSystem.Operation
import RpmRelease.Proofs.Run

/-!
# What single operations do

An operation that succeeds has located the entry that it is about, has found there what it needs, and
was allowed to write; then it has put one node there, or taken it away.  For each operation one
statement says all of this, and whatever else is known of the operation is derived from it.
-/

set_option autoImplicit false

namespace RpmRelease.FileSystem

variable {caller : Caller} {fs fs' : FileSystem} {path : Path} {l : Location}

/-- A directory is created where nothing stood. -/
theorem of_makeDirectory_ok (h : fs.makeDirectory caller path = .ok fs') :
    ∃ l name slash, Lookup.locateEntry caller fs path = .ok (l, .name name slash) ∧
      fs.get? (l ++ [name]) = none ∧ fs.checkWritable caller l = .ok () ∧
      fs' = fs.set (l ++ [name]) (.directory Mode.directory caller.now) := by
  obtain ⟨⟨l, ending⟩, hentry, h⟩ := Run.of_bind_ok h
  cases ending with
  | directory step => exact absurd h Run.throw_ne_ok
  | name name slash =>
      obtain ⟨hvacant, h⟩ := Run.of_check_ok h
      obtain ⟨_, hwritable, h⟩ := Run.of_bind_ok h
      exact ⟨l, name, slash, hentry, by simpa using hvacant, hwritable, (Except.ok.inj h).symm⟩

/-- A new entry that is no directory goes where nothing stands, and its path does not end in a slash. -/
theorem of_vacantEntry_ok (h : fs.vacantEntry caller path = .ok l) :
    ∃ k name, Lookup.locateEntry caller fs path = .ok (k, .name name false) ∧
      fs.get? (k ++ [name]) = none ∧ fs.checkWritable caller k = .ok () ∧ l = k ++ [name] := by
  obtain ⟨⟨k, ending⟩, hentry, h⟩ := Run.of_bind_ok h
  cases ending with
  | directory step => exact absurd h Run.throw_ne_ok
  | name name slash =>
      obtain ⟨hvacant, hrest⟩ := Run.of_check_ok h
      obtain ⟨hslash, hrest⟩ := Run.of_check_ok hrest
      obtain ⟨_, hwritable, hput⟩ := Run.of_bind_ok hrest
      obtain rfl : slash = false := by simpa using hslash
      exact ⟨k, name, hentry, by simpa using hvacant, hwritable, (Except.ok.inj hput).symm⟩

/-- A new file is created where nothing stood. -/
theorem of_openNew_ok {mode : Mode} (h : fs.openNew caller mode path = .ok (l, fs')) :
    ∃ k name, Lookup.locateEntry caller fs path = .ok (k, .name name false) ∧
      fs.get? (k ++ [name]) = none ∧ fs.checkWritable caller k = .ok () ∧ l = k ++ [name] ∧
      fs' = fs.set (k ++ [name]) (.file mode.masked caller.now []) := by
  obtain ⟨⟨k, ending⟩, hentry, h⟩ := Run.of_bind_ok h
  cases ending with
  | directory step => exact absurd h Run.throw_ne_ok
  | name name slash =>
      obtain ⟨hslash, hrest⟩ := Run.of_check_ok h
      obtain ⟨hvacant, hrest⟩ := Run.of_check_ok hrest
      obtain ⟨_, hwritable, hput⟩ := Run.of_bind_ok hrest
      obtain rfl : slash = false := by simpa using hslash
      obtain ⟨rfl, rfl⟩ := Prod.mk.inj (Except.ok.inj hput)
      exact ⟨k, name, hentry, by simpa using hvacant, hwritable, rfl, rfl⟩

/-- What is removed as a file is no directory. -/
theorem of_removeFile_ok (h : fs.removeFile caller path = .ok fs') :
    ∃ l name node, Lookup.locateEntry caller fs path = .ok (l, .name name false) ∧
      fs.get? (l ++ [name]) = some node ∧ node.kind ≠ .directory ∧
      fs.checkWritable caller l = .ok () ∧ fs' = fs.erase (l ++ [name]) := by
  obtain ⟨⟨l, ending⟩, hentry, h⟩ := Run.of_bind_ok h
  cases ending with
  | directory step => exact absurd h Run.throw_ne_ok
  | name name slash =>
      cases hnode : fs.get? (l ++ [name]) with
      | none =>
          simp only [hnode] at h
          exact absurd h Run.throw_ne_ok
      | some node =>
          simp only [hnode] at h
          obtain ⟨hslash, hrest⟩ := Run.of_check_ok h
          obtain ⟨_, hwritable, hrest⟩ := Run.of_bind_ok hrest
          obtain ⟨hkind, htaken⟩ := Run.of_check_ok hrest
          obtain rfl : slash = false := by simpa using hslash
          exact ⟨l, name, node, hentry, hnode, by simpa using hkind, hwritable,
            (Except.ok.inj htaken).symm⟩

/-- A directory is removed when nothing is in it. -/
theorem of_removeDirectory_ok (h : fs.removeDirectory caller path = .ok fs') :
    ∃ l name slash node, Lookup.locateEntry caller fs path = .ok (l, .name name slash) ∧
      fs.get? (l ++ [name]) = some node ∧ node.kind = .directory ∧
      fs.hasChildren (l ++ [name]) = false ∧ fs.checkWritable caller l = .ok () ∧
      fs' = fs.erase (l ++ [name]) := by
  obtain ⟨⟨l, ending⟩, hentry, h⟩ := Run.of_bind_ok h
  cases ending with
  | directory step => cases step <;> exact absurd h Run.throw_ne_ok
  | name name slash =>
      cases hnode : fs.get? (l ++ [name]) with
      | none =>
          simp only [hnode] at h
          exact absurd h Run.throw_ne_ok
      | some node =>
          simp only [hnode] at h
          obtain ⟨_, hwritable, h⟩ := Run.of_bind_ok h
          obtain ⟨hkind, h⟩ := Run.of_check_ok h
          obtain ⟨hempty, h⟩ := Run.of_check_ok h
          exact ⟨l, name, slash, node, hentry, hnode, by simpa using hkind, by simpa using hempty,
            hwritable, (Except.ok.inj h).symm⟩

/-- A file that is opened for writing was there and may be written to, or it is created. -/
inductive OpensFile (caller : Caller) (fs : FileSystem) (mode : Mode) (path : Path) :
    Location → FileSystem → Prop
  | occupied {l : Location} {old : Mode} {time : Int} {content : Bytes}
      (hlocate : Lookup.locate caller fs true path = .ok (.occupied l (.file old time content)))
      (hmay : caller.may .write (.file old 0 []) = true) :
      OpensFile caller fs mode path l (fs.set l (.file (modeWritten caller old) caller.now []))
  | vacant {l : Location} {name : String}
      (hlocate : Lookup.locate caller fs true path = .ok (.vacant l name false))
      (hwritable : fs.checkWritable caller l = .ok ()) :
      OpensFile caller fs mode path (l ++ [name])
        (fs.set (l ++ [name]) (.file mode.masked caller.now []))

/-- A file that is opened for writing was there or is created. -/
theorem opensFile_of_openWrite {mode : Mode} (h : fs.openWrite caller mode path = .ok (l, fs')) :
    OpensFile caller fs mode path l fs' := by
  obtain ⟨place, hlocate, h⟩ := Run.of_bind_ok h
  cases place with
  | occupied k node =>
      cases node with
      | directory => exact absurd h Run.throw_ne_ok
      | link => exact absurd h Run.throw_ne_ok
      | file old time content =>
          obtain ⟨hmay, h⟩ := Run.of_check_ok h
          obtain ⟨rfl, rfl⟩ := Prod.mk.inj (Except.ok.inj h)
          exact .occupied hlocate (by simpa using hmay)
  | vacant k name slash =>
      obtain ⟨hslash, hrest⟩ := Run.of_check_ok h
      obtain ⟨_, hwritable, hput⟩ := Run.of_bind_ok hrest
      obtain rfl : slash = false := by simpa using hslash
      obtain ⟨rfl, rfl⟩ := Prod.mk.inj (Except.ok.inj hput)
      exact .vacant hlocate hwritable

end RpmRelease.FileSystem
