import RpmRelease.Proofs.FileSystem.Growing
import RpmRelease.Proofs.FileSystem.Removing

/-!
# Adding entries to a directory

An entry is added under a path joined with its name.  When the path leads to a directory, it depends on
that directory, on the text of the path and on what stands at the entry whether this succeeds, and then
one node is put there.  So the same entry can be added in any file system that has the same directory
at the same place.
-/

set_option autoImplicit false

namespace RpmRelease

/-! ## Copies of nodes -/

namespace Node

/-- The copy that a caller makes of a node. -/
def copied (caller : Caller) : Node → Node
  | .directory .. => .directory Mode.directory caller.now
  | .file mode _ content =>
    .file (if content.isEmpty then mode else FileSystem.modeWritten caller mode) caller.now content
  | .link target _ => .link target caller.now

/-- A copy of a file has its bytes and its permissions, a copy of a link its target. -/
def Like : Node → Node → Prop
  | .directory _ _, .directory _ _ => True
  | .file mode _ content, .file mode' _ content' =>
    content = content' ∧ mode.permissions = mode'.permissions
  | .link target _, .link target' _ => target = target'
  | _, _ => False

/-- The copy of a directory is a directory with the usual permissions, made now. -/
theorem copied_of_directory {caller : Caller} {node : Node} (h : node.kind = .directory) :
    node.copied caller = .directory Mode.directory caller.now := by
  cases node with
  | directory => rfl
  | file => exact absurd h (by simp [kind])
  | link => exact absurd h (by simp [kind])

end Node

/-- Writing to a file keeps its permissions. -/
theorem Mode.permissions_written (m : Mode) : m.written.permissions = m.permissions := by
  unfold Mode.written Mode.permissions
  dsimp only
  split <;> simp only [BitVec.and_assoc] <;> rfl

/-- A copy is like what it was made of. -/
theorem Node.copied_like (caller : Caller) (node : Node) : (node.copied caller).Like node := by
  cases node with
  | directory => trivial
  | link => rfl
  | file mode time content =>
    refine ⟨rfl, ?_⟩
    rw [FileSystem.modeWritten]
    split
    · rfl
    · split
      · rfl
      · exact mode.permissions_written

variable {caller : Caller} {fs fs' : FileSystem} {p : Path} {name : String} {l : Location}
  {above : Node}

namespace Lookup

/-- Where an entry is vacant, once it may be asked for. -/
theorem locate_join_of_vacant {follow : Bool} (hfind : find caller fs true p = .ok (l, above))
    (hname : Path.IsName name) (hcheck : checkEntry caller fs l p name = .ok ())
    (hvacant : fs.get? (l ++ [name]) = none) :
    locate caller fs follow (p.join ⟨name⟩) = .ok (.vacant l name false) := by
  obtain ⟨links, hwalk⟩ := exists_walk_join hfind hname
  obtain ⟨_, htext, hcheck⟩ := Run.of_bind_ok hcheck
  obtain ⟨_, henter, hcheck⟩ := Run.of_bind_ok hcheck
  obtain ⟨hsize, -⟩ := Run.of_check_ok (f := fun _ : Unit => Except.ok ()) hcheck
  rw [locate, htext]
  exact (hwalk follow).trans (by rw [walk_name henter hsize, hvacant])

end Lookup

namespace FileSystem

/-- A directory is made by a path and a name when the entry may be asked for, nothing stands there and
the directory may be written to. -/
theorem makeDirectory_join (hfind : Lookup.find caller fs true p = .ok (l, above))
    (hname : Path.IsName name) :
    fs.makeDirectory caller (p.join ⟨name⟩) = (do
      Lookup.checkEntry caller fs l p name
      if (fs.get? (l ++ [name])).isSome then throw (.system .entryExists)
      fs.checkWritable caller l
      return fs.set (l ++ [name]) (.directory Mode.directory caller.now)) := by
  rw [makeDirectory, Lookup.locateEntry_join hfind hname]
  cases Lookup.checkEntry caller fs l p name <;> rfl

/-- A directory that cannot be created as an entry is not missing a directory above it. -/
theorem kind_ne_notFound_of_makeDirectory {e : FileError}
    (hfind : Lookup.find caller fs true p = .ok (l, above)) (hname : Path.IsName name)
    (h : fs.makeDirectory caller (p.join ⟨name⟩) = .error e) : e.kind ≠ .notFound := by
  rw [makeDirectory_join hfind hname] at h
  cases hentry : Lookup.checkEntry caller fs l p name with
  | error cause =>
      rw [hentry] at h
      obtain rfl : cause = e := Except.error.inj h
      exact Lookup.kind_ne_notFound_of_checkEntry hfind hname hentry
  | ok _ =>
      rw [hentry] at h
      simp only [bind, Except.bind, checkWritable, Lookup.get?_of_find hfind] at h
      split at h
      · obtain rfl := Except.error.inj h
        decide
      · by_cases hmay : caller.may .write above = true
        · simp [hmay, pure, Except.pure] at h
        · rw [if_neg hmay] at h
          obtain rfl := Except.error.inj h
          decide

/-- Nothing is a directory where nothing stands. -/
theorem isDirectory_vacant (hfind : Lookup.find caller fs true p = .ok (l, above))
    (hname : Path.IsName name) (hnone : fs.get? (l ++ [name]) = none) :
    fs.isDirectory caller (p.join ⟨name⟩) = false := by
  by_contra hdirectory
  obtain ⟨k, node, hnode, _⟩ := Lookup.exists_of_isDirectory (Bool.not_eq_false _ ▸ hdirectory)
  obtain ⟨links, hwalk⟩ := Lookup.exists_walk_join hfind hname
  have hend := (Lookup.find_eq_ok_iff.1 hnode).2
  rw [hwalk true] at hend
  rcases Lookup.cases_walk_name hend with ⟨_, _, hplace, _⟩ | ⟨_, _, hthere, _⟩ |
    ⟨_, _, _, hthere, _⟩ | ⟨_, hthere, _⟩
  · simp at hplace
  · simp [hnone] at hthere
  · simp [hnone] at hthere
  · simp [hnone] at hthere

/-- An entry is vacant by a path and a name when it may be asked for, nothing stands there and the
directory may be written to. -/
theorem vacantEntry_join (hfind : Lookup.find caller fs true p = .ok (l, above))
    (hname : Path.IsName name) :
    fs.vacantEntry caller (p.join ⟨name⟩) = (do
      Lookup.checkEntry caller fs l p name
      if (fs.get? (l ++ [name])).isSome then throw (.system .entryExists)
      fs.checkWritable caller l
      return l ++ [name]) := by
  rw [vacantEntry, Lookup.locateEntry_join hfind hname]
  cases Lookup.checkEntry caller fs l p name <;> rfl

/-- An entry may be added to a directory by a path to it joined with a name. -/
structure Admits (caller : Caller) (fs : FileSystem) (l : Location) (p : Path) (name : String) :
    Prop where
  check : Lookup.checkEntry caller fs l p name = .ok ()
  vacant : fs.get? (l ++ [name]) = none
  writable : fs.checkWritable caller l = .ok ()

/-- Nothing but the directory and the entry matters to adding the entry. -/
theorem Admits.congr (h : Admits caller fs l p name) (hdirectory : fs'.get? l = fs.get? l)
    (hvacant : fs'.get? (l ++ [name]) = none) : Admits caller fs' l p name where
  check := by rw [Lookup.checkEntry_congr hdirectory, h.check]
  vacant := hvacant
  writable := by rw [checkWritable, hdirectory, ← checkWritable, h.writable]

/-- Where an entry may be added, a node may be put. -/
theorem Admits.puts (h : Admits caller fs l p name) (wf : fs.WellFormed)
    (hname : Path.IsName name) (new : Node) : fs.Puts (l ++ [name]) new := by
  obtain ⟨_, _, hcheck⟩ := Run.of_bind_ok h.check
  obtain ⟨_, henter, -⟩ := Run.of_bind_ok hcheck
  exact .of_enter wf new henter hname h.vacant

/-- A vacant entry may be added, at the location of the directory and the name. -/
theorem of_vacantEntry_join (hfind : Lookup.find caller fs true p = .ok (l, above))
    (hname : Path.IsName name) {k : Location} (h : fs.vacantEntry caller (p.join ⟨name⟩) = .ok k) :
    Admits caller fs l p name ∧ k = l ++ [name] := by
  rw [vacantEntry_join hfind hname] at h
  obtain ⟨_, hcheck, h⟩ := Run.of_bind_ok h
  obtain ⟨hvacant, h⟩ := Run.of_check_ok h
  obtain ⟨_, hwritable, h⟩ := Run.of_bind_ok h
  exact ⟨⟨hcheck, by simpa using hvacant, hwritable⟩, (Except.ok.inj h).symm⟩

/-- An entry that may be added is vacant. -/
theorem Admits.vacantEntry_eq (h : Admits caller fs l p name)
    (hfind : Lookup.find caller fs true p = .ok (l, above)) (hname : Path.IsName name) :
    fs.vacantEntry caller (p.join ⟨name⟩) = .ok (l ++ [name]) := by
  rw [vacantEntry_join hfind hname, h.check]
  simp [h.vacant, h.writable, bind, Except.bind, pure, Except.pure]

end FileSystem

open FileSystem (Admits)

namespace Storage

/-- Creating the directory of an entry does not create any above it. -/
theorem exec_createDirectories_join (hfind : Lookup.find caller fs true p = .ok (l, above))
    (hname : Path.IsName name) : (createDirectories (p.join ⟨name⟩)).exec caller fs =
      match fs.makeDirectory caller (p.join ⟨name⟩) with
      | .ok fs' => (.ok (), fs')
      | .error e => if fs.isDirectory caller (p.join ⟨name⟩) then (.ok (), fs) else (.error e, fs) := by
  have hp := (Lookup.of_checkText_ok (Lookup.find_eq_ok_iff.1 hfind).1).1
  have htext := (Path.join_last hp hname).1
  obtain ⟨rest, hancestors⟩ := Path.exists_ancestors (p.join ⟨name⟩)
  rw [createDirectories, hancestors, createAncestors, if_neg (by simpa using htext), exec_bind, attempt,
    exec_ofExec]
  cases hmake : fs.makeDirectory caller (p.join ⟨name⟩) with
  | ok made =>
    rw [exec_change_ok hmake]
    rfl
  | error e =>
    have hkind := FileSystem.kind_ne_notFound_of_makeDirectory hfind hname hmake
    rw [exec_change_error hmake]
    simp only [beq_iff_eq, if_neg hkind]
    rw [exec_bind, isDirectory, query, exec_ofExec]
    cases fs.isDirectory caller (p.join ⟨name⟩) <;> rfl

/-- A directory is created at an entry, or something is there already. -/
theorem of_createDirectories_join (hfind : Lookup.find caller fs true p = .ok (l, above))
    (hname : Path.IsName name)
    (h : (createDirectories (p.join ⟨name⟩)).exec caller fs = (.ok (), fs')) :
    Admits caller fs l p name ∧ fs' = fs.set (l ++ [name]) (.directory Mode.directory caller.now) ∨
      Lookup.checkEntry caller fs l p name = .ok () ∧ (fs.get? (l ++ [name])).isSome ∧ fs' = fs := by
  rw [exec_createDirectories_join hfind hname] at h
  cases hmake : fs.makeDirectory caller (p.join ⟨name⟩) with
  | ok made =>
    rw [hmake] at h
    obtain ⟨-, rfl⟩ := Run.ok_inj h
    rw [FileSystem.makeDirectory_join hfind hname] at hmake
    obtain ⟨_, hcheck, hmake⟩ := Run.of_bind_ok hmake
    obtain ⟨hvacant, hmake⟩ := Run.of_check_ok hmake
    obtain ⟨_, hwritable, hmake⟩ := Run.of_bind_ok hmake
    exact .inl ⟨⟨hcheck, by simpa using hvacant, hwritable⟩, (Except.ok.inj hmake).symm⟩
  | error e =>
    simp only [hmake] at h
    split at h
    · next hdirectory =>
      obtain ⟨-, rfl⟩ := Run.ok_inj h
      refine .inr ⟨?_, Option.isSome_iff_ne_none.2 fun hnone => ?_, rfl⟩
      · obtain ⟨k, node, hthere, -⟩ := Lookup.exists_of_isDirectory hdirectory
        exact Lookup.checkEntry_of_locate hfind hname (Lookup.locate_of_find hthere)
      · rw [FileSystem.isDirectory_vacant hfind hname hnone] at hdirectory
        exact absurd hdirectory (by simp)
    · exact absurd (congrArg Prod.fst h) (by simp)

/-- Creating directories down to an entry that may be added creates that entry. -/
theorem exec_createDirectories_vacant (hfind : Lookup.find caller fs true p = .ok (l, above))
    (hname : Path.IsName name) (h : Admits caller fs l p name) :
    (createDirectories (p.join ⟨name⟩)).exec caller fs =
      (.ok (), fs.set (l ++ [name]) (.directory Mode.directory caller.now)) := by
  have hmake : fs.makeDirectory caller (p.join ⟨name⟩) =
      .ok (fs.set (l ++ [name]) (.directory Mode.directory caller.now)) := by
    rw [FileSystem.makeDirectory_join hfind hname, h.check]
    simp [h.vacant, h.writable, bind, Except.bind, pure, Except.pure]
  rw [exec_createDirectories_join hfind hname, hmake]

/-- Creating directories down to one that is there changes nothing. -/
theorem exec_createDirectories_there {directory : Node}
    (hfind : Lookup.find caller fs true p = .ok (l, above)) (hname : Path.IsName name)
    (hcheck : Lookup.checkEntry caller fs l p name = .ok ())
    (hthere : fs.get? (l ++ [name]) = some directory) (hkind : directory.kind = .directory) :
    (createDirectories (p.join ⟨name⟩)).exec caller fs = (.ok (), fs) := by
  have hmake : fs.makeDirectory caller (p.join ⟨name⟩) = .error (.system .entryExists) := by
    rw [FileSystem.makeDirectory_join hfind hname, hcheck, hthere]
    rfl
  have hentry : Lookup.find caller fs false (p.join ⟨name⟩) = .ok (l ++ [name], directory) := by
    rw [Lookup.find_join hfind hname, hcheck, hthere]
    rfl
  have hdirectory : fs.isDirectory caller (p.join ⟨name⟩) = true := by
    rw [FileSystem.isDirectory, FileSystem.stat, Lookup.find_follow (by simp [hkind]) hentry]
    simpa [Except.map] using hkind
  rw [exec_createDirectories_join hfind hname, hmake, hdirectory]
  rfl

/-! ## Copying -/

section Copying

variable {source destination : Path} {k : Location} {mode : Mode} {time : Int} {content : Bytes}
  {target : String}

/-- Copying a link makes a link to what the link is read as. -/
theorem copyEntry_link : copyEntry source destination (.link target time) =
    change fun caller fs => (fs.readLink caller source).bind fun found =>
      fs.makeLink caller found destination :=
  rfl

/-- Copying a file as an entry is copying the file. -/
theorem copyEntry_file : copyEntry source destination (.file mode time content) =
    copyFile source destination :=
  rfl

/-- A link is copied to where a new entry may be. -/
theorem of_copyLink_ok (hsource : Lookup.find caller fs false source = .ok (k, .link target time))
    (h : (copyEntry source destination (.link target time)).exec caller fs = (.ok (), fs')) :
    Lookup.checkText target = .ok () ∧ ∃ m, fs.vacantEntry caller destination = .ok m ∧
      fs' = fs.set m (.link target caller.now) := by
  rw [copyEntry_link] at h
  obtain ⟨found, hfound, hlink⟩ := Run.of_bind_ok (of_exec_change_ok h)
  obtain ⟨_, _, hfind⟩ := FileSystem.of_readLink_ok hfound
  obtain ⟨-, hnode⟩ : _ = k ∧ Node.link found.text _ = .link target time := by
    simpa using hfind.symm.trans hsource
  obtain rfl : found.text = target := (Node.link.inj hnode).1
  obtain ⟨-, hlink⟩ := Run.of_check_ok hlink
  obtain ⟨_, htext, hlink⟩ := Run.of_bind_ok hlink
  obtain ⟨m, hvacant, hlink⟩ := Run.of_bind_ok hlink
  exact ⟨htext, m, hvacant, (Except.ok.inj hlink).symm⟩

/-- Copying a link to a vacant entry puts a link with the same target there. -/
theorem exec_copyLink {m : Location}
    (hsource : Lookup.find caller fs false source = .ok (k, .link target time))
    (htext : Lookup.checkText target = .ok ()) (hvacant : fs.vacantEntry caller destination = .ok m) :
    (copyEntry source destination (.link target time)).exec caller fs =
      (.ok (), fs.set m (.link target caller.now)) := by
  have hnul : '\x00' ∉ destination.text.toList := by
    obtain ⟨_, hentry, -⟩ := Run.of_bind_ok hvacant
    obtain ⟨_, hdestination, -⟩ := Run.of_bind_ok hentry
    intro hnul
    rw [Lookup.checkText, if_pos (by simpa using hnul)] at hdestination
    exact absurd hdestination (by simp)
  have hread : fs.readLink caller source = .ok ⟨target⟩ := by
    rw [FileSystem.readLink, FileSystem.lstat, hsource]
    rfl
  rw [copyEntry_link]
  apply exec_change_ok
  rw [hread]
  simp [FileSystem.makeLink, hnul, htext, hvacant, bind, Except.bind, pure, Except.pure]

/-- Once the other file is open and empty, copying makes it the copy. -/
theorem exec_copyFile_of_openWrite {m : Location} {opened : Mode}
    (hsource : Lookup.find caller fs true source = .ok (k, .file mode time content))
    (hmay : caller.may .read (.file mode time content) = true) (hne : m ≠ k)
    (hopen : fs.openWrite caller mode destination =
      .ok (m, fs.set m (.file opened caller.now []))) :
    (copyFile source destination).exec caller fs =
      (.ok (), fs.set m ((Node.file mode time content).copied caller)) := by
  apply exec_change_ok
  rw [hsource]
  simp only [bind, Except.bind, hmay, Bool.not_true, Bool.false_eq_true, if_false, Node.kind,
    bne_self_eq_false, Node.mode, hopen, FileSystem.get?_set, if_true, Node.setMode,
    FileSystem.set_set, if_neg hne, Lookup.get?_of_find hsource, pure, Except.pure]
  by_cases hempty : content.isEmpty = true
  · rw [if_pos hempty, Node.copied, if_pos hempty, List.isEmpty_iff.1 hempty]
  · rw [if_neg hempty, Node.copied, if_neg hempty, FileSystem.fill, FileSystem.get?_set, if_pos rfl]
    simp only [if_neg hempty, FileSystem.set_set]

/-- A file is copied to where no file is. -/
theorem exec_copyFile {m : Location} {last : String}
    (hsource : Lookup.find caller fs true source = .ok (k, .file mode time content))
    (hmay : caller.may .read (.file mode time content) = true)
    (hlocate : Lookup.locate caller fs true destination = .ok (.vacant m last false))
    (hvacant : fs.get? (m ++ [last]) = none) (hwritable : fs.checkWritable caller m = .ok ()) :
    (copyFile source destination).exec caller fs =
      (.ok (), fs.set (m ++ [last]) ((Node.file mode time content).copied caller)) := by
  have hne : m ++ [last] ≠ k := by
    rintro rfl
    rw [Lookup.get?_of_find hsource] at hvacant
    simp at hvacant
  have hopen : fs.openWrite caller mode destination =
      .ok (m ++ [last], fs.set (m ++ [last]) (.file mode.masked caller.now [])) := by
    rw [FileSystem.openWrite, hlocate]
    simp [hwritable, bind, Except.bind, pure, Except.pure]
  exact exec_copyFile_of_openWrite hsource hmay hne hopen

/-- Where a file was copied, there was a file or nothing. -/
theorem of_copyFile_ok_vacant
    (hsource : Lookup.find caller fs true source = .ok (k, .file mode time content))
    (hdirectory : ∀ place, Lookup.locate caller fs true destination = .ok place →
      ∀ node, fs.get? place.location = some node → node.kind ≠ .file)
    (h : (copyFile source destination).exec caller fs = (.ok (), fs')) :
    caller.may .read (.file mode time content) = true ∧
      ∃ m last, Lookup.locate caller fs true destination = .ok (.vacant m last false) ∧
        fs.get? (m ++ [last]) = none ∧ fs.checkWritable caller m = .ok () := by
  obtain ⟨found, hfound, hcopy⟩ := Run.of_bind_ok (of_exec_change_ok h)
  obtain rfl : found = (k, .file mode time content) := Except.ok.inj (hfound.symm.trans hsource)
  obtain ⟨hmay, hcopy⟩ := Run.of_check_ok hcopy
  obtain ⟨-, hcopy⟩ := Run.of_check_ok hcopy
  obtain ⟨⟨_, _⟩, hopen, -⟩ := Run.of_bind_ok hcopy
  refine ⟨by simpa using hmay, ?_⟩
  cases FileSystem.opensFile_of_openWrite hopen with
  | occupied hlocate =>
    obtain ⟨_, _, hwalk⟩ := Run.of_bind_ok hlocate
    exact absurd rfl (hdirectory _ hlocate _ (Lookup.get?_of_walk hwalk))
  | @vacant m last hlocate hwritable =>
    obtain ⟨_, _, hwalk⟩ := Run.of_bind_ok hlocate
    obtain ⟨-, -, hvacant⟩ := Lookup.of_walk_vacant (fun _ => Lookup.isName_of_mem_steps) hwalk
    exact ⟨m, last, hlocate, hvacant, hwritable⟩

/-- A caller may make a copy of a node, as far as this depends on the node. -/
def MayCopy (caller : Caller) : Node → Prop
  | .link target _ => Lookup.checkText target = .ok ()
  | node => caller.may .read node = true

variable {node : Node}

/-- A node is copied to an entry that may be added, when nothing but a directory can be there. -/
theorem of_copyEntry_join (hsource : Lookup.find caller fs false source = .ok (k, node))
    (hnode : node.kind ≠ .directory) (hfind : Lookup.find caller fs true p = .ok (l, above))
    (hname : Path.IsName name)
    (hdirectory : ∀ there, fs.get? (l ++ [name]) = some there → there.kind = .directory)
    (h : (copyEntry source (p.join ⟨name⟩) node).exec caller fs = (.ok (), fs')) :
    MayCopy caller node ∧ Admits caller fs l p name ∧
      fs' = fs.set (l ++ [name]) (node.copied caller) := by
  cases node with
  | directory => exact absurd rfl hnode
  | link target time =>
    obtain ⟨htext, m, hvacant, rfl⟩ := of_copyLink_ok hsource h
    obtain ⟨hadmits, rfl⟩ := FileSystem.of_vacantEntry_join hfind hname hvacant
    exact ⟨htext, hadmits, rfl⟩
  | file mode time content =>
    rw [copyEntry_file] at h
    have hfollow := Lookup.find_follow (by simp [Node.kind]) hsource
    have hplain (target : String) (time : Int) :
        fs.get? (l ++ [name]) ≠ some (.link target time) := fun hlink => by
      simpa [Node.kind] using hdirectory _ hlink
    have hlocation {place : Lookup.Place}
        (hlocate : Lookup.locate caller fs true (p.join ⟨name⟩) = .ok place) :
        place.location = l ++ [name] :=
      Lookup.location_of_locate hfind hname hplain hlocate
    obtain ⟨hmay, m, last, hlocate, hvacant, hwritable⟩ := of_copyFile_ok_vacant hfollow
      (fun place hplace there hthere => by
        rw [hlocation hplace] at hthere
        simp [hdirectory there hthere]) h
    have hcheck := Lookup.checkEntry_of_locate hfind hname hlocate
    obtain ⟨rfl, hlast⟩ := List.append_inj' (hlocation hlocate) rfl
    obtain rfl : last = name := by simpa using hlast
    have hadmits : Admits caller fs m p last := ⟨hcheck, hvacant, hwritable⟩
    have hexec := exec_copyFile hfollow hmay hlocate hvacant hwritable
    exact ⟨hmay, hadmits, congrArg Prod.snd (h.symm.trans hexec)⟩

/-- A node is copied to an entry that may be added. -/
theorem exec_copyEntry_join (hsource : Lookup.find caller fs false source = .ok (k, node))
    (hnode : node.kind ≠ .directory) (hfind : Lookup.find caller fs true p = .ok (l, above))
    (hname : Path.IsName name) (hmay : MayCopy caller node) (h : Admits caller fs l p name) :
    (copyEntry source (p.join ⟨name⟩) node).exec caller fs =
      (.ok (), fs.set (l ++ [name]) (node.copied caller)) := by
  cases node with
  | directory => exact absurd rfl hnode
  | link target time => exact exec_copyLink hsource hmay (h.vacantEntry_eq hfind hname)
  | file mode time content =>
    have hfollow := Lookup.find_follow (by simp [Node.kind]) hsource
    have hlocate : Lookup.locate caller fs true (p.join ⟨name⟩) = .ok (.vacant l name false) :=
      Lookup.locate_join_of_vacant hfind hname h.check h.vacant
    exact exec_copyFile hfollow hmay hlocate h.vacant h.writable

end Copying

end Storage

end RpmRelease
