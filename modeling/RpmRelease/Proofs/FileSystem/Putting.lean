import RpmRelease.Proofs.FileSystem.Erasing
import RpmRelease.Proofs.FileSystem.Opening
import RpmRelease.Proofs.FileSystem.Course

/-!
# Putting nodes

Creating a directory, creating a link and copying a file each put one node somewhere: under a name
that a directory does not have yet, or, for a file, in the place of a file.  This keeps a file system
well-formed, and whoever has found a directory or a link still finds it.
-/

set_option autoImplicit false

namespace RpmRelease

namespace FileSystem

variable {caller : Caller} {fs fs' : FileSystem}

/-! ## Where a node may be put -/

/-- A node may be put at a location: nothing stands there, or a file that a file replaces. -/
structure Puts (fs : FileSystem) (l : Location) (new : Node) : Prop where
  isName : ∀ name ∈ l, Path.IsName name
  parent : ∀ k name, l = k ++ [name] →
    ∃ directory, fs.get? k = some directory ∧ directory.kind = .directory
  replaces : ∀ node, fs.get? l = some node → node.kind = .file ∧ new.kind = .file

/-- A node may be put at a vacant entry of a directory that may be entered. -/
theorem Puts.of_enter (wf : fs.WellFormed) {l : Location} {name : String} (new : Node)
    (henter : Lookup.enter caller fs l = .ok ()) (hname : Path.IsName name)
    (hvacant : fs.get? (l ++ [name]) = none) : fs.Puts (l ++ [name]) new := by
  obtain ⟨directory, hdirectory, hkind⟩ := Lookup.directory_of_enter henter
  refine ⟨?_, ?_, by simp [hvacant]⟩
  · intro other hother
    rcases List.mem_append.1 hother with hother | hother
    · exact wf.isName l directory hdirectory other hother
    · exact List.mem_singleton.1 hother ▸ hname
  · intro k other hk
    obtain ⟨rfl, _⟩ := List.append_inj' hk rfl
    exact ⟨directory, hdirectory, hkind⟩

/-- A file may be put where a file stands. -/
theorem Puts.of_file (wf : fs.WellFormed) {l : Location} {mode : Mode} {time : Int} {content : Bytes}
    {new : Node} (h : fs.get? l = some (.file mode time content)) (hnew : new.kind = .file) :
    fs.Puts l new where
  isName := wf.isName l _ h
  parent := fun k name hl => wf.parent k name _ (hl ▸ h)
  replaces := fun node hnode => by
    rw [h] at hnode
    exact ⟨(Option.some.inj hnode) ▸ rfl, hnew⟩

/-- Putting a node keeps a file system in good shape. -/
theorem WellFormed.put (wf : fs.WellFormed) {l : Location} {new : Node} (h : fs.Puts l new) :
    (fs.set l new).WellFormed :=
  wf.set h.isName h.parent fun node hnode => (h.replaces node hnode).1

/-- Where something stands, something of the same kind stands after a node was put, and what is no
file is the same as before. -/
theorem Puts.get?_set {l k : Location} {new node : Node} (h : fs.Puts l new)
    (hnode : fs.get? k = some node) :
    ∃ node', (fs.set l new).get? k = some node' ∧ node'.kind = node.kind ∧
      (node.kind ≠ .file → node' = node) := by
  rw [FileSystem.get?_set]
  by_cases hk : l = k
  · subst hk
    obtain ⟨hfile, hnew⟩ := h.replaces node hnode
    exact ⟨new, if_pos rfl, hnew.trans hfile.symm, fun hother => absurd hfile hother⟩
  · exact ⟨node, by rw [if_neg hk, hnode], rfl, fun _ => rfl⟩

/-- A path to a node leads there also after a node was put; what is found is of the same kind, and the
same if it is no file. -/
theorem Puts.find_set {l k : Location} {new node : Node} (h : fs.Puts l new) {path : Path}
    {follow : Bool} (hfind : Lookup.find caller fs follow path = .ok (k, node)) :
    ∃ node', Lookup.find caller (fs.set l new) follow path = .ok (k, node') ∧
      node'.kind = node.kind ∧ (node.kind ≠ .file → node' = node) := by
  by_cases hvacant : fs.get? l = none
  · refine ⟨node, Lookup.find_within (fun place other hother => ?_) hfind, rfl, fun _ => rfl⟩
    rw [FileSystem.get?_set, if_neg, hother]
    rintro rfl
    simp [hvacant] at hother
  · obtain ⟨there, hthere⟩ := Option.ne_none_iff_exists'.1 hvacant
    obtain ⟨_, hnew⟩ := h.replaces there hthere
    obtain ⟨htext, hwalk⟩ := Lookup.find_eq_ok_iff.1 hfind
    have hset := Lookup.walk_set (fun other hother => (h.replaces other hother).1) hnew (by simp) hwalk
    rw [Lookup.Place.put] at hset
    by_cases hk : k = l
    · rw [if_pos hk] at hset
      have hnode := (h.replaces node (hk ▸ Lookup.get?_of_find hfind)).1
      exact ⟨new, Lookup.find_eq_ok_iff.2 ⟨htext, hk ▸ hset⟩, hnew.trans hnode.symm,
        fun hother => absurd hnode hother⟩
    · rw [if_neg hk] at hset
      exact ⟨node, Lookup.find_eq_ok_iff.2 ⟨htext, hset⟩, rfl, fun _ => rfl⟩

/-! ## The operations -/

/-- Creating a directory puts it where one may be put. -/
theorem puts_of_makeDirectory (wf : fs.WellFormed) {path : Path}
    (h : fs.makeDirectory caller path = .ok fs') :
    ∃ l name slash, Lookup.locateEntry caller fs path = .ok (l, .name name slash) ∧
      fs.get? (l ++ [name]) = none ∧
      fs.Puts (l ++ [name]) (.directory Mode.directory caller.now) ∧
      fs' = fs.set (l ++ [name]) (.directory Mode.directory caller.now) := by
  obtain ⟨l, name, slash, hentry, hnone, -, rfl⟩ := of_makeDirectory_ok h
  obtain ⟨_, _, _, _, henter, hname⟩ := Lookup.of_locateEntry_name hentry
  exact ⟨l, name, slash, hentry, hnone, .of_enter wf _ henter hname hnone, rfl⟩

/-- Anything may be put where a new entry that is no directory goes. -/
theorem puts_of_vacantEntry (wf : fs.WellFormed) {path : Path} {l : Location}
    (h : fs.vacantEntry caller path = .ok l) :
    ∃ k name slash, Lookup.locateEntry caller fs path = .ok (k, .name name slash) ∧
      l = k ++ [name] ∧ fs.get? l = none ∧ ∀ new, fs.Puts l new := by
  obtain ⟨k, name, hentry, hnone, -, rfl⟩ := of_vacantEntry_ok h
  obtain ⟨_, _, _, _, henter, hname⟩ := Lookup.of_locateEntry_name hentry
  exact ⟨k, name, false, hentry, rfl, hnone, fun new => .of_enter wf new henter hname hnone⟩

/-- A link that is made stands at a vacant entry. -/
theorem of_makeLink_ok {target path : Path} (h : fs.makeLink caller target path = .ok fs') :
    ∃ l, fs.vacantEntry caller path = .ok l ∧ fs' = fs.set l (.link target.text caller.now) := by
  obtain ⟨_, h⟩ := Run.of_check_ok h
  obtain ⟨_, _, h⟩ := Run.of_bind_ok h
  obtain ⟨l, hvacant, h⟩ := Run.of_bind_ok h
  exact ⟨l, hvacant, (Except.ok.inj h).symm⟩

/-- A path that can be read as a link leads to one with that target. -/
theorem of_readLink_ok {path target : Path} (h : fs.readLink caller path = .ok target) :
    ∃ l time, Lookup.find caller fs false path = .ok (l, .link target.text time) := by
  obtain ⟨node, hnode, h⟩ := Run.of_bind_ok h
  obtain ⟨l, hfind⟩ := Lookup.lstat_eq_ok_iff.1 hnode
  cases node with
  | directory | file => exact absurd h Run.throw_ne_ok
  | link text time =>
      obtain rfl := Except.ok.inj h
      exact ⟨l, time, hfind⟩

/-- Where a file is opened for writing. -/
theorem of_openWrite_ok {mode : Mode} {path : Path} {l : Location}
    (h : fs.openWrite caller mode path = .ok (l, fs')) :
    ∃ place, Lookup.locate caller fs true path = .ok place ∧ place.location = l := by
  cases opensFile_of_openWrite h with
  | occupied hlocate => exact ⟨_, hlocate, rfl⟩
  | vacant hlocate => exact ⟨_, hlocate, rfl⟩

/-- A file may be put where one was opened. -/
theorem Opened.puts {path : Path} {l : Location} {mode : Mode} (wf : fs.WellFormed)
    (h : Opened caller fs fs' path l mode) {new : Node} (hnew : new.kind = .file) :
    fs.Puts l new := by
  have hthere : fs'.get? l = some (.file mode caller.now []) := Lookup.get?_of_find h.find
  have wf' := h.wellFormed wf
  refine ⟨wf'.isName l _ hthere, fun k name hk => ?_, fun node hnode => ⟨h.file node hnode, hnew⟩⟩
  subst hk
  obtain ⟨directory, hdirectory, hkind⟩ := wf'.parent k name _ hthere
  refine ⟨directory, ?_, hkind⟩
  rw [h.eq_set, FileSystem.get?_set, if_neg] at hdirectory
  · exact hdirectory
  · intro heq
    simpa using congrArg List.length heq

end FileSystem

namespace Storage

variable {caller : Caller} {fs fs' : FileSystem}

/-- What copying a file does.  The copy is as the file asks for unless it is the file itself. -/
theorem of_copyFile_ok (wf : fs.WellFormed) {source destination : Path}
    (h : (copyFile source destination).exec caller fs = (.ok (), fs')) :
    ∃ origin mode time content place mode' content',
      Lookup.find caller fs true source = .ok (origin, .file mode time content) ∧
      Lookup.locate caller fs true destination = .ok place ∧
      (origin ≠ place.location → content' = content ∧
        mode' = if content.isEmpty then mode else FileSystem.modeWritten caller mode) ∧
      fs.Puts place.location (.file mode' caller.now content') ∧
      fs' = fs.set place.location (.file mode' caller.now content') := by
  obtain ⟨⟨origin, node⟩, hsource, hcopy⟩ := Run.of_bind_ok (of_exec_change_ok h)
  obtain ⟨_, hcopy⟩ := Run.of_check_ok hcopy
  obtain ⟨hkind, hcopy⟩ := Run.of_check_ok hcopy
  obtain ⟨⟨target, opened⟩, hopen, hcopy⟩ := Run.of_bind_ok hcopy
  obtain ⟨mode, time, content, rfl⟩ : ∃ mode time content, node = .file mode time content := by
    cases node with
    | file mode time content => exact ⟨mode, time, content, rfl⟩
    | directory => simp [Node.kind] at hkind
    | link => simp [Node.kind] at hkind
  obtain ⟨place, hlocate, rfl⟩ := FileSystem.of_openWrite_ok hopen
  obtain ⟨first, hopened⟩ := FileSystem.opened_of_openWrite hopen
  have hthere := Lookup.get?_of_find hopened.find
  have hset : opened.set place.location (.file mode caller.now []) =
      fs.set place.location (.file mode caller.now []) := by
    rw [hopened.eq_set, FileSystem.set_set]
  have hdone := Except.ok.inj hcopy
  simp only [hthere, Node.setMode, Node.mode, hset] at hdone
  have hput : (fs.set place.location (.file mode caller.now [])).get? place.location =
      some (.file mode caller.now []) := by
    rw [FileSystem.get?_set, if_pos rfl]
  -- a file that is copied onto itself has been emptied before it is read
  by_cases horigin : origin = place.location
  · subst horigin
    simp only [hput] at hdone
    refine ⟨_, mode, time, content, place, mode, [], hsource, hlocate, fun hne => absurd rfl hne,
      hopened.puts wf rfl, ?_⟩
    simpa using hdone.symm
  · have hcontent : (fs.set place.location (.file mode caller.now [])).get? origin =
        some (.file mode time content) := by
      rw [FileSystem.get?_set, if_neg (Ne.symm horigin), Lookup.get?_of_find hsource]
    simp only [hcontent] at hdone
    by_cases hempty : content = []
    · subst hempty
      refine ⟨origin, mode, time, [], place, mode, [], hsource, hlocate, fun _ => ⟨rfl, rfl⟩,
        hopened.puts wf rfl, ?_⟩
      simpa using hdone.symm
    · have hfill : fs' = fs.set place.location
          (.file (FileSystem.modeWritten caller mode) caller.now content) := by
        rw [← hdone]
        simp [FileSystem.fill, hput, hempty, FileSystem.set_set]
      refine ⟨origin, mode, time, content, place, _, content, hsource, hlocate, fun _ => ⟨rfl, ?_⟩,
        hopened.puts wf rfl, hfill⟩
      rw [if_neg (by simpa using hempty)]

end Storage

end RpmRelease
