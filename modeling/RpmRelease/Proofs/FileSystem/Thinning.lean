import RpmRelease.Proofs.FileSystem.Course
import RpmRelease.Proofs.FileSystem.Erasing
import RpmRelease.Proofs.FileSystem.Tree

/-!
# Removing what leads to files

No walk goes on from a file.  So a file may be taken away, and a link that leads to one as well, without
an effect on any walk to a directory: what is left is a thinner file system with the same directories.
Whether a path leads to a directory is the same there, each directory lists some of its entries and no
others, and less is found everywhere else.

Removing a path that leads to a file takes away the entry of that path, which is a link or the file
itself, and thins the file system.  Afterwards no spelling of this path leads anywhere.
-/

set_option autoImplicit false

namespace RpmRelease

variable {caller : Caller} {fs fs' : FileSystem}

namespace Lookup

/-- Steps that lead to a file lead nowhere else when more steps follow. -/
theorem Walks.not_beyond_file {links links' : Nat} {l k m : Location} {front rest : List Step}
    {file node : Node} (hfile : file.kind = .file) (hkind : node.kind ≠ .file)
    (h : Walks caller fs true links l front (.occupied k file)) :
    walk caller fs true links' l (front ++ rest) ≠ .ok (.occupied m node) := by
  generalize hplace : Place.occupied k file = place at h
  -- on the walk to the file; a walk that goes on takes the same steps and comes to the file
  induction h generalizing links' with
  | nil hnode =>
    obtain ⟨rfl, rfl⟩ := Place.occupied.inj hplace
    exact fun hbeyond => (walks_of_walk hbeyond).start_ne_file hkind hnode hfile
  | here _ _ ih | up _ _ ih =>
    intro hbeyond
    rw [List.cons_append, walk_eq] at hbeyond
    obtain ⟨_, _, hbeyond⟩ := Run.of_bind_ok hbeyond
    exact ih hplace hbeyond
  | directory _ _ _ ih =>
    intro hbeyond
    rw [List.cons_append, (of_walk_directory_ok hbeyond).2] at hbeyond
    exact ih hplace hbeyond
  | vacant => cases hplace
  | link _ _ _ hfollow => cases hfollow
  | through _ _ hnode _ _ ih =>
    intro hbeyond
    rw [List.cons_append] at hbeyond
    rcases cases_walk_name hbeyond with ⟨hnone, -⟩ | ⟨_, _, _, -, hfollow, -⟩ |
      ⟨target, time, _, hlink, -, -, hbeyond⟩ | ⟨other, hother, hlink, -⟩
    · simp [hnode] at hnone
    · cases hfollow
    · obtain ⟨rfl, -⟩ := Node.link.inj (Option.some.inj (hnode.symm.trans hlink))
      rw [← List.append_assoc] at hbeyond
      exact ih hplace hbeyond
    · obtain rfl := Option.some.inj (hnode.symm.trans hother)
      exact hlink rfl
  | node _ _ hnode hplain _ ih =>
    intro hbeyond
    rcases cases_walk_name hbeyond with ⟨hnone, -⟩ | ⟨_, _, _, -, hfollow, -⟩ |
      ⟨target, time, _, hlink, -⟩ | ⟨_, _, -, hbeyond⟩
    · simp [hnode] at hnone
    · cases hfollow
    · obtain rfl := Option.some.inj (hnode.symm.trans hlink)
      exact hplain rfl
    · exact ih hplace hbeyond

/-- An entry that leads to a file, being one or being a link to one. -/
def EntersFile (caller : Caller) (fs : FileSystem) (l : Location) (name : String) : Prop :=
  ∃ links k file, walk caller fs true links l [.name name] = .ok (.occupied k file) ∧
    file.kind = .file

/-- An entry that leads to a file is there, and is no directory. -/
theorem EntersFile.exists_node {l : Location} {name : String} (h : EntersFile caller fs l name) :
    ∃ node, fs.get? (l ++ [name]) = some node ∧ node.kind ≠ .directory := by
  obtain ⟨links, k, file, hwalk, hfile⟩ := h
  rcases cases_walk_name hwalk with ⟨-, _, hplace, -⟩ | ⟨_, _, hlink, -⟩ | ⟨_, _, _, hlink, -⟩ |
    ⟨node, hnode, -, hend⟩
  · cases hplace
  · exact ⟨_, hlink, by simp [Node.kind]⟩
  · exact ⟨_, hlink, by simp [Node.kind]⟩
  · obtain ⟨rfl, hend⟩ := of_walk_nil_ok hend
    exact ⟨file, hend, by simp [hfile]⟩

/-- Erasing what is no directory keeps a caller from entering none. -/
theorem enter_erase {l k : Location} {node : Node} (hnode : fs.get? k = some node)
    (hkind : node.kind ≠ .directory) (h : enter caller fs l = .ok ()) :
    enter caller (fs.erase k) l = .ok () := by
  have hne : k ≠ l := by
    rintro rfl
    obtain ⟨directory, hdirectory, hdirectoryKind⟩ := directory_of_enter h
    obtain rfl := Option.some.inj (hnode.symm.trans hdirectory)
    exact hkind hdirectoryKind
  rw [enter, FileSystem.get?_erase, if_neg hne]
  exact h

/-- A walk to a directory does not go through an entry that leads to a file. -/
theorem walk_erase {links : Nat} {l k m : Location} {name : String} {path : List Step} {node : Node}
    (hentry : EntersFile caller fs l name) (hkind : node.kind = .directory)
    (h : walk caller fs true links m path = .ok (.occupied k node)) :
    walk caller (fs.erase (l ++ [name])) true links m path = .ok (.occupied k node) := by
  obtain ⟨leaf, hleaf, hleafKind⟩ := hentry.exists_node
  obtain ⟨_, _, file, hfile, hfileKind⟩ := hentry
  have hdirectories {place : Location} {directory : Node} (hdirectory : fs.get? place = some directory)
      (hdirectoryKind : directory.kind = .directory) :
      (fs.erase (l ++ [name])).get? place = some directory := by
    rw [FileSystem.get?_erase, if_neg, hdirectory]
    rintro rfl
    obtain rfl := Option.some.inj (hleaf.symm.trans hdirectory)
    exact hleafKind hdirectoryKind
  -- a walk that goes through the entry has come to a file, and does not go on from there
  have hthrough {links : Nat} {n : Location} {next : String} {rest : List Step} {there : Node}
      (hwalks : Walks caller fs true links n (.name next :: rest) (.occupied k node))
      (hthere : fs.get? (n ++ [next]) = some there) :
      (fs.erase (l ++ [name])).get? (n ++ [next]) = some there := by
    rw [FileSystem.get?_erase, if_neg, hthere]
    intro heq
    obtain ⟨rfl, hname⟩ := List.append_inj' heq rfl
    obtain rfl : name = next := by simpa using hname
    exact (walks_of_walk hfile).not_beyond_file hfileKind (by simp [hkind]) hwalks.walk_eq_ok
  rw [walk_eq_ok_iff] at h ⊢
  generalize hplace : Place.occupied k node = place at h
  induction h with
  | nil hnode =>
    obtain ⟨rfl, rfl⟩ := Place.occupied.inj hplace
    exact .nil (hdirectories hnode hkind)
  | here henter _ ih => exact .here (enter_erase hleaf hleafKind henter) (ih hplace)
  | up henter _ ih => exact .up (enter_erase hleaf hleafKind henter) (ih hplace)
  | directory hnode hdirectory _ ih =>
    exact .directory (hdirectories hnode hdirectory) hdirectory (ih hplace)
  | vacant => cases hplace
  | link _ _ _ hfollow => cases hfollow
  | through henter hname hnode hrest hwalks ih =>
    subst hplace
    exact .through (enter_erase hleaf hleafKind henter) hname
      (hthrough (.through henter hname hnode hrest hwalks) hnode) hrest (ih rfl)
  | node henter hname hnode hlink hwalks ih =>
    subst hplace
    exact .node (enter_erase hleaf hleafKind henter) hname
      (hthrough (.node henter hname hnode hlink hwalks) hnode) hlink (ih rfl)

end Lookup

namespace FileSystem

/-! ## Thinner file systems -/

/-- A file system that has lost nodes of another one, but no way to a directory. -/
structure Thinned (caller : Caller) (fs' fs : FileSystem) : Prop where
  within : fs'.Within fs
  walk_directory : ∀ links l path k node, node.kind = .directory →
    Lookup.walk caller fs true links l path = .ok (.occupied k node) →
      Lookup.walk caller fs' true links l path = .ok (.occupied k node)

/-- Erasing an entry that leads to a file takes away no way to a directory. -/
theorem thinned_erase {l : Location} {name : String} (h : Lookup.EntersFile caller fs l name) :
    Thinned caller (fs.erase (l ++ [name])) fs where
  within := within_erase fs _
  walk_directory _ _ _ _ _ := Lookup.walk_erase h

namespace Thinned

/-- A file system that has lost nothing is thinned. -/
theorem refl (caller : Caller) (fs : FileSystem) : Thinned caller fs fs where
  within := Within.refl fs
  walk_directory _ _ _ _ _ _ h := h

/-- What is thinned twice is thinned. -/
theorem trans {fs₁ fs₂ fs₃ : FileSystem} (h : Thinned caller fs₁ fs₂) (h' : Thinned caller fs₂ fs₃) :
    Thinned caller fs₁ fs₃ where
  within := h.within.trans h'.within
  walk_directory links l path k node hkind hwalk :=
    h.walk_directory links l path k node hkind (h'.walk_directory links l path k node hkind hwalk)

variable {p : Path}

/-- A path that leads to a directory still does when files are lost. -/
theorem find_directory (h : Thinned caller fs' fs) {l : Location} {node : Node}
    (hkind : node.kind = .directory) (hfind : Lookup.find caller fs true p = .ok (l, node)) :
    Lookup.find caller fs' true p = .ok (l, node) := by
  obtain ⟨htext, hwalk⟩ := Lookup.find_eq_ok_iff.1 hfind
  exact Lookup.find_eq_ok_iff.2 ⟨htext, h.walk_directory _ _ _ _ _ hkind hwalk⟩

/-- Whether a path leads to a directory does not change when files are lost. -/
theorem isDirectory_eq (h : Thinned caller fs' fs) (p : Path) :
    fs'.isDirectory caller p = fs.isDirectory caller p := by
  rw [Bool.eq_iff_iff]
  constructor
  · intro hthere
    obtain ⟨l, node, hfind, hkind⟩ := Lookup.exists_of_isDirectory hthere
    exact Lookup.isDirectory_of_find hkind (Lookup.find_within h.within hfind)
  · intro hthere
    obtain ⟨l, node, hfind, hkind⟩ := Lookup.exists_of_isDirectory hthere
    exact Lookup.isDirectory_of_find hkind (h.find_directory hkind hfind)

/-- A path that led to no file does not lead to one now. -/
theorem not_isFile (h : Thinned caller fs' fs) (hnone : fs.isFile caller p = false) :
    fs'.isFile caller p = false := by
  by_contra hfile
  obtain ⟨l, node, hfind, hkind⟩ := Lookup.exists_of_isFile (Bool.not_eq_false _ ▸ hfile)
  simp [Lookup.isFile_of_find hkind (Lookup.find_within h.within hfind)] at hnone

/-- A directory that can be listed still can, and lists some of its entries. -/
theorem exists_readDirectory (h : Thinned caller fs' fs) {entries : List (String × Node)}
    (hread : fs.readDirectory caller p = .ok entries) :
    ∃ fewer, fs'.readDirectory caller p = .ok fewer ∧ fewer ⊆ entries := by
  obtain ⟨⟨l, node⟩, hfind, hread⟩ := Run.of_bind_ok hread
  obtain ⟨hkind, hread⟩ := Run.of_check_ok hread
  obtain ⟨hmay, hread⟩ := Run.of_check_ok hread
  obtain rfl := Except.ok.inj hread
  have hdirectory : node.kind = .directory := by simpa using hkind
  have hsubset : fs'.children l ⊆ fs.children l := fun entry hentry =>
    mem_children.2 (h.within _ _ (mem_children.1 hentry))
  refine ⟨fs'.children l, ?_, hsubset⟩
  rw [readDirectory, h.find_directory hdirectory hfind]
  simp_all [bind, Except.bind, pure, Except.pure]

/-- The entry of a path is located in the same directory, even if it is no longer there. -/
theorem locateEntry (h : Thinned caller fs' fs) {l : Location} {text : String} {slash : Bool}
    (hentry : Lookup.locateEntry caller fs p = .ok (l, .name text slash)) :
    Lookup.locateEntry caller fs' p = .ok (l, .name text slash) := by
  obtain ⟨htext, front, node, hcut, hwalk, henter, hname⟩ := Lookup.locateEntry_eq_name_iff.1 hentry
  obtain ⟨directory, hdirectory, hkind⟩ := Lookup.directory_of_enter henter
  obtain rfl := Option.some.inj ((Lookup.get?_of_walk hwalk).symm.trans hdirectory)
  have hwalk' := h.walk_directory _ _ _ _ _ hkind hwalk
  refine Lookup.locateEntry_eq_name_iff.2 ⟨htext, front, node, hcut, hwalk', ?_, hname⟩
  rw [Lookup.enter, Lookup.get?_of_walk hwalk']
  rwa [Lookup.enter, hdirectory] at henter

end Thinned

/-! ## Removing a path that leads to a file -/

/-- What is removed at a path that leads to a file, and what is left. -/
theorem exists_of_removeFile {p : Path} (hfile : fs.isFile caller p = true)
    (h : fs.removeFile caller p = .ok fs') :
    ∃ l text node, Lookup.locateEntry caller fs p = .ok (l, .name text false) ∧
      Lookup.EntersFile caller fs l text ∧
      Lookup.find caller fs false p = .ok (l ++ [text], node) ∧ fs' = fs.erase (l ++ [text]) := by
  obtain ⟨l, text, node, hentry, hnode, -, -, rfl⟩ := of_removeFile_ok h
  obtain ⟨htext, front, directory, hcut, hwalk, henter, hname⟩ :=
    Lookup.locateEntry_eq_name_iff.1 hentry
  have hsteps : Lookup.steps p.text = front ++ [.name text] := Lookup.eq_of_cutLast_name hcut
  -- links are followed to the file, and the entry itself is found without following it
  obtain ⟨links, hbehind⟩ := Lookup.exists_walk_behind hwalk
  obtain ⟨k, file, hfind, hkind⟩ := Lookup.exists_of_isFile hfile
  refine ⟨l, text, node, hentry, ⟨links, k, file, ?_, hkind⟩, ?_, rfl⟩
  · rw [← hbehind true [.name text] (by simp), ← hsteps]
    exact (Lookup.find_eq_ok_iff.1 hfind).2
  · refine Lookup.find_eq_ok_iff.2 ⟨htext, ?_⟩
    rw [hsteps, hbehind false _ (by simp), Lookup.walk_eq_ok_iff]
    by_cases hlink : node.kind = .link
    · cases node with
      | link target time => exact .link henter hname hnode rfl
      | directory | file => cases hlink
    · exact .node henter hname hnode hlink (.nil hnode)

/-- Once the entry of a path is gone, no spelling of this path leads to a file. -/
theorem Thinned.isFile_eq_false (h : Thinned caller fs' fs) {p q : Path} {l : Location}
    {text : String} {slash : Bool}
    (hentry : Lookup.locateEntry caller fs p = .ok (l, .name text slash))
    (hgone : fs'.get? (l ++ [text]) = none) (hsame : p.same q = true) :
    fs'.isFile caller q = false := by
  by_contra hfile
  obtain ⟨k, node, hfind, -⟩ := Lookup.exists_of_isFile (Bool.not_eq_false _ ▸ hfile)
  have hcomponents : p.components = q.components := by simpa [Path.same] using hsame
  have hbehind : Lookup.Behind q [] p := by rw [Lookup.Behind, hcomponents]; simp
  obtain ⟨entry, hthere⟩ := Lookup.entry_above hbehind.isAbsolute (hcomponents ▸ List.prefix_rfl) hfind
    (h.locateEntry hentry)
  simp [hgone] at hthere

end FileSystem

end RpmRelease
