import RpmRelease.Proofs.FileSystem.Lookup
import RpmRelease.Proofs.FileSystem.Operation
import RpmRelease.Proofs.FileSystem.Storage

/-!
# Erasing nodes

Removing files and directories only takes nodes away.  A path that still leads to a node afterwards
has led to the same node before, since every link and every directory on the way is one that was
there before.
-/

set_option autoImplicit false

namespace RpmRelease

variable {caller : Caller} {fs fs' : FileSystem}

/-- Every node of a file system stands in another one, at the same location. -/
def FileSystem.Within (fs' fs : FileSystem) : Prop :=
  ∀ l node, fs'.get? l = some node → fs.get? l = some node

namespace FileSystem

/-- A file system is within itself. -/
theorem Within.refl (fs : FileSystem) : fs.Within fs := fun _ _ h => h

/-- A file system is within another one when it is within one in between. -/
theorem Within.trans {fs₁ fs₂ fs₃ : FileSystem} (h : fs₁.Within fs₂) (h' : fs₂.Within fs₃) :
    fs₁.Within fs₃ := fun l node hnode => h' l node (h l node hnode)

/-- Erasing only takes nodes away. -/
theorem within_erase (fs : FileSystem) (l : Location) : (fs.erase l).Within fs := by
  intro k node hnode
  rw [get?_erase] at hnode
  split at hnode
  · simp at hnode
  · exact hnode

end FileSystem

namespace Lookup

/-- A directory may be entered when it may with nodes taken away. -/
theorem enter_within (hwithin : fs'.Within fs) {l : Location}
    (h : enter caller fs' l = .ok ()) : enter caller fs l = .ok () := by
  unfold enter at h ⊢
  cases hnode : fs'.get? l with
  | none => simp [hnode] at h
  | some node =>
      rw [hwithin l node hnode]
      rwa [hnode] at h

/-- A walk to a node that is left has led there before. -/
theorem walk_within (hwithin : fs'.Within fs) {follow : Bool} {links : Nat} {l k : Location}
    {path : List Step} {node : Node}
    (h : walk caller fs' follow links l path = .ok (.occupied k node)) :
    walk caller fs follow links l path = .ok (.occupied k node) := by
  rw [walk_eq_ok_iff] at h ⊢
  generalize hplace : Place.occupied k node = place at h
  induction h with
  | nil hnode => exact .nil (hwithin _ _ hnode)
  | here henter _ ih => exact .here (enter_within hwithin henter) (ih hplace)
  | up henter _ ih => exact .up (enter_within hwithin henter) (ih hplace)
  | directory hnode hkind _ ih => exact .directory (hwithin _ _ hnode) hkind (ih hplace)
  | vacant => cases hplace
  | link henter hname hnode hfollow =>
      exact .link (enter_within hwithin henter) hname (hwithin _ _ hnode) hfollow
  | through henter hname hnode hrest _ ih =>
      exact .through (enter_within hwithin henter) hname (hwithin _ _ hnode) hrest (ih hplace)
  | node henter hname hnode hkind _ ih =>
      exact .node (enter_within hwithin henter) hname (hwithin _ _ hnode) hkind (ih hplace)

/-- What a path leads to is there as well when nodes come back. -/
theorem find_within (hwithin : fs'.Within fs) {follow : Bool} {path : Path} {l : Location}
    {node : Node} (h : find caller fs' follow path = .ok (l, node)) :
    find caller fs follow path = .ok (l, node) := by
  obtain ⟨htext, hwalk⟩ := find_eq_ok_iff.1 h
  exact find_eq_ok_iff.2 ⟨htext, walk_within hwithin hwalk⟩

/-! ## Files on the way -/

/-- A walk that ends at what is no file does not begin at one. -/
theorem Walks.start_ne_file {follow : Bool} {links : Nat} {l k : Location} {path : List Step}
    {node start : Node} (hkind : node.kind ≠ .file)
    (h : Walks caller fs follow links l path (.occupied k node)) (hstart : fs.get? l = some start) :
    start.kind ≠ .file := by
  have hentered (henter : enter caller fs l = .ok ()) : start.kind ≠ .file := by
    obtain ⟨directory, hdirectory, hdirectoryKind⟩ := directory_of_enter henter
    rw [hstart] at hdirectory
    rw [Option.some.inj hdirectory, hdirectoryKind]
    decide
  cases h with
  | nil hnode =>
    rw [hstart] at hnode
    rw [Option.some.inj hnode]
    exact hkind
  | directory hnode hdirectory _ =>
    rw [hstart] at hnode
    rw [Option.some.inj hnode, hdirectory]
    decide
  | here henter _ | up henter _ | link henter _ _ _ | through henter _ _ _ _ | node henter _ _ _ _ =>
    exact hentered henter

/-- Files may come and go without an effect on a walk to what is no file. -/
theorem walk_of_same {follow : Bool} {links : Nat} {l k : Location} {path : List Step} {node : Node}
    (hsame : ∀ m other, fs.get? m = some other → other.kind ≠ .file → fs'.get? m = some other)
    (hkind : node.kind ≠ .file)
    (h : walk caller fs follow links l path = .ok (.occupied k node)) :
    walk caller fs' follow links l path = .ok (.occupied k node) := by
  have henters {m : Location} (henter : enter caller fs m = .ok ()) :
      enter caller fs' m = .ok () := by
    obtain ⟨directory, hdirectory, hdirectoryKind⟩ := directory_of_enter henter
    rw [enter, hsame m directory hdirectory (by simp [hdirectoryKind])]
    rwa [enter, hdirectory] at henter
  rw [walk_eq_ok_iff] at h ⊢
  generalize hplace : Place.occupied k node = place at h
  induction h with
  | nil hnode =>
    cases hplace
    exact .nil (hsame _ _ hnode hkind)
  | here henter _ ih => exact .here (henters henter) (ih hplace)
  | up henter _ ih => exact .up (henters henter) (ih hplace)
  | directory hnode hdirectory _ ih =>
    exact .directory (hsame _ _ hnode (by simp [hdirectory])) hdirectory (ih hplace)
  | vacant => cases hplace
  | link henter hname hnode hfollow =>
    exact .link (henters henter) hname (hsame _ _ hnode (by simp [Node.kind])) hfollow
  | through henter hname hnode hrest _ ih =>
    exact .through (henters henter) hname (hsame _ _ hnode (by simp [Node.kind])) hrest (ih hplace)
  | node henter hname hnode hother hwalks ih =>
    have hstart := Walks.start_ne_file hkind (hplace ▸ hwalks) hnode
    exact .node (henters henter) hname (hsame _ _ hnode hstart) hother (ih hplace)

/-- A path leads where it led when everything but files has stayed. -/
theorem find_of_same {follow : Bool} {path : Path} {l : Location} {node : Node}
    (hsame : ∀ m other, fs.get? m = some other → other.kind ≠ .file → fs'.get? m = some other)
    (hkind : node.kind ≠ .file) (h : find caller fs follow path = .ok (l, node)) :
    find caller fs' follow path = .ok (l, node) := by
  obtain ⟨htext, hwalk⟩ := find_eq_ok_iff.1 h
  exact find_eq_ok_iff.2 ⟨htext, walk_of_same hsame hkind hwalk⟩

end Lookup

namespace FileSystem

/-- Removing a file takes one node away. -/
theorem removeFile_within {path : Path} (h : fs.removeFile caller path = .ok fs') :
    fs'.Within fs := by
  obtain ⟨l, name, node, -, -, -, -, rfl⟩ := of_removeFile_ok h
  exact within_erase fs _

/-- Removing a directory takes one node away. -/
theorem removeDirectory_within {path : Path} (h : fs.removeDirectory caller path = .ok fs') :
    fs'.Within fs := by
  obtain ⟨l, name, slash, node, -, -, -, -, -, rfl⟩ := of_removeDirectory_ok h
  exact within_erase fs _

end FileSystem

namespace Storage

/-- Programs for the items of a list only take nodes away when each of them does. -/
theorem forM_within {ι : Type} {items : List ι} {f : ι → Storage FileError PUnit}
    (hf : ∀ item before after, (f item).exec caller before = (.ok (), after) → after.Within before)
    (h : (items.forM f).exec caller fs = (.ok (), fs')) : fs'.Within fs := by
  induction items generalizing fs with
  | nil =>
      obtain ⟨_, rfl⟩ := Run.ok_inj h
      exact FileSystem.Within.refl fs
  | cons item items ih =>
      rw [List.forM_eq_forM, List.forM_cons] at h
      obtain ⟨_, middle, hitem, h⟩ := of_exec_bind_ok h
      exact (ih h).trans (hf item fs middle hitem)

/-- Emptying a directory only takes nodes away. -/
theorem emptyDirectory_within {depth : Nat} {l : Location}
    (h : (emptyDirectory depth l).exec caller fs = (.ok (), fs')) : fs'.Within fs := by
  -- on the depth; the last thing done to an entry is that it is erased
  induction depth generalizing l fs fs' with
  | zero =>
      obtain ⟨_, rfl⟩ := Run.ok_inj h
      exact FileSystem.Within.refl fs
  | succ depth ih =>
      unfold emptyDirectory at h
      obtain ⟨entries, _, hquery, h⟩ := of_exec_bind_ok h
      obtain ⟨_, rfl⟩ := of_exec_query_ok hquery
      refine forM_within ?_ h
      rintro ⟨name, node⟩ before after hround
      have hlast (middle : FileSystem) (hrest : (do
          query fun caller fs => Lookup.enter caller fs l
          query fun caller fs => fs.checkWritable caller l
          modify (·.erase (l ++ [name])) : Storage FileError PUnit).exec caller middle =
            (.ok (), after)) : after.Within middle := by
        obtain ⟨_, _, henter, hrest⟩ := of_exec_bind_ok hrest
        obtain ⟨_, rfl⟩ := of_exec_query_ok henter
        obtain ⟨_, _, hwritable, hrest⟩ := of_exec_bind_ok hrest
        obtain ⟨_, rfl⟩ := of_exec_query_ok hwritable
        obtain ⟨_, rfl⟩ := Run.ok_inj hrest
        exact FileSystem.within_erase middle _
      by_cases hkind : (node.kind == .directory) = true
      · simp only [if_pos hkind] at hround
        obtain ⟨_, _, henter, hround⟩ := of_exec_bind_ok hround
        obtain ⟨_, rfl⟩ := of_exec_query_ok henter
        obtain ⟨_, middle, hbelow, hround⟩ := of_exec_bind_ok hround
        exact (hlast middle hround).trans (ih hbelow)
      · simp only [if_neg hkind] at hround
        exact hlast before hround

/-- Removing a whole tree only takes nodes away. -/
theorem removeAll_within {path : Path}
    (h : (removeAll path).exec caller fs = (.ok (), fs')) : fs'.Within fs := by
  unfold removeAll at h
  obtain ⟨⟨l, node⟩, _, hquery, h⟩ := of_exec_bind_ok h
  obtain ⟨_, rfl⟩ := of_exec_query_ok hquery
  cases hkind : node.kind with
  | link =>
      simp only [hkind] at h
      exact FileSystem.removeFile_within (of_exec_change_ok h)
  | file =>
      simp only [hkind] at h
      exact absurd h Run.run_throw_ne_ok
  | directory =>
      simp only [hkind] at h
      obtain ⟨files, _, hget, h⟩ := of_exec_bind_ok h
      obtain ⟨rfl, rfl⟩ := Run.ok_inj hget
      obtain ⟨_, middle, hempty, h⟩ := of_exec_bind_ok h
      exact (FileSystem.removeDirectory_within (of_exec_change_ok h)).trans
        (emptyDirectory_within hempty)

end Storage

end RpmRelease
