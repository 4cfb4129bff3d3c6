import RpmRelease.Proofs.FileSystem.Operation
import RpmRelease.Proofs.FileSystem.Storage
import RpmRelease.Proofs.FileSystem.Tree

/-!
# Opening and filling a file

Opening a file for writing leaves every other location alone, puts an empty file where the path
leads, and from then on the path leads to that file.  Filling it changes nothing but its contents.
Both keep a file system well-formed.
-/

set_option autoImplicit false

namespace RpmRelease

namespace FileSystem

variable {caller : Caller} {fs : FileSystem}

/-- A node may be put where a file stands, or under a name in a directory that has no such entry. -/
theorem WellFormed.set (wf : fs.WellFormed) {l : Location} {new : Node}
    (hname : ∀ name ∈ l, Path.IsName name)
    (hparent : ∀ k name, l = k ++ [name] →
      ∃ directory, fs.get? k = some directory ∧ directory.kind = .directory)
    (hfile : ∀ node, fs.get? l = some node → node.kind = .file) : (fs.set l new).WellFormed where
  isName := by
    intro k node hnode other hother
    rw [get?_set] at hnode
    split at hnode
    · next hk => exact hname other (hk ▸ hother)
    · exact wf.isName k node hnode other hother
  parent := by
    intro k name node hnode
    have habove : ∃ directory, fs.get? k = some directory ∧ directory.kind = .directory := by
      rw [get?_set] at hnode
      split at hnode
      · next hk => exact hparent k name hk
      · exact wf.parent k name node hnode
    obtain ⟨directory, hdirectory, hkind⟩ := habove
    have hne : l ≠ k := by
      rintro rfl
      simp [hfile directory hdirectory] at hkind
    exact ⟨directory, by rw [get?_set, if_neg hne, hdirectory], hkind⟩

/-- What is set twice at a location is set as it was the second time. -/
theorem set_set (l : Location) (first second : Node) :
    (fs.set l first).set l second = fs.set l second := by
  refine FileSystem.ext fun k => ?_
  rw [get?_set, get?_set, get?_set]
  split <;> rfl

/-- An empty file has been put where a path leads. -/
structure Opened (caller : Caller) (before after : FileSystem) (path : Path) (l : Location)
    (mode : Mode) : Prop where
  eq_set : after = before.set l (.file mode caller.now [])
  file : ∀ node, before.get? l = some node → node.kind = .file
  find : Lookup.find caller after true path = .ok (l, .file mode caller.now [])
  wellFormed : before.WellFormed → after.WellFormed

/-- A path that led to a directory does so after a file was opened. -/
theorem Opened.find_directory {before after : FileSystem} {path other : Path} {l k : Location}
    {mode : Mode} {directory : Node} (h : Opened caller before after path l mode)
    (hkind : directory.kind = .directory)
    (hfind : Lookup.find caller before true other = .ok (k, directory)) :
    Lookup.find caller after true other = .ok (k, directory) := by
  have hne : k ≠ l := by
    rintro rfl
    have hfile := h.file directory (Lookup.get?_of_find hfind)
    simp [hkind] at hfile
  rw [h.eq_set]
  exact Lookup.find_set_of_ne h.file rfl hne hfind

/-- A file that is opened for writing is put where the path leads. -/
theorem opened_of_openWrite {mode : Mode} {path : Path} {l : Location} {after : FileSystem}
    (h : fs.openWrite caller mode path = .ok (l, after)) :
    ∃ mode', Opened caller fs after path l mode' := by
  cases opensFile_of_openWrite h with
  | @occupied _ old time content hlocate =>
      obtain ⟨_, htext, hwalk⟩ := Run.of_bind_ok hlocate
      have hfind := Lookup.find_eq_ok_iff.2 ⟨htext, hwalk⟩
      have hnode := Lookup.get?_of_find hfind
      have hfile : ∀ other, fs.get? l = some other → other.kind = .file := by
        intro other hother
        rw [hnode] at hother
        exact Option.some.inj hother ▸ rfl
      refine ⟨_, rfl, hfile, Lookup.find_set rfl rfl hfind, fun wf => wf.set ?_ ?_ hfile⟩
      · exact wf.isName l _ hnode
      · rintro above name rfl
        exact wf.parent above name _ hnode
  | @vacant directory name hlocate =>
      obtain ⟨_, htext, hwalk⟩ := Run.of_bind_ok hlocate
      obtain ⟨hname, henter, hnone⟩ :=
        Lookup.of_walk_vacant (fun _ hmem => Lookup.isName_of_mem_steps hmem) hwalk
      have hfile : ∀ other, fs.get? (directory ++ [name]) = some other → other.kind = .file := by
        simp [hnone]
      -- the walk ends at the new file, since no step on the way goes through it
      have hwalk' := @Lookup.walk_set _ _ _ _ _ _ _ _ (.file mode.masked caller.now []) hfile rfl
        (by simp) hwalk
      rw [Lookup.Place.put, if_pos rfl] at hwalk'
      obtain ⟨above, habove, hkind⟩ := Lookup.directory_of_enter henter
      refine ⟨_, rfl, hfile, Lookup.find_eq_ok_iff.2 ⟨htext, hwalk'⟩, fun wf => wf.set ?_ ?_ hfile⟩
      · intro other hother
        rcases List.mem_append.1 hother with hother | hother
        · exact wf.isName directory above habove other hother
        · exact List.mem_singleton.1 hother ▸ hname
      · intro k other hk
        obtain ⟨rfl, _⟩ : directory = k ∧ name = other := by
          simpa using List.append_inj' hk rfl
        exact ⟨above, habove, hkind⟩

/-- Writing nothing into a file opens it. -/
theorem openWrite_of_writeFile_nil {path : Path} {after : FileSystem}
    (h : (Storage.writeFile path []).exec caller fs = (.ok (), after)) :
    ∃ l, fs.openWrite caller Mode.file path = .ok (l, after) := by
  have hchange := Storage.of_exec_change_ok h
  obtain ⟨⟨l, opened⟩, hopen, hfill⟩ := Run.of_bind_ok hchange
  obtain ⟨mode, hopened⟩ := opened_of_openWrite hopen
  have hsame : opened.fill caller l [] = opened := by
    have hget := Lookup.get?_of_find hopened.find
    unfold fill
    rw [hget, hopened.eq_set]
    exact set_set l _ _
  obtain rfl : opened = after := by
    simpa [pure, Except.pure, hsame] using hfill
  exact ⟨l, hopen⟩

/-- Writing nothing to a file has opened it. -/
theorem opened_of_writeFile_nil {path : Path} {after : FileSystem}
    (h : (Storage.writeFile path []).exec caller fs = (.ok (), after)) :
    ∃ l mode, Opened caller fs after path l mode := by
  obtain ⟨l, hopen⟩ := openWrite_of_writeFile_nil h
  obtain ⟨mode, hopened⟩ := opened_of_openWrite hopen
  exact ⟨l, mode, hopened⟩

/-- The path to a file that was opened leads to its contents once they are written. -/
theorem find_fill {path : Path} {before after : FileSystem} {l : Location} {mode : Mode}
    (h : Opened caller before after path l mode) (content : Bytes) :
    ∃ mode', Lookup.find caller (after.fill caller l content) true path =
      .ok (l, .file mode' caller.now content) := by
  unfold fill
  rw [Lookup.get?_of_find h.find]
  exact ⟨_, Lookup.find_set rfl rfl h.find⟩

end FileSystem

end RpmRelease
