import RpmRelease.Proofs.FileSystem.Adding
import RpmRelease.Proofs.FileSystem.Growing
import RpmRelease.Proofs.FileSystem.Inside

/-!
# From an entry to its directory

Whoever gets at an entry by a path joined with a name has got to the directory of the entry by the path
itself.  So a single operation on an entry that succeeds tells where its directory is, and what it
leaves is the file system with one other node at the entry.
-/

set_option autoImplicit false

namespace RpmRelease

variable {caller : Caller} {fs fs' : FileSystem} {p : Path} {name : String} {l k : Location}
  {node : Node}

namespace Lookup

/-- A path leads to the directory in which an entry of it is located. -/
theorem of_locateEntry_join {text : String} {slash : Bool} (hp : p.text ≠ "")
    (hname : Path.IsName name)
    (h : locateEntry caller fs (p.join ⟨name⟩) = .ok (l, .name text slash)) :
    text = name ∧ slash = false ∧ checkEntry caller fs l p name = .ok () ∧
      ∃ directory, find caller fs true p = .ok (l, directory) := by
  obtain ⟨htext, front, directory, hcut, hwalk, henter, hsize⟩ := locateEntry_eq_name_iff.1 h
  obtain ⟨rfl, rfl, rfl⟩ : found p.text.toList = front ∧ name = text ∧ false = slash := by
    simpa using (cutLast_join hp hname).symm.trans hcut
  refine ⟨rfl, rfl, ?_, directory, find_eq_ok_iff.2 ⟨?_, ?_⟩⟩
  · simp [checkEntry, htext, henter, hsize, bind, Except.bind, pure, Except.pure]
  · exact checkText_of_join hp (Path.isAbsolute_of_no_slash hname.no_slash) htext
  · rw [start_join hp hname.no_slash] at hwalk
    rcases steps_eq p.text with hsteps | hsteps
    · rw [hsteps, hwalk]
    -- a slash at the end of the path only asks for the directory that has been entered
    · obtain ⟨links, hbehind⟩ := exists_walk_behind hwalk
      obtain ⟨node, hnode, hkind⟩ := directory_of_enter henter
      rw [hsteps, hbehind true [.directory] (by simp)]
      exact (Walks.directory hnode hkind (.nil (by
        rw [get?_of_walk hwalk]))).walk_eq_ok

/-- An entry that a path joined with a name leads to is located where the path leads. -/
theorem of_find_join (hp : p.text ≠ "") (hname : Path.IsName name)
    (h : find caller fs false (p.join ⟨name⟩) = .ok (k, node)) :
    ∃ l directory, find caller fs true p = .ok (l, directory) ∧ k = l ++ [name] ∧
      checkEntry caller fs l p name = .ok () := by
  obtain ⟨htext, hwalk⟩ := find_eq_ok_iff.1 h
  rw [steps_join hp hname] at hwalk
  obtain ⟨links, m, hlast, hfront⟩ := walk_append (.inl (by simp)) hwalk
  obtain ⟨henter, hsize⟩ := of_walk_name_ok hlast
  -- the walk goes on from the directory; with a step that stays there, it ends in it
  obtain ⟨directory, hnode, -⟩ := directory_of_enter henter
  have hstay : walk caller fs true maxLinks (start caller (p.join ⟨name⟩).text)
      (found p.text.toList ++ [.here]) = .ok (.occupied m directory) := by
    rw [hfront true [.here] (by simp)]
    exact (Walks.here henter (.nil hnode)).walk_eq_ok
  have hentry := locateEntry_eq_name_iff.2
    ⟨htext, _, directory, cutLast_join hp hname, walk_of_walk_stay rfl hstay, henter, hsize⟩
  obtain ⟨-, -, hcheck, hfind⟩ := of_locateEntry_join hp hname hentry
  obtain ⟨other, hother⟩ := hfind
  exact ⟨m, other, hother, location_of_find_join hother hname h, hcheck⟩

/-- A path leads to the directory at a location, and an entry of this name may be asked for there. -/
structure Enters (caller : Caller) (fs : FileSystem) (p : Path) (name : String) (l : Location) :
    Prop where
  find : ∃ directory, find caller fs true p = .ok (l, directory)
  check : checkEntry caller fs l p name = .ok ()

/-- An entry that may be asked for is located by its name. -/
theorem Enters.locateEntry_eq (h : Enters caller fs p name l) (hname : Path.IsName name) :
    locateEntry caller fs (p.join ⟨name⟩) = .ok (l, .name name false) := by
  obtain ⟨directory, hfind⟩ := h.find
  rw [locateEntry_join hfind hname, h.check]
  rfl

/-- A path joined with the name of an entry leads to what stands there. -/
theorem Enters.find_entry (h : Enters caller fs p name l) (hname : Path.IsName name)
    (hnode : fs.get? (l ++ [name]) = some node) :
    Lookup.find caller fs false (p.join ⟨name⟩) = .ok (l ++ [name], node) := by
  obtain ⟨directory, hfind⟩ := h.find
  rw [Lookup.find_entry hfind hname h.check, hnode]

/-- A directory whose entries may be asked for may be entered. -/
theorem Enters.enter (h : Enters caller fs p name l) : enter caller fs l = .ok () := by
  obtain ⟨_, -, hcheck⟩ := Run.of_bind_ok h.check
  exact (Run.of_bind_ok hcheck).elim fun _ hentered => hentered.1

/-- More nodes do not stand in the way to an entry. -/
theorem Enters.within (h : Enters caller fs p name l) (hwithin : fs.Within fs') :
    Enters caller fs' p name l where
  find := h.find.imp fun _ hfind => find_within hwithin hfind
  check := by
    obtain ⟨directory, hnode, -⟩ := directory_of_enter h.enter
    rw [checkEntry_congr ((hwithin l directory hnode).trans hnode.symm), h.check]

end Lookup

open Lookup (Enters)

namespace FileSystem

/-! ## Single operations on an entry -/

/-- Setting what stands at a location changes nothing. -/
theorem set_self (h : fs.get? l = some node) : fs.set l node = fs := by
  refine ext fun k => ?_
  rw [get?_set]
  split
  · next hk => rw [← hk, h]
  · rfl

/-- Erasing a location before setting it makes no difference. -/
theorem erase_set (l : Location) (new : Node) : (fs.erase l).set l new = fs.set l new := by
  refine ext fun k => ?_
  simp only [get?_set, get?_erase]
  split <;> rfl

/-- A node at an entry keeps files well-formed, unless it takes the place of a directory and is none. -/
theorem WellFormed.set_entry (wf : fs.WellFormed) (h : Enters caller fs p name l)
    (hname : Path.IsName name)
    (hkind : ∀ there, fs.get? (l ++ [name]) = some there → there.kind = .directory →
      node.kind = .directory) : (fs.set (l ++ [name]) node).WellFormed := by
  obtain ⟨directory, hdirectory, hopen⟩ := Lookup.directory_of_enter h.enter
  have hkept : ∀ k there, fs.get? k = some there → there.kind = .directory →
      ∃ there', (fs.set (l ++ [name]) node).get? k = some there' ∧ there'.kind = .directory := by
    intro k there hthere hdir
    rw [get?_set]
    split
    · next hk => exact ⟨node, rfl, hkind there (hk ▸ hthere) hdir⟩
    · exact ⟨there, hthere, hdir⟩
  constructor
  · intro k new hnew other hother
    rw [get?_set] at hnew
    split at hnew
    · next hk =>
      subst hk
      rcases List.mem_append.1 hother with hother | hother
      · exact wf.isName l directory hdirectory other hother
      · exact List.mem_singleton.1 hother ▸ hname
    · exact wf.isName k new hnew other hother
  · intro k other new hnew
    rw [get?_set] at hnew
    split at hnew
    · next hk =>
      obtain ⟨rfl, -⟩ := List.append_inj' hk rfl
      exact hkept _ directory hdirectory hopen
    · obtain ⟨above, habove, hdir⟩ := wf.parent k other new hnew
      exact hkept k above habove hdir

/-- A file system without what stood at an entry, which was no directory. -/
structure Cleared (caller : Caller) (fs base : FileSystem) (p : Path) (name : String)
    (l : Location) : Prop where
  enters : Enters caller base p name l
  vacant : base.get? (l ++ [name]) = none
  within : base.Within fs
  set_eq : ∀ node, base.set (l ++ [name]) node = fs.set (l ++ [name]) node
  notDirectory : ∀ there, fs.get? (l ++ [name]) = some there → there.kind ≠ .directory

namespace Cleared

variable {base : FileSystem}

/-- Where nothing stands at an entry, nothing has to be cleared. -/
theorem of_vacant (henters : Enters caller fs p name l) (hvacant : fs.get? (l ++ [name]) = none) :
    Cleared caller fs fs p name l where
  enters := henters
  vacant := hvacant
  within := .refl fs
  set_eq := fun _ => rfl
  notDirectory := by simp [hvacant]

/-- What is put at a cleared entry is found there. -/
theorem find_set (h : Cleared caller fs base p name l) (hname : Path.IsName name) (node : Node) :
    Lookup.find caller (base.set (l ++ [name]) node) false (p.join ⟨name⟩) =
      .ok (l ++ [name], node) :=
  (h.enters.within (within_set h.vacant node)).find_entry hname (by rw [get?_set, if_pos rfl])

end Cleared

section Entry

variable (hp : p.text ≠ "") (hname : Path.IsName name)

include hp hname

/-- An entry that is located by a path and a name has that name, in the directory of the path. -/
theorem enters_of_locateEntry {text : String} {slash : Bool}
    (h : Lookup.locateEntry caller fs (p.join ⟨name⟩) = .ok (l, .name text slash)) :
    text = name ∧ Enters caller fs p name l := by
  obtain ⟨rfl, -, hcheck, hfind⟩ := Lookup.of_locateEntry_join hp hname h
  exact ⟨rfl, hfind, hcheck⟩

/-- A directory that is made stands at a vacant entry of the directory of the path. -/
theorem enters_of_makeDirectory (h : fs.makeDirectory caller (p.join ⟨name⟩) = .ok fs') :
    ∃ l, Enters caller fs p name l ∧ fs.get? (l ++ [name]) = none ∧
      fs' = fs.set (l ++ [name]) (.directory Mode.directory caller.now) := by
  obtain ⟨l, text, slash, hentry, hvacant, -, rfl⟩ := of_makeDirectory_ok h
  obtain ⟨rfl, henters⟩ := enters_of_locateEntry hp hname hentry
  exact ⟨l, henters, hvacant, rfl⟩

/-- A vacant entry is one of the directory of the path, and nothing stands there. -/
theorem enters_of_vacantEntry (h : fs.vacantEntry caller (p.join ⟨name⟩) = .ok k) :
    ∃ l, Enters caller fs p name l ∧ fs.get? (l ++ [name]) = none ∧ k = l ++ [name] := by
  obtain ⟨l, text, hentry, hvacant, -, rfl⟩ := of_vacantEntry_ok h
  obtain ⟨rfl, henters⟩ := enters_of_locateEntry hp hname hentry
  exact ⟨l, henters, hvacant, rfl⟩

/-- A file that is opened as a new one stands at a vacant entry of the directory of the path. -/
theorem enters_of_openNew {mode : Mode}
    (h : fs.openNew caller mode (p.join ⟨name⟩) = .ok (k, fs')) :
    ∃ l, Enters caller fs p name l ∧ fs.get? (l ++ [name]) = none ∧ k = l ++ [name] ∧
      fs' = fs.set (l ++ [name]) (.file mode.masked caller.now []) := by
  obtain ⟨l, text, hentry, hvacant, -, rfl, rfl⟩ := of_openNew_ok h
  obtain ⟨rfl, henters⟩ := enters_of_locateEntry hp hname hentry
  exact ⟨l, henters, hvacant, rfl, rfl⟩

/-- A file that is removed was an entry of the directory of the path, and no directory. -/
theorem enters_of_removeFile (h : fs.removeFile caller (p.join ⟨name⟩) = .ok fs') :
    ∃ l node, Enters caller fs p name l ∧ fs.get? (l ++ [name]) = some node ∧
      node.kind ≠ .directory ∧ fs' = fs.erase (l ++ [name]) := by
  obtain ⟨l, text, node, hentry, hnode, hkind, -, rfl⟩ := of_removeFile_ok h
  obtain ⟨rfl, henters⟩ := enters_of_locateEntry hp hname hentry
  exact ⟨l, node, henters, hnode, hkind, rfl⟩

end Entry

end FileSystem

end RpmRelease
