import RpmRelease.Proofs.FileSystem.Cutting
import RpmRelease.Staging

/-!
# Removing an entry

The entry of a directory is reached through a path to that directory, joined with its name.  Whether it
can be reached depends on the directory and on the text of the path alone; then each operation on it
is about the location of the directory followed by the name.  Removing what stands there cuts this
location, whatever it is.
-/

set_option autoImplicit false

namespace RpmRelease

/-! ## Reaching an entry -/

namespace Lookup

variable {caller : Caller} {fs fs' : FileSystem} {p : Path} {name : String} {l : Location}
  {directory : Node}

/-- Checks that an entry of the directory at a location may be asked for, by a path to that directory
joined with a name. -/
def checkEntry (caller : Caller) (fs : FileSystem) (l : Location) (p : Path) (name : String) :
    Except FileError Unit := do
  checkText (p.join ⟨name⟩).text
  enter caller fs l
  if maxName < name.utf8ByteSize then throw (.system .nameTooLong)

/-- An entry is looked up in its directory, where the caller stands after following the path to it. -/
theorem find_join (hfind : find caller fs true p = .ok (l, directory)) (hname : Path.IsName name) :
    find caller fs false (p.join ⟨name⟩) = (do
      checkEntry caller fs l p name
      match fs.get? (l ++ [name]) with
      | some node => return (l ++ [name], node)
      | none => throw (.system .noEntry)) := by
  obtain ⟨links, hwalk⟩ := exists_walk_join hfind hname
  rw [find, locate, checkEntry, hwalk false]
  cases htext : checkText (p.join ⟨name⟩).text with
  | error e => rfl
  | ok _ =>
      cases henter : enter caller fs l with
      | error e =>
          rw [walk_eq, henter]
          rfl
      | ok _ =>
          by_cases hsize : maxName < name.utf8ByteSize
          · rw [walk_eq, henter, if_pos hsize]
            simp [hsize, bind, Except.bind, throw, throwThe, MonadExceptOf.throw]
          · rw [walk_name henter hsize, if_neg hsize]
            cases hnode : fs.get? (l ++ [name]) with
            | none => rfl
            | some node =>
                cases node with
                | link target time => rfl
                | directory mode time =>
                    have hend : walk caller fs false links (l ++ [name]) [] =
                        .ok (.occupied (l ++ [name]) (.directory mode time)) := by
                      rw [walk_eq]
                      simp only [hnode]
                    simp only [hend]
                    rfl
                | file mode time content =>
                    have hend : walk caller fs false links (l ++ [name]) [] =
                        .ok (.occupied (l ++ [name]) (.file mode time content)) := by
                      rw [walk_eq]
                      simp only [hnode]
                    simp only [hend]
                    rfl

/-- What an entry that may be asked for leads to. -/
theorem find_entry (hfind : find caller fs true p = .ok (l, directory)) (hname : Path.IsName name)
    (hcheck : checkEntry caller fs l p name = .ok ()) :
    find caller fs false (p.join ⟨name⟩) =
      match fs.get? (l ++ [name]) with
      | some node => .ok (l ++ [name], node)
      | none => .error (.system .noEntry) := by
  rw [find_join hfind hname, hcheck]
  cases fs.get? (l ++ [name]) <;> rfl

/-- What is found at a path joined with a name, without following it, stands under that name. -/
theorem location_of_find_join {k : Location} {node : Node}
    (hfind : find caller fs true p = .ok (l, directory)) (hname : Path.IsName name)
    (h : find caller fs false (p.join ⟨name⟩) = .ok (k, node)) : k = l ++ [name] := by
  rw [find_join hfind hname] at h
  obtain ⟨_, -, h⟩ := Run.of_bind_ok h
  split at h
  · exact (congrArg Prod.fst (Except.ok.inj h)).symm
  · exact absurd h Run.throw_ne_ok

/-- The last step of a path joined with a name is that name. -/
theorem cutLast_join (hp : p.text ≠ "") (hname : Path.IsName name) :
    cutLast (steps (p.join ⟨name⟩).text) = (found p.text.toList, .name name false) := by
  rw [steps_join hp hname, cutLast, List.reverse_append, List.reverse_singleton,
    List.singleton_append]
  simp

/-- The directory of an entry is found on the same way as the entry. -/
theorem locateEntry_join (hfind : find caller fs true p = .ok (l, directory))
    (hname : Path.IsName name) :
    locateEntry caller fs (p.join ⟨name⟩) = (do
      checkEntry caller fs l p name
      return (l, .name name false)) := by
  obtain ⟨htext, hwalk⟩ := find_eq_ok_iff.1 hfind
  have hp := (of_checkText_ok htext).1
  rw [locateEntry, cutLast_join hp hname, checkEntry, start_join hp hname.no_slash]
  simp only [walk_found hwalk]
  cases checkText (p.join ⟨name⟩).text with
  | error e => rfl
  | ok _ =>
      cases henter : enter caller fs l with
      | error e => simp only [bind, Except.bind, henter]
      | ok _ =>
          by_cases hsize : maxName < name.utf8ByteSize
          · simp [henter, hsize, bind, Except.bind, throw, throwThe, MonadExceptOf.throw]
          · simp [henter, hsize, bind, Except.bind, pure, Except.pure]

/-- Where an entry is located, it may be asked for. -/
theorem checkEntry_of_locate {follow : Bool} {place : Place}
    (hfind : find caller fs true p = .ok (l, directory)) (hname : Path.IsName name)
    (h : locate caller fs follow (p.join ⟨name⟩) = .ok place) :
    checkEntry caller fs l p name = .ok () := by
  obtain ⟨links, hwalk⟩ := exists_walk_join hfind hname
  obtain ⟨_, htext, h⟩ := Run.of_bind_ok h
  rw [hwalk follow] at h
  obtain ⟨henter, hsize⟩ := of_walk_name_ok h
  rw [checkEntry, htext]
  simp [henter, hsize, bind, Except.bind, pure, Except.pure]

/-- An entry that is no link is located in its directory. -/
theorem location_of_locate {follow : Bool} {place : Place}
    (hfind : find caller fs true p = .ok (l, directory)) (hname : Path.IsName name)
    (hplain : ∀ target time, fs.get? (l ++ [name]) ≠ some (.link target time))
    (h : locate caller fs follow (p.join ⟨name⟩) = .ok place) : place.location = l ++ [name] := by
  obtain ⟨links, hwalk⟩ := exists_walk_join hfind hname
  obtain ⟨_, _, h⟩ := Run.of_bind_ok h
  rw [hwalk follow] at h
  rcases cases_walk_name h with ⟨_, slash, rfl, _⟩ | ⟨target, time, hlink, _⟩ |
    ⟨target, time, _, hlink, _⟩ | ⟨node, _, _, hend⟩
  · rfl
  · exact absurd hlink (hplain target time)
  · exact absurd hlink (hplain target time)
  · rw [walk_eq] at hend
    cases hnode : fs.get? (l ++ [name]) with
    | none => simp [hnode] at hend
    | some there =>
      rw [hnode] at hend
      rw [← Except.ok.inj hend]
      rfl

/-- Nothing but the directory matters to the check of an entry. -/
theorem checkEntry_congr (h : fs'.get? l = fs.get? l) :
    checkEntry caller fs' l p name = checkEntry caller fs l p name := by
  rw [checkEntry, checkEntry, enter, enter, h]

/-- An entry may be missing, but its directory is there. -/
theorem kind_ne_notFound_of_checkEntry {e : FileError} (hfind : find caller fs true p = .ok (l, directory))
    (hname : Path.IsName name) (h : checkEntry caller fs l p name = .error e) :
    e.kind ≠ .notFound := by
  have hjoin : (p.join ⟨name⟩).text ≠ "" :=
    (Path.join_last (of_checkText_ok (find_eq_ok_iff.1 hfind).1).1 hname).1
  rw [checkEntry] at h
  cases htext : checkText (p.join ⟨name⟩).text with
  | error cause =>
      rw [htext] at h
      obtain rfl : cause = e := by simpa [bind, Except.bind] using h
      rw [checkText] at htext
      split at htext
      · obtain rfl := Except.error.inj htext
        decide
      · split at htext
        · next hempty => exact absurd (by simpa using hempty) hjoin
        · split at htext
          · obtain rfl := Except.error.inj htext
            decide
          · simp at htext
  | ok _ =>
      simp only [htext, enter, get?_of_find hfind] at h
      split at h
      · obtain rfl := Except.error.inj h
        decide
      · split at h
        · split at h
          · obtain rfl := Except.error.inj h
            decide
          · simp [bind, Except.bind, pure, Except.pure] at h
        · obtain rfl := Except.error.inj h
          decide

end Lookup

/-! ## Removing an entry -/

namespace FileSystem

variable {caller : Caller} {fs fs' : FileSystem} {p : Path} {name : String} {l : Location}
  {directory : Node}

/-- A file is removed by a path and a name when the entry may be asked for, is there and no directory,
and the directory may be written to. -/
theorem removeFile_join (hfind : Lookup.find caller fs true p = .ok (l, directory))
    (hname : Path.IsName name) :
    fs.removeFile caller (p.join ⟨name⟩) = (do
      Lookup.checkEntry caller fs l p name
      match fs.get? (l ++ [name]) with
      | none => throw (.system .noEntry)
      | some node =>
        fs.checkWritable caller l
        if node.kind == .directory then throw (.system .isDirectory)
        return fs.erase (l ++ [name])) := by
  rw [removeFile, Lookup.locateEntry_join hfind hname]
  cases Lookup.checkEntry caller fs l p name <;> rfl

/-- How an empty directory is removed. -/
theorem removeDirectory_join (hfind : Lookup.find caller fs true p = .ok (l, directory))
    (hname : Path.IsName name) :
    fs.removeDirectory caller (p.join ⟨name⟩) = (do
      Lookup.checkEntry caller fs l p name
      match fs.get? (l ++ [name]) with
      | none => throw (.system .noEntry)
      | some node =>
        fs.checkWritable caller l
        if node.kind != .directory then throw (.system .notDirectory)
        if fs.hasChildren (l ++ [name]) then throw (.system .notEmpty)
        return fs.erase (l ++ [name])) := by
  rw [removeDirectory, Lookup.locateEntry_join hfind hname]
  cases Lookup.checkEntry caller fs l p name <;> rfl

/-- A file that was removed was there and no directory, and its directory may be written to. -/
theorem of_removeFile_join (hfind : Lookup.find caller fs true p = .ok (l, directory))
    (hname : Path.IsName name) (h : fs.removeFile caller (p.join ⟨name⟩) = .ok fs') :
    ∃ node, fs.get? (l ++ [name]) = some node ∧ node.kind ≠ .directory ∧
      fs.checkWritable caller l = .ok () ∧ fs' = fs.erase (l ++ [name]) := by
  obtain ⟨k, text, node, hentry, hnode, hkind, hwritable, rfl⟩ := of_removeFile_ok h
  rw [Lookup.locateEntry_join hfind hname] at hentry
  obtain ⟨_, -, hentry⟩ := Run.of_bind_ok hentry
  cases hentry
  exact ⟨node, hnode, hkind, hwritable, rfl⟩

/-- A directory that was removed is gone, and nothing else. -/
theorem of_removeDirectory_join (hfind : Lookup.find caller fs true p = .ok (l, directory))
    (hname : Path.IsName name) (h : fs.removeDirectory caller (p.join ⟨name⟩) = .ok fs') :
    fs' = fs.erase (l ++ [name]) := by
  obtain ⟨k, text, slash, node, hentry, -, -, -, -, rfl⟩ := of_removeDirectory_ok h
  rw [Lookup.locateEntry_join hfind hname] at hentry
  obtain ⟨_, -, hentry⟩ := Run.of_bind_ok hentry
  cases hentry
  rfl

/-- A location that was cleared has no entries. -/
theorem hasChildren_clear (fs : FileSystem) (k : Location) : (fs.clear k).hasChildren k = false := by
  have hnone : (fs.clear k).children k = [] := by
    apply List.eq_nil_iff_forall_not_mem.2
    rintro ⟨name, node⟩ hmem
    have hnode := mem_children.1 hmem
    rw [get?_clear, if_pos ⟨List.prefix_append k [name], by simp⟩] at hnode
    simp at hnode
  rw [hasChildren, hnone]
  rfl

end FileSystem

namespace Storage

open FileSystem

variable {caller : Caller} {fs fs' : FileSystem} {p : Path} {name : String} {l : Location}
  {directory node : Node}

/-- Removing an entry that is no directory cuts it. -/
theorem leaves_removeFile (wf : fs.WellFormed)
    (hfind : Lookup.find caller fs true p = .ok (l, directory)) (hname : Path.IsName name)
    (hnode : fs.get? (l ++ [name]) = some node) :
    Leaves (Lookup.checkEntry caller fs l p name = .ok () ∧ fs.checkWritable caller l = .ok () ∧
      node.kind ≠ .directory) caller fs
      (change fun caller fs => fs.removeFile caller (p.join ⟨name⟩)) () (fs.cut (l ++ [name])) := by
  have herase (hkind : node.kind ≠ .directory) : fs.erase (l ++ [name]) = fs.cut (l ++ [name]) := by
    apply wf.erase_eq_cut
    intro other hother
    rw [hnode] at hother
    exact Option.some.inj hother ▸ hkind
  refine .change (fun after hafter => ?_) fun ⟨hentry, hwritable, hkind⟩ => ?_
  · obtain ⟨there, hthere, hkind, -, rfl⟩ := of_removeFile_join hfind hname hafter
    obtain rfl := Option.some.inj (hthere.symm.trans hnode)
    exact herase hkind
  · rw [removeFile_join hfind hname, hentry, ← herase hkind]
    simp [hnode, hwritable, hkind, bind, Except.bind, pure, Except.pure]

/-- Removing what is no file cuts it: of a link the link, of a directory everything. -/
theorem leaves_removeAll (wf : fs.WellFormed)
    (hfind : Lookup.find caller (fs.cut (l ++ [name])) true p = .ok (l, directory))
    (hname : Path.IsName name) (hnode : fs.get? (l ++ [name]) = some node) :
    Leaves (Lookup.checkEntry caller fs l p name = .ok () ∧ fs.checkWritable caller l = .ok () ∧
      node.kind ≠ .file ∧ OpenBelow caller fs (l ++ [name])) caller fs (removeAll (p.join ⟨name⟩)) ()
      (fs.cut (l ++ [name])) := by
  have hcleared := Lookup.find_within (cut_within_clear fs (l ++ [name])) hfind
  have hbefore := Lookup.find_within (cut_within fs (l ++ [name])) hfind
  refine Leaves.bind (a := (l ++ [name], node)) (.query ?_ ?_) ?_
  · intro found hfound
    exact Lookup.eq_of_find_join hbefore hname hnode (.inl rfl) hfound
  · rintro ⟨hentry, -⟩
    rw [Lookup.find_join hbefore hname, hentry, hnode]
    rfl
  cases hkind : node.kind with
  | link =>
      simp only [hkind]
      apply (leaves_removeFile wf hbefore hname hnode).imp
      rintro ⟨hentry, hwritable, -⟩
      exact ⟨hentry, hwritable, by simp [hkind]⟩
  | file =>
      simp only [hkind]
      exact .throw fun hcondition => hcondition.2.2.1 rfl
  | directory =>
      simp only [hkind]
      have hstays : (fs.clear (l ++ [name])).get? l = fs.get? l := by
        rw [get?_clear, if_neg]
        exact fun hbelow => not_concat_below l name hbelow.1
      have htop : (fs.clear (l ++ [name])).get? (l ++ [name]) = some node := by
        rw [get?_clear, if_neg (fun hbelow => hbelow.2 rfl), hnode]
      have hshallow : fs.Shallow (l ++ [name]) (depthBelow fs (l ++ [name]) + 1) := by
        intro rest other hother
        exact Nat.le_succ_of_le (shallow_depthBelow fs (l ++ [name]) rest other hother)
      -- what is below is cleared first, and then the directory is removed as an empty one
      have hempty : Leaves (OpenBelow caller fs (l ++ [name])) caller fs _ _ _ :=
        leaves_emptyDirectory wf hnode hkind hshallow
      refine Leaves.bind .get (Leaves.bind (hempty.imp fun hcondition => hcondition.2.2.2) ?_)
      refine .change (fun after hafter => ?_) fun ⟨hentry, hwritable, _⟩ => ?_
      · rw [← erase_clear]
        exact of_removeDirectory_join hcleared hname hafter
      · rw [removeDirectory_join hcleared hname, Lookup.checkEntry_congr hstays, hentry]
        have hwritable' : (fs.clear (l ++ [name])).checkWritable caller l = .ok () := by
          rw [checkWritable, hstays]
          exact hwritable
        simp [htop, hwritable', hkind, hasChildren_clear, erase_clear, bind, Except.bind, pure,
          Except.pure]

/-- A failure to remove a tree of open directories from a directory that may be changed comes before
anything is removed. -/
theorem eq_of_removeAll_error (wf : fs.WellFormed)
    (hfind : Lookup.find caller (fs.cut (l ++ [name])) true p = .ok (l, directory))
    (hname : Path.IsName name) (hwritable : fs.checkWritable caller l = .ok ())
    (hopen : OpenBelow caller fs (l ++ [name])) {e : FileError}
    (h : (removeAll (p.join ⟨name⟩)).exec caller fs = (.error e, fs')) : fs' = fs := by
  have hbefore := Lookup.find_within (cut_within fs (l ++ [name])) hfind
  have hjoin := Lookup.find_join hbefore hname
  cases hentry : Lookup.checkEntry caller fs l p name with
  | error cause =>
      rw [hentry] at hjoin
      rw [removeAll, exec_bind, query, exec_ofExec, hjoin] at h
      exact (congrArg Prod.snd h).symm
  | ok _ =>
      cases hnode : fs.get? (l ++ [name]) with
      | none =>
          rw [hentry, hnode] at hjoin
          rw [removeAll, exec_bind, query, exec_ofExec, hjoin] at h
          exact (congrArg Prod.snd h).symm
      | some node =>
          by_cases hkind : node.kind = .file
          · rw [hentry, hnode] at hjoin
            rw [removeAll, exec_bind, query, exec_ofExec, hjoin] at h
            simp only [bind, Except.bind, pure, Except.pure, hkind] at h
            exact (congrArg Prod.snd h).symm
          · have hremoved := (leaves_removeAll wf hfind hname hnode).exec_eq
              ⟨hentry, hwritable, hkind, hopen⟩
            rw [hremoved] at h
            exact absurd (congrArg Prod.fst h) (by simp)

end Storage

end RpmRelease
