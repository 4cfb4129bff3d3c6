import RpmRelease.Proofs.Archive.RoundTrip
import RpmRelease.Proofs.FileSystem.Listed
import RpmRelease.Proofs.FileSystem.Makes
import RpmRelease.Proofs.FileSystem.Putting
import RpmRelease.Proofs.FileSystem.Removing
import RpmRelease.Proofs.Release

/-!
# What a failed run of archiving leaves

Until the staging directory is removed, archiving changes nothing but the two archives.  Removing the
staging directory is the last step, and it fails before anything is removed when all directories in it
are open to the caller.  Then a failure at any step leaves everything but the archives as it was.

The condition is needed: a directory that does not let go of its entries stops the removal when a part
of the staging directory is gone already.
-/

set_option autoImplicit false

namespace RpmRelease.Archive

open Relation (ReflTransGen)

variable {caller : Caller} {fs₀ fs fs' : FileSystem} {r : Release} {l : Location} {top : Node}
  {name : String} {ε α : Type}

/-! ## Changes to the archives -/

/-- The names of the two archives in the root. -/
def archiveNames (r : Release) : List String :=
  [r.metadata.stem ++ ".tar", r.metadata.stem ++ ".tar.bz2"]

/-- A file system that differs from an earlier one in no more than the archives. -/
structure Kept (r : Release) (l : Location) (fs₀ fs : FileSystem) : Prop where
  wellFormed : fs.WellFormed
  same : ∀ k, (∀ name ∈ archiveNames r, k ≠ l ++ [name]) → fs.get? k = fs₀.get? k
  plain : ∀ name ∈ archiveNames r, ∀ target time, fs.get? (l ++ [name]) ≠ some (.link target time)

/-- Changes after which no more than the archives differ, if that was so before. -/
def Keeps (r : Release) (l : Location) (fs₀ fs fs' : FileSystem) : Prop :=
  Kept r l fs₀ fs → Kept r l fs₀ fs'

/-- The archives are outputs. -/
theorem mem_outputNames (hname : name ∈ archiveNames r) : name ∈ r.outputNames :=
  List.mem_cons_of_mem _ hname

/-- Changing the archives leaves the rest. -/
theorem Kept.bare_eq (kept : Kept r l fs₀ fs) : r.bare l fs = r.bare l fs₀ := by
  apply Release.bare_eq_iff.2
  intro k hk
  apply kept.same
  rintro name hname rfl
  exact hk name (mem_outputNames hname) List.prefix_rfl

/-- The root is found where it was found without the archives. -/
theorem Kept.root (kept : Kept r l fs₀ fs)
    (hroot : Lookup.find caller (r.bare l fs₀) true r.root = .ok (l, top)) :
    Lookup.find caller fs true r.root = .ok (l, top) :=
  Lookup.find_within (r.bare_within l fs) (kept.bare_eq ▸ hroot)

/-- A file may be put in the place of an archive. -/
theorem Kept.set (kept : Kept r l fs₀ fs) (hname : name ∈ archiveNames r) {node : Node}
    (hputs : fs.Puts (l ++ [name]) node) (hkind : node.kind = .file) :
    Kept r l fs₀ (fs.set (l ++ [name]) node) where
  wellFormed := kept.wellFormed.put hputs
  same := by
    intro k hk
    rw [FileSystem.get?_set, if_neg (Ne.symm (hk name hname))]
    exact kept.same k hk
  plain := by
    intro other hother target time
    rw [FileSystem.get?_set]
    split
    · intro hlink
      rw [Option.some.inj hlink] at hkind
      simp [Node.kind] at hkind
    · exact kept.plain other hother target time

/-- Writing to an archive keeps everything else. -/
theorem Kept.fill (kept : Kept r l fs₀ fs) (hname : name ∈ archiveNames r) (content : Bytes) :
    Kept r l fs₀ (fs.fill caller (l ++ [name]) content) := by
  rw [FileSystem.fill]
  cases hnode : fs.get? (l ++ [name]) with
  | none => exact kept
  | some node =>
      cases node with
      | directory => exact kept
      | link => exact kept
      | file mode time old => exact kept.set hname (.of_file kept.wellFormed hnode rfl) rfl

/-- Where the path of an archive leads. -/
theorem Kept.location_eq (kept : Kept r l fs₀ fs)
    (hroot : Lookup.find caller (r.bare l fs₀) true r.root = .ok (l, top))
    (hstem : '/' ∉ r.metadata.stem.toList) (hname : name ∈ archiveNames r) {place : Lookup.Place}
    (h : Lookup.locate caller fs true (r.root.join ⟨name⟩) = .ok place) :
    place.location = l ++ [name] :=
  Lookup.location_of_locate (kept.root hroot)
    (Release.isName_of_mem_outputNames hstem name (mem_outputNames hname)) (kept.plain name hname) h

/-- Opening an archive for writing changes no more than that. -/
theorem Kept.openWrite (kept : Kept r l fs₀ fs)
    (hroot : Lookup.find caller (r.bare l fs₀) true r.root = .ok (l, top))
    (hstem : '/' ∉ r.metadata.stem.toList) (hname : name ∈ archiveNames r) {mode : Mode}
    {k : Location} (h : fs.openWrite caller mode (r.root.join ⟨name⟩) = .ok (k, fs')) :
    k = l ++ [name] ∧ Kept r l fs₀ fs' := by
  obtain ⟨place, hlocate, rfl⟩ := FileSystem.of_openWrite_ok h
  have hplace := kept.location_eq hroot hstem hname hlocate
  obtain ⟨mode', hopened⟩ := FileSystem.opened_of_openWrite h
  refine ⟨hplace, ?_⟩
  have hputs : fs.Puts place.location (.file mode' caller.now []) :=
    hopened.puts kept.wellFormed rfl
  rw [hplace] at hputs
  rw [hopened.eq_set, hplace]
  exact kept.set hname hputs rfl

/-! ## The steps before the last one -/

/-- Changes that keep everything but the archives do so one after the other. -/
theorem Kept.of_changes (h : ReflTransGen (Keeps r l fs₀) fs fs') (kept : Kept r l fs₀ fs) :
    Kept r l fs₀ fs' :=
  Storage.keeps_of_changes h kept

/-- What a program leaves that makes no other changes differs in no more than the archives. -/
theorem Kept.after {x : Storage ε α} {Q : α → FileSystem → Prop} {outcome : Except ε α}
    (kept : Kept r l fs₀ fs) (hx : Storage.Makes (Keeps r l fs₀) caller fs x Q)
    (hexec : x.exec caller fs = (outcome, fs')) : Kept r l fs₀ fs' :=
  kept.of_changes (hx.changes_of_exec hexec)

/-- Writing the tar file changes no more than the archives, however it ends. -/
theorem makes_writeTar {staging : Path} {first : String} {fixed : Option Nat}
    (hroot : Lookup.find caller (r.bare l fs₀) true r.root = .ok (l, top))
    (hstem : '/' ∉ r.metadata.stem.toList) :
    Storage.Makes (Keeps r l fs₀) caller fs (writeTar staging first r.tarPath fixed)
      fun _ _ => True := by
  have hname : r.metadata.stem ++ ".tar" ∈ archiveNames r := List.mem_cons_self
  refine Storage.Makes.query.bind ?_
  rintro isDirectory fs₁ - ⟨rfl, -⟩
  cases isDirectory with
  | false => exact .throw
  | true =>
      refine Storage.Makes.bind (Q := fun _ _ => True) (.change fun opened hopened kept => ?_) ?_
      · obtain ⟨⟨k, created⟩, hopen, hfill⟩ := Run.of_bind_ok (Storage.of_exec_change_ok hopened)
        obtain ⟨rfl, hkept⟩ := kept.openWrite hroot hstem hname hopen
        rw [← Except.ok.inj hfill]
        exact hkept.fill hname []
      · rintro _ opened - -
        -- the items are written at once, and to the place of the archive, so this is one change
        refine ⟨.single fun kept => ?_, fun _ _ => trivial⟩
        rw [Storage.exec_ofExec]
        cases hfind : Lookup.find caller opened true r.tarPath with
        | error e =>
            exact kept
        | ok found =>
            obtain ⟨k, node⟩ := found
            have hplace : k = l ++ [r.metadata.stem ++ ".tar"] :=
              kept.location_eq hroot hstem hname (Lookup.locate_of_find hfind)
            subst hplace
            exact kept.fill hname _

/-- Compressing the tar file changes no more than the archives, however it ends. -/
theorem makes_compress {codec : Codec} {source : Path}
    (hroot : Lookup.find caller (r.bare l fs₀) true r.root = .ok (l, top))
    (hstem : '/' ∉ r.metadata.stem.toList) :
    Storage.Makes (Keeps r l fs₀) caller fs (compress codec source r.archivePath)
      fun _ _ => True := by
  have hname : r.metadata.stem ++ ".tar.bz2" ∈ archiveNames r :=
    List.mem_cons_of_mem _ (List.mem_singleton_self _)
  refine .change fun after hafter kept => ?_
  obtain ⟨_, _, hafter⟩ := Run.of_bind_ok (Storage.of_exec_change_ok hafter)
  obtain ⟨⟨k, opened⟩, hopen, hafter⟩ := Run.of_bind_ok hafter
  obtain ⟨content, _, hafter⟩ := Run.of_bind_ok hafter
  obtain ⟨rfl, hkept⟩ := kept.openWrite hroot hstem hname hopen
  rw [← Except.ok.inj hafter]
  exact hkept.fill hname _

/-- Removing the tar file changes no more than the archives. -/
theorem Kept.removeFile (kept : Kept r l fs₀ fs)
    (hroot : Lookup.find caller (r.bare l fs₀) true r.root = .ok (l, top))
    (hstem : '/' ∉ r.metadata.stem.toList) (h : fs.removeFile caller r.tarPath = .ok fs') :
    Kept r l fs₀ fs' ∧ fs.checkWritable caller l = .ok () := by
  have hname : r.metadata.stem ++ ".tar" ∈ archiveNames r := List.mem_cons_self
  have hisName := Release.isName_of_mem_outputNames hstem _ (mem_outputNames hname)
  obtain ⟨node, hnode, hkind, hwritable, rfl⟩ :=
    FileSystem.of_removeFile_join (kept.root hroot) hisName h
  refine ⟨?_, hwritable⟩
  have hcut : fs.erase (l ++ [r.metadata.stem ++ ".tar"]) =
      fs.cut (l ++ [r.metadata.stem ++ ".tar"]) := by
    apply kept.wellFormed.erase_eq_cut
    intro other hother
    rw [hnode] at hother
    exact Option.some.inj hother ▸ hkind
  constructor
  · rw [hcut]
    exact kept.wellFormed.cut _
  · intro k hk
    rw [FileSystem.get?_erase, if_neg (Ne.symm (hk _ hname))]
    exact kept.same k hk
  · intro other hother target time hlink
    exact kept.plain other hother target time (FileSystem.within_erase fs _ _ _ hlink)

/-! ## The last step -/

/-- Nothing at or below the staging directory is an archive. -/
theorem ne_of_in_staging {k : Location} (hk : l ++ [r.metadata.stem] <+: k) :
    ∀ name ∈ archiveNames r, k ≠ l ++ [name] := by
  rintro name hname rfl
  have hsame : r.metadata.stem = name := by
    simpa using (List.prefix_append_right_inj l).1 hk
  have hother : r.metadata.stem ∉ archiveNames r := (List.nodup_cons.1 r.nodup_outputNames).1
  exact hother (by rwa [hsame])

/-- Failing to remove the staging directory changes nothing, when the directories in it are open. -/
theorem Kept.eq_of_removeAll_error {e : FileError} (kept : Kept r l fs₀ fs)
    (hroot : Lookup.find caller (r.bare l fs₀) true r.root = .ok (l, top))
    (hstem : '/' ∉ r.metadata.stem.toList) (hwritable : fs.checkWritable caller l = .ok ())
    (hopen : fs₀.OpenBelow caller (l ++ [r.metadata.stem]))
    (h : (Storage.removeAll r.stagingDirectory).exec caller fs = (.error e, fs')) : fs' = fs := by
  have hmem : r.metadata.stem ∈ r.outputNames := List.mem_cons_self
  have hfind : Lookup.find caller (fs.cut (l ++ [r.metadata.stem])) true r.root = .ok (l, top) :=
    Lookup.find_within (Release.bare_within_cut hmem) (kept.bare_eq ▸ hroot)
  have hisName := Release.isName_of_mem_outputNames hstem _ hmem
  refine Storage.eq_of_removeAll_error kept.wellFormed hfind hisName hwritable ?_ h
  intro k node hk hnode
  rw [kept.same k (ne_of_in_staging hk)] at hnode
  exact hopen k node hk hnode

/-- A failed run of archiving leaves everything but the archives as it was, when the directories in
the staging directory are open to the caller. -/
theorem get?_create_error {codec : Codec} {fixed : Option Nat} {e : Failure} (wf : fs.WellFormed)
    (hstem : '/' ∉ r.metadata.stem.toList)
    (hroot : Lookup.find caller (r.bare l fs) true r.root = .ok (l, top))
    (hplain : ∀ name ∈ archiveNames r, ∀ target time, fs.get? (l ++ [name]) ≠ some (.link target time))
    (hopen : fs.OpenBelow caller (l ++ [r.metadata.stem]))
    (h : (create codec fixed r).exec caller fs = (.error e, fs')) :
    ∀ k, (∀ name ∈ archiveNames r, k ≠ l ++ [name]) → fs'.get? k = fs.get? k := by
  have kept : Kept r l fs fs := ⟨wf, fun _ _ => rfl, hplain⟩
  suffices hkept : Kept r l fs fs' from hkept.same
  -- the four steps before the last one, each with the run that ends in it
  rcases Storage.of_exec_bind_error h with hend | ⟨entries, fs₁, hwrite, h⟩
  · exact kept.after (makes_writeTar hroot hstem).mapError hend
  have kept₁ := kept.after (makes_writeTar hroot hstem).mapError hwrite
  rcases Storage.of_exec_bind_error h with hend | ⟨_, fs₂, hcompress, h⟩
  · exact kept₁.after (makes_compress hroot hstem).mapError hend
  have kept₂ := kept₁.after (makes_compress hroot hstem).mapError hcompress
  rcases Storage.of_exec_bind_error h with hend | ⟨digest, fs₃, hdigest, h⟩
  · exact kept₂.after Storage.Makes.query.mapError hend
  have kept₃ := kept₂.after Storage.Makes.query.mapError hdigest
  rcases Storage.of_exec_bind_error h with hend | ⟨_, fs₄, hremove, h⟩
  · refine kept₃.after (Storage.Makes.change fun after hafter hkept => ?_).mapError hend
    exact (hkept.removeFile hroot hstem (Storage.of_exec_change_ok hafter)).1
  have htar := Storage.of_exec_change_ok (Storage.of_exec_mapError_ok hremove)
  obtain ⟨kept₄, hwritable⟩ := kept₃.removeFile hroot hstem htar
  rcases Storage.of_exec_bind_error h with hend | ⟨_, fs₅, _, h⟩
  · obtain ⟨cause, hend⟩ := Storage.of_exec_mapError_error hend
    have hsame : fs' = fs₄ := by
      refine kept₄.eq_of_removeAll_error hroot hstem ?_ hopen hend
      rwa [FileSystem.checkWritable, kept₄.same l (fun name _ => by simp),
        ← kept₃.same l (fun name _ => by simp)]
    exact hsame ▸ kept₄
  · have herror : (Except.ok _ : Except Failure Report) = .error e := congrArg Prod.fst h
    exact absurd herror (by simp)

/-- A codec that stores bytes as they are. -/
def storing : Codec := ⟨id, some⟩

/-- A project with a staged file, and a directory where the compressed archive has to go. -/
def blockedTree : FileSystem :=
  .ofNodes [
    (["r", "p-1.tar.bz2"], .directory Mode.directory 0),
    (["r", "p-1", "a"], .file Mode.file 7 [1]),
    (["r", "p-1"], .directory Mode.directory 0),
    (["r"], .directory Mode.directory 0)]

/-- The staged file is as it was after archiving has failed. -/
theorem get?_create_error_blocked : ∃ e fs',
    (create storing none Release.first).exec .superuserAtRoot blockedTree = (.error e, fs') ∧
      fs'.get? ["r", "p-1", "a"] = some (.file Mode.file 7 [1]) := by
  have herror : ((create storing none Release.first).exec .superuserAtRoot blockedTree).1 =
      .error (.stage (.archiveNotWritten Release.first.archivePath (.system .isDirectory))) := by
    simp only [create, writeTar, writeEntries, sorted_eq_ite]
    decide +kernel
  have hplain : ∀ name ∈ archiveNames Release.first, ∀ target time,
      blockedTree.get? (["r"] ++ [name]) ≠ some (.link target time) := by
    intro name _ target time hlink
    have hkind : Node.kind (.link target time) ≠ .link := by
      exact FileSystem.forall_ofNodes (P := fun _ node => node.kind ≠ .link) (by decide)
        (by decide) _ _ hlink
    exact hkind rfl
  have wf : blockedTree.WellFormed := FileSystem.wellFormed_ofNodes (by decide)
  have hroot : Lookup.find .superuserAtRoot (Release.first.bare ["r"] blockedTree) true
      Release.first.root = .ok (["r"], .directory Mode.directory 0) := by
    decide +kernel
  have hsame := get?_create_error wf (by decide +kernel) hroot hplain (fun _ _ _ _ _ _ => rfl)
    (Prod.ext herror rfl) ["r", "p-1", "a"] (by decide +kernel)
  exact ⟨_, _, Prod.ext herror rfl, hsame.trans (by decide +kernel)⟩

/-- A project whose staging directory does not let an ordinary user remove what is in it. -/
def lockedTree : FileSystem :=
  .ofNodes [
    (["r", "p-1", "d", "f"], .file Mode.file 0 [1]),
    (["r", "p-1", "d"], .directory Mode.directory 0),
    (["r", "p-1"], .directory 0o555#12 0),
    (["r"], .directory Mode.directory 0)]

/-- The staged file of the locked project is gone after archiving has failed. -/
theorem create_loses_staged : lockedTree.WellFormed ∧
    (∀ name ∈ archiveNames Release.first, lockedTree.get? (["r"] ++ [name]) = none) ∧
    lockedTree.get? ["r", "p-1", "d", "f"] = some (.file Mode.file 0 [1]) ∧
    ((create storing (some 0) Release.first).exec .userAtRoot lockedTree).1 =
      .error (.stage (.archiveNotWritten Release.first.stagingDirectory (.system .accessDenied))) ∧
    ((create storing (some 0) Release.first).exec .userAtRoot lockedTree).2.get?
      ["r", "p-1", "d", "f"] = none := by
  refine ⟨FileSystem.wellFormed_ofNodes (by decide), by decide +kernel, by decide +kernel, ?_, ?_⟩
  · simp only [create, writeTar, writeEntries, sorted_eq_ite]
    decide +kernel
  · simp only [create, writeTar, writeEntries, sorted_eq_ite]
    decide +kernel

end RpmRelease.Archive
