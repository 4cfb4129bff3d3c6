import RpmRelease.FileSystem.Copy
import RpmRelease.Proofs.FileSystem.Storage
import RpmRelease.Proofs.FileSystem.Lookup
import RpmRelease.Proofs.Path.Above

/-!
# Copying trees whose directories are listed in any order

The entries of a directory come in the order in which it is listed.  Here the order is a parameter of
copying a tree, and copying with the order of the names is copying.  What copying a directory needs, and
what it then does with each of its entries, is read off once, for every order.
-/

set_option autoImplicit false

namespace RpmRelease.Storage

/-- The entries of a directory as they are listed. -/
abbrev Listing : Type := FileSystem → Location → List (String × Node)

/-- A directory is listed in some order. -/
def Listing.Permutes (listing : Listing) : Prop :=
  ∀ fs l, (listing fs l).Perm (fs.children l)

variable (listing : Listing) (skip : List Path) (source destination : Path)

/-- What copying a directory does with one of its entries. -/
def copyMet (deeper : Path → Storage Failure Nat) (path : Path) (entry : String × Node) :
    Storage Failure Nat := do
  let child := path.join ⟨entry.1⟩
  if entry.2.kind == .directory then deeper child
  else if skip.any child.same then return 0
  else
    let target ← placeBelow source destination child
    let node ← nodeMet child
    mapError .file (copyEntry child target node)
    return 1

/-- Copying a directory and everything below it, when directories are listed in some order. -/
def copyDirectoryBy : Nat → Path → Storage Failure Nat
  | 0, _ => pure 0
  | steps + 1, path => do
    let opened ← attempt (query fun caller fs => do
      let _ ← fs.readDirectory caller path
      Lookup.find caller fs true path)
    if skip.any path.same then return 0
    let target ← placeBelow source destination path
    let _ ← nodeMet path
    mapError .file (createDirectories target)
    let (l, _) ←
      match opened with
      | .ok place => pure place
      | .error e => throw (WalkError.mk path e).toFailure
    let entries ← query fun _ fs => .ok (listing fs l)
    countOver (copyMet skip source destination (copyDirectoryBy steps) path) entries

/-- Copying the entries of a directory, when directories are listed in some order. -/
def copyListed (steps : Nat) (path : Path) (l : Location) : Storage Failure Nat := do
  let entries ← query fun _ fs => .ok (listing fs l)
  countOver (copyMet skip source destination
    (copyDirectoryBy listing skip source destination steps) path) entries

/-- Copying a tree, when directories are listed in some order. -/
def copyTreeBy : Storage Failure Nat := do
  let node ← query fun caller fs => (fs.lstat caller source).mapError .file
  if node.kind == .directory then
    copyDirectoryBy listing skip source destination Lookup.maxPath source
  else
    mapError .file do
      match destination.parent? with
      | some above => createDirectories above
      | none => pure ()
      copyEntry source destination node
    return 1

variable {listing skip source destination}

/-- A directory is copied in the order in which the file system gives its entries. -/
theorem copyDirectoryBy_children (steps : Nat) (path : Path) :
    copyDirectoryBy FileSystem.children skip source destination steps path =
      copyDirectory skip source destination steps path := by
  induction steps generalizing path with
  | zero => rfl
  | succ steps ih =>
    have hdeeper : copyDirectoryBy FileSystem.children skip source destination steps =
        copyDirectory skip source destination steps := funext ih
    rw [copyDirectoryBy, copyDirectory, hdeeper]
    rfl

/-- Directories are listed by name. -/
theorem copyTreeBy_children :
    copyTreeBy FileSystem.children skip source destination = copyTree skip source destination := by
  rw [copyTreeBy, copyDirectoryBy_children]
  rfl

/-- The entries that the file system gives are all there are. -/
theorem permutes_children : Listing.Permutes FileSystem.children :=
  fun _ _ => .refl _

/-! ## What copying a directory does -/

variable {caller : Caller} {fs fs' : FileSystem} {path target : Path} {l : Location} {node : Node}
  {steps n : Nat}

/-- Finding the place of a copy changes no files. -/
theorem of_placeBelow_exec (h : (placeBelow source destination path).exec caller fs =
    (.ok target, fs')) : fs = fs' := by
  unfold placeBelow at h
  split at h
  · exact (Run.ok_inj h).2
  · exact absurd h Run.run_throw_ne_ok

/-- What looking at a path met during a copy tells. -/
theorem of_nodeMet_ok (h : (nodeMet path).exec caller fs = (.ok node, fs')) :
    fs = fs' ∧ ∃ l, Lookup.find caller fs false path = .ok (l, node) := by
  obtain ⟨hnode, rfl⟩ := of_exec_query_ok h
  exact ⟨rfl, Lookup.lstat_eq_ok_iff.1 (Run.of_mapError_ok hnode)⟩

/-- Looking at what a walk meets gives the node that its path leads to. -/
theorem exec_nodeMet (h : Lookup.find caller fs false path = .ok (l, node)) :
    (nodeMet path).exec caller fs = (.ok node, fs) := by
  rw [nodeMet, query, exec_ofExec, Lookup.lstat_eq_ok_iff.2 ⟨l, h⟩]
  rfl

/-- A directory that is to be skipped is left out. -/
theorem exec_copyDirectoryBy_skipped (hskip : skip.any path.same = true) :
    (copyDirectoryBy listing skip source destination (steps + 1) path).exec caller fs =
      (.ok 0, fs) := by
  rw [copyDirectoryBy, exec_bind]
  simp only [hskip, if_true]
  rfl

/-- Copying the listed entries copies one after the other and adds the counts. -/
theorem exec_copyListed :
    (copyListed listing skip source destination steps path l).exec caller fs =
      (countOver (copyMet skip source destination
        (copyDirectoryBy listing skip source destination steps) path) (listing fs l)).exec caller
          fs := by
  rw [copyListed, exec_bind, query, exec_ofExec]

/-- Copying a directory creates its copy and then goes through the entries that it has. -/
theorem exec_copyDirectoryBy {fs₁ : FileSystem} (hskip : skip.any path.same = false)
    (hplace : placeBelow source destination path = pure target)
    (hfind : Lookup.find caller fs false path = .ok (l, node)) (hkind : node.kind = .directory)
    (hmay : caller.may .read node = true)
    (hcreate : (createDirectories target).exec caller fs = (.ok (), fs₁)) :
    (copyDirectoryBy listing skip source destination (steps + 1) path).exec caller fs =
      (copyListed listing skip source destination steps path l).exec caller fs₁ := by
  have hfollow := Lookup.find_follow (by simp [hkind]) hfind
  have hread : fs.readDirectory caller path = .ok (fs.children l) := by
    rw [FileSystem.readDirectory, hfollow]
    simp [hkind, hmay, bind, Except.bind, pure, Except.pure]
  have hopened : (attempt (query fun caller fs => do
      let _ ← fs.readDirectory caller path
      Lookup.find caller fs true path) : Storage Failure (Except FileError (Location × Node))).exec
        caller fs = (.ok (.ok (l, node)), fs) := by
    rw [attempt, exec_ofExec, query, exec_ofExec, hread]
    exact congrArg (fun found => (Except.ok found, fs)) hfollow
  have hmade : (mapError Failure.file (createDirectories target)).exec caller fs =
      (.ok (), fs₁) := by
    rw [mapError, exec_ofExec, hcreate]
    rfl
  rw [copyDirectoryBy, exec_bind, hopened]
  simp only [hskip, Bool.false_eq_true, if_false, hplace, pure_bind]
  rw [exec_bind, exec_nodeMet hfind]
  simp only
  rw [exec_bind, hmade]
  rfl

/-- Where a directory has been copied that was not to be skipped. -/
theorem of_copyDirectoryBy_ok (hskip : skip.any path.same = false)
    (h : (copyDirectoryBy listing skip source destination (steps + 1) path).exec caller fs =
      (.ok n, fs')) :
    ∃ target l node fs₁, (placeBelow source destination path).exec caller fs = (.ok target, fs) ∧
      Lookup.find caller fs true path = .ok (l, node) ∧ node.kind = .directory ∧
      caller.may .read node = true ∧
      (createDirectories target).exec caller fs = (.ok (), fs₁) ∧
      (copyListed listing skip source destination steps path l).exec caller fs₁ = (.ok n, fs') := by
  rw [copyDirectoryBy] at h
  obtain ⟨opened, _, hopened, hcopy⟩ := of_exec_bind_ok h
  clear h
  simp only [hskip, Bool.false_eq_true, if_false] at hcopy
  obtain ⟨target, _, htarget, hmeet⟩ := of_exec_bind_ok hcopy
  clear hcopy
  obtain ⟨_, _, hmet, hmake⟩ := of_exec_bind_ok hmeet
  clear hmeet
  obtain ⟨_, fs₁, hcreate, h⟩ := of_exec_bind_ok hmake
  clear hmake
  obtain rfl := of_placeBelow_exec htarget
  obtain ⟨-, rfl⟩ := of_exec_query_ok hmet
  cases opened with
  | error e =>
    obtain ⟨_, _, hthrow, _⟩ := of_exec_bind_ok h
    exact absurd hthrow Run.run_throw_ne_ok
  | ok found =>
    obtain ⟨hfound, rfl⟩ := of_exec_query_ok (of_exec_attempt_ok hopened)
    obtain ⟨_, hread, hfind⟩ := Run.of_bind_ok hfound
    obtain ⟨other, hother, hread⟩ := Run.of_bind_ok hread
    obtain rfl : other = found := Except.ok.inj (hother.symm.trans hfind)
    obtain ⟨hkind, hread⟩ := Run.of_check_ok hread
    obtain ⟨hmay, -⟩ := Run.of_check_ok hread
    obtain ⟨_, _, hpure, h⟩ := of_exec_bind_ok h
    obtain ⟨rfl, rfl⟩ := Run.ok_inj hpure
    exact ⟨target, other.1, other.2, fs₁, htarget, hfind, by simpa using hkind, by simpa using hmay,
      of_exec_mapError_ok hcreate, h⟩

section Entry

variable {deeper : Path → Storage Failure Nat} {entry : String × Node}

/-- For an entry that is a directory, the copy goes deeper. -/
theorem copyMet_directory (hkind : entry.2.kind = .directory) :
    copyMet skip source destination deeper path entry = deeper (path.join ⟨entry.1⟩) := by
  rw [copyMet, if_pos (by simpa using hkind)]

/-- A file or a link that is to be skipped is left out. -/
theorem exec_copyMet_skipped (hkind : entry.2.kind ≠ .directory)
    (hskip : skip.any (path.join ⟨entry.1⟩).same = true) :
    (copyMet skip source destination deeper path entry).exec caller fs = (.ok 0, fs) := by
  rw [copyMet, if_neg (by simpa using hkind), if_pos hskip]
  rfl

/-- An entry that is to be skipped is left out, whatever it is. -/
theorem exec_copyMet_of_skip (hskip : skip.any (path.join ⟨entry.1⟩).same = true) :
    (copyMet skip source destination (copyDirectoryBy listing skip source destination steps) path
      entry).exec caller fs = (.ok 0, fs) := by
  by_cases hkind : entry.2.kind = .directory
  · rw [copyMet_directory hkind]
    cases steps with
    | zero => rfl
    | succ steps => exact exec_copyDirectoryBy_skipped hskip
  · exact exec_copyMet_skipped hkind hskip

/-- Copying a file or a link that is met. -/
theorem exec_copyMet (hkind : entry.2.kind ≠ .directory)
    (hskip : skip.any (path.join ⟨entry.1⟩).same = false)
    (hplace : placeBelow source destination (path.join ⟨entry.1⟩) = pure target)
    (hfind : Lookup.find caller fs false (path.join ⟨entry.1⟩) = .ok (l, node))
    (hcopy : (copyEntry (path.join ⟨entry.1⟩) target node).exec caller fs = (.ok (), fs')) :
    (copyMet skip source destination deeper path entry).exec caller fs = (.ok 1, fs') := by
  have hcopied : (mapError Failure.file (copyEntry (path.join ⟨entry.1⟩) target node)).exec caller fs =
      (.ok (), fs') := by
    rw [mapError, exec_ofExec, hcopy]
    rfl
  rw [copyMet, if_neg (by simpa using hkind), if_neg (by simp [hskip]), hplace, pure_bind, exec_bind,
    exec_nodeMet hfind]
  simp only
  rw [exec_bind, hcopied]
  rfl

/-- Where a file or a link that is met has been copied that was not to be skipped. -/
theorem of_copyMet_ok (hkind : entry.2.kind ≠ .directory)
    (hskip : skip.any (path.join ⟨entry.1⟩).same = false)
    (h : (copyMet skip source destination deeper path entry).exec caller fs = (.ok n, fs')) :
    n = 1 ∧ ∃ target l node,
      (placeBelow source destination (path.join ⟨entry.1⟩)).exec caller fs = (.ok target, fs) ∧
      Lookup.find caller fs false (path.join ⟨entry.1⟩) = .ok (l, node) ∧
      (copyEntry (path.join ⟨entry.1⟩) target node).exec caller fs = (.ok (), fs') := by
  rw [copyMet, if_neg (by simpa using hkind), if_neg (by simp [hskip])] at h
  obtain ⟨target, _, htarget, h⟩ := of_exec_bind_ok h
  obtain ⟨node, _, hmet, h⟩ := of_exec_bind_ok h
  obtain ⟨_, _, hcopy, h⟩ := of_exec_bind_ok h
  obtain ⟨rfl, rfl⟩ := Run.ok_inj h
  obtain rfl := of_placeBelow_exec htarget
  obtain ⟨rfl, l, hfind⟩ := of_nodeMet_ok hmet
  exact ⟨rfl, target, l, node, htarget, hfind, of_exec_mapError_ok hcopy⟩

end Entry

/-! ## Where the copies go -/

/-- The top of a tree goes to the destination itself. -/
theorem placeBelow_self (hsource : source.text ≠ "") :
    placeBelow source destination source = pure (destination.join ⟨""⟩) := by
  rw [placeBelow, Path.below?_self hsource]

/-- What is behind the source by names goes behind the destination by these names. -/
theorem placeBelow_along {names : List String} (hsource : source.text ≠ "")
    (hdestination : destination.text ≠ "") (hne : names ≠ [])
    (hnames : ∀ name ∈ names, Path.IsName name) :
    placeBelow source destination (source.along names) = pure (destination.along names) := by
  rw [placeBelow, Path.below?_along hsource hnames]
  exact congrArg pure (Path.join_slashed hdestination hne hnames)

end RpmRelease.Storage
