import RpmRelease.Proofs.FileSystem.Replicating
import RpmRelease.Proofs.Manifest.Copying

/-!
# The permissions of copied directories

A file is copied with its mode.  A directory is not: the walk creates the directory of a copy when it
meets the original, with the permissions that directories are created with, and does not come back to
it.  So no directory that a copy adds has other permissions, in whatever layout and however the copy
ends, and the permissions of a directory are those of its copy only when they are the usual ones.
-/

set_option autoImplicit false

namespace RpmRelease

open Relation (ReflTransGen)
open Lookup (Plain)

variable {caller : Caller} {fs fs' : FileSystem} {p source destination : Path} {l : Location}
  {skip : List Path} {node top : Node} {n : Nat}

/-! ## Directories that are there anew -/

namespace FileSystem

/-- Every directory was there before or has just been created. -/
def DirectoriesFrom (caller : Caller) (before after : FileSystem) : Prop :=
  ∀ l node, after.get? l = some node → node.kind = .directory →
    before.get? l = some node ∨ node = .directory Mode.directory caller.now

/-- Setting a node creates no directory but with the usual permissions. -/
theorem directoriesFrom_set {new : Node}
    (hnew : new.kind = .directory → new = .directory Mode.directory caller.now) :
    DirectoriesFrom caller fs (fs.set l new) := by
  intro k node hnode hkind
  rw [get?_set] at hnode
  split at hnode
  · obtain rfl := Option.some.inj hnode
    exact .inr (hnew hkind)
  · exact .inl hnode

/-- A change of a well-formed file system that keeps it well-formed and creates directories only as
directories are created. -/
def Creates (caller : Caller) (before after : FileSystem) : Prop :=
  before.WellFormed → after.WellFormed ∧ DirectoriesFrom caller before after

/-- Putting a node is a change that creates no directory but with the usual permissions. -/
theorem creates_put {new : Node} (puts : fs.Puts l new)
    (hnew : new.kind = .directory → new = .directory Mode.directory caller.now) :
    Creates caller fs (fs.set l new) :=
  fun wf => ⟨wf.put puts, directoriesFrom_set hnew⟩

/-- Changes that create directories with the usual permissions only do so one after the other. -/
theorem creates_of_changes (h : ReflTransGen (Creates caller) fs fs') : Creates caller fs fs' := by
  induction h with
  | refl => exact fun wf => ⟨wf, fun _ _ hnode _ => .inl hnode⟩
  | tail _ hlast ih =>
      intro wf
      obtain ⟨wf₁, hfirst⟩ := ih wf
      obtain ⟨wf₂, hsecond⟩ := hlast wf₁
      refine ⟨wf₂, fun l node hnode hkind => ?_⟩
      rcases hsecond l node hnode hkind with hbefore | hcreated
      · exact hfirst l node hbefore hkind
      · exact .inr hcreated

end FileSystem

open FileSystem (Creates DirectoriesFrom)

namespace Storage

/-! ## Programs -/

/-- Creating directories gives them the usual permissions. -/
theorem creates_createDirectories :
    Makes (Creates caller) caller fs (createDirectories p) fun _ _ => True := by
  refine makes_createAncestors fun path _ fs₁ fs₂ _ hmake wf => ?_
  obtain ⟨l, name, _, _, _, puts, rfl⟩ := FileSystem.puts_of_makeDirectory wf hmake
  exact FileSystem.creates_put puts (fun _ => rfl) wf

/-- Copying an entry creates no directory with other permissions. -/
theorem creates_copyEntry :
    Makes (Creates caller) caller fs (copyEntry source destination node) fun _ _ => True := by
  obtain ⟨f, hchange⟩ := exists_copyEntry_eq_change source destination node
  rw [hchange]
  refine .change fun fs' hexec wf => ?_
  rw [← hchange, copyEntry] at hexec
  split at hexec
  · obtain ⟨target, -, hlink⟩ := Run.of_bind_ok (of_exec_change_ok hexec)
    obtain ⟨place, hvacant, rfl⟩ := FileSystem.of_makeLink_ok hlink
    obtain ⟨_, _, _, _, rfl, -, puts⟩ := FileSystem.puts_of_vacantEntry wf hvacant
    exact FileSystem.creates_put (puts _) (by simp [Node.kind]) wf
  · obtain ⟨_, _, _, _, _, _, _, _, _, _, puts, rfl⟩ := of_copyFile_ok wf hexec
    exact FileSystem.creates_put puts (by simp [Node.kind]) wf

/-- Finding the place of a copy creates no directory with other permissions. -/
theorem creates_placeBelow {path : Path} :
    Makes (Creates caller) caller fs (placeBelow source destination path) fun _ _ => True := by
  unfold placeBelow
  split
  · exact .pure trivial
  · exact .throw

/-- Copying one of the entries that are met creates no directory with other permissions, if going
deeper does not. -/
theorem creates_copyMet {deeper : Path → Storage Failure Nat} {path : Path}
    {entry : String × Node}
    (hdeeper : ∀ fs child, Makes (Creates caller) caller fs (deeper child) fun _ _ => True) :
    Makes (Creates caller) caller fs (copyMet skip source destination deeper path entry)
      fun _ _ => True := by
  unfold copyMet
  split
  · exact hdeeper fs _
  · dsimp only
    split
    · exact .pure trivial
    · refine creates_placeBelow.bind fun target fs₁ _ _ => ?_
      refine Makes.query.bind fun met fs₂ _ _ => ?_
      exact creates_copyEntry.mapError.bind fun _ _ _ _ => .pure trivial

/-- Copying a directory creates no directory with other permissions. -/
theorem creates_copyDirectory (steps : Nat) (path : Path) :
    Makes (Creates caller) caller fs (copyDirectory skip source destination steps path)
      fun _ _ => True := by
  induction steps generalizing fs path with
  | zero => exact .pure trivial
  | succ steps ih =>
      rw [← copyDirectoryBy_children, copyDirectoryBy]
      refine Makes.attempt_query.bind fun opened fs₁ _ _ => ?_
      split
      · exact .pure trivial
      · refine creates_placeBelow.bind fun target fs₂ _ _ => ?_
        refine Makes.query.bind fun met fs₃ _ _ => ?_
        refine creates_createDirectories.mapError.bind fun _ fs₄ _ _ => ?_
        cases opened with
        | error e => exact Makes.bind .throw fun _ _ _ h => absurd h id
        | ok place =>
            refine Makes.bind (.pure (Q := fun _ _ => True) trivial) fun _ fs₅ _ _ => ?_
            refine Makes.query.bind fun entries fs₆ _ _ => ?_
            refine Makes.countOver fun entry _ fs₇ _ => creates_copyMet fun fs child => ?_
            rw [copyDirectoryBy_children]
            exact ih child

/-- Copying a tree, in whatever layout and however it ends, creates directories only as directories are
created. -/
theorem creates_copyTree (skip : List Path) (source destination : Path) (caller : Caller)
    (fs : FileSystem) :
    Makes (Creates caller) caller fs (copyTree skip source destination) fun _ _ => True := by
  unfold copyTree
  refine Makes.query.bind fun node fs₁ _ _ => ?_
  split
  · exact creates_copyDirectory _ _
  · refine Makes.bind (Q := fun _ _ => True) (Makes.mapError ?_) fun _ _ _ _ => .pure trivial
    cases destination.parent? with
    | none => exact creates_copyEntry
    | some above => exact creates_createDirectories.bind fun _ fs₂ _ _ => creates_copyEntry

/-! ## What a copy has of the permissions -/

/-- Every directory in a fresh copy has the permissions of a new directory, so that it has those of the
directory it stands for only when they are the same. -/
theorem permissions_of_copyTree (wf : fs.WellFormed)
    (hsource : Lookup.find caller fs false source = .ok (l, top)) (hkind : top.kind = .directory)
    (fresh : Fresh caller fs destination)
    (houtside : ∀ names, Kept skip source names → Lookup.destined caller destination ≠ l ++ names)
    (h : (copyTree skip source destination).exec caller fs = (.ok n, fs')) :
    ∀ names original, fs.get? (l ++ names) = some original → original.kind = .directory →
      Kept skip source names →
      ∃ copy, fs'.get? (Lookup.destined caller destination ++ names) = some copy ∧
        copy.kind = .directory ∧
        (copy.mode.permissions = original.mode.permissions ↔
          original.mode.permissions = Mode.directory.permissions) := by
  intro names original horiginal hdirectory hkept
  obtain ⟨-, hfrom⟩ := FileSystem.creates_of_changes
    (creates_copyTree skip source destination caller fs).changes wf
  rw [h] at hfrom
  rw [← copyTreeBy_children, exec_copyTreeBy_directory hsource hkind] at h
  have hreplicated :=
    (replicated_of_copyDirectoryBy wf permutes_children hsource hkind fresh houtside h).2
  obtain ⟨copy, hcopy, hlike⟩ := hreplicated.copied names original horiginal fun _ => hkept
  have hcopyKind : copy.kind = .directory := by
    cases original <;> cases copy <;> simp_all [Node.Like, Node.kind]
  refine ⟨copy, hcopy, hcopyKind, ?_⟩
  -- nothing was there before, so the directory has been created
  rcases hfrom _ copy hcopy hcopyKind with hbefore | rfl
  · simp [fresh.vacant_below wf names] at hbefore
  · exact eq_comm

/-- A directory that is closed to all others, with an open one in it. -/
def closedTree : FileSystem :=
  .ofNodes [
    (["s", "a"], .file Mode.file 0 [1]),
    (["s", "d"], .directory Mode.directory 0),
    (["s"], .directory 0o700#12 0)]

/-- The path of the closed directory leads to it. -/
theorem find_closedTree : Lookup.find .userAtRoot closedTree false ⟨"/s"⟩ =
    .ok (["s"], .directory 0o700#12 0) := by
  decide +kernel

/-- Nothing is where the closed directory is copied to. -/
theorem fresh_closedTree : Fresh .userAtRoot closedTree ⟨"/c"⟩ :=
  ⟨by decide, by decide +kernel, by decide +kernel⟩

/-- The copy of the closed directory does not go into the directory. -/
theorem destined_c (names : List String) : Lookup.destined .userAtRoot ⟨"/c"⟩ ≠ ["s"] ++ names := by
  have hdestined : Lookup.destined .userAtRoot ⟨"/c"⟩ = ["c"] := by decide +kernel
  rw [hdestined]
  simp

/-- In the copy of the closed directory, the open one has its permissions. -/
theorem permissions_of_copyTree_open : ∃ fs' copy,
    (copyTree [] ⟨"/s"⟩ ⟨"/c"⟩).exec .userAtRoot closedTree = (.ok 1, fs') ∧
    fs'.get? ["c", "d"] = some copy ∧ copy.kind = .directory ∧
    copy.mode.permissions = Mode.directory.permissions := by
  have hrun : (copyTree [] ⟨"/s"⟩ ⟨"/c"⟩).exec .userAtRoot closedTree = (.ok 1, _) :=
    exec_eq_of_outcome (by decide +kernel)
  obtain ⟨copy, hcopy, hkind, hsame⟩ := permissions_of_copyTree
    (FileSystem.wellFormed_ofNodes (by decide)) find_closedTree rfl fresh_closedTree
    (fun names _ => destined_c names) hrun ["d"] (.directory Mode.directory 0) (by decide +kernel) rfl
    (by decide +kernel)
  have hdestined : Lookup.destined .userAtRoot ⟨"/c"⟩ ++ ["d"] = ["c", "d"] := by decide +kernel
  rw [hdestined] at hcopy
  exact ⟨_, copy, hrun, hcopy, hkind, hsame.2 rfl⟩

/-- The copy of the closed directory is open. -/
theorem copyTree_opens_directory : closedTree.WellFormed ∧
    Lookup.find .userAtRoot closedTree false ⟨"/s"⟩ = .ok (["s"], .directory 0o700#12 0) ∧
    Fresh .userAtRoot closedTree ⟨"/c"⟩ ∧
    (∀ names, Lookup.destined .userAtRoot ⟨"/c"⟩ ≠ ["s"] ++ names) ∧
    ∃ fs' copy, (copyTree [] ⟨"/s"⟩ ⟨"/c"⟩).exec .userAtRoot closedTree = (.ok 1, fs') ∧
      fs'.get? ["c"] = some copy ∧ copy.kind = .directory ∧
      copy.mode.permissions ≠ (Node.directory 0o700#12 0).mode.permissions := by
  refine ⟨FileSystem.wellFormed_ofNodes (by decide), find_closedTree, fresh_closedTree, destined_c, _,
    .directory Mode.directory 0, exec_eq_of_outcome (by decide +kernel), by decide +kernel, rfl, ?_⟩
  decide

end Storage

end RpmRelease
