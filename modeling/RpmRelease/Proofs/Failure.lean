import RpmRelease.Application
import RpmRelease.Proofs.FileSystem.Storage

/-!
# What failures tell of

A failure may tell how another program ended; then the exit status is that of the other program, or the
one for the system when it was ended by a signal.  All other failures have one of two exit statuses of
their own, and no failure has the exit status zero.  Remarks change nothing of this.

Programs on files start no other programs, and none of their failures tells of one: `Throws` follows
the ways in which these programs are put together.
-/

set_option autoImplicit false

namespace RpmRelease

namespace Failure

/-- How the program ended that a failure tells of, if it tells of one. -/
def ending? : Failure → Option Ending
  | stage (.buildFailed _ ending) => some ending
  | stage (.commandFailed _ ending) => some ending
  | repository (.commandFailed _ _ ending) => some ending
  | _ => none

/-- Remarks leave the status that a failure tells of. -/
@[simp] theorem ending?_context (remark : String) (failure : Failure) :
    (failure.context remark).ending? = failure.ending? := by
  cases failure <;> rfl

/-- Remarks leave the exit code. -/
@[simp] theorem exitCode_context (remark : String) (failure : Failure) :
    (failure.context remark).exitCode = failure.exitCode := by
  cases failure <;> rfl

/-- The exit status is that of the program that a failure tells of. -/
theorem exitCode_of_ending? {failure : Failure} {ending : Ending}
    (h : failure.ending? = some ending) : failure.exitCode = .ofEnding ending := by
  cases failure with
  | stage fault => cases fault <;> simp_all [ending?, exitCode, StageFault.exitCode]
  | repository fault => cases fault <;> simp_all [ending?, exitCode, RepositoryFault.exitCode]
  | configuration | file | complaint => simp [ending?] at h

/-- A failure that tells of no program has an exit status of its own. -/
theorem exitCode_of_own {failure : Failure} (h : failure.ending? = none) :
    failure.exitCode = .user ∨ failure.exitCode = .system := by
  cases failure with
  | stage fault => cases fault <;> simp_all [ending?, exitCode, StageFault.exitCode]
  | repository fault => cases fault <;> simp_all [ending?, exitCode, RepositoryFault.exitCode]
  | configuration | file | complaint => simp [exitCode]

end Failure

/-- The number for the end of a program that did not succeed. -/
theorem ExitCode.number_ofEnding {ending : Ending} (h : ending ≠ some 0) :
    (ExitCode.ofEnding ending).number = ending.getD 2 := by
  cases ending with
  | none => rfl
  | some status =>
      have hstatus : status ≠ 0 := fun heq => h (congrArg some heq)
      simp [ofEnding, hstatus, number]

/-- The exit code for a program that failed is never zero. -/
theorem ExitCode.number_ofEnding_ne_zero (ending : Ending) : (ExitCode.ofEnding ending).number ≠ 0 := by
  unfold ofEnding
  split
  · split
    · simp [number]
    · simpa [number]
  · simp [number]

/-- No failure has the exit status of a success. -/
theorem Failure.number_exitCode_ne_zero (failure : Failure) : failure.exitCode.number ≠ 0 := by
  cases h : failure.ending? with
  | some ending =>
      rw [exitCode_of_ending? h]
      exact ExitCode.number_ofEnding_ne_zero ending
  | none => rcases exitCode_of_own h with h | h <;> simp [h, ExitCode.number]

namespace Storage

variable {ε δ α β ι : Type} {P : ε → Prop}

/-- All errors of a program are of one sort. -/
structure Throws (P : ε → Prop) (program : Storage ε α) : Prop where
  error : ∀ caller fs e, (program.exec caller fs).1 = .error e → P e

/-- Returning a value throws nothing. -/
theorem Throws.pure {a : α} : Throws P (pure a : Storage ε α) where
  error := fun _ _ e h => absurd (show (Except.ok a : Except ε α) = .error e from h) (by simp)

/-- Throwing throws what is thrown. -/
theorem Throws.throw {e : ε} (h : P e) : Throws P (throw e : Storage ε α) where
  error := fun _ _ _ he => Except.error.inj he ▸ h

/-- One program after the other throws what either does. -/
theorem Throws.bind {x : Storage ε α} {f : α → Storage ε β} (hx : Throws P x)
    (hf : ∀ a, Throws P (f a)) : Throws P (x >>= f) where
  error := fun caller fs e h => by
    have hrun := exec_eq_of_outcome h
    rcases of_exec_bind_error hrun with hfirst | ⟨a, middle, -, hsecond⟩
    · exact hx.error caller fs e (congrArg Prod.fst hfirst)
    · exact (hf a).error caller middle e (congrArg Prod.fst hsecond)

/-- What would be done after an error does not matter. -/
theorem Throws.throwFirst {e : ε} {f : β → Storage ε α} (h : P e) :
    Throws P (MonadExcept.throw e >>= f) where
  error := fun _ _ _ he => Except.error.inj he ▸ h

/-- A check throws its own error. -/
theorem Throws.check {c : Prop} [Decidable c] {e : ε} {f : β → Storage ε α} {x : Storage ε α}
    (h : P e) (hx : Throws P x) : Throws P (if c then MonadExcept.throw e >>= f else x) := by
  split
  · exact .throwFirst h
  · exact hx

/-- A question about the files throws what it answers as an error. -/
theorem Throws.query {f : Caller → FileSystem → Except ε α}
    (h : ∀ caller fs e, f caller fs = .error e → P e) : Throws P (query f) where
  error := h

/-- Asking whether there is a directory throws nothing. -/
theorem Throws.isDirectory {path : Path} : Throws P (isDirectory path) :=
  .query fun _ _ _ h => absurd h (by simp)

/-- Asking whether there is a file throws nothing. -/
theorem Throws.isFile {path : Path} : Throws P (isFile path) :=
  .query fun _ _ _ h => absurd h (by simp)

/-- Looking at the outcome of a program throws nothing. -/
theorem Throws.attempt {x : Storage δ α} : Throws P (attempt x : Storage ε (Except δ α)) where
  error := fun caller fs e h => absurd
    (show (Except.ok (x.exec caller fs).1 : Except ε (Except δ α)) = .error e from h) (by simp)

/-- Errors that are turned into others are as those are, whatever they were. -/
theorem Throws.mapError {f : δ → ε} {x : Storage δ α} (h : ∀ e, P (f e)) :
    Throws P (mapError f x) where
  error := fun caller fs e he => by
    have hmap : (x.exec caller fs).1.mapError f = .error e := he
    rcases hx : (x.exec caller fs).1 with cause | a
    · rw [hx] at hmap
      exact Except.error.inj hmap ▸ h cause
    · rw [hx] at hmap
      simp [Except.mapError] at hmap

/-- Errors that are turned into others are thrown as these. -/
theorem Throws.mapError_of {Q : δ → Prop} {f : δ → ε} {x : Storage δ α} (hx : Throws Q x)
    (h : ∀ e, Q e → P (f e)) : Throws P (Storage.mapError f x) where
  error := fun caller fs e he => by
    have hmap : (x.exec caller fs).1.mapError f = .error e := he
    rcases hcause : (x.exec caller fs).1 with cause | a
    · rw [hcause] at hmap
      exact Except.error.inj hmap ▸ h cause (hx.error caller fs cause hcause)
    · rw [hcause] at hmap
      simp [Except.mapError] at hmap

/-- Counting over items throws what the program of an item does. -/
theorem Throws.countOver {program : ι → Storage ε Nat} (h : ∀ item, Throws P (program item))
    (items : List ι) : Throws P (countOver program items) := by
  induction items with
  | nil => exact .pure
  | cons item items ih => exact (h item).bind fun _ => ih.bind fun _ => .pure

/-- Programs for the items of a list throw what that of an item does. -/
theorem Throws.forM {program : ι → Storage ε Unit} (h : ∀ item, Throws P (program item))
    (items : List ι) : Throws P (items.forM program) := by
  induction items with
  | nil => exact .pure
  | cons item items ih => exact (h item).bind fun _ => ih

/-- Programs that give something for each item of a list throw what that of an item does. -/
theorem Throws.mapM {program : ι → Storage ε α} (h : ∀ item, Throws P (program item))
    (items : List ι) : Throws P (items.mapM program) := by
  induction items with
  | nil => exact .pure
  | cons item items ih =>
      rw [List.mapM_cons]
      exact (h item).bind fun _ => ih.bind fun _ => .pure

end Storage

/-! ## Programs on files -/

open Storage (Throws)

/-- A failure that tells of no other program. -/
def Failure.IsOwn (failure : Failure) : Prop :=
  failure.ending? = none

/-- Failures made from errors of one step are of the sort that they are made to be. -/
theorem throws_query_mapError {ε α : Type} {f : Caller → FileSystem → Except ε α} {g : ε → Failure}
    (h : ∀ e, (g e).IsOwn) :
    Throws Failure.IsOwn (Storage.query fun caller fs => (f caller fs).mapError g) :=
  .query fun _ _ _ herror => by
    obtain ⟨cause, rfl⟩ := Run.of_mapError_error herror
    exact h cause

/-- A remarked program throws failures of its own. -/
theorem Staging.throws_remarked {α : Type} (remark : String) (program : Storage FileError α) :
    Throws Failure.IsOwn (remarked remark program) :=
  .mapError fun _ => rfl

/-- Removing the outputs throws failures of its own. -/
theorem Staging.throws_clean (r : Release) : Throws Failure.IsOwn (clean r) := by
  unfold clean
  refine Throws.bind (Throws.mapM (fun path => ?_) _) fun _ => .pure
  exact (throws_remarked _ _).bind fun _ => .pure

/-- Making the staging directory throws failures of its own. -/
theorem Staging.throws_create (r : Release) : Throws Failure.IsOwn (create r) := by
  have hmake : Throws Failure.IsOwn (do
      remarked ("Failed to create " ++ r.stagingDirectory.text)
        (Storage.createDirectories r.stagingDirectory)
      return r.stagingDirectory) :=
    (throws_remarked _ _).bind fun _ => .pure
  unfold create
  refine Throws.isDirectory.bind fun there => ?_
  split
  · exact Throws.bind (.mapError fun _ => rfl) fun empty => .check rfl hmake
  · exact hmake

namespace Storage

/-- Finding the place of a copy throws failures of its own. -/
theorem throws_placeBelow (source destination path : Path) :
    Throws Failure.IsOwn (placeBelow source destination path) := by
  unfold placeBelow
  split
  · exact .pure
  · exact .throw rfl

/-- Looking at what a walk meets throws failures of its own. -/
theorem throws_nodeMet (path : Path) : Throws Failure.IsOwn (nodeMet path) :=
  throws_query_mapError fun _ => rfl

/-- Expanding a pattern throws failures of its own. -/
theorem throws_expandPattern (root : Path) (pattern : String) :
    Throws Failure.IsOwn (expandPattern root pattern) :=
  throws_query_mapError fun e => by cases e <;> rfl

/-- Copying a directory throws failures of its own. -/
theorem throws_copyDirectory (skip : List Path) (source destination : Path) (steps : Nat)
    (path : Path) : Throws Failure.IsOwn (copyDirectory skip source destination steps path) := by
  -- on the depth; every error on the way is turned into a failure of its own
  induction steps generalizing path with
  | zero => exact .pure
  | succ steps ih =>
      have hentry (child : Path) (node : Node) : Throws Failure.IsOwn (
          if node.kind == .directory then copyDirectory skip source destination steps child
          else if skip.any child.same then pure 0
          else do
            let target ← placeBelow source destination child
            let node ← nodeMet child
            mapError .file (copyEntry child target node)
            return 1) := by
        split
        · exact ih child
        · split
          · exact .pure
          · refine (throws_placeBelow _ _ _).bind fun _ => (throws_nodeMet _).bind fun _ => ?_
            exact Throws.bind (.mapError fun _ => rfl) fun _ => .pure
      unfold copyDirectory
      refine Throws.attempt.bind fun opened => ?_
      split
      · exact .pure
      · refine (throws_placeBelow _ _ _).bind fun target => (throws_nodeMet _).bind fun _ => ?_
        refine Throws.bind (.mapError fun _ => rfl) fun _ => ?_
        cases opened with
        | error e => exact .throwFirst rfl
        | ok place =>
            refine Throws.bind .pure fun place => ?_
            refine Throws.bind (.query fun _ _ _ h => absurd h (by simp)) fun entries => ?_
            exact Throws.countOver (fun entry => hentry _ entry.2) entries

/-- Copying a tree throws failures of its own. -/
theorem throws_copyTree (skip : List Path) (source destination : Path) :
    Throws Failure.IsOwn (copyTree skip source destination) := by
  unfold copyTree
  refine Throws.bind (throws_query_mapError fun _ => by exact rfl) fun node => ?_
  split
  · exact throws_copyDirectory _ _ _ _ _
  · exact Throws.bind (.mapError fun _ => rfl) fun _ => .pure

/-- Copying with a remark on what could not be copied. -/
theorem throws_copyTree_context (skip : List Path) (source destination : Path) (remark : String) :
    Throws Failure.IsOwn ((copyTree skip source destination).mapError (·.context remark)) :=
  (throws_copyTree skip source destination).mapError_of fun e h => by
    rw [Failure.IsOwn, Failure.ending?_context, h]

end Storage

/-- A manifest without entries is a failure of its own. -/
theorem Manifest.isOwn_of_ofRelease {r : Release} {failure : Failure}
    (h : ofRelease r = .error failure) : failure.IsOwn := by
  unfold ofRelease at h
  split at h
  · exact Except.error.inj h ▸ rfl
  · exact absurd h (by simp)

/-- Staging a manifest throws failures of its own. -/
theorem Manifest.throws_stage (r : Release) (staging : Path) (manifest : List String) :
    Throws Failure.IsOwn (stage r staging manifest) := by
  have hmatch (source : Path) : Throws Failure.IsOwn
      (stageMatch r staging [staging, r.tarPath, r.archivePath] source) := by
    unfold stageMatch
    split
    · exact .pure
    · split
      · exact .throw rfl
      · exact Storage.throws_copyTree_context _ _ _ _
  refine Throws.countOver (fun entry => ?_) manifest
  refine (Storage.throws_expandPattern _ _).bind fun found => ?_
  exact .check rfl (Throws.countOver hmatch found)

/-- Reporting the path of an error keeps the failure one of its own. -/
theorem Archive.throws_reporting {α : Type} (path : Path) (program : Storage FileError α) :
    Throws Failure.IsOwn (reporting path program) :=
  .mapError fun _ => rfl

/-- Archiving throws failures of its own. -/
theorem Archive.throws_create (codec : Codec) (fixed : Option Nat) (r : Release) :
    Throws Failure.IsOwn (create codec fixed r) := by
  unfold create
  refine (throws_reporting _ _).bind fun entries => (throws_reporting _ _).bind fun _ => ?_
  refine (throws_reporting _ _).bind fun digest => (throws_reporting _ _).bind fun _ => ?_
  exact (throws_reporting _ _).bind fun _ => .pure

/-- Unpacking an archive throws failures of its own. -/
theorem Repository.throws_unpackAll (destination : Path) (archive : Bytes) :
    Throws Failure.IsOwn (unpackAll destination archive) := by
  unfold unpackAll
  cases Tar.members archive with
  | mk members defect =>
      refine Throws.bind (Throws.forM (P := Failure.IsOwn) (fun member => ?_) _) fun _ => ?_
      · exact .mapError fun _ => rfl
      · cases defect with
        | some e => exact .throw rfl
        | none => exact .pure

namespace Project

/-- Installing throws failures of its own. -/
theorem throws_install (r : Release) (given : InstallDirectories) :
    Throws Failure.IsOwn (install r given) := by
  have hmatch (target source : Path) : Throws Failure.IsOwn (installMatch target source) := by
    unfold installMatch
    split
    · exact .pure
    · exact Storage.throws_copyTree_context _ _ _ _
  have hpattern (target : Path) (pattern : String) :
      Throws Failure.IsOwn (installPattern r target pattern) := by
    refine (Storage.throws_expandPattern _ _).bind fun found => ?_
    exact .check rfl (Throws.countOver (hmatch target) found)
  have hset (target : Path) (patterns : List String) :
      Throws Failure.IsOwn (installSet r target patterns) := by
    unfold installSet
    split
    · exact .pure
    · exact (Staging.throws_remarked _ _).bind fun _ => Throws.countOver (hpattern target) patterns
  unfold install
  exact (hset _ _).bind fun bin => (hset _ _).bind fun lib => (hset _ _).bind fun etc => .pure

/-- Cleaning the project throws failures of its own. -/
theorem throws_clean (r : Release) : Throws Failure.IsOwn (clean r) := by
  have hmatch (path : Path) : Throws Failure.IsOwn (cleanMatch path) := by
    unfold cleanMatch
    refine Throws.isFile.bind fun found => ?_
    split
    · exact (Staging.throws_remarked _ _).bind fun _ => .pure
    · exact .pure
  unfold clean
  refine Throws.bind (Throws.mapM (fun pattern => ?_) _) fun _ => .pure
  unfold cleanPattern
  refine (Storage.throws_expandPattern _ _).bind fun found => Throws.bind ?_ fun _ => .pure
  exact Throws.mapM (fun path => (hmatch path).bind fun _ => .pure) found

end Project

/-- Loading the configuration throws failures of its own. -/
theorem Configuration.throws_load (root : Path) (given : Option Path) :
    Throws Failure.IsOwn (load root given) := by
  have hread (path : Path) (e : Failure) (caller : Caller) (fs : FileSystem)
      (h : (do
        let text ← (fs.readText caller path).mapError fun e =>
          (Failure.file e).context ("Failed to read config from " ++ path.text)
        (ofText text).mapError fun rejection =>
          (Failure.about (.configuration rejection)).context
            ("Failed to parse config from " ++ path.text)) = .error e) : e.IsOwn := by
    rcases Run.of_bind_error h with hfirst | ⟨text, -, hsecond⟩
    · obtain ⟨cause, rfl⟩ := Run.of_mapError_error hfirst
      rfl
    · obtain ⟨cause, rfl⟩ := Run.of_mapError_error hsecond
      rfl
  unfold load
  cases given
  on_goal 1 => refine Throws.bind (.query fun _ _ _ h => absurd h (by simp)) fun found => ?_
  on_goal 2 => refine Throws.bind .pure fun found => ?_
  all_goals
    cases found with
    | none => exact .pure
    | some path => exact .query fun caller fs e => hread path e caller fs

/-- Finding the descriptor throws failures of its own. -/
theorem Configuration.throws_descriptorPath (configuration : Configuration) (root : Path) :
    Throws Failure.IsOwn (configuration.descriptorPath root) := by
  unfold descriptorPath
  split
  · exact .pure
  · refine .query fun caller fs e h => ?_
    rcases Run.of_bind_error h with hfirst | ⟨entries, -, hsecond⟩
    · obtain ⟨cause, rfl⟩ := Run.of_mapError_error hfirst
      rfl
    · dsimp only at hsecond
      split at hsecond
      · exact Except.error.inj hsecond ▸ rfl
      · exact absurd (show Except.ok _ = Except.error e from hsecond) (by simp)
      · exact Except.error.inj hsecond ▸ rfl

/-- Finding the release of a root throws failures of its own. -/
theorem Release.throws_resolve (root : Path) (given : Option Path) :
    Throws Failure.IsOwn (resolve root given) := by
  unfold resolve readMetadata
  refine (Configuration.throws_load root given).bind fun configuration => ?_
  refine (configuration.throws_descriptorPath root).bind fun descriptor => ?_
  refine Throws.bind ?_ fun metadata => .pure
  refine (throws_query_mapError fun _ => by exact rfl).bind fun text => ?_
  split
  · exact .pure
  · exact .throw rfl

/-- Finding the root throws failures of its own. -/
theorem Application.throws_findRoot (given : Option Path) :
    Throws Failure.IsOwn (findRoot given) := by
  have hcanonical (directory : Path) : Throws Failure.IsOwn (Storage.query fun caller fs =>
      (fs.canonical caller directory).mapError fun e =>
        (Failure.file e).context ("Project directory not found: " ++ directory.text)) :=
    throws_query_mapError fun _ => rfl
  unfold findRoot
  cases given with
  | some directory => exact Throws.bind .pure hcanonical
  | none =>
      refine Throws.bind (.query fun caller fs e h => ?_) hcanonical
      cases hdirectory : fs.canonical { caller with superuser := true } ⟨"."⟩ with
      | ok directory => simp [hdirectory, Except.mapError] at h
      | error cause =>
          rw [hdirectory] at h
          exact Except.error.inj h ▸ rfl

end RpmRelease
