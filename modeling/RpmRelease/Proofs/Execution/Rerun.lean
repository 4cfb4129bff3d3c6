import RpmRelease.Execution
import RpmRelease.Proofs.Archive.Failing
import RpmRelease.Proofs.Archive.Repeating
import RpmRelease.Proofs.Staging.Cleaning
import RpmRelease.Proofs.World

/-!
# Running again

A run for a local distribution removes the outputs that earlier runs have left, gathers the manifest in
a new staging directory and archives that.  Apart from what it prints, it is a program on files, and
after the outputs have been removed this program starts from the same files, whatever had been left.  So
the leftovers have no influence on how the run ends and on what it makes; nor has the time of the run,
when the time of the entries is fixed.
-/

set_option autoImplicit false

namespace RpmRelease

/-! ## Gathering again -/

section Gathering

open Storage

variable {c₁ c₂ : Caller} {fs₁ fs₂ : FileSystem} {r : Release} (hclock : c₁.still = c₂.still)
  (hfs : fs₁.blur true = fs₂.blur true)
include hclock hfs

namespace Staging

/-- Whether a directory is empty does not depend on times. -/
theorem agrees_isEmpty (path : Path) :
    Agrees true c₁ c₂ fs₁ fs₂ (isEmpty path) (isEmpty path) Eq := by
  refine .query_eq hclock hfs fun c fs => ?_
  rw [FileSystem.readDirectory_blur]
  cases fs.readDirectory c path with
  | error e => rfl
  | ok entries => simp [Except.map]

/-- The staging directory is created in the same way. -/
theorem agrees_create : Agrees true c₁ c₂ fs₁ fs₂ (create r) (create r) Eq := by
  have hmake {fs₁ fs₂ : FileSystem} (hfs : fs₁.blur true = fs₂.blur true) :
      Agrees true c₁ c₂ fs₁ fs₂ (do
        remarked ("Failed to create " ++ r.stagingDirectory.text)
          (createDirectories r.stagingDirectory)
        return r.stagingDirectory) (do
        remarked ("Failed to create " ++ r.stagingDirectory.text)
          (createDirectories r.stagingDirectory)
        return r.stagingDirectory) Eq := by
    refine (agrees_createDirectories hclock hfs r.stagingDirectory).mapError.bind ?_
    rintro - - fs₁ fs₂ hfs -
    exact .pure hfs rfl
  rw [create]
  refine (agrees_isDirectory hclock hfs r.stagingDirectory).bind ?_
  rintro there - fs₁ fs₂ hfs rfl
  cases there with
  | false => exact hmake hfs
  | true =>
      refine (agrees_isEmpty hclock hfs r.stagingDirectory).mapError.bind ?_
      rintro empty - fs₁ fs₂ hfs rfl
      cases empty with
      | true => exact hmake hfs
      | false => exact (Agrees.throw (Q := fun _ _ => False) hfs _).bind fun _ _ _ _ _ h => h.elim

end Staging

namespace Manifest

/-- Staging a match does not depend on times. -/
theorem agrees_stageMatch (staging : Path) (outputs : List Path) (source : Path) :
    Agrees true c₁ c₂ fs₁ fs₂ (stageMatch r staging outputs source)
      (stageMatch r staging outputs source) Eq := by
  rw [stageMatch]
  split
  · exact .pure hfs rfl
  · split
    · exact .throw hfs _
    · exact (agrees_copyTree hclock hfs outputs source _).mapError

/-- Staging an entry does not depend on times. -/
theorem agrees_stageEntry (staging : Path) (entry : String) : Agrees true c₁ c₂ fs₁ fs₂
    (stageEntry r staging entry) (stageEntry r staging entry) Eq := by
  rw [stageEntry]
  refine (agrees_expandPattern hclock hfs r.root entry).bind ?_
  rintro found - fs₁ fs₂ hfs rfl
  split
  · exact (Agrees.throw (Q := fun _ _ => False) hfs _).bind fun _ _ _ _ _ h => h.elim
  · have hsame : List.Forall₂ Eq found found := List.forall₂_refl found
    refine Agrees.countOver hfs hsame ?_
    rintro source - fs₁ fs₂ rfl hfs
    exact agrees_stageMatch hclock hfs staging _ source

/-- Staging a manifest does not depend on times. -/
theorem agrees_stage (staging : Path) (manifest : List String) : Agrees true c₁ c₂ fs₁ fs₂
    (stage r staging manifest) (stage r staging manifest) Eq := by
  have hsame : List.Forall₂ Eq manifest manifest := List.forall₂_refl manifest
  refine Agrees.countOver hfs hsame ?_
  rintro entry - fs₁ fs₂ rfl hfs
  exact agrees_stageEntry hclock hfs staging entry

end Manifest

end Gathering

namespace Execution

/-! ## What a run does to the files -/

/-- A session ends like a program on files, and leaves the files that the program leaves. -/
structure Follows {α : Type} (host : Host) (x : Session α) (program : Storage Failure α) : Prop where
  run : ∀ world, (x.exec host world).1 = (program.exec host.caller world.files).1 ∧
    (x.exec host world).2.files = (program.exec host.caller world.files).2

section Follows

variable {α β : Type} {host : Host}

/-- A program on files follows itself. -/
theorem Follows.files (program : Storage Failure α) :
    Follows host (Session.files program) program := ⟨fun _ => ⟨rfl, rfl⟩⟩

/-- Returning a value follows returning it. -/
theorem Follows.pure (a : α) : Follows host (Pure.pure a) (Pure.pure a) := ⟨fun _ => ⟨rfl, rfl⟩⟩

/-- Failing follows failing. -/
theorem Follows.throw (failure : Failure) : Follows host (MonadExcept.throw failure : Session α)
    (MonadExcept.throw failure) := ⟨fun _ => ⟨rfl, rfl⟩⟩

/-- Printing follows doing nothing. -/
theorem Follows.print (line : String) : Follows host (Session.print line) (Pure.pure ()) :=
  ⟨fun _ => ⟨rfl, rfl⟩⟩

/-- A session that reads the host follows what it does on this host. -/
theorem Follows.read {f : Host → Session α} {program : Storage Failure α}
    (h : Follows host (f host) program) : Follows host (MonadReader.read >>= f) program := ⟨h.run⟩

/-- One session after the other follows one program after the other. -/
theorem Follows.bind {x : Session α} {program : Storage Failure α} {f : α → Session β}
    {g : α → Storage Failure β} (hx : Follows host x program) (hf : ∀ a, Follows host (f a) (g a)) :
    Follows host (x >>= f) (program >>= g) := by
  refine ⟨fun world => ?_⟩
  obtain ⟨houtcome, hfiles⟩ := hx.run world
  rw [Session.exec_bind, Storage.exec_bind]
  rcases hrun₁ : x.exec host world with ⟨outcome₁, world'⟩
  rcases hrun₂ : program.exec host.caller world.files with ⟨outcome₂, files⟩
  rw [hrun₁, hrun₂] at houtcome hfiles
  obtain rfl : outcome₁ = outcome₂ := houtcome
  obtain rfl : world'.files = files := hfiles
  cases outcome₁ with
  | error failure => exact ⟨rfl, rfl⟩
  | ok a => exact (hf a).run world'

end Follows

/-- A session that may keep the repository leaves it alone and follows a program on files. -/
structure RunFollows {α : Type} (host : Host) (x : Run α) (program : Storage Failure α) : Prop where
  run : ∀ opened, Follows host (x opened) ((·, opened) <$> program)

section RunFollows

variable {α β : Type} {host : Host}

/-- Returning a value follows returning it, and leaves the repository alone. -/
theorem RunFollows.pure (a : α) : RunFollows host (Pure.pure a) (Pure.pure a) :=
  ⟨fun opened => Follows.pure (a, opened)⟩

/-- A session that does not need the repository leaves it alone. -/
theorem RunFollows.lift {x : Session α} {program : Storage Failure α} (h : Follows host x program) :
    RunFollows host (liftM x) program := by
  refine ⟨fun opened => ?_⟩
  rw [map_eq_pure_bind]
  exact h.bind fun a => Follows.pure (a, opened)

/-- One session after the other follows one program after the other, and leaves the repository alone.
-/
theorem RunFollows.bind {x : Run α} {program : Storage Failure α} {f : α → Run β}
    {g : α → Storage Failure β} (hx : RunFollows host x program)
    (hf : ∀ a, RunFollows host (f a) (g a)) : RunFollows host (x >>= f) (program >>= g) := by
  refine ⟨fun opened => ?_⟩
  have hparts := (hx.run opened).bind fun result => (hf result.1).run result.2
  rw [map_eq_pure_bind, bind_assoc] at hparts
  simp only [pure_bind] at hparts
  rw [map_bind]
  exact hparts

/-- A session that leaves the repository alone follows its program when it begins with none. -/
theorem RunFollows.run' {x : Run α} {program : Storage Failure α} (h : RunFollows host x program) :
    Follows host (x.run' none) program := by
  have hvalue := (h.run none).bind fun result => Follows.pure result.1
  rw [← map_eq_pure_bind, ← map_eq_pure_bind, Functor.map_map, id_map'] at hvalue
  exact hvalue

end RunFollows

/-! ## A run for a local distribution -/

/-- Gathering the manifest in the staging directory. -/
def gather (r : Release) : Storage Failure Unit := do
  let staging ← Staging.create r
  match Manifest.ofRelease r with
  | .error failure => throw failure
  | .ok manifest =>
    let _ ← Manifest.stage r staging manifest

/-- Gathering and archiving. -/
def gatherAndArchive (codec : Codec) (fixed : Option Nat) (r : Release) : Storage Failure Unit := do
  gather r
  let _ ← Archive.create codec fixed r

/-- The plan of the target that archives the working tree. -/
theorem plan_localDist : Target.localDist.plan = [.cleanDist, .localCopy, .archive] := by
  cbv

variable {host : Host} {r : Release} {options : RunOptions}

/-- Copying the working tree follows gathering the manifest. -/
theorem follows_runCopy : Follows host (runCopy r) (gather r) := by
  refine (Follows.files (Staging.create r)).bind fun staging => ?_
  cases Manifest.ofRelease r with
  | error failure => exact Follows.throw failure
  | ok manifest =>
      refine (Follows.files (Manifest.stage r staging manifest)).bind fun files => ?_
      exact Follows.print _

/-- Archiving follows making the archive with the time that the environment fixes. -/
theorem follows_runArchive : Follows host (runArchive r) (do
    let _ ← Archive.create host.codec (Archive.fixedTime (host.environment "SOURCE_DATE_EPOCH")) r) := by
  refine Follows.read ?_
  refine (Follows.files _).bind fun report => ?_
  exact (Follows.print _).bind fun _ => Follows.print _

/-- Cleaning up follows removing the outputs. -/
theorem runFollows_cleanDist : RunFollows host (runAction r options .cleanDist) (do
    let _ ← Staging.clean r) := by
  rw [runAction]
  refine (RunFollows.lift (Follows.files _)).bind fun removed => ?_
  split
  · exact RunFollows.lift (Follows.print _)
  · exact RunFollows.pure ()

/-- A run for a local distribution removes the outputs, gathers and archives. -/
theorem follows_run_localDist (host : Host) (r : Release) (hrun : options.dryRun = false) :
    Follows host (run r options .localDist) (Staging.clean r >>= fun _ =>
      gatherAndArchive host.codec (Archive.fixedTime (host.environment "SOURCE_DATE_EPOCH")) r) := by
  have hclean : RunFollows host (runAction r options .cleanDist) (do let _ ← Staging.clean r) :=
    runFollows_cleanDist
  have hcopy : RunFollows host (runAction r options .localCopy) (gather r) :=
    .lift follows_runCopy
  have harchive : RunFollows host (runAction r options .archive) (do
      let _ ← Archive.create host.codec (Archive.fixedTime (host.environment "SOURCE_DATE_EPOCH")) r) :=
    .lift follows_runArchive
  have hsteps : RunFollows host (runSteps r options [.cleanDist, .localCopy, .archive])
      (Staging.clean r >>= fun _ =>
        gatherAndArchive host.codec (Archive.fixedTime (host.environment "SOURCE_DATE_EPOCH")) r) := by
    have hparts := hclean.bind fun _ => hcopy.bind fun _ =>
      harchive.bind fun _ => RunFollows.pure ()
    simp only [bind_assoc, pure_bind] at hparts
    exact hparts
  have hended := hsteps.run'.bind fun _ =>
    Follows.print ("✅ " ++ Target.localDist.name ++ " complete")
  rw [bind_pure_unit] at hended
  rw [run, plan_localDist, hrun, if_neg (by simp)]
  exact hended

/-- What a run does after the outputs have been removed. -/
theorem exec_run_localDist (host : Host) (world : World) (hrun : options.dryRun = false)
    {removed : List Path} {cleaned : FileSystem}
    (hclean : (Staging.clean r).exec host.caller world.files = (.ok removed, cleaned)) :
    ((run r options .localDist).exec host world).1 = ((gatherAndArchive host.codec
        (Archive.fixedTime (host.environment "SOURCE_DATE_EPOCH")) r).exec host.caller cleaned).1 ∧
      ((run r options .localDist).exec host world).2.files = ((gatherAndArchive host.codec
        (Archive.fixedTime (host.environment "SOURCE_DATE_EPOCH")) r).exec host.caller cleaned).2 := by
  have hends := (follows_run_localDist host r hrun).run world
  rw [Storage.exec_bind, hclean] at hends
  exact hends

/-- Gathering and archiving end in the same way, and with a fixed time make the same. -/
theorem agrees_gatherAndArchive {c₁ c₂ : Caller} {fs₁ fs₂ : FileSystem}
    (hclock : c₁.still = c₂.still) (hfs : fs₁.blur true = fs₂.blur true) (codec : Codec)
    (fixed : Option Nat) : Storage.Agrees fixed.isSome c₁ c₂ fs₁ fs₂ (gatherAndArchive codec fixed r)
      (gatherAndArchive codec fixed r) Eq := by
  have hgather : Storage.Agrees true c₁ c₂ fs₁ fs₂ (gather r) (gather r) Eq := by
    refine (Staging.agrees_create hclock hfs).bind ?_
    rintro staging - fs₁ fs₂ hfs rfl
    cases Manifest.ofRelease r with
    | error failure => exact .throw hfs failure
    | ok manifest =>
        refine (Manifest.agrees_stage hclock hfs staging manifest).bind ?_
        rintro - - fs₁ fs₂ hfs -
        exact .pure hfs rfl
  refine hgather.andThen (fun _ => rfl) ?_
  rintro - - fs₁ fs₂ hfs -
  refine (Archive.agrees_create hclock hfs codec r).bind ?_
  rintro - - fs₁ fs₂ hfs -
  exact .pure hfs rfl

/-! ## Leftovers of earlier runs -/

/-- Two file systems that agree apart from the outputs of a release are the same file system once the
outputs could be removed from both: the outputs are gone, everything else is as it was, and those outputs
are listed that were there.  Cleaning again finds nothing, and the staging directory that is created then
is never refused for what is in it, and is empty.  Runs for a local distribution end in the same way,
also when they differ in their clocks, and with a fixed time of the entries they make the same archive.
The root has to be found without going through an output, as it is when it is written without links and
dots. -/
theorem forgets_leftovers {caller₁ caller₂ : Caller} {fs₁ fs₂ fs₁' fs₂' : FileSystem} {l : Location}
    {top₁ top₂ : Node} {removed₁ removed₂ : List Path}
    (wf₁ : fs₁.WellFormed) (wf₂ : fs₂.WellFormed) (hstem : '/' ∉ r.metadata.stem.toList)
    (hroot₁ : Lookup.find caller₁ (r.bare l fs₁) true r.root = .ok (l, top₁))
    (hroot₂ : Lookup.find caller₂ (r.bare l fs₂) true r.root = .ok (l, top₂))
    (hagree : ∀ k, (∀ name ∈ r.outputNames, ¬ l ++ [name] <+: k) → fs₁.get? k = fs₂.get? k)
    (hclean₁ : (Staging.clean r).exec caller₁ fs₁ = (.ok removed₁, fs₁'))
    (hclean₂ : (Staging.clean r).exec caller₂ fs₂ = (.ok removed₂, fs₂')) :
    fs₁' = fs₂' ∧
    (∀ k, fs₁'.get? k = if ∃ name ∈ r.outputNames, l ++ [name] <+: k then none else fs₁.get? k) ∧
    removed₁ = Staging.standing fs₁ l r.root r.outputNames ∧
    removed₂ = Staging.standing fs₂ l r.root r.outputNames ∧
    (∀ caller ∈ [caller₁, caller₂],
      (Staging.clean r).exec caller fs₁' = (.ok [], fs₁') ∧
      (∀ path, ((Staging.create r).exec caller fs₁').1 ≠ .error (.stage (.stagingNotEmpty path))) ∧
      ∀ path created, (Staging.create r).exec caller fs₁' = (.ok path, created) →
        path = r.stagingDirectory ∧ (Staging.isEmpty path).exec caller created = (.ok true, created)) ∧
    ∀ host₁ host₂ : Host, host₁.caller = caller₁ → host₂.caller = caller₂ →
      caller₁.still = caller₂.still → host₁.codec = host₂.codec →
      host₁.environment "SOURCE_DATE_EPOCH" = host₂.environment "SOURCE_DATE_EPOCH" →
      ∀ (options : RunOptions) (world₁ world₂ : World), options.dryRun = false →
      world₁.files = fs₁ → world₂.files = fs₂ →
        ((run r options .localDist).exec host₁ world₁).1 =
          ((run r options .localDist).exec host₂ world₂).1 ∧
        ((Archive.fixedTime (host₁.environment "SOURCE_DATE_EPOCH")).isSome = true →
          ((run r options .localDist).exec host₁ world₁).2.files.read caller₁ r.archivePath =
            ((run r options .localDist).exec host₂ world₂).2.files.read caller₂ r.archivePath) ∧
        (caller₁ = caller₂ → ((run r options .localDist).exec host₁ world₁).2.files =
          ((run r options .localDist).exec host₂ world₂).2.files) := by
  obtain ⟨hremoved₁, hbare₁, hentry₁⟩ := Staging.of_clean_ok wf₁ hstem hroot₁ hclean₁
  obtain ⟨hremoved₂, hbare₂, hentry₂⟩ := Staging.of_clean_ok wf₂ hstem hroot₂ hclean₂
  -- cleaning leaves what is there apart from the outputs, and that is the same on both sides
  have hbare : r.bare l fs₁ = r.bare l fs₂ := Release.bare_eq_iff.2 hagree
  have hsame : fs₁' = fs₂' := by rw [hbare₁, hbare, hbare₂]
  have hname : r.metadata.stem ∈ r.outputNames := List.mem_cons_self
  -- stated for any caller, since both callers have to clean and create again in the same files
  have hagain : ∀ caller top, Lookup.find caller (r.bare l fs₁) true r.root = .ok (l, top) →
      (∀ name ∈ r.outputNames, Lookup.checkEntry caller (r.bare l fs₁) l r.root name = .ok ()) →
      (Staging.clean r).exec caller (r.bare l fs₁) = (.ok [], r.bare l fs₁) ∧
      (∀ path, ((Staging.create r).exec caller (r.bare l fs₁)).1 ≠
        .error (.stage (.stagingNotEmpty path))) ∧
      ∀ path created, (Staging.create r).exec caller (r.bare l fs₁) = (.ok path, created) →
        path = r.stagingDirectory ∧ (Staging.isEmpty path).exec caller created = (.ok true, created) := by
    intro caller top hroot hentry
    have hnone : (r.bare l fs₁).get? (l ++ [r.metadata.stem]) = none := Staging.get?_bare_output hname
    exact ⟨Staging.exec_clean_bare hstem hroot hentry,
      Staging.exec_create_ne_stagingNotEmpty hroot hstem hnone,
      fun path created => Staging.of_create_ok (Release.bare_wellFormed wf₁) hroot hstem hnone⟩
  refine ⟨hsame, ?_, hremoved₁, hremoved₂, ?_, ?_⟩
  · intro k
    rw [hbare₁, Release.get?_bare]
  · intro caller hcaller
    rw [hbare₁]
    rcases List.mem_pair.1 hcaller with rfl | rfl
    · exact hagain _ _ hroot₁ (hbare₁ ▸ hentry₁)
    · exact hagain _ _ (hbare ▸ hroot₂) (hbare ▸ hbare₂ ▸ hentry₂)
  -- behind cleaning the target is a program on files, which may only differ in times
  · rintro host₁ host₂ rfl rfl hclock hcodec hepoch options world₁ world₂ hrun rfl rfl
    obtain ⟨houtcome₁, hfiles₁⟩ := exec_run_localDist host₁ world₁ hrun hclean₁
    obtain ⟨houtcome₂, hfiles₂⟩ := exec_run_localDist host₂ world₂ hrun hclean₂
    have hrest := agrees_gatherAndArchive (r := r) hclock (congrArg (FileSystem.blur true) hsame)
      host₁.codec (Archive.fixedTime (host₁.environment "SOURCE_DATE_EPOCH"))
    rw [← hcodec, ← hepoch] at houtcome₂ hfiles₂
    refine ⟨?_, ?_, ?_⟩
    · rw [houtcome₁, houtcome₂]
      exact hrest.outcome.eq
    · intro hfixed
      have hblur := hrest.files
      rw [hfixed] at hblur
      rw [hfiles₁, hfiles₂]
      exact FileSystem.read_eq_of_blur hclock hblur r.archivePath
    · intro hcallers
      rw [hfiles₁, hfiles₂, hcallers, hsame]

/-- Version 1 of a package with one file in its manifest. -/
def oneFile : Release :=
  { Release.first with configuration := { manifest := { files := ["a"] } } }

/-- A project without outputs. -/
def tidyTree : FileSystem :=
  .ofNodes [
    (["r", "a"], .file Mode.file 7 [1]),
    (["r"], .directory Mode.directory 0)]

/-- The same project with a staging directory that is not empty, and a link for the archive. -/
def strewnTree : FileSystem :=
  .ofNodes [
    (["r", "p-1.tar.bz2"], .link "a" 0),
    (["r", "p-1", "b"], .file Mode.file 3 [2]),
    (["r", "p-1"], .directory Mode.directory 0),
    (["r", "a"], .file Mode.file 7 [1]),
    (["r"], .directory Mode.directory 0)]

/-- A host at a time, with a fixed time for entries. -/
def hostAt (now : Int) : Host where
  caller := { Caller.superuserAtRoot with now }
  programs := ⟨fun _ => false, fun _ _ _ files => (⟨none, [], []⟩, files)⟩
  codec := Archive.storing
  environment := fun _ => some "0"
  today := ⟨1970, 1, 1⟩

/-- Cleaning up lists the two outputs of the strewn project and none of the tidy one.  Later runs make
the same archive in both. -/
theorem forgets_leftovers_strewn :
    ((Staging.clean oneFile).exec (hostAt 5).caller strewnTree).1 =
      .ok [oneFile.stagingDirectory, oneFile.archivePath] ∧
    ((Staging.clean oneFile).exec (hostAt 6).caller tidyTree).1 = .ok [] ∧
    ((run oneFile {} .localDist).exec (hostAt 5) { files := strewnTree }).1 = .ok () ∧
    ((run oneFile {} .localDist).exec (hostAt 6) { files := tidyTree }).1 = .ok () ∧
    ((run oneFile {} .localDist).exec (hostAt 5) { files := strewnTree }).2.files.read
        (hostAt 5).caller oneFile.archivePath =
      ((run oneFile {} .localDist).exec (hostAt 6) { files := tidyTree }).2.files.read
        (hostAt 6).caller oneFile.archivePath := by
  have hstrewn : ((Staging.clean oneFile).exec (hostAt 5).caller strewnTree).1 =
      .ok [oneFile.stagingDirectory, oneFile.archivePath] := by
    decide +kernel
  have htidy : ((Staging.clean oneFile).exec (hostAt 6).caller tidyTree).1 = .ok [] := by
    decide +kernel
  have hclean₁ := Storage.exec_eq_of_outcome hstrewn
  have hclean₂ := Storage.exec_eq_of_outcome htidy
  have hrun : ((run oneFile {} .localDist).exec (hostAt 6) { files := tidyTree }).1 = .ok () := by
    have hnotDry : RunOptions.dryRun {} = false := rfl
    have hends := exec_run_localDist (hostAt 6) { files := tidyTree } hnotDry hclean₂
    rw [hends.1]
    simp only [gatherAndArchive, Archive.create, Archive.writeTar, Archive.writeEntries,
      Archive.sorted_eq_ite]
    decide +kernel
  have hagree : ∀ k, (∀ name ∈ oneFile.outputNames, ¬ ["r"] ++ [name] <+: k) →
      strewnTree.get? k = tidyTree.get? k := by
    intro k hk
    have hstaging : ["r", "p-1"] ≠ k ∧ ["r", "p-1", "b"] ≠ k := by
      constructor
      · rintro rfl
        exact hk "p-1" (by decide +kernel) (by decide)
      · rintro rfl
        exact hk "p-1" (by decide +kernel) (by decide)
    have harchive : ["r", "p-1.tar.bz2"] ≠ k := by
      rintro rfl
      exact hk "p-1.tar.bz2" (by decide +kernel) (by decide)
    rw [strewnTree, tidyTree, FileSystem.get?_ofNodes, FileSystem.get?_ofNodes]
    simp only [FileSystem.nodeAt, if_neg hstaging.1, if_neg hstaging.2, if_neg harchive]
  have hroot₁ : Lookup.find (hostAt 5).caller (oneFile.bare ["r"] strewnTree) true oneFile.root =
      .ok (["r"], .directory Mode.directory 0) := by
    decide +kernel
  have hroot₂ : Lookup.find (hostAt 6).caller (oneFile.bare ["r"] tidyTree) true oneFile.root =
      .ok (["r"], .directory Mode.directory 0) := by
    decide +kernel
  have hstem : '/' ∉ oneFile.metadata.stem.toList := by decide +kernel
  have wf₁ : strewnTree.WellFormed := FileSystem.wellFormed_ofNodes (by decide)
  have wf₂ : tidyTree.WellFormed := FileSystem.wellFormed_ofNodes (by decide)
  -- of what is said in general the part about whole runs is taken
  obtain ⟨-, -, -, -, -, hruns⟩ :=
    forgets_leftovers wf₁ wf₂ hstem hroot₁ hroot₂ hagree hclean₁ hclean₂
  obtain ⟨houtcome, harchive, -⟩ := hruns (hostAt 5) (hostAt 6) rfl rfl rfl rfl rfl {}
    { files := strewnTree } { files := tidyTree } rfl rfl rfl
  exact ⟨hstrewn, htidy, houtcome.trans hrun, hrun, harchive (by decide +kernel)⟩

end Execution

end RpmRelease
