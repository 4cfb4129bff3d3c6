import RpmRelease.Proofs.Execution.Recording
import RpmRelease.Proofs.FileSystem.Erasing
import RpmRelease.Proofs.FileSystem.Opening

/-!
# The steps of delivering a release

What exporting, archiving and building add to a history.  From the time when the archive has been
compressed, files are only removed until the builder is started; so the builder finds that archive
or none.
-/

set_option autoImplicit false

namespace RpmRelease.Execution

variable {host : Host} {r : Release} {R : List Event → Prop}

/-! ## Cleaning and exporting -/

/-- Cleaning removes outputs of the release, one step for each. -/
theorem triple_clean (hR : Lasting R) :
    Triple host r (fun history _ => R history) (Session.files (Staging.clean r))
      fun _ history _ => R history := by
  unfold Staging.clean
  rw [Session.files_bind, Session.files_mapM]
  refine Triple.bind (Triple.mapM fun path hpath => ?_) fun _ => Triple.pure fun _ _ h => h
  rw [Session.files_bind]
  exact Triple.bind (triple_operate hR (.remove path) rfl fun _ _ _ => hpath).left fun _ =>
    Triple.pure fun _ _ h => h

/-- The name of the part that is exported begins with the tag. -/
theorem exists_treeOf (r : Release) : ∃ rest, treeOf r = r.tag.text ++ rest := by
  unfold treeOf
  dsimp only
  split
  · exact ⟨"", by simp⟩
  · exact ⟨":" ++ r.configuration.versionControl.module.text, String.append_assoc⟩

/-- The archive of a tag is asked for after the release was tagged, and then unpacked. -/
theorem triple_exportTag (hR : Lasting R) (htagged : ∀ history, R history → Tagged host r history) :
    Triple host r (fun history _ => R history)
      (Repository.exportTag ⟨r.root⟩ r.tag r.configuration.versionControl.module r.stagingDirectory)
      fun _ history _ => R history ∧ Unpacked host r history := by
  unfold Repository.exportTag
  dsimp only
  refine Triple.bind (triple_succeeds hR .isTagged) fun yes => ?_
  refine Triple.check fun hyes => ?_
  obtain rfl : yes = true := by simpa using hyes
  have hasked := hR.did host r (.ask .isTagged) (.status true)
  refine Triple.bind (triple_run hasked .listTag fun _ _ _ => trivial) fun listed => ?_
  have hlisted := hasked.did host r (.git .listTag) (.bytes listed)
  refine Triple.bind (triple_run hlisted .archiveTag fun history _ h => ?_) fun archive => ?_
  · obtain ⟨rest, hrest⟩ := exists_treeOf r
    exact ⟨htagged history h.1.1, rfl, rest, by rw [GitCommand.args, hrest]⟩
  · have harchived := hlisted.did host r (.git .archiveTag) (.bytes archive)
    refine Triple.weaken (Triple.did harchived (.operate (.unpack archive)) (session_operate rfl)
      fun history world h => ?_)
      (fun _ _ h => h) fun _ _ _ h => ⟨h.1.1.1.1, archive, h.2⟩
    exact ⟨h.1.1.2, ⟨listed, h.1.2⟩, h.2⟩

/-- Exporting into the staging directory comes after tagging. -/
theorem triple_stage (hR : Lasting R) (htagged : ∀ history, R history → Tagged host r history) :
    Triple host r (fun history _ => R history) (Export.stage r ⟨r.root⟩ r.stagingDirectory)
      fun _ history _ => R history ∧ Unpacked host r history := by
  have hexport : Triple host r (fun history _ => R history) (do
      Session.files (Staging.remarked ("Failed to create " ++ r.stagingDirectory.text)
        (Storage.createDirectories r.stagingDirectory))
      Repository.exportTag ⟨r.root⟩ r.tag r.configuration.versionControl.module r.stagingDirectory)
      fun _ history _ => R history ∧ Unpacked host r history :=
    Triple.bind (triple_operate hR .createStaging rfl fun _ _ _ => trivial).left fun _ =>
      triple_exportTag hR htagged
  unfold Export.stage
  dsimp only
  refine Triple.bind (Triple.isDirectory r.stagingDirectory) fun there => ?_
  split
  · refine Triple.bind (triple_operate hR .lookIntoStaging rfl fun _ _ _ => trivial).left fun yes => ?_
    exact Triple.check fun _ => hexport
  · exact hexport

/-! ## Archiving -/

/-- Since the archive was compressed, files have only been removed. -/
def OnlyRemoved (host : Host) (r : Release) (history : List Event) (files : FileSystem) : Prop :=
  ∃ e ∈ history, e.step = .operate .compress ∧ e.outcome host r = .ok .done ∧
    files.Within (e.after host r).files

/-- An operation that only takes nodes away keeps what is known since the archive was compressed. -/
theorem triple_remove {α : Type} (hR : Lasting R) {program : Storage Failure α} {f : α → Answer}
    (operation : Operation) (hprogram : operation.program host r = f <$> program)
    (hrequires : ∀ history world, Requires host r history ⟨.operate operation, world⟩)
    (hwithin : ∀ before a after, program.exec host.caller before = (.ok a, after) →
      after.Within before) :
    Triple host r (fun history files => R history ∧ OnlyRemoved host r history files)
      (Session.files program) fun a history files =>
        (R history ∧ Did host r history (.operate operation) (f a)) ∧
          OnlyRemoved host r history files := by
  refine Triple.step (.operate operation) (session_operate hprogram)
    (fun history world _ => hrequires history world) ?_
  rintro history world a world' ⟨hhistory, e, he, hstep, hdone, hremoved⟩ hexec
  refine ⟨⟨hR history _ hhistory, did_concat (session_operate hprogram) history hexec⟩, e,
    List.mem_append_left _ he, hstep, hdone, ?_⟩
  exact (hwithin _ a _ (Session.of_exec_files_ok hexec)).trans hremoved

/-- Compressing is the last step that writes. -/
theorem triple_compress (hR : Lasting R) :
    Triple host r (fun history _ => R history) (Session.files (Archive.reporting r.archivePath
      (Archive.compress host.codec r.tarPath r.archivePath)))
      fun _ history files => (R history ∧ Did host r history (.operate .compress) .done) ∧
        OnlyRemoved host r history files := by
  have hsession : (Step.operate .compress).session host r = (fun _ => .done) <$>
      Session.files (Archive.reporting r.archivePath
        (Archive.compress host.codec r.tarPath r.archivePath)) := session_operate rfl
  refine Triple.step (.operate .compress) hsession (fun _ _ _ => trivial) ?_
  intro history world a world' hhistory hexec
  have hrun : ((Step.operate .compress).session host r).exec host world = (.ok .done, world') := by
    rw [hsession, Session.exec_map, hexec]
    rfl
  refine ⟨⟨hR history _ hhistory, did_concat hsession history hexec⟩, ⟨.operate .compress, world⟩,
    by simp, rfl, congrArg Prod.fst hrun, ?_⟩
  have hafter : Event.after host r ⟨.operate .compress, world⟩ = world' := congrArg Prod.snd hrun
  rw [hafter]
  exact FileSystem.Within.refl _

/-- Archiving the staging directory takes five steps, the last three of which write nothing. -/
theorem triple_create (hR : Lasting R)
    (hunpacked : ∀ history, R history → Unpacked host r history) :
    Triple host r (fun history _ => R history)
      (Session.files (Archive.create host.codec
        (Archive.fixedTime (host.environment "SOURCE_DATE_EPOCH")) r))
      fun _ history files => (R history ∧ Archived host r history) ∧
        OnlyRemoved host r history files := by
  unfold Archive.create
  simp only [Session.files_bind, Session.files_pure]
  refine Triple.bind (triple_operate hR .writeTar rfl fun history _ h => hunpacked history h)
    fun entries => ?_
  have hwritten := hR.did host r (.operate .writeTar) .done
  refine Triple.bind (triple_compress hwritten) fun _ => ?_
  have hcompressed := hwritten.did host r (.operate .compress) .done
  refine Triple.bind (triple_remove hcompressed .digest rfl (fun _ _ => trivial) ?_) fun digest => ?_
  · intro before digest after hexec
    obtain ⟨_, rfl⟩ := Storage.of_exec_query_ok (Storage.of_exec_mapError_ok hexec)
    exact FileSystem.Within.refl before
  have hdigested := hcompressed.did host r (.operate .digest) .done
  refine Triple.bind (triple_remove hdigested .removeTar rfl (fun _ _ => trivial) ?_) fun _ => ?_
  · intro before _ after hexec
    exact FileSystem.removeFile_within (Storage.of_exec_change_ok (Storage.of_exec_mapError_ok hexec))
  have hremoved := hdigested.did host r (.operate .removeTar) .done
  refine Triple.bind (triple_remove hremoved .removeStaging rfl (fun _ _ => trivial) ?_) fun _ => ?_
  · intro before _ after hexec
    exact Storage.removeAll_within (Storage.of_exec_mapError_ok hexec)
  refine Triple.pure fun history files h => ⟨?_, h.2⟩
  obtain ⟨⟨⟨⟨⟨hhistory, htar⟩, hcompress⟩, hdigest⟩, hremoveTar⟩, hremoveStaging⟩ := h.1
  exact ⟨hhistory, htar, hcompress, hdigest, hremoveTar, hremoveStaging⟩

/-- Archiving what has been unpacked archives the staging directory and only removes files afterwards.
-/
theorem triple_runArchive (hR : Lasting R)
    (hunpacked : ∀ history, R history → Unpacked host r history) :
    Triple host r (fun history _ => R history) (runArchive r)
      fun _ history files => Archived host r history ∧ OnlyRemoved host r history files := by
  unfold runArchive
  refine Triple.read ?_
  refine Triple.bind (triple_create hR hunpacked) fun report => ?_
  refine Triple.bind (Triple.print _) fun _ => ?_
  exact Triple.weaken (Triple.print _) (fun _ _ h => h) fun _ _ _ h => ⟨h.1.2, h.2⟩

/-! ## Building -/

/-- Where the archive was compressed, it is found. -/
theorem exists_found_of_compress {e : Event} (hstep : e.step = .operate .compress)
    (hdone : e.outcome host r = .ok .done) :
    ∃ place mode content, Lookup.find host.caller (e.after host r).files true r.archivePath =
      .ok (place, .file mode host.caller.now (host.codec.compress content)) := by
  obtain ⟨s, world⟩ := e
  obtain rfl : s = .operate .compress := hstep
  have hended := Event.exec_of_outcome hdone
  have hexec : (Session.files (Operation.compress.program host r)).exec host world =
      (.ok .done, Event.after host r ⟨.operate .compress, world⟩) := hended
  obtain ⟨_, hrun, _⟩ := Storage.of_exec_map_ok (Session.of_exec_files_ok hexec)
  have hchange := Storage.of_exec_change_ok (Storage.of_exec_mapError_ok hrun)
  obtain ⟨_, _, hchange⟩ := Run.of_bind_ok hchange
  obtain ⟨⟨place, opened⟩, hopen, hchange⟩ := Run.of_bind_ok hchange
  obtain ⟨content, _, hchange⟩ := Run.of_bind_ok hchange
  obtain ⟨mode, hopened⟩ := FileSystem.opened_of_openWrite hopen
  obtain ⟨mode', hfind⟩ := FileSystem.find_fill hopened (host.codec.compress content)
  refine ⟨place, mode', content, ?_⟩
  rw [← Except.ok.inj hchange]
  exact hfind

/-- A file that is found where only files were removed is the archive of this run. -/
theorem foundOwnArchive_of_isFile {history : List Event} {files : FileSystem}
    (h : OnlyRemoved host r history files)
    (hfile : files.isFile host.caller r.archivePath = true) :
    FoundOwnArchive host r history files := by
  obtain ⟨e, he, hstep, hdone, hremoved⟩ := h
  obtain ⟨place, mode, content, hfind⟩ := exists_found_of_compress hstep hdone
  obtain ⟨l, node, hleft, -⟩ := Lookup.exists_of_isFile hfile
  have hsame := Lookup.find_within hremoved hleft
  obtain ⟨rfl, rfl⟩ : place = l ∧ .file mode host.caller.now (host.codec.compress content) = node := by
    simpa using hfind.symm.trans hsame
  exact ⟨e, he, hstep, place, mode, content, hfind, hleft⟩

/-- Building looks for the archive and then starts the builder with it. -/
theorem build_eq (r : Release) : Builder.build r.configuration.builder r.archivePath = (do
      if !(← Session.isFile r.archivePath) then
        throw (.withHelp ("Archive not found: " ++ r.archivePath.text)
          "Run \x60rpm-rail localdist\x60 or \x60rpm-rail dist\x60 first.")
      startBuilder r) := by
  unfold Builder.build startBuilder startProgram
  refine congrArg _ (funext fun there => ?_)
  dsimp only
  split
  · rfl
  · rw [bind_assoc]
    refine congrArg _ (funext fun answer => ?_)
    cases answer with
    | error e => rfl
    | ok response =>
        dsimp only
        rw [pure_bind]
        refine congrArg _ (funext fun _ => congrArg _ (funext fun _ => ?_))
        rw [Response.succeeded]
        cases response.ending == some 0 <;> rfl

/-- The builder is started with the archive of this run. -/
theorem triple_build :
    Triple host r (fun history files => Archived host r history ∧ OnlyRemoved host r history files)
      (Builder.build r.configuration.builder r.archivePath)
      fun _ history _ => Did host r history .build .done := by
  rw [build_eq]
  refine Triple.bind (Triple.isFile r.archivePath) fun there => Triple.check fun hthere => ?_
  obtain rfl : there = true := by simpa using hthere
  refine Triple.step .build rfl ?_ ?_
  · intro history world h
    exact ⟨h.1.1, foundOwnArchive_of_isFile h.1.2 h.2.symm, List.getLast?_concat⟩
  · intro history world _ world' _ hexec
    exact did_concat (f := fun _ => .done) rfl history hexec

/-- The builder is started with the archive that has been made, and succeeds or ends the run. -/
theorem triple_runBuilder :
    Triple host r (fun history files => Archived host r history ∧ OnlyRemoved host r history files)
      (runBuilder r) fun _ history _ => Did host r history .build .done := by
  unfold runBuilder
  refine Triple.bind (Triple.print _) fun _ => ?_
  exact Triple.bind triple_build fun _ => Triple.print _

end RpmRelease.Execution
