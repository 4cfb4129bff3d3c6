import RpmRelease.Proofs.Archive.Failing
import RpmRelease.Proofs.Archive.Reproducing
import RpmRelease.Proofs.FileSystem.Growing

/-!
# What a successful run of archiving leaves

Archiving puts a compressed archive in the place of the staging directory.  The tar file is written
and stands beside the staging directory while it is compressed; then both are removed.  When nothing
of this happens in the staging directory itself, the archive holds what was staged, and everything
but the three outputs is as it was.

That the archives stand beside the staging directory, and not in it, is a condition on the release
and on the file system: a staging directory that is a link to where the archives are written is
archived with its own tar file.
-/

set_option autoImplicit false

namespace RpmRelease

/-! ## The directory of the outputs -/

/-- A name stays a name when an ending without slashes is added that is not made of dots only. -/
theorem Path.IsName.append {name ending : String} (hname : Path.IsName name)
    (hslash : '/' ∉ ending.toList) (hletter : ∃ c ∈ ending.toList, c ≠ '.') :
    Path.IsName (name ++ ending) := by
  obtain ⟨c, hc, hdot⟩ := hletter
  have hmem : c ∈ (name ++ ending).toList := by simp [hc]
  refine ⟨?_, by simpa using ⟨hname.no_slash, hslash⟩, ?_, ?_⟩ <;>
    (intro h; rw [h] at hmem; simp [hdot] at hmem)

/-- The outputs of a release are entries of the directory that one path leads to, and their names
begin with the same name. -/
structure Release.InDirectory (r : Release) (above : Path) (name : String) : Prop where
  isName : Path.IsName name
  staging : r.stagingDirectory = above.join ⟨name⟩
  tar : r.tarPath = above.join ⟨name ++ ".tar"⟩
  archive : r.archivePath = above.join ⟨name ++ ".tar.bz2"⟩

namespace Release

variable {r : Release} {above : Path} {name : String}

/-- The tar file has a proper name. -/
theorem InDirectory.isName_tar (h : r.InDirectory above name) : Path.IsName (name ++ ".tar") :=
  h.isName.append (by decide) ⟨'t', by decide, by decide⟩

/-- The compressed archive has a proper name. -/
theorem InDirectory.isName_archive (h : r.InDirectory above name) :
    Path.IsName (name ++ ".tar.bz2") :=
  h.isName.append (by decide) ⟨'t', by decide, by decide⟩

/-- Outputs whose stem is a name stand in the root. -/
theorem inDirectory_of_no_slash (hstem : '/' ∉ r.metadata.stem.toList) :
    r.InDirectory r.root r.metadata.stem where
  isName := isName_of_mem_outputNames hstem _ List.mem_cons_self
  staging := rfl
  tar := rfl
  archive := rfl

end Release

/-! ## Entries of the directory -/

/-- An entry is not at or below another one whose name it begins with. -/
theorem FileSystem.not_below_entry {l : Location} {name ending : String} (h : ending ≠ "") :
    ¬ l ++ [name] <+: l ++ [name ++ ending] := by
  rw [List.prefix_append_right_inj]
  intro hprefix
  have hname : name = name ++ ending := by simpa using hprefix
  exact h ((String.append_right_inj name).1 ((String.append_empty (s := name)).trans hname)).symm

namespace Lookup

variable {caller : Caller} {fs : FileSystem} {p : Path} {name : String} {l k : Location}
  {above node : Node} {follow : Bool}

/-- Something stands at an entry that a path leads through or to. -/
theorem exists_entry_of_find_join (hfind : find caller fs true p = .ok (l, above))
    (hname : Path.IsName name) (hkind : node.kind ≠ .file)
    (h : find caller fs follow (p.join ⟨name⟩) = .ok (k, node)) :
    checkEntry caller fs l p name = .ok () ∧
      ∃ entry, fs.get? (l ++ [name]) = some entry ∧ entry.kind ≠ .file := by
  refine ⟨checkEntry_of_locate hfind hname (locate_of_find h), ?_⟩
  have hwalks := (find_eq_ok_iff.1 h).2
  obtain ⟨links, hwalk⟩ := exists_walk_join hfind hname
  rw [hwalk follow] at hwalks
  rcases cases_walk_name hwalks with ⟨_, _, hvacant, _⟩ | ⟨target, time, hlink, _⟩ |
    ⟨target, time, _, hlink, _⟩ | ⟨entry, hentry, _, hend⟩
  · exact absurd hvacant (by simp)
  · exact ⟨_, hlink, by simp [Node.kind]⟩
  · exact ⟨_, hlink, by simp [Node.kind]⟩
  · obtain ⟨rfl, hnode⟩ := of_walk_nil_ok hend
    exact ⟨node, hnode, hkind⟩

end Lookup

/-! ## Files that are written -/

namespace FileSystem

variable {caller : Caller} {fs fs' fs'' : FileSystem} {path : Path} {l : Location} {content : Bytes}

/-- Writing into a file keeps a file system in good shape. -/
theorem WellFormed.fill (wf : fs.WellFormed) (l : Location) (content : Bytes) :
    (fs.fill caller l content).WellFormed := by
  unfold FileSystem.fill
  split
  · next hnode => exact wf.put (.of_file wf hnode rfl)
  · exact wf

/-- What is no file stays where it is. -/
def Retains (fs fs' : FileSystem) : Prop :=
  ∀ k node, fs.get? k = some node → node.kind ≠ .file → fs'.get? k = some node

/-- What is no file stays in two changes when it stays in each. -/
theorem Retains.trans (h : fs.Retains fs') (h' : fs'.Retains fs'') : fs.Retains fs'' :=
  fun k node hnode hkind => h' k node (h k node hnode hkind) hkind

/-- What is no file stays when the same subtree is cut out before and after. -/
theorem Retains.cut (h : fs.Retains fs') (k : Location) : (fs.cut k).Retains (fs'.cut k) := by
  intro m node hnode hkind
  rw [get?_cut] at hnode ⊢
  split at hnode
  · exact absurd hnode (by simp)
  · next hbelow =>
    rw [if_neg hbelow]
    exact h m node hnode hkind

/-- A file has been written at a location that a path leads to. -/
structure Filled (caller : Caller) (before after : FileSystem) (path : Path) (content : Bytes)
    (l : Location) : Prop where
  wrote : Storage.Wrote caller before after path content l
  file : ∀ node, before.get? l = some node → node.kind = .file
  located : ∃ place, Lookup.locate caller before true path = .ok place ∧ place.location = l
  wellFormed : after.WellFormed

/-- A file that is opened for writing and then written to has been written. -/
theorem filled_of_openWrite {mode : Mode} (wf : fs.WellFormed)
    (h : fs.openWrite caller mode path = .ok (l, fs')) (content : Bytes) :
    Filled caller fs (fs'.fill caller l content) path content l := by
  obtain ⟨mode', hopened⟩ := opened_of_openWrite h
  exact ⟨Storage.wrote_of_opened hopened content, hopened.file, of_openWrite_ok h,
    (hopened.wellFormed wf).fill l content⟩

/-- Writing a file leaves everything that is no file. -/
theorem Filled.retains (h : Filled caller fs fs' path content l) : fs.Retains fs' := by
  intro k node hnode hkind
  rw [h.wrote.elsewhere k, hnode]
  rintro rfl
  exact hkind (h.file node hnode)

/-- A file that is written at an entry that is no link stands in the directory. -/
theorem Filled.location_eq {p : Path} {name : String} {k : Location} {above : Node}
    (h : Filled caller fs fs' (p.join ⟨name⟩) content k)
    (hfind : Lookup.find caller fs true p = .ok (l, above)) (hname : Path.IsName name)
    (hplain : ∀ target time, fs.get? (l ++ [name]) ≠ some (.link target time)) :
    k = l ++ [name] := by
  obtain ⟨place, hlocate, rfl⟩ := h.located
  exact Lookup.location_of_locate hfind hname hplain hlocate

/-- Cutting a file leaves what is no file. -/
theorem WellFormed.retains_cut (wf : fs.WellFormed)
    (hfile : ∀ node, fs.get? l = some node → node.kind = .file) : fs.Retains (fs.cut l) := by
  have hcut : fs.erase l = fs.cut l :=
    wf.erase_eq_cut fun node hnode => by simp [hfile node hnode]
  intro k node hnode hkind
  rw [← hcut, get?_erase, if_neg, hnode]
  rintro rfl
  exact hkind (hfile node hnode)

/-- A path leads to the directory at a location, and not through an entry of it. -/
def Reaches (caller : Caller) (fs : FileSystem) (p : Path) (l : Location) (name : String) : Prop :=
  ∃ directory, Lookup.find caller (fs.cut (l ++ [name])) true p = .ok (l, directory) ∧
    directory.kind = .directory

section Reaches

variable {p : Path} {name : String}

/-- A path that reaches a location leads to the directory there. -/
theorem Reaches.find (h : fs.Reaches caller p l name) :
    ∃ directory, Lookup.find caller fs true p = .ok (l, directory) ∧ directory.kind = .directory := by
  obtain ⟨directory, hfind, hkind⟩ := h
  exact ⟨directory, Lookup.find_within (cut_within fs _) hfind, hkind⟩

/-- A path that reaches a location still does so when everything that is no file has stayed. -/
theorem Reaches.of_retains (h : fs.Reaches caller p l name) (hretains : fs.Retains fs') :
    fs'.Reaches caller p l name := by
  obtain ⟨directory, hfind, hkind⟩ := h
  exact ⟨directory, Lookup.find_of_same (hretains.cut _) (by simp [hkind]) hfind, hkind⟩

end Reaches

end FileSystem

namespace Archive

open FileSystem (Filled)

variable {caller : Caller} {fs fs' : FileSystem} {codec : Codec} {fixed : Option Nat}

/-- Writing a directory into a tar file writes one file. -/
theorem exists_filled_of_writeTar {staging out : Path} {top : String} {k : Nat} (wf : fs.WellFormed)
    (h : (writeTar staging top out fixed).exec caller fs = (.ok k, fs')) :
    ∃ content l, Filled caller fs fs' out content l := by
  obtain ⟨-, opened, place, _, written, hopen, -, hfind, rfl⟩ :=
    of_writeTarBy_ok (writeTarBy_walked ▸ h)
  obtain ⟨l, hopenWrite⟩ := FileSystem.openWrite_of_writeFile_nil hopen
  obtain ⟨mode, hopened⟩ := FileSystem.opened_of_openWrite hopenWrite
  obtain rfl : l = place := congrArg Prod.fst (Except.ok.inj (hopened.find.symm.trans hfind))
  exact ⟨_, l, FileSystem.filled_of_openWrite wf hopenWrite _⟩

/-- Compressing a file writes another one, with what the first one holds. -/
theorem exists_filled_of_compress {source out : Path} {k : Location} {mode : Mode} {time : Int}
    {bytes : Bytes} (wf : fs.WellFormed)
    (hsource : Lookup.find caller fs true source = .ok (k, .file mode time bytes))
    (h : (compress codec source out).exec caller fs = (.ok (), fs')) :
    fs.read caller source = .ok bytes ∧ ∃ content l, Filled caller fs fs' out content l ∧
      (k ≠ l → content = codec.compress bytes) := by
  obtain ⟨node, hopenRead, h⟩ := Run.of_bind_ok (Storage.of_exec_change_ok h)
  obtain ⟨⟨l, opened⟩, hopen, h⟩ := Run.of_bind_ok h
  obtain ⟨read, hread, h⟩ := Run.of_bind_ok h
  obtain rfl := Except.ok.inj h
  obtain ⟨mode', hopened⟩ := FileSystem.opened_of_openWrite hopen
  refine ⟨?_, _, l, FileSystem.filled_of_openWrite wf hopen _, fun hne => ?_⟩
  · have hstat : fs.stat caller source = .ok (.file mode time bytes) := by
      rw [FileSystem.stat, hsource]
      rfl
    rw [FileSystem.openRead, hstat] at hopenRead
    rw [FileSystem.read, FileSystem.openRead, hstat]
    simp only [bind, Except.bind] at hopenRead ⊢
    split at hopenRead
    · next hmay => rw [if_pos hmay]; rfl
    · exact absurd hopenRead Run.throw_ne_ok
  · have hthere : Lookup.find caller opened true source = .ok (k, .file mode time bytes) := by
      rw [hopened.eq_set]
      exact Lookup.find_set_of_ne hopened.file rfl hne hsource
    rw [Lookup.eq_content_of_read hthere hread]

/-! ## Outputs beside the staging directory -/

/-- The outputs of a release are entries of a directory that is neither in the staging directory nor
reached through it, and no archive is a link. -/
structure Beside (caller : Caller) (fs : FileSystem) (r : Release) (above : Path) (l : Location)
    (name : String) : Prop where
  names : r.InDirectory above name
  reaches : fs.Reaches caller above l name
  apart : ∀ base directory, Lookup.find caller fs true r.stagingDirectory = .ok (base, directory) →
    ¬ base <+: l
  tar : ∀ target time, fs.get? (l ++ [name ++ ".tar"]) ≠ some (.link target time)
  archive : ∀ target time, fs.get? (l ++ [name ++ ".tar.bz2"]) ≠ some (.link target time)

/-- What archiving leaves when it succeeds: in the place of the staging directory, an archive of what
was staged there. -/
structure Replaced (caller : Caller) (before after : FileSystem) (codec : Codec)
    (fixed : Option Nat) (r : Release) (l : Location) (name : String) (report : Report)
    (content : Bytes) : Prop where
  archive : report.path = r.archivePath ∧ ∃ mode, Lookup.find caller after false report.path =
    .ok (l ++ [name ++ ".tar.bz2"], .file mode caller.now content)
  digest : report.digest = Sha256.digest content
  /-- what is compressed is what writing the tar file alone would have given -/
  holds : ∃ tarred bytes,
    (writeTar r.stagingDirectory r.metadata.stem r.tarPath fixed).exec caller before =
      (.ok report.entries, tarred) ∧
    tarred.read caller r.tarPath = .ok bytes ∧ codec.decompress content = some bytes ∧
    ∃ entries records, Lists caller before r.stagingDirectory entries ∧
      entries.length = report.entries ∧
      List.Forall₂ (fun entry record =>
        (nodeItem r.metadata.stem fixed entry.1 entry.2).Written record) entries records ∧
      bytes = records.flatten ++ Tar.ending
  gone : ∀ path ∈ [r.stagingDirectory, r.tarPath],
    after.lstat caller path = .error (.system .noEntry)
  elsewhere : ∀ k, k ≠ l ++ [name ++ ".tar"] → k ≠ l ++ [name ++ ".tar.bz2"] →
    ¬ l ++ [name] <+: k → after.get? k = before.get? k

variable {r : Release} {above : Path} {l : Location} {name : String}

/-- The tar file is opened outside the staging directory. -/
theorem Beside.apart_tar (h : Beside caller fs r above l name)
    (hdirectory : fs.isDirectory caller r.stagingDirectory = true) :
    Apart caller fs r.stagingDirectory r.tarPath := by
  obtain ⟨top, hfind, -⟩ := h.reaches.find
  intro base directory k opened hbase hopen hbelow
  obtain ⟨base', directory', hbase', hkind⟩ := Lookup.exists_of_isDirectory hdirectory
  obtain ⟨rfl, rfl⟩ : base = base' ∧ directory = directory' := by
    rw [hbase] at hbase'
    exact Prod.mk.inj (Except.ok.inj hbase')
  obtain ⟨place, hlocate, rfl⟩ := FileSystem.of_openWrite_ok hopen
  rw [h.names.tar] at hlocate
  have hplace := Lookup.location_of_locate hfind h.names.isName_tar h.tar hlocate
  rcases List.prefix_concat_iff.1 (hplace ▸ hbelow) with hself | habove
  · -- the staging directory is a directory, and what is opened is a file
    obtain ⟨mode, hopened⟩ := FileSystem.opened_of_openWrite hopen
    have hfile := hopened.file directory (by rw [hplace, ← hself, Lookup.get?_of_find hbase])
    simp [hkind] at hfile
  · exact h.apart base directory hbase habove

/-- What is staged is an entry of the directory. -/
theorem Beside.exists_entry (h : Beside caller fs r above l name)
    (hdirectory : fs.isDirectory caller r.stagingDirectory = true) :
    Lookup.checkEntry caller fs l above name = .ok () ∧
      ∃ entry, fs.get? (l ++ [name]) = some entry ∧ entry.kind ≠ .file := by
  obtain ⟨top, hfind, -⟩ := h.reaches.find
  obtain ⟨base, directory, hbase, hkind⟩ := Lookup.exists_of_isDirectory hdirectory
  rw [h.names.staging] at hbase
  exact Lookup.exists_entry_of_find_join hfind h.names.isName (by simp [hkind]) hbase

/-- Removing the tar file and the staging directory erases the one and cuts the other. -/
theorem eq_cut_of_removed {fs₁ fs₂ : FileSystem} {tar entry : Node} (wf : fs.WellFormed)
    (hnames : r.InDirectory above name) (hreaches : fs.Reaches caller above l name)
    (htar : fs.get? (l ++ [name ++ ".tar"]) = some tar) (hfile : tar.kind = .file)
    (hentry : fs.get? (l ++ [name]) = some entry) (hkind : entry.kind ≠ .file)
    (hremove : (Storage.change fun caller fs => fs.removeFile caller r.tarPath).exec caller fs =
      (.ok (), fs₁))
    (hclear : (Storage.removeAll r.stagingDirectory).exec caller fs₁ = (.ok (), fs₂)) :
    fs₂ = (fs.erase (l ++ [name ++ ".tar"])).cut (l ++ [name]) ∧
      ∃ directory, Lookup.find caller fs₂ true above = .ok (l, directory) := by
  have hthere : ∀ node, fs.get? (l ++ [name ++ ".tar"]) = some node → node.kind = .file := by
    intro node hnode
    rw [htar] at hnode
    rw [← Option.some.inj hnode, hfile]
  have hcut : fs.erase (l ++ [name ++ ".tar"]) = fs.cut (l ++ [name ++ ".tar"]) :=
    wf.erase_eq_cut fun node hnode => by simp [hthere node hnode]
  obtain ⟨top, hfind, -⟩ := hreaches.find
  rw [hnames.tar] at hremove
  obtain ⟨-, rfl⟩ := (Storage.leaves_removeFile wf hfind hnames.isName_tar htar).of_exec_ok hremove
  -- the staging directory is reached as before, since only a file is gone
  have hretains := wf.retains_cut hthere
  obtain ⟨directory, hafter, -⟩ := hreaches.of_retains hretains
  rw [hnames.staging] at hclear
  obtain ⟨-, rfl⟩ := (Storage.leaves_removeAll (wf.cut _) hafter hnames.isName
    (hretains _ entry hentry hkind)).of_exec_ok hclear
  exact ⟨by rw [hcut], directory, hafter⟩

/-- The two archives are written, and nothing else has changed. -/
structure Archived (caller : Caller) (before after : FileSystem) (r : Release) (above : Path)
    (l : Location) (name : String) (bytes content : Bytes) : Prop where
  wellFormed : after.WellFormed
  retains : before.Retains after
  tar : ∃ mode, after.get? (l ++ [name ++ ".tar"]) = some (.file mode caller.now bytes)
  archive : ∃ mode, Lookup.find caller after true r.archivePath =
    .ok (l ++ [name ++ ".tar.bz2"], .file mode caller.now content)
  checkTar : Lookup.checkEntry caller before l above (name ++ ".tar") = .ok ()
  checkArchive : Lookup.checkEntry caller before l above (name ++ ".tar.bz2") = .ok ()
  elsewhere : ∀ k, k ≠ l ++ [name ++ ".tar"] → k ≠ l ++ [name ++ ".tar.bz2"] →
    after.get? k = before.get? k

/-- Writing the tar file and compressing it writes the two archives. -/
theorem Beside.archived {fs₁ fs₂ : FileSystem} {count : Nat} (wf : fs.WellFormed)
    (h : Beside caller fs r above l name)
    (hwrite : (writeTar r.stagingDirectory r.metadata.stem r.tarPath fixed).exec caller fs =
      (.ok count, fs₁))
    (hcompress : (compress codec r.tarPath r.archivePath).exec caller fs₁ = (.ok (), fs₂)) :
    ∃ bytes, fs₁.read caller r.tarPath = .ok bytes ∧
      Archived caller fs fs₂ r above l name bytes (codec.compress bytes) := by
  have hdistinct : l ++ [name ++ ".tar"] ≠ l ++ [name ++ ".tar.bz2"] := by simp
  obtain ⟨top, hfind, -⟩ := h.reaches.find
  obtain ⟨bytes, k, htar⟩ := exists_filled_of_writeTar wf hwrite
  obtain ⟨top₁, hfind₁, -⟩ := (h.reaches.of_retains htar.retains).find
  obtain ⟨mode, hsource⟩ := htar.wrote.find
  obtain ⟨hread, content, k', harchive, hcontent⟩ :=
    exists_filled_of_compress htar.wellFormed hsource hcompress
  -- each of the two is written at its entry
  have htarAt : Filled caller fs fs₁ (above.join ⟨name ++ ".tar"⟩) bytes k := h.names.tar ▸ htar
  obtain rfl : k = l ++ [name ++ ".tar"] := htarAt.location_eq hfind h.names.isName_tar h.tar
  have harchiveAt : Filled caller fs₁ fs₂ (above.join ⟨name ++ ".tar.bz2"⟩) content k' :=
    h.names.archive ▸ harchive
  obtain rfl : k' = l ++ [name ++ ".tar.bz2"] := by
    refine harchiveAt.location_eq hfind₁ h.names.isName_archive fun target time => ?_
    rw [htar.wrote.elsewhere _ hdistinct.symm]
    exact h.archive target time
  obtain rfl := hcontent hdistinct
  refine ⟨bytes, hread, harchive.wellFormed, htar.retains.trans harchive.retains, ⟨mode, ?_⟩,
    harchive.wrote.find, ?_, ?_, fun k htarNe harchiveNe => ?_⟩
  · rw [harchive.wrote.elsewhere _ hdistinct]
    exact Lookup.get?_of_find hsource
  · obtain ⟨place, hlocate, -⟩ := htarAt.located
    exact Lookup.checkEntry_of_locate hfind h.names.isName_tar hlocate
  · obtain ⟨place, hlocate, -⟩ := harchiveAt.located
    rw [← Lookup.checkEntry_congr (htar.wrote.elsewhere l (by simp))]
    exact Lookup.checkEntry_of_locate hfind₁ h.names.isName_archive hlocate
  · rw [harchive.wrote.elsewhere k harchiveNe, htar.wrote.elsewhere k htarNe]

/-- The steps of archiving that succeeds. -/
theorem of_create_ok {report : Report}
    (h : (create codec fixed r).exec caller fs = (.ok report, fs')) :
    report.path = r.archivePath ∧ ∃ fs₁ fs₂ fs₃ content,
      (writeTar r.stagingDirectory r.metadata.stem r.tarPath fixed).exec caller fs =
        (.ok report.entries, fs₁) ∧
      (compress codec r.tarPath r.archivePath).exec caller fs₁ = (.ok (), fs₂) ∧
      fs₂.read caller r.archivePath = .ok content ∧ report.digest = Sha256.digest content ∧
      (Storage.change fun caller fs => fs.removeFile caller r.tarPath).exec caller fs₂ =
        (.ok (), fs₃) ∧
      (Storage.removeAll r.stagingDirectory).exec caller fs₃ = (.ok (), fs') := by
  obtain ⟨count, fs₁, hwrite, h⟩ := Storage.of_exec_bind_ok h
  obtain ⟨_, fs₂, hcompress, h⟩ := Storage.of_exec_bind_ok h
  obtain ⟨digest, _, hdigest, h⟩ := Storage.of_exec_bind_ok h
  obtain ⟨_, fs₃, hremove, h⟩ := Storage.of_exec_bind_ok h
  obtain ⟨_, fs₄, hclear, h⟩ := Storage.of_exec_bind_ok h
  obtain ⟨rfl, rfl⟩ := Run.ok_inj h
  obtain ⟨hread, rfl⟩ := Storage.of_exec_query_ok (Storage.of_exec_mapError_ok hdigest)
  obtain ⟨content, hcontent, rfl⟩ := Run.of_map_ok hread
  exact ⟨rfl, fs₁, fs₂, fs₃, content, Storage.of_exec_mapError_ok hwrite,
    Storage.of_exec_mapError_ok hcompress, hcontent, rfl, Storage.of_exec_mapError_ok hremove,
    Storage.of_exec_mapError_ok hclear⟩

/-- Archiving puts an archive of what is staged in the place of the staging directory, when all of this
is beside the staging directory and not in it. -/
theorem create_replaces {report : Report} (hcodec : codec.IsLossless) (wf : fs.WellFormed)
    (hbeside : Beside caller fs r above l name)
    (h : (create codec fixed r).exec caller fs = (.ok report, fs')) :
    ∃ content, Replaced caller fs fs' codec fixed r l name report content := by
  obtain ⟨hpath, fs₁, fs₂, fs₃, content, hwrite, hcompress, hread, hdigest, hremove, hclear⟩ :=
    of_create_ok h
  obtain ⟨bytes, hbytes, archived⟩ := hbeside.archived wf hwrite hcompress
  obtain ⟨archiveMode, harchive⟩ := archived.archive
  obtain rfl := Lookup.eq_content_of_read harchive hread
  obtain ⟨tarMode, htar⟩ := archived.tar
  have hnames := hbeside.names
  -- what was staged is still there, and then it is gone with the tar file
  obtain ⟨hdirectory, -⟩ := of_writeTarBy_ok (writeTarBy_walked ▸ hwrite)
  obtain ⟨hcheck, entry, hentry, hkind⟩ := hbeside.exists_entry hdirectory
  have hreaches := hbeside.reaches.of_retains archived.retains
  obtain ⟨hafter, top', hfind'⟩ := eq_cut_of_removed archived.wellFormed hnames hreaches htar rfl
    (archived.retains _ entry hentry hkind) hkind hremove hclear
  have hget (k : Location) (hne : k ≠ l ++ [name ++ ".tar"]) (hbelow : ¬ l ++ [name] <+: k) :
      fs'.get? k = fs₂.get? k := by
    rw [hafter, FileSystem.get?_cut, if_neg hbelow, FileSystem.get?_erase, if_neg hne.symm]
  have helsewhere (k : Location) (htarNe : k ≠ l ++ [name ++ ".tar"])
      (harchiveNe : k ≠ l ++ [name ++ ".tar.bz2"]) (hbelow : ¬ l ++ [name] <+: k) :
      fs'.get? k = fs.get? k := by
    rw [hget k htarNe hbelow, archived.elsewhere k htarNe harchiveNe]
  -- an entry may be asked for as before, since the directory is the same
  have hsame : fs'.get? l = fs.get? l :=
    helsewhere l (by simp) (by simp) (FileSystem.not_concat_below l name)
  obtain ⟨top, hfind, -⟩ := hbeside.reaches.find
  have hstaging := Lookup.find_entry hfind hnames.isName hcheck
  rw [hentry, ← hnames.staging] at hstaging
  obtain ⟨_, mode, entries, records, htarred, hlists, hcount, -, hwritten⟩ :=
    exists_entries_of_writeTarBy reorders_walked wf (hbeside.apart_tar hdirectory)
      (Lookup.lstat_eq_ok_iff.2 ⟨_, hstaging⟩) (writeTarBy_walked ▸ hwrite)
  refine ⟨_, ⟨hpath, archiveMode, ?_⟩, hdigest, ?_, ?_, helsewhere⟩
  · have hthere := hget (l ++ [name ++ ".tar.bz2"]) (by simp) (FileSystem.not_below_entry (by decide))
    rw [hpath, hnames.archive, Lookup.find_entry hfind' hnames.isName_archive
      (Lookup.checkEntry_congr hsame ▸ archived.checkArchive), hthere,
      Lookup.get?_of_find harchive]
  · exact ⟨fs₁, bytes, hwrite, hbytes, hcodec bytes, entries, records, hlists, hcount, hwritten,
      (Lookup.eq_content_of_read htarred hbytes).symm⟩
  · have hmissing {entryName : String} (hname : Path.IsName entryName)
        (hentryCheck : Lookup.checkEntry caller fs l above entryName = .ok ())
        (hnone : fs'.get? (l ++ [entryName]) = none) :
        fs'.lstat caller (above.join ⟨entryName⟩) = .error (.system .noEntry) := by
      rw [FileSystem.lstat, Lookup.find_entry hfind' hname
        (Lookup.checkEntry_congr hsame ▸ hentryCheck), hnone]
      rfl
    intro path hpath
    rcases List.mem_cons.1 hpath with rfl | htarPath
    · rw [hnames.staging]
      refine hmissing hnames.isName hcheck ?_
      rw [hafter, FileSystem.get?_cut, if_pos List.prefix_rfl]
    · rw [List.mem_singleton.1 htarPath, hnames.tar]
      refine hmissing hnames.isName_tar archived.checkTar ?_
      rw [hafter, FileSystem.get?_cut, if_neg (FileSystem.not_below_entry (by decide)),
        FileSystem.get?_erase, if_pos rfl]

/-- A project with a staged file, an archive from before and a file beside them. -/
def stagedTree : FileSystem :=
  .ofNodes [
    (["r", "p-1.tar.bz2"], .file Mode.file 3 [5, 6]),
    (["r", "b"], .file Mode.file 4 [2]),
    (["r", "p-1", "a"], .file Mode.file 7 [1]),
    (["r", "p-1"], .directory Mode.directory 0),
    (["r"], .directory Mode.directory 0)]

/-- The outputs of the staged project stand beside the staging directory. -/
theorem beside_stagedTree : Beside .superuserAtRoot stagedTree Release.first ⟨"/r"⟩ ["r"] "p-1" where
  names := Release.inDirectory_of_no_slash (r := Release.first) (by decide +kernel)
  reaches := ⟨.directory Mode.directory 0, by decide +kernel, rfl⟩
  apart := by
    have hfind : Lookup.find .superuserAtRoot stagedTree true Release.first.stagingDirectory =
        .ok (["r", "p-1"], .directory Mode.directory 0) := by decide +kernel
    intro base directory hbase
    obtain rfl : ["r", "p-1"] = base := congrArg Prod.fst (Except.ok.inj (hfind.symm.trans hbase))
    decide
  tar := by
    have hnone : stagedTree.get? ["r", "p-1.tar"] = none := by decide +kernel
    intro target time hlink
    exact absurd (hnone.symm.trans hlink) (by simp)
  archive := by
    have hfile : stagedTree.get? ["r", "p-1.tar.bz2"] = some (.file Mode.file 3 [5, 6]) := by
      decide +kernel
    intro target time hlink
    exact absurd (hfile.symm.trans hlink) (by simp)

/-- The archive takes the place of the staging directory, and the file beside them stays. -/
theorem create_replaces_staged : ∃ report fs' mode content,
    (create storing (some 0) Release.first).exec .superuserAtRoot stagedTree = (.ok report, fs') ∧
    report.entries = 2 ∧
    Lookup.find .superuserAtRoot fs' false ⟨"/r/p-1.tar.bz2"⟩ =
      .ok (["r", "p-1.tar.bz2"], .file mode 0 content) ∧
    fs'.lstat .superuserAtRoot ⟨"/r/p-1"⟩ = .error (.system .noEntry) ∧
    fs'.get? ["r", "b"] = some (.file Mode.file 4 [2]) := by
  have hentries : ((create storing (some 0) Release.first).exec .superuserAtRoot stagedTree).1.map
      (·.entries) = .ok 2 := by
    simp only [create, writeTar, writeEntries, sorted_eq_ite]
    decide +kernel
  obtain ⟨report, hreport, hcount⟩ := Run.of_map_ok hentries
  have hexec := Storage.exec_eq_of_outcome hreport
  obtain ⟨content, hreplaced⟩ := create_replaces (fun _ => rfl)
    (FileSystem.wellFormed_ofNodes (by decide)) beside_stagedTree hexec
  obtain ⟨hpath, mode, harchive⟩ := hreplaced.archive
  refine ⟨report, _, mode, content, hexec, hcount, ?_, ?_, ?_⟩
  · rw [hpath] at harchive
    exact harchive
  · exact hreplaced.gone Release.first.stagingDirectory List.mem_cons_self
  · rw [hreplaced.elsewhere ["r", "b"] (by decide +kernel) (by decide +kernel) (by decide +kernel)]
    decide +kernel

/-- A project whose staging directory is a link to the project. -/
def selfStagedTree : FileSystem :=
  .ofNodes [
    (["r", "a"], .file Mode.file 7 [1]),
    (["r", "p-1"], .link "." 0),
    (["r"], .directory Mode.directory 0)]

/-- A tar file that is written into what is staged counts as an entry: three nodes are staged, and the
archive has four entries. -/
theorem create_archives_tar : selfStagedTree.WellFormed ∧
    selfStagedTree.get? ["r", "p-1.tar"] = none ∧ selfStagedTree.get? ["r", "p-1.tar.bz2"] = none ∧
    (∃ report fs', (create storing (some 0) Release.first).exec .superuserAtRoot selfStagedTree =
      (.ok report, fs') ∧ report.entries = 4) ∧
    ∃ entries, Lists .superuserAtRoot selfStagedTree Release.first.stagingDirectory entries ∧
      entries.length = 3 := by
  have wf : selfStagedTree.WellFormed := FileSystem.wellFormed_ofNodes (by decide)
  refine ⟨wf, by decide +kernel, by decide +kernel, ?_, ?_⟩
  · have hentries : ((create storing (some 0) Release.first).exec .superuserAtRoot
        selfStagedTree).1.map (·.entries) = .ok 4 := by
      simp only [create, writeTar, writeEntries, sorted_eq_ite]
      decide +kernel
    obtain ⟨report, hreport, hcount⟩ := Run.of_map_ok hentries
    exact ⟨report, _, Storage.exec_eq_of_outcome hreport, hcount⟩
  · -- what is staged is seen in a tar file that is written elsewhere
    have hrun : ((writeTar Release.first.stagingDirectory "p-1" ⟨"/t"⟩ (some 0)).exec .superuserAtRoot
        selfStagedTree).1 = .ok 3 := by
      simp only [writeTar, writeEntries, sorted_eq_ite]
      decide +kernel
    have hbase : Lookup.find .superuserAtRoot selfStagedTree true Release.first.stagingDirectory =
        .ok (["r"], .directory Mode.directory 0) := by decide +kernel
    have htop : selfStagedTree.lstat .superuserAtRoot Release.first.stagingDirectory =
        .ok (.link "." 0) := by decide +kernel
    have hapart : Apart .superuserAtRoot selfStagedTree Release.first.stagingDirectory ⟨"/t"⟩ :=
      apart_of_places (l := ["t"]) hbase (by decide +kernel) (by decide)
    obtain ⟨_, _, entries, _, _, hlists, hcount, -⟩ :=
      exists_entries_of_writeTarBy reorders_walked wf hapart htop (Storage.exec_eq_of_outcome hrun)
    exact ⟨entries, hlists, hcount⟩

end Archive

end RpmRelease
