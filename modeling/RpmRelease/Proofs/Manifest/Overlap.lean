import RpmRelease.Proofs.Manifest.Staged

/-!
# Entries that overlap

When all that an entry matches is at or below matches of the entries before it, it is copied a second
time, over its own copy.  A directory is there already and a file is written over with what it holds, so
the entry changes nothing; but it is not so for every kind of node.  A link cannot be made where one is,
and a file that nobody may write to is copied once, its copy with the same permissions is not written over.
-/

set_option autoImplicit false

namespace RpmRelease.Manifest

open Relation (ReflTransGen)
open Lookup (Behind Way)
open Storage (Kept)

variable {caller : Caller} {fs fs' : FileSystem}

/-- A node below a path can be copied over its own copy: it is a directory, or a file that the caller may
write to, and neither its path nor that of its copy is too long. -/
structure Rewritable (caller : Caller) (p destination : Path) (names : Location) (node : Node) : Prop where
  kind : node.kind ≠ .link
  mayWrite : node.kind = .file → caller.may .write node = true
  text : Lookup.checkText (p.along names).text = .ok ()
  textThere : Lookup.checkText (destination.join ⟨Path.slashed names⟩).text = .ok ()

/-- Everything that copying a path meets can be copied over its own copy. -/
def Recopiable (caller : Caller) (fs : FileSystem) (outputs : List Path) (p destination : Path) : Prop :=
  ∀ l top, Lookup.find caller fs false p = .ok (l, top) → ∀ names node, Kept outputs p names →
    fs.get? (l ++ names) = some node → Rewritable caller p destination names node

namespace Layout

variable {y : Layout} {names more : Location} {p destination rest : Path} {node : Node}

/-- What is behind the staging directory are copies, and nothing else. -/
structure Stocked (y : Layout) (caller : Caller) (fs : FileSystem) : Prop where
  ready : y.Ready caller fs
  top : ∀ node, fs.get? y.source = some node → node.kind = .directory
  copied : ∀ names copy original, names ≠ [] → fs.get? (y.target ++ names) = some copy →
    fs.get? (y.source ++ names) = some original → copy = original.copied caller

/-- Copies that are put behind an empty staging directory below the root are all that is there. -/
theorem stocked_of_changes (ready : y.Ready caller fs) (apart : y.Apart)
    (hbelow : y.source <+: y.target) (hne : y.source ≠ y.target) (hempty : fs.below y.target = [])
    (h : ReflTransGen (y.Stages caller) fs fs') : y.Stocked caller fs' := by
  have ready' := ready.changes (copies_of_changes h)
  refine ⟨ready', fun node hnode => ?_, fun names copy original hnames hcopy horiginal => ?_⟩
  · obtain ⟨directory, hstaging, -⟩ := ready'.staging
    obtain ⟨other, hother, hkind⟩ :=
      ready'.wellFormed.directory_above (Lookup.get?_of_find hstaging) hbelow hne
    rwa [Option.some.inj (hnode.symm.trans hother)]
  · obtain ⟨free, original', horiginal', rfl⟩ := copied_of_changes apart hempty h names copy hnames hcopy
    rw [get?_source_of_changes apart h free] at horiginal
    rw [Option.some.inj (horiginal.symm.trans horiginal')]

/-! ## A match that has been staged -/

/-- A node that is done and can be written over is settled. -/
theorem Match.settled (m : y.Match names p destination) (hp : p.text ≠ "") (apart : y.Apart)
    (stocked : y.Stocked caller fs) (done : y.Done caller fs names) (hkept : Kept y.outputs p more)
    (hnode : fs.get? (y.source ++ names ++ more) = some node)
    (h : Rewritable caller p destination more node) :
    (m.transfer caller hp apart).Settled fs more node := by
  have hnode' : fs.get? (y.source ++ (names ++ more)) = some node := by rwa [← List.append_assoc]
  obtain ⟨hthere, hread, hway, hreached⟩ := done more node (m.free_of_kept hp hkept) hnode' h.kind
  have hplace : (m.transfer caller hp apart).place ++ more = y.target ++ (names ++ more) :=
    List.append_assoc _ _ _
  refine ⟨⟨?_, hread, hway, hreached⟩, h.kind, fun copy hcopy => ?_, h.mayWrite, h.text, h.textThere⟩
  · rw [hplace]
    exact hthere
  · rw [hplace] at hcopy
    by_cases hne : names ++ more = []
    · -- the staging directory stands for the root itself
      rw [hne, List.append_nil] at hcopy hnode'
      have hdirectory := stocked.top node hnode'
      obtain ⟨directory, hstaging, hkind⟩ := stocked.ready.staging
      obtain rfl := Option.some.inj (hcopy.symm.trans (Lookup.get?_of_find hstaging))
      exact ⟨hkind.trans hdirectory.symm, by simp [hdirectory]⟩
    · obtain rfl := stocked.copied _ copy node hne hcopy hnode'
      exact ⟨Node.kind_copied caller node, fun _ => rfl⟩

/-- The copy of what a match leads to is found where copying it again looks for it. -/
theorem Match.find_copy (m : y.Match names p (y.staging.join rest)) (hroot : y.root.text ≠ "")
    (hbelow : p.below? y.root = some rest) (ready : y.Ready caller fs)
    (htext : Lookup.checkText ((y.staging.join rest).join ⟨""⟩).text = .ok ())
    (hway : Way caller fs y.target names) (hnode : fs.get? (y.target ++ names) = some node)
    (hkind : node.kind ≠ .link) :
    Lookup.find caller fs true (y.staging.join rest) = .ok (y.target ++ names, node) := by
  obtain ⟨directory, hstaging, hdirectory⟩ := ready.staging
  have hpath := m.copied.text_ne_empty ready.staging_ne
  have htext' : Lookup.checkText (y.staging.join rest).text = .ok () :=
    Lookup.checkText_of_join hpath (by decide) htext
  have hrest : rest.components = names.map .normal := by
    have hp : p.components = y.root.components ++ names.map .normal := m.behind
    rw [(Path.components_below? hroot hbelow).1] at hp
    exact List.append_cancel_left hp
  rcases List.eq_nil_or_concat' names with rfl | ⟨front, last, rfl⟩
  · -- the staging directory, with a slash behind it
    obtain rfl : rest = ⟨""⟩ := by
      by_contra hne
      exact Path.components_ne_nil (fun htext => hne (congrArg Path.mk htext)) hrest
    rw [List.append_nil] at hnode ⊢
    obtain rfl := Option.some.inj (hnode.symm.trans (Lookup.get?_of_find hstaging))
    exact Lookup.find_slash hdirectory htext' hstaging
  · have hlast : rest.components.getLast? = some (.normal last) := by simp [hrest]
    have hname : Path.IsName last := Path.isName_of_mem_components (List.mem_of_getLast? hlast)
    have hends := Path.endsIn_below? (m.behind.text_ne_empty hroot) hbelow hlast
    exact Lookup.find_of_way m.copied hname
      (hends.join ready.staging_ne (Path.components_below? hroot hbelow).2) htext' hstaging hway hnode hkind

/-- The directory that the copy of what a match leads to is in is found as well. -/
theorem Match.find_above {above : Path} {stem : String} (m : y.Match names p destination)
    (hstem : y.staging.components.getLast? = some (.normal stem)) (ready : y.Ready caller fs)
    (htext : Lookup.checkText destination.text = .ok ()) (hne : names ≠ [])
    (hway : Way caller fs y.target names) (hnode : fs.get? (y.target ++ names) = some node)
    (habove : destination.parent? = some above) :
    ∃ l directory, Lookup.find caller fs true above = .ok (l, directory) ∧ directory.kind = .directory := by
  obtain ⟨staging, hstaging, hkind⟩ := ready.staging
  obtain ⟨front, last, rfl⟩ := (List.eq_nil_or_concat' names).resolve_left hne
  have hbehind : Behind y.staging front above := by
    have hcopied : destination.components = y.staging.components ++ (front ++ [last]).map .normal :=
      m.copied
    rw [Behind, (Path.components_parent? habove).1, hcopied]
    simp [← List.append_assoc]
  obtain ⟨name, hlast⟩ : ∃ name, above.components.getLast? = some (.normal name) := by
    rw [hbehind]
    rcases List.eq_nil_or_concat' front with rfl | ⟨before, name, rfl⟩
    · exact ⟨stem, by simpa using hstem⟩
    · exact ⟨name, by simp⟩
  have hname : Path.IsName name := Path.isName_of_mem_components (List.mem_of_getLast? hlast)
  have htextAbove : Lookup.checkText above.text = .ok () := by
    obtain ⟨more, hmore⟩ := Path.parent?_prefix habove
    have hwhole : destination.text = above.text ++ String.ofList more := by
      rw [← String.toList_inj, String.toList_append, String.toList_ofList, hmore]
    exact Lookup.checkText_of_append (hbehind.text_ne_empty ready.staging_ne) (hwhole ▸ htext)
  have hfront : y.target ++ front <+: y.target ++ (front ++ [last]) :=
    (List.prefix_append_right_inj _).2 (List.prefix_append _ _)
  obtain ⟨directory, hdirectory, hkind⟩ := ready.wellFormed.directory_above hnode hfront (by simp)
  exact ⟨_, directory, Lookup.find_of_way hbehind hname (Path.endsIn_parent? habove hlast) htextAbove
    hstaging (hway.front (List.prefix_append _ _)) hdirectory (by simp [hkind]), hkind⟩

variable {r : Release} {source target : Location} {q : Path}

/-- A match at or below one that has been staged has been staged itself. -/
theorem Done.of_startsWith {others : Location} (done : y.Done caller fs others)
    (hq : Behind y.root others q) (hp : Behind y.root names p) (h : p.startsWith q = true) :
    y.Done caller fs names := by
  have hbegin : q.components <+: p.components := List.isPrefixOf_iff_prefix.1 h
  rw [hq, hp, List.prefix_append_right_inj] at hbegin
  obtain ⟨front, hfront, heq⟩ := List.prefix_map_iff.1 hbegin
  obtain rfl : others = front := List.map_injective_iff.2 (fun _ _ h => Path.Component.normal.inj h) heq
  obtain ⟨more, rfl⟩ := hfront
  exact done.behind

/-- Copying once more what a match leads to changes nothing. -/
theorem Stocked.exists_exec_stageMatch_again {stem : String}
    (stocked : (ofRelease r source target).Stocked caller fs)
    (apart : (ofRelease r source target).Apart) (hroot : r.root.text ≠ "")
    (hstem : r.stagingDirectory.components.getLast? = some (.normal stem))
    (straight : (ofRelease r source target).Straight caller fs p)
    (done : ∀ names, Behind r.root names p → (ofRelease r source target).Done caller fs names)
    (hagain : ∀ rest, p.below? r.root = some rest →
      Recopiable caller fs r.outputs p (r.stagingDirectory.join rest))
    (hskip : ¬ r.outputs.any p.startsWith = true) :
    ∃ n, (stageMatch r r.stagingDirectory r.outputs p).exec caller fs = (.ok n, fs) := by
  obtain ⟨names, top, hbehind, hfind⟩ := straight
  have ready := stocked.ready
  obtain ⟨rest, hbelow, m⟩ := exists_match hroot ready.staging_ne hskip hbehind
  have hp := hbehind.text_ne_empty hroot
  have hpath : (r.stagingDirectory.join rest).text ≠ "" := m.copied.text_ne_empty ready.staging_ne
  have hrewritable := hagain rest hbelow _ _ hfind
  -- everything below the match is there already and can be written over
  have hsettled (more : Location) (node : Node) (hkept : Kept r.outputs p more)
      (hnode : fs.get? (source ++ names ++ more) = some node) :=
    m.settled hp apart stocked (done names hbehind) hkept hnode (hrewritable more node hkept hnode)
  have hnode : fs.get? (source ++ names ++ []) = some top := by
    rw [List.append_nil]
    exact Lookup.get?_of_find hfind
  have htop := hsettled [] top m.kept hnode
  obtain ⟨copy, hcopy, hkind, -⟩ := htop.exists_copy
  have hway := htop.visited.way
  rw [List.append_nil] at hcopy hway
  have hthere : fs.get? (target ++ names) = some copy := hcopy
  have htext : Lookup.checkText ((r.stagingDirectory.join rest).join ⟨""⟩).text = .ok () := htop.textThere
  have hfindCopy := m.find_copy hroot hbelow ready htext hway hthere (hkind ▸ htop.kind)
  -- only a match that is no directory asks for the directory above its copy
  have habove (hleaf : top.kind ≠ .directory) (above : Path)
      (hparent : (r.stagingDirectory.join rest).parent? = some above) :
      ∃ l node, Lookup.find caller fs true above = .ok (l, node) ∧ node.kind = .directory := by
    have hne : names ≠ [] := by
      rintro rfl
      have hroot := Lookup.get?_of_find hfind
      rw [List.append_nil] at hroot
      exact hleaf (stocked.top top hroot)
    exact m.find_above hstem ready (Lookup.checkText_of_join hpath (by decide) htext) hne hway hthere hparent
  obtain ⟨n, hrun⟩ := Storage.Transfer.exists_exec_copyTree_again (t := m.transfer caller hp apart)
    ready.wellFormed hpath m.kept hsettled hfind ⟨copy, hfindCopy, hkind⟩ habove
  refine ⟨n, ?_⟩
  rw [stageMatch, if_neg hskip, hbelow]
  exact Storage.exec_mapError_of_ok hrun

end Layout

variable {r : Release} {source : Location} {top directory : Node} {manifest : List String} {entry : String}
  {n : Nat}

/-- No path of a project but those of the outputs is in its staging directory. -/
theorem apart_ofRelease (hstem : '/' ∉ r.metadata.stem.toList) (hroot : r.root.text ≠ "") :
    (Layout.ofRelease r source (source ++ [r.metadata.stem])).Apart := by
  intro names free hbegin
  refine not_prefix_of_free hstem hroot free r.metadata.stem (by simp [Release.outputNames]) ?_
  exact (List.prefix_append_right_inj source).1 hbegin

/-- An entry that matches something is staged match by match. -/
theorem exec_stageEntry_of_found {found : List Path} {outcome : Except Failure Nat × FileSystem}
    (hfound : Glob.expand caller fs r.root entry = .ok found) (hne : found ≠ [])
    (h : (Storage.countOver (stageMatch r r.stagingDirectory r.outputs) found).exec caller fs = outcome) :
    (stageEntry r r.stagingDirectory entry).exec caller fs = outcome := by
  have hexpand : (Storage.expandPattern r.root entry).exec caller fs = (.ok found, fs) := by
    rw [Storage.expandPattern, Storage.query, Storage.exec_ofExec, hfound]
    rfl
  rw [stageEntry, Storage.exec_bind, hexpand]
  have hfilled : found.isEmpty = false := by simpa using hne
  dsimp only
  rw [hfilled]
  exact h

/-- An entry whose matches are all at or below matches of a manifest that has been staged changes nothing
when it is staged on top, for every caller, if everything it copies again can be copied over its copy. -/
theorem stage_overlap (wf : fs.WellFormed) (hstem : '/' ∉ r.metadata.stem.toList)
    (hroot : Lookup.find caller fs true r.root = .ok (source, top))
    (hstaging : Lookup.find caller fs true r.stagingDirectory =
      .ok (source ++ [r.metadata.stem], directory))
    (hkind : directory.kind = .directory) (hempty : fs.below (source ++ [r.metadata.stem]) = [])
    (straight : (Layout.ofRelease r source (source ++ [r.metadata.stem])).StraightManifest caller fs
      (manifest ++ [entry]))
    (hrun : (stage r r.stagingDirectory manifest).exec caller fs = (.ok n, fs')) {found : List Path}
    (hfound : Glob.expand caller fs' r.root entry = .ok found) (hne : found ≠ [])
    (hoverlap : ∀ p ∈ found, ¬ r.outputs.any p.startsWith = true →
      ∃ q, Matched caller fs r manifest q ∧ p.startsWith q = true)
    (hagain : ∀ p ∈ found, ∀ rest, p.below? r.root = some rest →
      Recopiable caller fs' r.outputs p (r.stagingDirectory.join rest)) :
    ∃ k, (stage r r.stagingDirectory (manifest ++ [entry])).exec caller fs = (.ok (n + k), fs') := by
  have hrootText := (Lookup.of_checkText_ok (Lookup.find_eq_ok_iff.1 hroot).1).1
  have apart : (Layout.ofRelease r source (source ++ [r.metadata.stem])).Apart :=
    apart_ofRelease hstem hrootText
  have ready : (Layout.ofRelease r source (source ++ [r.metadata.stem])).Ready caller fs :=
    ready_of_empty wf hstaging hkind hempty
  have straight₁ := straight.changes (List.subset_append_left manifest [entry]) .refl
  -- what the first entries leave: copies behind the staging directory, and nothing else
  have hchanges := (ready.stages_stage hrootText apart straight₁).changes_of_exec hrun
  have stocked := Layout.stocked_of_changes ready apart (List.prefix_append _ _)
    (by simp [Layout.ofRelease]) hempty hchanges
  have straight₂ := (straight.changes (List.subset_append_right manifest [entry]) hchanges).entry
    stocked.ready (List.mem_singleton_self entry)
  have hlast : r.stagingDirectory.components.getLast? = some (.normal r.metadata.stem) := by
    have hname := Release.isName_of_mem_outputNames hstem r.metadata.stem (by simp [Release.outputNames])
    rw [Release.stagingDirectory, Path.components_join_name hrootText hname]
    simp
  -- each match of the last entry is copied over its own copy, which changes nothing
  have hmatches (p : Path) (hp : p ∈ found) :
      ∃ k, (stageMatch r r.stagingDirectory r.outputs p).exec caller fs' = (.ok k, fs') := by
    by_cases hskip : r.outputs.any p.startsWith = true
    · exact ⟨0, by rw [stageMatch, if_pos hskip]; rfl⟩
    · refine stocked.exists_exec_stageMatch_again apart hrootText hlast (straight₂ found hfound p hp hskip)
        (fun names hbehind => ?_) (hagain p hp) hskip
      obtain ⟨q, hmatched, hstarts⟩ := hoverlap p hp hskip
      -- the match that it overlaps with is no output, since outputs are skipped with all below
      have hskipAbove : ¬ r.outputs.any q.startsWith = true := by
        intro hany
        obtain ⟨output, hmem, houtput⟩ := List.any_eq_true.1 hany
        have hbegin := (List.isPrefixOf_iff_prefix.1 houtput).trans (List.isPrefixOf_iff_prefix.1 hstarts)
        exact hskip (List.any_eq_true.2 ⟨output, hmem, List.isPrefixOf_iff_prefix.2 hbegin⟩)
      obtain ⟨others, hothers, done⟩ :=
        done_of_stage hrootText apart ready straight₁ hrun hmatched hskipAbove
      exact done.of_startsWith hothers hbehind hstarts
  obtain ⟨k, hcount⟩ := Storage.exists_exec_countOver hmatches
  have hentry := exec_stageEntry_of_found hfound hne hcount
  refine ⟨k, ?_⟩
  rw [stage, Storage.exec_countOver_append, ← stage, hrun]
  dsimp only
  rw [Storage.exec_countOver_cons, hentry]
  rfl

/-- A file that the caller may write to can be copied over its copy. -/
theorem recopiable_of_file {outputs : List Path} {p destination : Path} {l : Location} {node : Node}
    (wf : fs.WellFormed) (hfind : Lookup.find caller fs false p = .ok (l, node)) (hkind : node.kind = .file)
    (hmay : caller.may .write node = true)
    (htext : Lookup.checkText (destination.join ⟨""⟩).text = .ok ()) :
    Recopiable caller fs outputs p destination := by
  intro k top hfind' names other _ hother
  obtain ⟨rfl, rfl⟩ : l = k ∧ node = top := by simpa using hfind.symm.trans hfind'
  have hnode := Lookup.get?_of_find hfind
  -- nothing is below a file
  obtain rfl : names = [] := by
    by_contra hne
    obtain ⟨directory, hdirectory, hkind'⟩ :=
      wf.directory_above hother (List.prefix_append l names) (by simpa using hne)
    obtain rfl := Option.some.inj (hnode.symm.trans hdirectory)
    simp [hkind] at hkind'
  rw [List.append_nil] at hother
  obtain rfl := Option.some.inj (hnode.symm.trans hother)
  exact ⟨by simp [hkind], fun _ => hmay, (Lookup.find_eq_ok_iff.1 hfind).1, htext⟩

/-- A project with a file in a directory, a file that nobody may write to, and a link. -/
def variedTree : FileSystem :=
  .ofNodes [
    (["r", "p-1"], .directory Mode.directory 0),
    (["r", "a"], .file 0o444#12 0 [2]),
    (["r", "d", "f"], .file Mode.file 0 [1]),
    (["r", "d"], .directory Mode.directory 0),
    (["r", "l"], .link "d" 0),
    (["r"], .directory Mode.directory 0)]

/-- The root and the empty staging directory of the varied project are where their names say. -/
theorem find_variedTree :
    Lookup.find .userAtRoot variedTree true Release.first.root =
      .ok (["r"], .directory Mode.directory 0) ∧
    Lookup.find .userAtRoot variedTree true Release.first.stagingDirectory =
      .ok (["r", "p-1"], .directory Mode.directory 0) ∧
    variedTree.below ["r", "p-1"] = [] := by
  decide +kernel

/-- The directory and the file in it are straight entries. -/
theorem straight_variedTree : (Layout.ofRelease Release.first ["r"] ["r", "p-1"]).StraightManifest
    .userAtRoot variedTree (["d"] ++ ["d/f"]) := by
  have hnames : ["d"] ++ ["d/f"] = [["d"], ["d", "f"]].map Path.slashed := by decide +kernel
  rw [hnames]
  exact straightManifest_of_names find_variedTree.1 find_variedTree.2.2 (by decide +kernel)
    (by decide +kernel) (by decide +kernel)

/-- What is there after the directory has been staged. -/
def stagedTree : FileSystem :=
  ((stage Release.first Release.first.stagingDirectory ["d"]).exec .userAtRoot variedTree).2

/-- The directory of the varied project is staged with its file. -/
theorem exec_stage_variedTree :
    (stage Release.first Release.first.stagingDirectory ["d"]).exec .userAtRoot variedTree =
      (.ok 1, stagedTree) :=
  Storage.exec_eq_of_outcome (by decide +kernel)

/-- What is there after the directory has been staged is in good shape. -/
theorem wellFormed_stagedTree : stagedTree.WellFormed := by
  have wf : variedTree.WellFormed := FileSystem.wellFormed_ofNodes (by decide)
  have straight := straight_variedTree.changes (List.subset_append_left ["d"] ["d/f"]) .refl
  have hchanges := changes_stage wf find_variedTree.1 find_variedTree.2.1 rfl find_variedTree.2.2 straight
  exact ((ready_of_empty wf find_variedTree.2.1 rfl find_variedTree.2.2).changes hchanges).wellFormed

/-- The file is staged with its directory, and once more by an entry of its own. -/
theorem stage_overlap_file : ∃ k,
    (stage Release.first Release.first.stagingDirectory (["d"] ++ ["d/f"])).exec .userAtRoot variedTree =
      (.ok (1 + k), stagedTree) := by
  have hfound : Glob.expand .userAtRoot stagedTree Release.first.root "d/f" = .ok [⟨"/r/d/f"⟩] := by
    decide +kernel
  have hmatched : Matched .userAtRoot variedTree Release.first ["d"] ⟨"/r/d"⟩ :=
    ⟨[], "d", [], rfl, 0, variedTree, [⟨"/r/d"⟩], rfl, by decide +kernel, List.mem_singleton_self _⟩
  have hfind : Lookup.find .userAtRoot stagedTree false ⟨"/r/d/f"⟩ =
      .ok (["r", "d", "f"], .file Mode.file 0 [1]) := by
    decide +kernel
  refine stage_overlap (FileSystem.wellFormed_ofNodes (by decide)) (by decide +kernel) find_variedTree.1
    find_variedTree.2.1 rfl find_variedTree.2.2 straight_variedTree exec_stage_variedTree hfound (by simp)
    (fun p hp _ => ?_) (fun p hp rest hrest => ?_)
  · obtain rfl := List.mem_singleton.1 hp
    exact ⟨_, hmatched, by decide +kernel⟩
  · obtain rfl := List.mem_singleton.1 hp
    have hbelow : (⟨"/r/d/f"⟩ : Path).below? Release.first.root = some ⟨"d/f"⟩ := by decide +kernel
    obtain rfl := Option.some.inj (hrest.symm.trans hbelow)
    exact recopiable_of_file wellFormed_stagedTree hfind rfl (by decide) (by decide +kernel)

/-- A link is staged once but not twice, and so is a file that nobody may write to, if the caller is an
ordinary user. -/
theorem stage_twice_fails : variedTree.WellFormed ∧
    Lookup.find .userAtRoot variedTree true Release.first.stagingDirectory =
      .ok (["r", "p-1"], .directory Mode.directory 0) ∧
    variedTree.below ["r", "p-1"] = [] ∧
    ((stage Release.first Release.first.stagingDirectory ["l"]).exec .superuserAtRoot variedTree).1 =
      .ok 1 ∧
    ((stage Release.first Release.first.stagingDirectory ["l", "l"]).exec .superuserAtRoot variedTree).1 =
      .error (.file (.custom .alreadyExists "Failed to copy l into staging: File exists (os error 17)")) ∧
    ((stage Release.first Release.first.stagingDirectory ["a"]).exec .userAtRoot variedTree).1 = .ok 1 ∧
    ((stage Release.first Release.first.stagingDirectory ["a", "a"]).exec .userAtRoot variedTree).1 =
      .error (.file (.custom .permissionDenied
        "Failed to copy a into staging: Permission denied (os error 13)")) := by
  exact ⟨FileSystem.wellFormed_ofNodes (by decide), find_variedTree.2.1, find_variedTree.2.2,
    by decide +kernel, by decide +kernel, by decide +kernel, by decide +kernel⟩

end RpmRelease.Manifest
