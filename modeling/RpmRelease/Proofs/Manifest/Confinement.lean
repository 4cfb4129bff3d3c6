import Mathlib.Data.List.Infix
import RpmRelease.Proofs.FileSystem.Listed
import RpmRelease.Proofs.Glob
import RpmRelease.Proofs.Manifest.Copying
import RpmRelease.Proofs.Release

/-!
# What staging changes, and what it copies

Staging is told paths, not locations.  When every match of the manifest is straight, that is, leads
where its names say, staging changes nothing but what is behind the staging directory, and everything
that it puts there is the copy of a node with the same names behind the root which is no output of
the release.  Both hold however staging ends.

Both fail without that condition.  A link that was staged leads later copies out of the staging
directory, and under another spelling an output is staged like any other file.
-/

set_option autoImplicit false

namespace RpmRelease.Manifest

open Relation (ReflTransGen)
open Lookup (Behind NoLinks)

variable {caller : Caller} {fs : FileSystem} {r : Release} {source target : Location}
  {top directory : Node} {manifest : List String}

/-! ## Straight entries -/

/-- Where nothing is below a location, nothing stands behind it. -/
theorem get?_of_below_nil (hempty : fs.below target = []) {more : Location} (hmore : more ≠ []) :
    fs.get? (target ++ more) = none := by
  by_contra hthere
  obtain ⟨node, hnode⟩ := Option.ne_none_iff_exists'.1 hthere
  have hmem := FileSystem.mem_below.2 ⟨hmore, hnode⟩
  rw [hempty] at hmem
  simp at hmem

/-- An entry that consists of names is straight when there are no links on the way, and when the way
does not lead through the staging directory. -/
theorem straightEntry_of_names {fs' : FileSystem} {names : Location}
    (hroot : Lookup.find caller fs true r.root = .ok (source, top))
    (hempty : fs.below target = []) (hsame : (Layout.ofRelease r source target).SameOutside fs fs')
    (hne : names ≠ []) (hnames : ∀ name ∈ names, Path.IsName name)
    (hplain : Glob.hasWildcards (Path.slashed names) = false)
    (hlinks : NoLinks fs source names)
    (houtside : ∀ front, front <+: names → front ≠ names →
      ∀ more, more ≠ [] → source ++ front ≠ target ++ more) :
    (Layout.ofRelease r source target).StraightEntry caller fs' (Path.slashed names) := by
  have hrootText := (Lookup.of_checkText_ok (Lookup.find_eq_ok_iff.1 hroot).1).1
  -- nothing stood behind the staging directory, so that everything is where it was
  have hwithin : fs.Within fs' := by
    intro l node hnode
    rw [hsame l, hnode]
    rintro more hmore rfl
    have hnone : fs.get? (target ++ more) = none := get?_of_below_nil hempty hmore
    exact Option.some_ne_none _ (hnode.symm.trans hnone)
  have hroot' := Lookup.find_within hwithin hroot
  have hlinks' : NoLinks fs' source names := by
    intro front hfront hfrontNe hwhole target' time hlink
    rw [hsame _ fun more hmore => houtside front hfront hwhole more hmore] at hlink
    exact hlinks front hfront hfrontNe hwhole target' time hlink
  intro found hfound p hp _
  obtain ⟨rfl, ⟨l, node⟩, hfind⟩ :=
    Glob.eq_along_of_mem_expand hrootText hne hnames hplain hfound hp
  obtain rfl := Lookup.eq_of_find_along hnames hroot' hlinks' hne hfind
  exact ⟨names, node, Lookup.behind_along hrootText hnames, hfind⟩

/-! ## What is left alone -/

/-- An empty staging directory is ready for copies. -/
theorem ready_of_empty (wf : fs.WellFormed)
    (hstaging : Lookup.find caller fs true r.stagingDirectory = .ok (target, directory))
    (hkind : directory.kind = .directory) (hempty : fs.below target = []) :
    (Layout.ofRelease r source target).Ready caller fs where
  wellFormed := wf
  staging := ⟨directory, hstaging, hkind⟩
  links := by
    intro names node hnode hlink
    change fs.get? (target ++ names) = some node at hnode
    by_cases hnil : names = []
    · rw [hnil, List.append_nil, Lookup.get?_of_find hstaging] at hnode
      obtain rfl := Option.some.inj hnode
      simp [hkind] at hlink
    · simp [get?_of_below_nil hempty hnil] at hnode

/-- All changes that staging a straight manifest makes are copies behind the staging directory. -/
theorem changes_stage (wf : fs.WellFormed)
    (hroot : Lookup.find caller fs true r.root = .ok (source, top))
    (hstaging : Lookup.find caller fs true r.stagingDirectory = .ok (target, directory))
    (hkind : directory.kind = .directory) (hempty : fs.below target = [])
    (straight : (Layout.ofRelease r source target).StraightManifest caller fs manifest) :
    ReflTransGen (Layout.ofRelease r source target).Copies fs
      ((stage r r.stagingDirectory manifest).exec caller fs).2 := by
  have hrootText := (Lookup.of_checkText_ok (Lookup.find_eq_ok_iff.1 hroot).1).1
  have ready : (Layout.ofRelease r source target).Ready caller fs :=
    ready_of_empty wf hstaging hkind hempty
  exact (ready.makes_stage id (fun ready straight => ready.makes_stageMatch hrootText straight)
    straight).changes

/-- Staging into an empty directory leaves everything as it was that is not in this directory,
however it ends. -/
theorem get?_stage_of_outside (wf : fs.WellFormed)
    (hroot : Lookup.find caller fs true r.root = .ok (source, top))
    (hstaging : Lookup.find caller fs true r.stagingDirectory = .ok (target, directory))
    (hkind : directory.kind = .directory) (hempty : fs.below target = [])
    (straight : (Layout.ofRelease r source target).StraightManifest caller fs manifest) :
    ∀ l, (∀ names, names ≠ [] → l ≠ target ++ names) →
      ((stage r r.stagingDirectory manifest).exec caller fs).2.get? l = fs.get? l :=
  Layout.sameOutside_of_changes (changes_stage wf hroot hstaging hkind hempty straight)

/-- Entries that consist of names make up a straight manifest when the names that each of them leads
through are those of directories, none of which is in the staging directory. -/
theorem straightManifest_of_names {entries : List Location}
    (hroot : Lookup.find caller fs true r.root = .ok (source, top)) (hempty : fs.below target = [])
    (hnames : ∀ names ∈ entries, names ≠ [] ∧ (∀ name ∈ names, Path.IsName name) ∧
      Glob.hasWildcards (Path.slashed names) = false)
    (hthrough : ∀ names ∈ entries, ∀ front ∈ names.inits, front ≠ [] → front ≠ names →
      (fs.get? (source ++ front)).map Node.kind = some .directory)
    (houtside : ∀ names ∈ entries, ∀ front ∈ names.inits, front ≠ names →
      ¬ target <+: source ++ front) :
    (Layout.ofRelease r source target).StraightManifest caller fs (entries.map Path.slashed) := by
  intro fs' _ hsame entry hentry
  obtain ⟨names, hmem, rfl⟩ := List.mem_map.1 hentry
  obtain ⟨hne, hisName, hplain⟩ := hnames names hmem
  have hinits (front : Location) (hfront : front <+: names) : front ∈ names.inits :=
    (List.mem_inits _ _).2 hfront
  refine straightEntry_of_names hroot hempty hsame hne hisName hplain ?_ ?_
  · intro front hfront hnil hwhole destination time hlink
    have hkind := hthrough names hmem front (hinits front hfront) hnil hwhole
    rw [hlink] at hkind
    simp [Node.kind] at hkind
  · intro front hfront hwhole more _ heq
    exact houtside names hmem front (hinits front hfront) hwhole (heq ▸ List.prefix_append target more)

/-- A project with a directory that holds a file and a link, a link of its own, and an archive that was
made before. -/
def mixedTree : FileSystem :=
  .ofNodes [
    (["r", "p-1"], .directory Mode.directory 0),
    (["r", "p-1.tar"], .file Mode.file 7 [9]),
    (["r", "d", "f"], .file Mode.file 7 [1]),
    (["r", "d", "k"], .link "../l" 7),
    (["r", "d"], .directory Mode.directory 7),
    (["r", "l"], .link "d" 7),
    (["r"], .directory Mode.directory 0)]

/-- The root and the empty staging directory of the mixed project are where their names say. -/
theorem find_mixedTree :
    Lookup.find .superuserAtRoot mixedTree true Release.first.root =
      .ok (["r"], .directory Mode.directory 0) ∧
    Lookup.find .superuserAtRoot mixedTree true Release.first.stagingDirectory =
      .ok (["r", "p-1"], .directory Mode.directory 0) ∧
    mixedTree.below ["r", "p-1"] = [] := by
  decide +kernel

/-- The archive, the directory and the link are straight entries. -/
theorem straight_mixedTree : (Layout.ofRelease Release.first ["r"] ["r", "p-1"]).StraightManifest
    .superuserAtRoot mixedTree ["p-1.tar", "d", "l"] := by
  have hnames : ["p-1.tar", "d", "l"] = [["p-1.tar"], ["d"], ["l"]].map Path.slashed := by
    decide +kernel
  rw [hnames]
  exact straightManifest_of_names find_mixedTree.1 find_mixedTree.2.2 (by decide +kernel)
    (by decide +kernel) (by decide +kernel)

/-- What is there after the mixed project has been staged. -/
def stagedMixedTree : FileSystem :=
  ((stage Release.first Release.first.stagingDirectory ["p-1.tar", "d", "l"]).exec .superuserAtRoot
    mixedTree).2

/-- Three files and links are counted, and the staging directory holds them and the directory. -/
theorem below_stagedMixedTree :
    ((stage Release.first Release.first.stagingDirectory ["p-1.tar", "d", "l"]).exec .superuserAtRoot
      mixedTree).1 = .ok 3 ∧
    (stagedMixedTree.below ["r", "p-1"]).map Prod.fst = [["d"], ["d", "f"], ["d", "k"], ["l"]] := by
  decide +kernel

/-- Staging the mixed project leaves the archive and everything else of the project as they were. -/
theorem get?_stage_mixedTree :
    (stage Release.first Release.first.stagingDirectory ["p-1.tar", "d", "l"]).exec .superuserAtRoot
      mixedTree = (.ok 3, stagedMixedTree) ∧
    ∀ l, (∀ names, names ≠ [] → l ≠ ["r", "p-1"] ++ names) →
      stagedMixedTree.get? l = mixedTree.get? l := by
  have hsame := get?_stage_of_outside (FileSystem.wellFormed_ofNodes (by decide)) find_mixedTree.1
    find_mixedTree.2.1 rfl find_mixedTree.2.2 straight_mixedTree
  exact ⟨Storage.exec_eq_of_outcome below_stagedMixedTree.1, hsame⟩

/-- A project with a link that leads to another directory from the staging directory than from the
root. -/
def linkedTree : FileSystem :=
  .ofNodes [
    (["r", "p-1"], .directory Mode.directory 0),
    (["r", "d"], .link "../k" 0),
    (["r", "k", "x"], .file Mode.file 0 [1]),
    (["r", "k"], .directory Mode.directory 0),
    (["r"], .directory Mode.directory 0),
    (["k", "x"], .file Mode.file 0 [2]),
    (["k"], .directory Mode.directory 0)]

/-- A file behind a link that was staged before overwrites a file of the project. -/
theorem stage_overwrites_outside : linkedTree.WellFormed ∧
    Lookup.find .superuserAtRoot linkedTree true Release.first.stagingDirectory =
      .ok (["r", "p-1"], .directory Mode.directory 0) ∧
    linkedTree.below ["r", "p-1"] = [] ∧
    linkedTree.get? ["r", "k", "x"] = some (.file Mode.file 0 [1]) ∧
    ((stage Release.first Release.first.stagingDirectory ["d", "d/x"]).exec .superuserAtRoot
      linkedTree).1 = .ok 2 ∧
    ((stage Release.first Release.first.stagingDirectory ["d", "d/x"]).exec .superuserAtRoot
      linkedTree).2.get? ["r", "k", "x"] = some (.file Mode.file 0 [2]) := by
  exact ⟨FileSystem.wellFormed_ofNodes (by decide), by decide +kernel, by decide +kernel,
    by decide +kernel, by decide +kernel, by decide +kernel⟩

/-! ## What is copied -/

/-- Everything behind the staging directory is the copy of what has the same names behind the root,
when nothing has been there and no source is there. -/
theorem copyOf_of_changes {y : Layout} {fs' : FileSystem} (h : ReflTransGen y.Copies fs fs')
    (hplaces : y.source ≠ y.target) (hempty : fs.below y.target = [])
    (hfree : ∀ names, y.Free names → ∀ more, more ≠ [] → y.source ++ names ≠ y.target ++ more) :
    ∀ names copy, names ≠ [] → fs'.get? (y.target ++ names) = some copy →
      (∃ original, fs.get? (y.source ++ names) = some original ∧ copy.CopyOf original) ∧
        y.Free names := by
  induction h with
  | refl =>
      intro names copy hne hcopy
      simp [get?_of_below_nil hempty hne] at hcopy
  | @tail middle fs' hchanges hstep ih =>
      cases hstep with
      | @put names original copy _ hsource free _ _ copyOf =>
          intro others other hne hother
          rw [FileSystem.get?_set] at hother
          split at hother
          · next hsame =>
              obtain rfl := List.append_cancel_left hsame
              obtain rfl := Option.some.inj hother
              have hbefore := Layout.sameOutside_of_changes hchanges _ (hfree names free)
              exact ⟨⟨original, hbefore.symm.trans hsource, copyOf hplaces⟩, free⟩
          · exact ih others other hne hother

/-- Names that do not lead to an output do not begin with the name of one. -/
theorem not_prefix_of_free (hstem : '/' ∉ r.metadata.stem.toList) (hroot : r.root.text ≠ "")
    {names : Location} (free : (Layout.ofRelease r source target).Free names) :
    ∀ output ∈ r.outputNames, ¬ [output] <+: names := by
  intro name hname hstarts
  have hmem : r.root.join ⟨name⟩ ∈ r.outputs := r.outputs_eq ▸ List.mem_map_of_mem hname
  refine free _ hmem ?_
  rw [Path.components_join_name hroot (Release.isName_of_mem_outputNames hstem name hname)]
  exact (List.prefix_append_right_inj _).2 (hstarts.map Path.Component.normal)

/-- Everything that is staged is the copy of what has the same names behind the root, and is no output
of the release and in none of them, however staging ends. -/
theorem copyOf_stage (wf : fs.WellFormed) (hstem : '/' ∉ r.metadata.stem.toList)
    (hroot : Lookup.find caller fs true r.root = .ok (source, top))
    (hstaging : Lookup.find caller fs true r.stagingDirectory =
      .ok (source ++ [r.metadata.stem], directory))
    (hkind : directory.kind = .directory) (hempty : fs.below (source ++ [r.metadata.stem]) = [])
    (straight : (Layout.ofRelease r source (source ++ [r.metadata.stem])).StraightManifest caller fs
      manifest) :
    ∀ names copy, names ≠ [] →
      ((stage r r.stagingDirectory manifest).exec caller fs).2.get?
        (source ++ [r.metadata.stem] ++ names) = some copy →
      (∃ original, fs.get? (source ++ names) = some original ∧ copy.CopyOf original) ∧
        ∀ output ∈ r.outputNames, ¬ [output] <+: names := by
  intro names copy hne hcopy
  have hrootText := (Lookup.of_checkText_ok (Lookup.find_eq_ok_iff.1 hroot).1).1
  have hchanges := changes_stage wf hroot hstaging hkind hempty straight
  have hplaces : source ≠ source ++ [r.metadata.stem] := by simp
  have hfree : ∀ names, (Layout.ofRelease r source (source ++ [r.metadata.stem])).Free names →
      ∀ more, more ≠ [] → source ++ names ≠ source ++ [r.metadata.stem] ++ more := by
    intro names free more _ heq
    rw [List.append_assoc] at heq
    obtain rfl := List.append_cancel_left heq
    refine not_prefix_of_free hstem hrootText free r.metadata.stem (by simp [Release.outputNames]) ?_
    exact List.prefix_append _ _
  obtain ⟨horiginal, free⟩ := copyOf_of_changes hchanges hplaces hempty hfree names copy hne hcopy
  exact ⟨horiginal, not_prefix_of_free hstem hrootText free⟩

/-- What has been staged of the mixed project is the directory, the file and the link in it, and the
other link, each the copy of what has the same names in the project, and not the archive. -/
theorem copyOf_stage_mixedTree :
    (stagedMixedTree.below ["r", "p-1"]).map Prod.fst = [["d"], ["d", "f"], ["d", "k"], ["l"]] ∧
    (∀ names copy, (names, copy) ∈ stagedMixedTree.below ["r", "p-1"] →
      ∃ original, mixedTree.get? (["r"] ++ names) = some original ∧ copy.CopyOf original) ∧
    stagedMixedTree.get? ["r", "p-1", "p-1.tar"] = none := by
  have hstaged := copyOf_stage (FileSystem.wellFormed_ofNodes (by decide)) (by decide +kernel)
    find_mixedTree.1 find_mixedTree.2.1 rfl find_mixedTree.2.2 straight_mixedTree
  refine ⟨below_stagedMixedTree.2, ?_, ?_⟩
  · intro names copy hmem
    obtain ⟨hne, hcopy⟩ := FileSystem.mem_below.1 hmem
    exact (hstaged names copy hne hcopy).1
  · by_contra hthere
    obtain ⟨copy, hcopy⟩ := Option.ne_none_iff_exists'.1 hthere
    obtain ⟨-, houtputs⟩ := hstaged ["p-1.tar"] copy (by simp) hcopy
    exact houtputs "p-1.tar" (by decide +kernel) List.prefix_rfl

/-- A project whose archive can be reached through a link to the root. -/
def loopedTree : FileSystem :=
  .ofNodes [
    (["r", "p-1"], .directory Mode.directory 0),
    (["r", "p-1.tar"], .file Mode.file 0 [1]),
    (["r", "s"], .link "." 0),
    (["r"], .directory Mode.directory 0)]

/-- The only file of the project, an archive of the release, is staged under another spelling. -/
theorem stage_copies_output : loopedTree.WellFormed ∧
    Lookup.find .superuserAtRoot loopedTree true Release.first.stagingDirectory =
      .ok (["r", "p-1"], .directory Mode.directory 0) ∧
    loopedTree.below ["r", "p-1"] = [] ∧
    (∀ l node, loopedTree.get? l = some node → node.kind = .file → l = ["r", "p-1.tar"]) ∧
    "p-1.tar" ∈ Release.first.outputNames ∧
    ((stage Release.first Release.first.stagingDirectory ["s/p-1.tar"]).exec .superuserAtRoot
      loopedTree).1 = .ok 1 ∧
    ((stage Release.first Release.first.stagingDirectory ["s/p-1.tar"]).exec .superuserAtRoot
      loopedTree).2.get? ["r", "p-1", "s", "p-1.tar"] = some (.file Mode.file 0 [1]) := by
  exact ⟨FileSystem.wellFormed_ofNodes (by decide), by decide +kernel, by decide +kernel,
    FileSystem.forall_ofNodes (by decide) (by decide), by decide +kernel, by decide +kernel,
    by decide +kernel⟩

end RpmRelease.Manifest
