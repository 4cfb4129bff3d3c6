import RpmRelease.Proofs.Archive.Failing
import RpmRelease.Proofs.Path.Above
import RpmRelease.Proofs.Staging.Cleaning

/-!
# The outputs stay in the root

The outputs of a release are entries of the root with three names when there is no slash in the stem.
No output is inside another one, and cleaning up, creating the staging directory and archiving change
nothing else, however they end.

With a slash in the stem this fails: the stem then leads through other directories, and by way of `..`
out of the root.
-/

set_option autoImplicit false

namespace RpmRelease.Release

open Relation (ReflTransGen)
open Storage (Makes)

variable {caller : Caller} {fs fs₀ fs' : FileSystem} {r : Release} {l k : Location} {top : Node}
  {name : String} {ε α : Type}

/-! ## Paths -/

/-- Where the path of an output leads, as components. -/
theorem components_output (hstem : '/' ∉ r.metadata.stem.toList) (htext : r.root.text ≠ "") :
    r.outputs.map Path.components =
      r.outputNames.map fun name => r.root.components ++ [.normal name] := by
  rw [outputs_eq, List.map_map]
  refine List.map_congr_left fun name hname => ?_
  exact Path.components_join_name htext (isName_of_mem_outputNames hstem name hname)

/-- No output is inside another one. -/
theorem eq_of_startsWith_output (hstem : '/' ∉ r.metadata.stem.toList) (htext : r.root.text ≠ "")
    {p q : Path} (hp : p ∈ r.outputs) (hq : q ∈ r.outputs) (h : p.startsWith q = true) : p = q := by
  rw [outputs_eq] at hp hq
  obtain ⟨name, hname, rfl⟩ := List.mem_map.1 hp
  obtain ⟨other, hother, rfl⟩ := List.mem_map.1 hq
  rw [Path.startsWith, Path.components_join_name htext (isName_of_mem_outputNames hstem name hname),
    Path.components_join_name htext (isName_of_mem_outputNames hstem other hother),
    List.isPrefixOf_iff_prefix, List.prefix_append_right_inj] at h
  have hsame : other = name := by simpa using h
  rw [hsame]

/-! ## Changes -/

/-- Changes that leave everything apart from the outputs as it was in an earlier file system. -/
def Keeps (r : Release) (l : Location) (fs₀ fs fs' : FileSystem) : Prop :=
  r.bare l fs = r.bare l fs₀ → r.bare l fs' = r.bare l fs₀

/-- A change at or below an output leaves the rest. -/
theorem Keeps.of_get? (hname : name ∈ r.outputNames)
    (h : ∀ k, ¬ l ++ [name] <+: k → fs'.get? k = fs.get? k) : r.Keeps l fs₀ fs fs' := by
  intro hbare
  rw [← hbare]
  exact bare_eq_iff.2 fun k hk => h k (hk name hname)

/-- Changes that leave everything apart from the outputs do so one after the other. -/
theorem bare_eq_of_changes (h : ReflTransGen (r.Keeps l fs₀) fs fs')
    (hbare : r.bare l fs = r.bare l fs₀) : r.bare l fs' = r.bare l fs₀ :=
  Storage.keeps_of_changes (P := fun fs => r.bare l fs = r.bare l fs₀) h hbare

/-- The root is found where it was found without the outputs. -/
theorem find_root_of_bare_eq (hroot : Lookup.find caller (r.bare l fs₀) true r.root = .ok (l, top))
    (hbare : r.bare l fs = r.bare l fs₀) : Lookup.find caller fs true r.root = .ok (l, top) :=
  Lookup.find_within (r.bare_within l fs) (hbare ▸ hroot)

/-- Emptying a directory at or below an output changes nothing else. -/
theorem makes_emptyDirectory (hname : name ∈ r.outputNames) (depth : Nat)
    (hk : l ++ [name] <+: k) :
    Makes (r.Keeps l fs₀) caller fs (Storage.emptyDirectory depth k) fun _ _ => True := by
  induction depth generalizing k fs with
  | zero => exact .pure trivial
  | succ depth ih =>
      rw [Storage.emptyDirectory]
      refine Makes.query.bind fun entries _ _ _ => Makes.forM ?_
      rintro ⟨entry, node⟩ - fs' -
      have hentry : l ++ [name] <+: k ++ [entry] := hk.trans (List.prefix_append k [entry])
      have herase (fs : FileSystem) : Makes (r.Keeps l fs₀) caller fs
          (modify (·.erase (k ++ [entry])) : Storage FileError Unit) fun _ _ => True := by
        refine ⟨.single (.of_get? hname fun j hj => ?_), fun _ _ => trivial⟩
        refine (FileSystem.get?_erase ..).trans (if_neg ?_)
        rintro rfl
        exact hj hentry
      by_cases hkind : node.kind = .directory
      · simp only [hkind, beq_self_eq_true, if_true]
        exact Makes.query.bind fun _ _ _ _ => (ih hentry).bind fun _ _ _ _ =>
          Makes.query.bind fun _ _ _ _ => Makes.query.bind fun _ fs _ _ => herase fs
      · simp only [beq_iff_eq, hkind, if_false]
        exact Makes.query.bind fun _ _ _ _ => Makes.query.bind fun _ fs _ _ => herase fs

/-- Erasing an output leaves everything else. -/
theorem Keeps.erase (hname : name ∈ r.outputNames) :
    r.Keeps l fs₀ fs (fs.erase (l ++ [name])) :=
  .of_get? hname fun k hk => by
    rw [FileSystem.get?_erase, if_neg]
    rintro rfl
    exact hk List.prefix_rfl

section Removing

variable (hstem : '/' ∉ r.metadata.stem.toList)
  (hroot : Lookup.find caller (r.bare l fs₀) true r.root = .ok (l, top))
  (hname : name ∈ r.outputNames)

include hstem hroot hname

/-- Removing an output by its path leaves everything else. -/
theorem keeps_removeFile (hbare : r.bare l fs = r.bare l fs₀)
    (h : fs.removeFile caller (r.root.join ⟨name⟩) = .ok fs') : r.Keeps l fs₀ fs fs' := by
  obtain ⟨node, -, -, -, rfl⟩ := FileSystem.of_removeFile_join (find_root_of_bare_eq hroot hbare)
    (isName_of_mem_outputNames hstem name hname) h
  exact .erase hname

/-- Removing an output that is an empty directory changes nothing else. -/
theorem keeps_removeDirectory (hbare : r.bare l fs = r.bare l fs₀)
    (h : fs.removeDirectory caller (r.root.join ⟨name⟩) = .ok fs') : r.Keeps l fs₀ fs fs' := by
  obtain rfl := FileSystem.of_removeDirectory_join (find_root_of_bare_eq hroot hbare)
    (isName_of_mem_outputNames hstem name hname) h
  exact .erase hname

/-- Removing an output that is a directory, with what is in it, changes nothing else, however far it
gets. -/
theorem makes_removeAll (hbare : r.bare l fs = r.bare l fs₀) :
    Makes (r.Keeps l fs₀) caller fs (Storage.removeAll (r.root.join ⟨name⟩)) fun _ _ => True := by
  have hremoveFile {fs' : FileSystem} (hafter : (Storage.change fun caller fs =>
      fs.removeFile caller (r.root.join ⟨name⟩)).exec caller fs = (.ok (), fs')) :
      r.Keeps l fs₀ fs fs' :=
    keeps_removeFile hstem hroot hname hbare (Storage.of_exec_change_ok hafter)
  rw [Storage.removeAll]
  refine Makes.query.bind ?_
  rintro ⟨k, node⟩ fs - ⟨rfl, hfound⟩
  obtain rfl := Lookup.location_of_find_join (find_root_of_bare_eq hroot hbare)
    (isName_of_mem_outputNames hstem name hname) hfound
  cases hkind : node.kind with
  | link =>
      simp only [hkind]
      exact .change fun _ hafter => hremoveFile hafter
  | file =>
      simp only [hkind]
      exact .throw
  | directory =>
      simp only [hkind]
      -- what is in the directory is erased first, and then the directory itself
      refine Makes.get.bind ?_
      rintro _ fs - ⟨rfl, rfl⟩
      refine (makes_emptyDirectory hname _ List.prefix_rfl).bind fun _ emptied hchanges _ => ?_
      refine .change fun _ hafter => ?_
      exact keeps_removeDirectory hstem hroot hname (bare_eq_of_changes hchanges hbare)
        (Storage.of_exec_change_ok hafter)

/-- Removing an output changes nothing else, however far it gets. -/
theorem makes_removePath (hbare : r.bare l fs = r.bare l fs₀) :
    Makes (r.Keeps l fs₀) caller fs (Staging.removePath (r.root.join ⟨name⟩)) fun _ _ => True := by
  refine Makes.attempt_query.bind ?_
  rintro outcome fs - ⟨rfl, -⟩
  cases outcome with
  | error e =>
      by_cases hkind : e.kind = .notFound
      · simp only [hkind, beq_self_eq_true, if_true]
        exact .pure trivial
      · simp only [beq_iff_eq, hkind, if_false]
        exact .throw
  | ok node =>
      by_cases hkind : node.kind = .directory
      · simp only [hkind, beq_self_eq_true, if_true]
        exact (makes_removeAll hstem hroot hname hbare).bind fun _ _ _ _ => .pure trivial
      · simp only [beq_iff_eq, hkind, if_false]
        refine Makes.bind (Q := fun _ _ => True) (.change fun _ hafter => ?_) fun _ _ _ _ =>
          .pure trivial
        exact keeps_removeFile hstem hroot hname hbare (Storage.of_exec_change_ok hafter)

end Removing

/-- Cleaning leaves everything but the outputs. -/
theorem makes_clean (hstem : '/' ∉ r.metadata.stem.toList)
    (hroot : Lookup.find caller (r.bare l fs₀) true r.root = .ok (l, top))
    (hbare : r.bare l fs = r.bare l fs₀) :
    Makes (r.Keeps l fs₀) caller fs (Staging.clean r) fun _ _ => True := by
  rw [Staging.clean_eq, outputs_eq]
  refine Makes.bind (Makes.mapM ?_) fun _ _ _ _ => .pure trivial
  rintro path hpath fs' hchanges
  obtain ⟨name, hname, rfl⟩ := List.mem_map.1 hpath
  have hremove := makes_removePath hstem hroot hname (bare_eq_of_changes hchanges hbare)
  exact hremove.mapError.bind fun _ _ _ _ => .pure trivial

/-- Creating the staging directory changes nothing else. -/
theorem makes_create (hstem : '/' ∉ r.metadata.stem.toList)
    (hroot : Lookup.find caller (r.bare l fs₀) true r.root = .ok (l, top))
    (hbare : r.bare l fs = r.bare l fs₀) :
    Makes (r.Keeps l fs₀) caller fs (Staging.create r) fun _ _ => True := by
  have hmem : r.metadata.stem ∈ r.outputNames := List.mem_cons_self
  have hname := isName_of_mem_outputNames hstem _ hmem
  have hfind := find_root_of_bare_eq hroot hbare
  have htext : r.stagingDirectory.text ≠ "" :=
    (Path.join_last (Lookup.of_checkText_ok (Lookup.find_eq_ok_iff.1 hfind).1).1 hname).1
  obtain ⟨above, habove⟩ := r.stagingDirectory.exists_ancestors
  have hdirectories : Makes (r.Keeps l fs₀) caller fs
      (Storage.createDirectories r.stagingDirectory) fun _ _ => True := by
    rw [Storage.createDirectories, habove, Storage.createAncestors, if_neg (by simpa using htext)]
    refine (Makes.attempt_change fun fs' hafter => ?_).bind ?_
    · have hmake := Storage.of_exec_change_ok hafter
      have hjoin := FileSystem.makeDirectory_join hfind hname
      rw [stagingDirectory, hjoin] at hmake
      obtain ⟨_, _, hmake⟩ := Run.of_bind_ok hmake
      obtain ⟨_, hmake⟩ := Run.of_check_ok hmake
      obtain ⟨_, _, hmake⟩ := Run.of_bind_ok hmake
      refine .of_get? hmem fun k hk => ?_
      rw [← Except.ok.inj hmake, FileSystem.get?_set, if_neg]
      rintro rfl
      exact hk List.prefix_rfl
    · rintro outcome fs' - herror
      cases outcome with
      | ok _ => exact .pure trivial
      | error e =>
          -- the root is there, so there is no need to create the directories above
          have hkind := FileSystem.kind_ne_notFound_of_makeDirectory hfind hname (herror e rfl).2
          simp only [beq_iff_eq, hkind, if_false]
          refine Makes.query.bind fun there _ _ _ => ?_
          cases there with
          | true => exact .pure trivial
          | false => exact .throw
  have hrest : Makes (r.Keeps l fs₀) caller fs (do
      Staging.remarked ("Failed to create " ++ r.stagingDirectory.text)
        (Storage.createDirectories r.stagingDirectory)
      return r.stagingDirectory) fun _ _ => True :=
    hdirectories.mapError.bind fun _ _ _ _ => .pure trivial
  rw [Staging.create]
  refine Makes.query.bind ?_
  rintro there fs - ⟨rfl, -⟩
  cases there with
  | false =>
      simp only [Bool.false_eq_true, if_false]
      exact hrest
  | true =>
      simp only [if_true]
      refine (Storage.Makes.query.mapError).bind ?_
      rintro empty fs - ⟨rfl, -⟩
      cases empty with
      | true => exact hrest
      | false => exact Makes.throw

/-- Archiving changes nothing apart from the outputs, however far it gets, when the archives are no
links. -/
theorem makes_archive {codec : Codec} {fixed : Option Nat} (wf : fs₀.WellFormed)
    (hstem : '/' ∉ r.metadata.stem.toList)
    (hroot : Lookup.find caller (r.bare l fs₀) true r.root = .ok (l, top))
    (hplain : ∀ name ∈ Archive.archiveNames r, ∀ target time,
      fs₀.get? (l ++ [name]) ≠ some (.link target time)) :
    Makes (r.Keeps l fs₀) caller fs₀ (Archive.create codec fixed r) fun _ _ => True := by
  -- until the last step only the archives change, and they stay files
  have hstep {δ β : Type} {x : Storage δ β} {fs : FileSystem} (kept : Archive.Kept r l fs₀ fs)
      (hx : Makes (Archive.Keeps r l fs₀) caller fs x fun _ _ => True) :
      Makes (r.Keeps l fs₀) caller fs x fun _ fs' => Archive.Kept r l fs₀ fs' :=
    (hx.weaken fun _ _ h _ => kept.of_changes h).imp fun _ h =>
      .single fun _ => (kept.of_changes h).bare_eq
  have kept : Archive.Kept r l fs₀ fs₀ := ⟨wf, fun _ _ => rfl, hplain⟩
  refine (hstep kept (Archive.makes_writeTar hroot hstem).mapError).bind fun _ fs₁ _ kept₁ => ?_
  refine (hstep kept₁ (Archive.makes_compress hroot hstem).mapError).bind fun _ fs₂ _ kept₂ => ?_
  refine (hstep kept₂ (Makes.query.weaken fun _ _ _ _ => trivial).mapError).bind fun _ fs₃ _ kept₃ => ?_
  refine (hstep kept₃ (Makes.change fun fs' hafter hkept => ?_).mapError).bind
    fun _ fs₄ _ kept₄ => ?_
  · exact (hkept.removeFile hroot hstem (Storage.of_exec_change_ok hafter)).1
  · refine (makes_removeAll hstem hroot List.mem_cons_self kept₄.bare_eq).mapError.bind ?_
    exact fun _ _ _ _ => .pure trivial

/-! ## The outputs of a release -/

/-- The root of a release is the one that it was asked for. -/
theorem root_of_resolve {root : Path} {configurationPath : Option Path}
    (h : (resolve root configurationPath).exec caller fs = (.ok r, fs')) : r.root = root := by
  obtain ⟨_, _, _, h⟩ := Storage.of_exec_bind_ok h
  obtain ⟨_, _, _, h⟩ := Storage.of_exec_bind_ok h
  obtain ⟨_, _, _, h⟩ := Storage.of_exec_bind_ok h
  obtain ⟨rfl, -⟩ := Run.ok_inj h
  rfl

/-- The outputs of a resolved release whose stem is a single name are three entries of its root, and
none of them is inside another one.  Cleaning up, creating the staging directory and archiving change
nothing else, however far they get. -/
theorem outputs_of_resolve {caller₀ : Caller} {built built' : FileSystem} {root : Path}
    {configurationPath : Option Path}
    (hbuilt : (resolve root configurationPath).exec caller₀ built = (.ok r, built'))
    (htext : root.text ≠ "") (hstem : '/' ∉ r.metadata.stem.toList) :
    r.outputs.map Path.components =
      [r.metadata.stem, r.metadata.stem ++ ".tar", r.metadata.stem ++ ".tar.bz2"].map
        (fun name => root.components ++ [.normal name]) ∧
    (r.outputs.map Path.components).Nodup ∧
    (∀ p ∈ r.outputs, ∀ q ∈ r.outputs, p.startsWith q = true → p = q) ∧
    ∀ (caller : Caller) (fs : FileSystem) (l : Location) (top : Node), fs.WellFormed →
      Lookup.find caller (r.bare l fs) true root = .ok (l, top) →
      ∀ k, (∀ name ∈ r.outputNames, ¬ l ++ [name] <+: k) →
        ((Staging.clean r).exec caller fs).2.get? k = fs.get? k ∧
        ((Staging.create r).exec caller fs).2.get? k = fs.get? k ∧
        ((∀ name ∈ Archive.archiveNames r, ∀ target time,
            fs.get? (l ++ [name]) ≠ some (.link target time)) →
          ∀ codec fixed, ((Archive.create codec fixed r).exec caller fs).2.get? k = fs.get? k) := by
  obtain rfl := root_of_resolve hbuilt
  have hcomponents := components_output hstem htext
  refine ⟨hcomponents, ?_, fun p hp q hq => eq_of_startsWith_output hstem htext hp hq, ?_⟩
  · rw [hcomponents]
    refine r.nodup_outputNames.map fun name other hsame => ?_
    simpa using hsame
  intro caller fs l top wf hroot k hk
  have hkeep {δ β : Type} {x : Storage δ β}
      (hx : Makes (r.Keeps l fs) caller fs x fun _ _ => True) :
      (x.exec caller fs).2.get? k = fs.get? k :=
    bare_eq_iff.1 (bare_eq_of_changes hx.changes rfl) k hk
  exact ⟨hkeep (makes_clean hstem hroot rfl), hkeep (makes_create hstem hroot rfl),
    fun hplain _ _ => hkeep (makes_archive wf hstem hroot hplain)⟩

/-- A project with a descriptor for version 1 of a package, beside a directory that is not its own. -/
def describedTree (name : List Char) : FileSystem :=
  .ofNodes [
    (["r", "p.spec"], .file Mode.file 0
      (Text.Utf8.encode ("Name: ".toList ++ name ++ "\nVersion: 1\nRelease: 1\n".toList))),
    (["r"], .directory Mode.directory 0),
    (["d", "p-1", "keep"], .file Mode.file 0 [1]),
    (["d", "p-1"], .directory Mode.directory 0),
    (["d"], .directory Mode.directory 0)]

/-- The release of the described project. -/
def described (name : String) : Release where
  root := ⟨"/r"⟩
  metadata := ⟨name, "1", "1"⟩
  configuration := {}

/-- Sorting leaves paths alone that are in order, and sorts the others. -/
theorem sort_eq_ite (paths : List Path) : Path.sort paths =
    if paths.Pairwise fun p q => p.precedes q = true then paths
    else paths.mergeSort Path.precedes := by
  split
  · next hordered => exact List.mergeSort_of_pairwise hordered
  · rfl

/-- The described project has the described release. -/
theorem resolve_described :
    ((resolve ⟨"/r"⟩ none).exec .superuserAtRoot (describedTree ['p'])).1 =
      .ok (described "p") := by
  simp only [resolve, Configuration.descriptorPath, sort_eq_ite]
  decide +kernel

/-- The outputs of a package with a plain name are in the root, and cleaning up leaves the directory
beside it. -/
theorem outputs_of_resolve_described :
    (described "p").outputs.map Path.components =
      [[.root, .normal "r", .normal "p-1"], [.root, .normal "r", .normal "p-1.tar"],
        [.root, .normal "r", .normal "p-1.tar.bz2"]] ∧
    ((Staging.clean (described "p")).exec .superuserAtRoot (describedTree ['p'])).2.get?
      ["d", "p-1", "keep"] = some (.file Mode.file 0 [1]) := by
  obtain ⟨hcomponents, -, -, hkeep⟩ := outputs_of_resolve
    (Storage.exec_eq_of_outcome resolve_described) (by decide) (by decide +kernel)
  have hroot : Lookup.find .superuserAtRoot ((described "p").bare ["r"] (describedTree ['p'])) true
      ⟨"/r"⟩ = .ok (["r"], .directory Mode.directory 0) := by
    decide +kernel
  have hclean := (hkeep .superuserAtRoot (describedTree ['p']) ["r"] _
    (FileSystem.wellFormed_ofNodes (by decide)) hroot ["d", "p-1", "keep"] (by decide +kernel)).1
  exact ⟨hcomponents.trans (by decide +kernel), hclean.trans (by decide +kernel)⟩

/-- A package may be named by a path that leads out of the root.  Its release is resolved, its staging
directory is no entry of the root, and cleaning up removes what is beside the root. -/
theorem outputs_leave_root :
    ((resolve ⟨"/r"⟩ none).exec .superuserAtRoot (describedTree "../d/p".toList)).1 =
      .ok (described "../d/p") ∧
    (∀ name, (described "../d/p").stagingDirectory.components ≠
      Path.components ⟨"/r"⟩ ++ [.normal name]) ∧
    (describedTree "../d/p".toList).get? ["d", "p-1", "keep"] = some (.file Mode.file 0 [1]) ∧
    ((Staging.clean (described "../d/p")).exec .superuserAtRoot
      (describedTree "../d/p".toList)).1 = .ok [⟨"/r/../d/p-1"⟩] ∧
    ((Staging.clean (described "../d/p")).exec .superuserAtRoot
      (describedTree "../d/p".toList)).2.get? ["d", "p-1", "keep"] = none := by
  refine ⟨?_, fun name hsame => ?_, by decide +kernel⟩
  · simp only [resolve, Configuration.descriptorPath, sort_eq_ite]
    decide +kernel
  · have hlength := congrArg List.length hsame
    rw [List.length_append, List.length_singleton] at hlength
    exact absurd hlength (by decide +kernel)

end RpmRelease.Release
