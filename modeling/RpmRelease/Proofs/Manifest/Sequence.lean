import RpmRelease.Proofs.FileSystem.Storage
import RpmRelease.Proofs.Manifest.Confinement

/-!
# Manifests one after the other

Staging has no memory besides the file system: each entry is expanded in the file system that the entries
before it have left.  So a manifest that continues another one goes on from where that one has led, with
an error or without, and an entry that matches nothing ends staging where it stands.
-/

set_option autoImplicit false

namespace RpmRelease.Manifest

variable {r : Release} {staging : Path} {caller : Caller} {fs fs' : FileSystem} {entry : String}

/-- An entry that matches nothing is an error, and nothing changes. -/
theorem exec_stageEntry_nil (h : Glob.expand caller fs r.root entry = .ok []) :
    (stageEntry r staging entry).exec caller fs = (.error (.stage (.noSource entry)), fs) := by
  have hexpand : (Storage.expandPattern r.root entry).exec caller fs = (.ok [], fs) := by
    rw [Storage.expandPattern, Storage.query, Storage.exec_ofExec, h]
    rfl
  rw [stageEntry, Storage.exec_bind, hexpand]
  rfl

/-- Two manifests are staged like the second one from where the first one has led: the counts add up, an
error of either is the error of the whole, and the file systems are the same.  When the first one
succeeds and the next entry matches nothing, that entry is the error, what the first one has staged is
left as it is, and what comes after the entry does not matter. -/
theorem stage_append (r : Release) (staging : Path) (first second : List String) (caller : Caller)
    (fs : FileSystem) :
    ((stage r staging (first ++ second)).exec caller fs =
      match (stage r staging first).exec caller fs with
      | (.ok m, middle) =>
        match (stage r staging second).exec caller middle with
        | (.ok n, after) => (.ok (m + n), after)
        | (.error e, after) => (.error e, after)
      | (.error e, middle) => (.error e, middle)) ∧
    ∀ entry m middle, (stage r staging first).exec caller fs = (.ok m, middle) →
      Glob.expand caller middle r.root entry = .ok [] →
      (stage r staging (first ++ entry :: second)).exec caller fs =
        (.error (.stage (.noSource entry)), middle) := by
  constructor
  · rw [stage, Storage.exec_countOver_append, ← stage, ← stage]
    rcases (stage r staging first).exec caller fs with ⟨e | m, middle⟩
    · rfl
    · dsimp only
      rcases (stage r staging second).exec caller middle with ⟨e | n, after⟩ <;> rfl
  · intro entry m middle hfirst hnothing
    have hrest : (stage r staging (entry :: second)).exec caller middle =
        (.error (.stage (.noSource entry)), middle) := by
      rw [stage, Storage.exec_countOver_cons, exec_stageEntry_nil hnothing]
    rw [stage, Storage.exec_countOver_append, ← stage, hfirst]
    dsimp only
    rw [← stage, hrest]

/-- A project with one file in it, and its empty staging directory. -/
def plainTree : FileSystem :=
  .ofNodes [
    (["r", "p-1"], .directory Mode.directory 0),
    (["r", "a"], .file Mode.file 7 [1]),
    (["r"], .directory Mode.directory 0)]

/-- After the file of the plain project, an entry that matches nothing ends staging before the same file
is staged again. -/
theorem stage_append_plainTree : ∃ middle,
    (stage Release.first Release.first.stagingDirectory ["a"]).exec .superuserAtRoot plainTree =
      (.ok 1, middle) ∧
    Glob.expand .superuserAtRoot middle Release.first.root "b" = .ok [] ∧
    (stage Release.first Release.first.stagingDirectory (["a"] ++ "b" :: ["a"])).exec .superuserAtRoot
      plainTree = (.error (.stage (.noSource "b")), middle) := by
  have hfirst : (stage Release.first Release.first.stagingDirectory ["a"]).exec .superuserAtRoot
      plainTree = (.ok 1, ((stage Release.first Release.first.stagingDirectory ["a"]).exec
        .superuserAtRoot plainTree).2) :=
    Storage.exec_eq_of_outcome (by decide +kernel)
  have hnothing : Glob.expand .superuserAtRoot ((stage Release.first Release.first.stagingDirectory
      ["a"]).exec .superuserAtRoot plainTree).2 Release.first.root "b" = .ok [] := by
    decide +kernel
  exact ⟨_, hfirst, hnothing,
    (stage_append Release.first Release.first.stagingDirectory ["a"] ["a"] .superuserAtRoot
      plainTree).2 "b" 1 _ hfirst hnothing⟩

end RpmRelease.Manifest
