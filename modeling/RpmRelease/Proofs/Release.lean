import RpmRelease.Proofs.FileSystem.Cutting
import RpmRelease.Proofs.Path
import RpmRelease.Release

/-!
# Where the outputs of a release are

The outputs of a release stand in its root, under three names that begin with its stem.  What a file
system holds apart from them is the same for every run that may have left outputs behind.
-/

set_option autoImplicit false

namespace RpmRelease

/-- A stem without slashes is a name with every ending that has none. -/
theorem Metadata.isName_stem {m : Metadata} (hstem : '/' ∉ m.stem.toList) (ending : String)
    (hending : '/' ∉ ending.toList) : Path.IsName (m.stem ++ ending) := by
  have hdash : '-' ∈ (m.stem ++ ending).toList := by
    simp [Metadata.stem]
  refine ⟨?_, by simpa using ⟨hstem, hending⟩, ?_, ?_⟩ <;>
    (intro h; rw [h] at hdash; exact absurd hdash (by decide))

namespace Release

variable {r : Release}

/-- The outputs of a release stand in the root, by these names. -/
def outputNames (r : Release) : List String :=
  [r.metadata.stem, r.metadata.stem ++ ".tar", r.metadata.stem ++ ".tar.bz2"]

/-- The outputs are the root joined with their names. -/
theorem outputs_eq (r : Release) :
    r.outputs = r.outputNames.map fun name => r.root.join ⟨name⟩ := rfl

/-- The outputs have proper names when the stem has no slash. -/
theorem isName_of_mem_outputNames (hstem : '/' ∉ r.metadata.stem.toList) :
    ∀ name ∈ r.outputNames, Path.IsName name := by
  intro name hname
  simp only [outputNames, List.mem_cons, List.not_mem_nil, or_false] at hname
  rcases hname with rfl | rfl | rfl
  · simpa using Metadata.isName_stem hstem "" (by decide)
  · exact Metadata.isName_stem hstem ".tar" (by decide)
  · exact Metadata.isName_stem hstem ".tar.bz2" (by decide)

/-- No two outputs have the same name. -/
theorem nodup_outputNames (r : Release) : r.outputNames.Nodup := by
  simp [outputNames, ← String.toList_inj]

/-- What a file system holds apart from the outputs of a release, with its root at a location. -/
def bare (r : Release) (l : Location) (fs : FileSystem) : FileSystem :=
  fs.cutAll l r.outputNames

/-- Without the outputs, everything stands where it stood but what is at or below them. -/
theorem get?_bare (r : Release) (l : Location) (fs : FileSystem) (k : Location) :
    (r.bare l fs).get? k =
      if ∃ name ∈ r.outputNames, l ++ [name] <+: k then none else fs.get? k :=
  FileSystem.get?_cutAll r.outputNames

/-- File systems that agree apart from the outputs. -/
theorem bare_eq_iff {l : Location} {fs fs' : FileSystem} : r.bare l fs = r.bare l fs' ↔
    ∀ k, (∀ name ∈ r.outputNames, ¬ l ++ [name] <+: k) → fs.get? k = fs'.get? k := by
  constructor
  · intro h k hk
    have hsame : (r.bare l fs).get? k = (r.bare l fs').get? k := by rw [h]
    have hno : ¬ ∃ name ∈ r.outputNames, l ++ [name] <+: k := by
      rintro ⟨name, hname, hbelow⟩
      exact hk name hname hbelow
    rwa [get?_bare, get?_bare, if_neg hno, if_neg hno] at hsame
  · intro h
    refine FileSystem.ext fun k => ?_
    rw [get?_bare, get?_bare]
    split
    · rfl
    · next hno => exact h k fun name hname hbelow => hno ⟨name, hname, hbelow⟩

/-- Leaving out the outputs only takes nodes away. -/
theorem bare_within (r : Release) (l : Location) (fs : FileSystem) : (r.bare l fs).Within fs :=
  FileSystem.cutAll_within fs l r.outputNames

/-- Leaving out the outputs keeps a file system in good shape. -/
theorem bare_wellFormed {l : Location} {fs : FileSystem} (wf : fs.WellFormed) :
    (r.bare l fs).WellFormed := by
  have hall (names : List String) (fs : FileSystem) (wf : fs.WellFormed) :
      (fs.cutAll l names).WellFormed := by
    induction names generalizing fs with
    | nil => exact wf
    | cons name names ih => exact ih _ (wf.cut (l ++ [name]))
  exact hall r.outputNames fs wf

/-- Leaving out all outputs takes away what leaving out one does. -/
theorem bare_within_cut {l : Location} {fs : FileSystem} {name : String}
    (hname : name ∈ r.outputNames) : (r.bare l fs).Within (fs.cut (l ++ [name])) := by
  intro k node hnode
  rw [get?_bare] at hnode
  split at hnode
  · simp at hnode
  · next hno => rw [FileSystem.get?_cut, if_neg (fun hbelow => hno ⟨name, hname, hbelow⟩), hnode]

/-- Version 1 of a package in the root `/r`. -/
def first : Release where
  root := ⟨"/r"⟩
  metadata := ⟨"p", "1", "1"⟩
  configuration := {}

end Release

end RpmRelease
