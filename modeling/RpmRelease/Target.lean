/-!
# Targets

A target is something a user can ask for, or one of the stages such a request consists of.  Actions
do work.  Composites only order their prerequisites: `plan` lists the actions to run, each after
everything it requires.

`height` makes the absence of cycles visible: a prerequisite is always lower than the target that
requires it, and the recursions below follow that order.
-/

set_option autoImplicit false

namespace RpmRelease

/-- The targets, in the order in which lists of targets are shown. -/
inductive Target
  | build
  | install
  | clean
  | verify
  | changelog
  | tag
  | cleanDist
  | localDist
  | dist
  | buildRpm
  | localRpm
  | rpm
  | installFiles
  | localCopy
  | exportTag
  | archive
deriving DecidableEq, Repr

namespace Target

/-- All targets, in their order. -/
def all : List Target :=
  [build, install, clean, verify, changelog, tag, cleanDist, localDist, dist, buildRpm, localRpm,
    rpm, installFiles, localCopy, exportTag, archive]

/-- Every target is listed. -/
theorem mem_all (t : Target) : t ∈ all := by
  cases t <;> decide

/-- The name of a target. -/
def name : Target → String
  | build => "build"
  | install => "install"
  | clean => "clean"
  | verify => "verify"
  | changelog => "changelog"
  | tag => "tag"
  | cleanDist => "clean-dist"
  | localDist => "local-dist"
  | dist => "dist"
  | buildRpm => "build-rpm"
  | localRpm => "local-rpm"
  | rpm => "rpm"
  | installFiles => "install-files"
  | localCopy => "local-copy"
  | exportTag => "export"
  | archive => "tar"

/-- The stages that exist only as parts of a plan cannot be asked for by name. -/
def isSelectable : Target → Bool
  | installFiles | localCopy | exportTag | archive => false
  | _ => true

/-- A second name that a target can be asked for by. -/
def alias? : Target → Option String
  | tag => some "cvstag"
  | cleanDist => some "cleandist"
  | localDist => some "localdist"
  | buildRpm => some "buildrpm"
  | localRpm => some "localrpm"
  | _ => none

/-- What a target requires, in the order in which it is to be done. -/
def prerequisites : Target → List Target
  | install => [build, installFiles]
  | localDist => [cleanDist, localCopy, archive]
  | dist => [cleanDist, exportTag, archive]
  | localRpm => [localDist, buildRpm]
  | rpm => [changelog, tag, dist, buildRpm]
  | _ => []

/-- Whether a target does work of its own. -/
def isAction : Target → Bool
  | install | localDist | dist | localRpm | rpm => false
  | _ => true

/-- How many levels of prerequisites lie below a target. -/
def height : Target → Nat
  | install | localDist | dist => 1
  | localRpm | rpm => 2
  | _ => 0

/-- A prerequisite is lower than the target that requires it. -/
theorem height_lt_of_mem_prerequisites {t p : Target} (h : p ∈ t.prerequisites) :
    p.height < t.height := by
  have lower : all.all (fun t => t.prerequisites.all fun p => p.height < t.height) = true := by
    decide
  simpa using List.all_eq_true.1 (List.all_eq_true.1 lower t (mem_all t)) p h

/-- The actions to run for a target, in order. -/
def plan (t : Target) : List Target :=
  (t.prerequisites.attach.flatMap fun p => plan p.1) ++ (if t.isAction then [t] else [])
termination_by t.height
decreasing_by exact height_lt_of_mem_prerequisites p.2

/-- Whether a target requires another one, directly or through others. -/
def requires (t other : Target) : Bool :=
  t.prerequisites.attach.any fun p => p.1 == other || requires p.1 other
termination_by t.height
decreasing_by exact height_lt_of_mem_prerequisites p.2

/-- The targets that run another one as a part, in order. -/
def dependents (t : Target) : List Target :=
  all.filter (·.requires t)

/-- Whether no target requires itself. -/
def isAcyclic : Bool :=
  all.all fun t => !t.requires t

/-- A name with its ASCII letters in lower case when case is ignored. -/
def caseKey (ignoreCase : Bool) (name : String) : List Char :=
  if ignoreCase then name.toList.map Char.toLower else name.toList

/-- The target that can be asked for by a name or by a second name. -/
def ofSelector? (ignoreCase : Bool) (name : String) : Option Target :=
  (all.filter isSelectable).find? fun t =>
    (t.name :: t.alias?.toList).any fun n => caseKey ignoreCase n == caseKey ignoreCase name

/-- The target with exactly this name. -/
def ofName? (name : String) : Option Target :=
  all.find? (·.name == name)

/-- The complaint about a name that no target can be asked for by. -/
def unknownMessage (name : String) : String :=
  "invalid variant: " ++ name

end Target

end RpmRelease
