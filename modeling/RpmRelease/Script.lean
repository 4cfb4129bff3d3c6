import RpmRelease.FileSystem.Fixture
import RpmRelease.World

/-!
# Scripted programs

A script stands in for the other programs of a host.  It says what a program does when it is started
with certain arguments: what it writes, how it ends, and which files it puts into the directory it
runs in.  When several entries have the same arguments, the first call gets the first of them, the
second call the second, and every call behind the last one the last.  A call that no entry is about
succeeds without a word.
-/

set_option autoImplicit false

namespace RpmRelease

/-- What a program does when it is started with some arguments. -/
structure Script.Entry where
  argv : List String
  response : Response
  writes : List Fixture

/-- The entries of a script, and the form in which the arguments of a call are compared with
theirs. -/
structure Script where
  entries : List Script.Entry
  normalize : Invocation → List String

namespace Script

/-- What a program does that no entry is about. -/
def silence : Response := ⟨some 0, [], []⟩

/-- The entry for a call after some others. -/
def entry? (script : Script) (before : List Invocation) (call : Invocation) : Option Entry :=
  let argv := script.normalize call
  let fitting := script.entries.filter (·.argv == argv)
  let earlier := (before.filter (script.normalize · == argv)).length
  fitting[earlier]?.or fitting.getLast?

/-- The programs that follow a script. -/
def programs (script : Script) : Programs where
  installed name := script.entries.any fun entry => entry.argv.head? == some name
  respond before call caller files :=
    match script.entry? before call with
    | none => (silence, files)
    | some entry => (entry.response, ((Fixture.putAll ⟨""⟩ entry.writes).exec caller files).2)

end Script

end RpmRelease
