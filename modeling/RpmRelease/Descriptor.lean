import RpmRelease.Macros
import RpmRelease.Metadata
import RpmRelease.Text.Lines

/-!
# The preamble of a package descriptor

A descriptor declares its name, version and release in lines of the form `Name: value` and defines
macros in lines that begin with `%define` or `%global`.  `Preamble.scan` reads the lines from top to
bottom.  Of several declarations of one field the first with a value counts, of several definitions
of one macro the last above the place of use.  A declared field can be used as a macro from there
on, unless a definition gives that name another meaning.
-/

set_option autoImplicit false

namespace RpmRelease

/-- The fields of a preamble that make up a release. -/
inductive Field
  | name
  | version
  | release
deriving DecidableEq, Repr

namespace Field

/-- The name of a field, as it is written in messages. -/
def label : Field → String
  | name => "name"
  | version => "version"
  | release => "release"

/-- The field that a text names, whatever the case of its ASCII letters. -/
def ofText? (cs : List Char) : Option Field :=
  [name, version, release].find? fun field => field.label.toList == cs.map Char.toLower

end Field

/-- The text after a beginning, if the text has that beginning. -/
def Text.after? (start : String) (cs : List Char) : Option (List Char) :=
  if start.toList.isPrefixOf cs then some (cs.drop start.toList.length) else none

namespace Descriptor

/-- What one line of a descriptor says. -/
inductive Line
  /-- a macro gets a new value -/
  | definition (key value : List Char)
  /-- a field gets a value unless it has one -/
  | declaration (field : Field) (value : List Char)
  /-- nothing that matters here -/
  | other
deriving DecidableEq

namespace Line

/-- Reads what follows `%define` or `%global`: the first two words. -/
def ofDirective (rest : List Char) : Line :=
  match Text.words rest with
  | key :: value :: _ => definition key value
  | _ => other

/-- Reads a line that is no directive: the field before the first colon and the first word after
it. -/
def ofDeclaration (line : List Char) : Line :=
  match Macros.splitColon line with
  | none => other
  | some (key, rest) =>
    match Field.ofText? (Text.trim key), Text.words rest with
    | some field, value :: _ => declaration field value
    | _, _ => other

/-- Reads one line of a descriptor. -/
def ofText (line : List Char) : Line :=
  let line := Text.trim line
  match (Text.after? "%define" line).or (Text.after? "%global" line) with
  | some rest => ofDirective rest
  | none => ofDeclaration line

end Line

/-- What has been defined and declared down to some line. -/
structure Preamble where
  /-- the macro definitions, the latest first -/
  definitions : List (List Char × List Char) := []
  name : Option (List Char) := none
  version : Option (List Char) := none
  release : Option (List Char) := none
deriving DecidableEq

namespace Preamble

/-- The value of a field. -/
def get (p : Preamble) : Field → Option (List Char)
  | .name => p.name
  | .version => p.version
  | .release => p.release

/-- Gives a field a value. -/
def set (p : Preamble) (field : Field) (value : List Char) : Preamble :=
  match field with
  | .name => { p with name := some value }
  | .version => { p with version := some value }
  | .release => { p with release := some value }

/-- The value of the field that a macro name stands for; macro names keep their case. -/
def declared (p : Preamble) (key : List Char) : Option (List Char) :=
  ([.name, .version, .release].find? fun field : Field => field.label.toList == key).bind p.get

/-- What macro names mean below these lines: the latest definition, else the declared field. -/
def environment (p : Preamble) : Macros.Environment := fun key =>
  (p.definitions.lookup key).or (p.declared key)

/-- Takes in one more line. -/
def step (p : Preamble) : Line → Preamble
  | .definition key value =>
    { p with definitions := (key, Macros.expand p.environment value) :: p.definitions }
  | .declaration field value =>
    if (p.get field).isSome then p else p.set field (Macros.expand p.environment value)
  | .other => p

/-- Reads a whole descriptor. -/
def scan (text : List Char) : Preamble :=
  ((Text.lines text).map Line.ofText).foldl step {}

end Preamble

/-- The metadata that a descriptor declares, or the first field that is missing.  A given name
takes the place of the declared one. -/
def metadata (givenName : Option String) (text : List Char) : Except Field Metadata := do
  let p := Preamble.scan text
  let field (f : Field) : Except Field String :=
    match p.get f with
    | some value => .ok (String.ofList value)
    | none => .error f
  let name ← match givenName with
    | some name => .ok name
    | none => field .name
  let version ← field .version
  let release ← field .release
  return { name, version, release }

end Descriptor

end RpmRelease
