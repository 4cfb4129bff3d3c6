import RpmRelease.Configuration
import RpmRelease.Toml.Document

/-!
# Reading a configuration

A configuration is a document with one table per section.  A section that is left out is the default
one, and a field that a section leaves out has the default of that field.  A section may also be an
array, whose elements are the values of its fields in order.  Keys that a section does not know are
passed over; sections that do not exist are refused.
-/

set_option autoImplicit false

namespace RpmRelease

namespace Configuration

open Toml (Value)

/-- Why a document is no configuration. -/
inductive Rejection
  /-- it is no document -/
  | malformed (defect : Toml.Defect)
  /-- it has a section that does not exist -/
  | unknownSection (name : String)
  /-- a section is neither a table nor an array -/
  | notSection (name : String)
  /-- a field has a value of the wrong type -/
  | wrongType (field expected : String)
deriving DecidableEq, Repr

/-- The wording of a rejection. -/
def Rejection.message : Rejection → String
  | malformed defect => defect.message
  | unknownSection name => "unknown field " ++ name
  | notSection name => "invalid type for section " ++ name
  | wrongType field expected => "invalid type for " ++ field ++ ", expected " ++ expected

namespace Decode

/-- A reader for the value of a field, which is named for messages. -/
abbrev Reader (α : Type) : Type := String → Value → Except Rejection α

/-- A string. -/
def string : Reader String
  | _, .string text => .ok text
  | field, _ => .error (.wrongType field "a string")

/-- A path. -/
def path : Reader Path := fun field v => (string field v).map Path.mk

/-- A boolean. -/
def boolean : Reader Bool
  | _, .boolean b => .ok b
  | field, _ => .error (.wrongType field "a boolean")

/-- A list of strings. -/
def strings : Reader (List String)
  | field, .array elements => elements.mapM (string field)
  | field, _ => .error (.wrongType field "an array of strings")

/-- A value that may be left out. -/
def optional {α : Type} (reader : Reader α) : Reader (Option α) := fun field v =>
  (reader field v).map some

/-- The values that a section gives to its fields. -/
def fields (names : List String) (sectionName : String) :
    Value → Except Rejection (List (String × Value))
  | .table entries => .ok entries
  | .array elements => .ok (names.zip elements)
  | .time _ => .ok []
  | _ => .error (.notSection sectionName)

/-- The value of a field, or the default of that field. -/
def field {α : Type} (values : List (String × Value)) (name : String) (reader : Reader α)
    (default : α) : Except Rejection α :=
  match values.lookup name with
  | some v => reader name v
  | none => .ok default

/-- The section about the package. -/
def package (v : Value) : Except Rejection PackageSection := do
  let values ← fields ["descriptor", "name"] "package" v
  return {
    descriptor := ← field values "descriptor" (optional path) none
    name := ← field values "name" (optional string) none }

/-- The section about the manifest. -/
def manifest (v : Value) : Except Rejection ManifestSection := do
  let values ← fields ["files"] "manifest" v
  return { files := ← field values "files" strings [] }

/-- The section about version control. -/
def versionControl (v : Value) : Except Rejection VersionControlSection := do
  let values ← fields ["module", "changelog", "changelog_command", "tag_force"] "vcs" v
  return {
    module := ← field values "module" path ⟨""⟩
    changelog := ← field values "changelog" path VersionControlSection.defaultChangelog
    changelogCommand := ← field values "changelog_command" strings []
    tagForce := ← field values "tag_force" boolean false }

/-- The section about the package builder. -/
def builder (v : Value) : Except Rejection BuilderSection := do
  let values ← fields ["command", "args"] "builder" v
  return {
    command := ← field values "command" string BuilderSection.defaultCommand
    args := ← field values "args" strings BuilderSection.defaultArgs }

/-- A section about a command. -/
def command (name : String) (v : Value) : Except Rejection CommandSection := do
  let values ← fields ["command"] name v
  return { command := ← field values "command" strings [] }

/-- The section about transient files. -/
def clean (v : Value) : Except Rejection CleanSection := do
  let values ← fields ["patterns"] "clean" v
  return { patterns := ← field values "patterns" strings CleanSection.defaultPatterns }

/-- The section about installation. -/
def install (v : Value) : Except Rejection InstallSection := do
  let values ← fields ["bin", "lib", "etc", "bindir", "libdir", "etcdir"] "install" v
  return {
    bin := ← field values "bin" strings []
    lib := ← field values "lib" strings []
    etc := ← field values "etc" strings []
    bindir := ← field values "bindir" (optional path) none
    libdir := ← field values "libdir" (optional path) none
    etcdir := ← field values "etcdir" (optional path) none }

/-- The section of a name, or a default one when the document has no such section. -/
def entry {α : Type} (entries : List (String × Value)) (name : String)
    (decode : Value → Except Rejection α) (default : α) : Except Rejection α :=
  match entries.lookup name with
  | some v => decode v
  | none => .ok default

end Decode

/-- The names of the sections. -/
def sectionNames : List String :=
  ["package", "manifest", "vcs", "builder", "build", "verify", "clean", "install"]

/-- The configuration that the entries of a document make up. -/
def ofEntries (entries : List (String × Value)) : Except Rejection Configuration := do
  match entries.find? fun (name, _) => !sectionNames.contains name with
  | some (name, _) => throw (.unknownSection name)
  | none => pure ()
  return {
    package := ← Decode.entry entries "package" Decode.package {}
    manifest := ← Decode.entry entries "manifest" Decode.manifest {}
    versionControl := ← Decode.entry entries "vcs" Decode.versionControl {}
    builder := ← Decode.entry entries "builder" Decode.builder {}
    build := ← Decode.entry entries "build" (Decode.command "build") {}
    verify := ← Decode.entry entries "verify" (Decode.command "verify") {}
    clean := ← Decode.entry entries "clean" Decode.clean {}
    install := ← Decode.entry entries "install" Decode.install {} }

/-- The configuration that a text writes. -/
def ofText (text : List Char) : Except Rejection Configuration := do
  ofEntries (← (Toml.document text).mapError .malformed)

end Configuration

end RpmRelease
