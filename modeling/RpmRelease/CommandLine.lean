import RpmRelease.CommandLine.Reading
import RpmRelease.Execution

/-!
# The command line

`CommandLine.parse` turns the words of a command line into what is to be done.  What is said behind
the verb goes before what is said in front of it, and both go before environment variables.
-/

set_option autoImplicit false

namespace RpmRelease

namespace CommandLine

/-- What is to be done. -/
inductive Request
  | run (target : Target) (options : RunOptions)
  | version (json : Bool)
  | plan (target : Target) (json : Bool)
deriving DecidableEq, Repr

/-- What a command line says. -/
structure Arguments where
  directory : Option Path
  configuration : Option Path
  verbosity : Nat
  request : Request
deriving DecidableEq, Repr

/-- The values of environment variables. -/
abbrev Environment := String → Option String

/-- The value that the environment has for a setting. -/
def Environment.setting? (environment : Environment) (which : Setting) : Option Path :=
  (which.variableName?.bind environment).map Path.mk

/-- Refuses empty values in the environment for settings that are not given otherwise. -/
def checkEnvironment (environment : Environment) (verb : Option Verb) (seen : Reading) :
    Except Refusal Unit :=
  (Item.all.filter (Item.isKnown verb)).forM fun
    | .setting which =>
      if (seen.settings.lookup which).isNone && environment.setting? which == some ⟨""⟩ then
        .error .badValue
      else .ok ()
    | .switch _ => .ok ()

/-- The value of a setting: from behind the verb, from in front of it, or from the environment. -/
def choose (environment : Environment) (front behind : Reading) (which : Setting) : Option Path :=
  ((behind.settings.lookup which).or (front.settings.lookup which)).or
    (environment.setting? which)

/-- What is to be done for a verb, by what was read behind it. -/
def request (environment : Environment) (verb : Verb) (seen : Reading) : Except Refusal Request :=
  let dryRun := seen.switches.contains .dryRun
  let json := seen.switches.contains .json
  match verb with
  | .version => .ok (.version json)
  | .plan =>
    match seen.target with
    | some target => .ok (.plan target json)
    | none => .error .incomplete
  | .run target =>
    if json && !dryRun then .error .incomplete
    else
      let force := seen.switches.contains .force
      let value := choose environment {} seen
      let install : InstallDirectories :=
        if target = .install then
          ⟨value .destination, value .bindir, value .libdir, value .etcdir⟩
        else {}
      .ok (.run target { dryRun, json, force, install })

/-- Reads what stands behind a verb, and says what is to be done. -/
def readRequest (environment : Environment) (rest : Continuation) :
    Except Refusal (Reading × Request) := do
  let (seen, _) ← read (some rest.verb) {} rest.words
  let seen ← seen.settle
  checkEnvironment environment rest.verb seen
  return (seen, ← request environment rest.verb seen)

/-- Why a command line without a verb is refused. -/
def verbless (environment : Environment) (seen : Reading) : Refusal :=
  let given := (environment.setting? .configuration).isSome
  if seen.settings.isEmpty && seen.switches.isEmpty && !given then .nothingSaid else .noVerb

/-- The most that diagnostics are counted up to. -/
def maxVerbosity : Nat := 255

/-- How often more diagnostics are asked for. -/
def Reading.verbosity (seen : Reading) : Nat :=
  min (seen.switches.count .verbose) maxVerbosity

/-- What the words of a command line say. -/
def parse (environment : Environment) (words : List String) : Except Refusal Arguments := do
  let (front, rest) ← read none {} words
  match rest with
  | none => do
    let front ← front.settle
    checkEnvironment environment none front
    throw (verbless environment front)
  | some rest => do
    let (behind, request) ← readRequest environment rest
    let front ← front.settle
    checkEnvironment environment none front
    let value := choose environment front behind
    return {
      directory := value .directory
      configuration := value .configuration
      verbosity := if behind.verbosity = 0 then front.verbosity else behind.verbosity
      request }

end CommandLine

end RpmRelease
