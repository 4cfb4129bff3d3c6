import RpmRelease.Target

/-!
# The vocabulary of the command line

A command line names a verb, which says what to do.  Switches are said or not; settings come with a
path.  Some of both may stand in front of the verb as well as behind it, all others only behind the
verbs that know them.
-/

set_option autoImplicit false

namespace RpmRelease

namespace CommandLine

/-- What a user asks for. -/
inductive Verb
  /-- a target is to be run -/
  | run (target : Target)
  /-- the version of the release is to be shown -/
  | version
  /-- the stages of a target are to be shown -/
  | plan
deriving DecidableEq, Repr

/-- The verbs, in the order in which they are shown. -/
def Verb.all : List Verb :=
  [.run .build, .run .install, .run .clean, .run .verify, .run .localDist, .run .dist,
    .run .cleanDist, .run .buildRpm, .run .localRpm, .run .rpm, .run .changelog, .run .tag,
    .version, .plan]

/-- The words for a verb, the usual one first. -/
def Verb.words : Verb → List String
  | run .localDist => ["localdist", "local-dist"]
  | run .cleanDist => ["clean-dist", "cleandist"]
  | run .buildRpm => ["buildrpm", "build-rpm"]
  | run .localRpm => ["localrpm", "local-rpm"]
  | run .tag => ["tag", "cvstag"]
  | run target => [target.name]
  | version => ["version"]
  | plan => ["plan"]

/-- The verb that a word stands for. -/
def Verb.ofWord? (word : String) : Option Verb :=
  all.find? (·.words.contains word)

/-- The word that asks how the program is used. -/
def helpWord : String := "help"

/-- What is said or not. -/
inductive Switch
  /-- more diagnostics, said any number of times -/
  | verbose
  /-- how the program is used -/
  | help
  /-- the version of the program itself -/
  | version
  /-- the plan instead of the work -/
  | dryRun
  /-- JSON instead of lines -/
  | json
  /-- an existing tag may be moved -/
  | force
deriving DecidableEq, Repr

/-- What comes with a path. -/
inductive Setting
  /-- the project root -/
  | directory
  /-- the configuration file -/
  | configuration
  /-- the directory put in front of the directories to install into -/
  | destination
  | bindir
  | libdir
  | etcdir
deriving DecidableEq, Repr

/-- The environment variable that gives a setting where the command line does not. -/
def Setting.variableName? : Setting → Option String
  | directory => none
  | configuration => some "RPM_RAIL_CONFIG"
  | destination => some "DESTDIR"
  | bindir => some "BINDIR"
  | libdir => some "LIBDIR"
  | etcdir => some "ETCDIR"

/-- A switch or a setting. -/
inductive Item
  | switch (which : Switch)
  | setting (which : Setting)
deriving DecidableEq, Repr

namespace Item

/-- All switches and settings. -/
def all : List Item :=
  [.setting .directory, .setting .configuration, .switch .verbose, .switch .help,
    .switch .version, .setting .destination, .setting .bindir, .setting .libdir, .setting .etcdir,
    .switch .dryRun, .switch .json, .switch .force]

/-- The name of an item, written after two dashes. -/
def name : Item → String
  | setting .directory => "directory"
  | setting .configuration => "config"
  | setting .destination => "destdir"
  | setting .bindir => "bindir"
  | setting .libdir => "libdir"
  | setting .etcdir => "etcdir"
  | switch .verbose => "verbose"
  | switch .help => "help"
  | switch .version => "version"
  | switch .dryRun => "dry-run"
  | switch .json => "json"
  | switch .force => "force"

/-- The letter for an item, written after one dash. -/
def letter? : Item → Option Char
  | setting .directory => some 'C'
  | switch .verbose => some 'v'
  | switch .help => some 'h'
  | switch .version => some 'V'
  | _ => none

/-- Whether an item is understood everywhere. -/
def isGeneral : Item → Bool
  | setting .directory | setting .configuration => true
  | switch .verbose | switch .help | switch .version => true
  | _ => false

/-- Whether an item is understood behind a verb, or in front of all verbs when there is none. -/
def isKnown (verb : Option Verb) (item : Item) : Bool :=
  item.isGeneral ||
    match verb, item with
    | some (.run .install), setting _ => true
    | some (.run .install), switch .force => false
    | some (.run .install), switch _ => true
    | some (.run .tag), switch .force => true
    | some (.run .rpm), switch _ => true
    | some (.run target), switch .dryRun => !target.isAction
    | some (.run target), switch .json => !target.isAction
    | some .version, switch .json => true
    | some .plan, switch .json => true
    | _, _ => false

/-- The item of a name, where it is understood. -/
def ofName? (verb : Option Verb) (name : String) : Option Item :=
  (all.filter (isKnown verb)).find? (·.name == name)

/-- The item of a letter, where it is understood. -/
def ofLetter? (verb : Option Verb) (letter : Char) : Option Item :=
  (all.filter (isKnown verb)).find? (·.letter? == some letter)

end Item

end CommandLine

end RpmRelease
