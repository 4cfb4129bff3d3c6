import RpmRelease.CommandLine.Vocabulary
import RpmRelease.Path

/-!
# Reading a command line

The words of a command line are read from left to right.  A setting without a value of its own waits
for the next word that does not begin with a dash.  A value is only looked at when the next item is
reached or the words end, so what comes first is also what is refused first, except for words that
nobody knows.

Two dashes alone end all switches, settings and verbs.
-/

set_option autoImplicit false

namespace RpmRelease

namespace CommandLine

/-- Why a command line asks for nothing to be done. -/
inductive Refusal
  /-- it asks how the program is used -/
  | help
  /-- it asks for the version of the program -/
  | version
  /-- it says nothing at all -/
  | nothingSaid
  /-- it has no verb -/
  | noVerb
  /-- a word should be a verb and is none -/
  | unknownVerb
  /-- a word means nothing where it stands -/
  | unknownWord
  /-- a value is missing or means nothing -/
  | badValue
  /-- a value is given where none is taken -/
  | needlessValue
  /-- a setting or a switch is said twice -/
  | repeated
  /-- something that is needed is not there -/
  | incomplete
deriving DecidableEq, Repr

/-- The exit status for a command line that asks for nothing to be done. -/
def Refusal.exitStatus : Refusal → Int
  | help | version => 0
  | _ => 2

/-- A word of a command line. -/
inductive Word
  /-- two dashes alone -/
  | separator
  /-- a name after two dashes, with a value behind an equals sign -/
  | named (name : String) (value : Option String)
  /-- letters after one dash -/
  | letters (letters : List Char)
  /-- any other word -/
  | plain
deriving DecidableEq, Repr

/-- What a word is. -/
def Word.ofString (word : String) : Word :=
  match word.toList with
  | ['-', '-'] => separator
  | '-' :: '-' :: text =>
    let name := text.takeWhile (· != '=')
    let value :=
      match text.drop name.length with
      | _ :: value => some (String.ofList value)
      | [] => none
    named (String.ofList name) value
  | ['-'] => plain
  | '-' :: text => letters text
  | _ => plain

/-- What is still to be looked at. -/
inductive Pending
  /-- a setting; it waits when it has no value yet -/
  | setting (which : Setting) (value : Option String)
  /-- the name of a target -/
  | target (name : String)
deriving DecidableEq, Repr

/-- What has been read. -/
structure Reading where
  settings : List (Setting × Path) := []
  switches : List Switch := []
  target : Option Target := none
  pending : Option Pending := none
deriving DecidableEq, Repr

namespace Reading

/-- Whether the next plain word is the value of a setting. -/
def isWaiting (seen : Reading) : Bool :=
  match seen.pending with
  | some (.setting _ none) => true
  | _ => false

/-- Whether a target has been named. -/
def hasTarget (seen : Reading) : Bool :=
  match seen.pending with
  | some (.target _) => true
  | _ => seen.target.isSome

/-- Looks at what is pending. -/
def settle (seen : Reading) : Except Refusal Reading :=
  match seen.pending with
  | none => .ok seen
  | some (.setting _ none) => .error .badValue
  | some (.setting which (some value)) =>
    if (seen.settings.lookup which).isSome then .error .repeated
    else if value.isEmpty then .error .badValue
    else .ok { seen with settings := seen.settings ++ [(which, ⟨value⟩)], pending := none }
  | some (.target name) =>
    match Target.ofSelector? false name with
    | none => .error .badValue
    | some target => .ok { seen with target := some target, pending := none }

/-- Notes a switch. -/
def note (seen : Reading) (which : Switch) : Except Refusal Reading := do
  let seen ← seen.settle
  match which with
  | .help => throw .help
  | .version => throw .version
  | .verbose => return { seen with switches := seen.switches ++ [which] }
  | _ =>
    if seen.switches.contains which then throw .repeated
    return { seen with switches := seen.switches ++ [which] }

/-- Notes a setting, which waits if no value is attached to it. -/
def begin (seen : Reading) (which : Setting) (value : Option String) : Except Refusal Reading := do
  let seen ← seen.settle
  let seen := { seen with pending := some (.setting which value) }
  if value.isSome then seen.settle else return seen

/-- Reads letters after one dash.  What stands behind the letter of a setting is its value. -/
def readLetters (verb : Option Verb) (seen : Reading) : List Char → Except Refusal Reading
  | [] => .ok seen
  | letter :: more =>
    match Item.ofLetter? verb letter with
    | none => .error .unknownWord
    | some (.switch which) => do readLetters verb (← seen.note which) more
    | some (.setting which) =>
      seen.begin which (match more with
        | [] => none
        | '=' :: value => some (String.ofList value)
        | value => some (String.ofList value))

/-- Reads a name after two dashes. -/
def readName (verb : Option Verb) (seen : Reading) (name : String) (value : Option String) :
    Except Refusal Reading :=
  match Item.ofName? verb name with
  | none => .error .unknownWord
  | some (.switch which) => if value.isSome then .error .needlessValue else seen.note which
  | some (.setting which) => seen.begin which value

/-- Reads a plain word that is neither a verb nor a value; only a plan takes one, once. -/
def readOperand (verb : Option Verb) (seen : Reading) (word : String) : Except Refusal Reading :=
  match verb with
  | none => .error .unknownVerb
  | some .plan => do
    if seen.hasTarget then throw .unknownWord
    return { ← seen.settle with pending := some (.target word) }
  | some _ => .error .unknownWord

/-- Reads what stands behind two dashes alone. -/
def readOperands (verb : Option Verb) (seen : Reading) : List String → Except Refusal Reading
  | [] => .ok seen
  | word :: rest => do
    if verb.isNone && (word == helpWord || (Verb.ofWord? word).isSome) then throw .unknownWord
    readOperands verb (← seen.readOperand verb word) rest

end Reading

/-- What is refused when help is asked for about some verbs. -/
def helpRefusal : List String → Refusal
  | [] => .help
  | [word] => if word == helpWord || (Verb.ofWord? word).isSome then .help else .unknownVerb
  | _ => .unknownVerb

/-- The words behind a verb. -/
structure Continuation where
  verb : Verb
  words : List String
deriving DecidableEq, Repr

/-- Reads words up to a verb, or all words behind one. -/
def read (verb : Option Verb) (seen : Reading) :
    List String → Except Refusal (Reading × Option Continuation)
  | [] => .ok (seen, none)
  | word :: rest =>
    let mayBeVerb := verb.isNone && !seen.isWaiting
    if mayBeVerb && word == helpWord then .error (helpRefusal rest)
    else
      match if mayBeVerb then Verb.ofWord? word else none with
      | some found => .ok (seen, some ⟨found, rest⟩)
      | none =>
        match Word.ofString word with
        | .separator => do return (← seen.readOperands verb rest, none)
        | .named name value => do read verb (← seen.readName verb name value) rest
        | .letters letters => do read verb (← seen.readLetters verb letters) rest
        | .plain =>
          match seen.pending with
          | some (.setting which none) =>
            read verb { seen with pending := some (.setting which (some word)) } rest
          | _ => do read verb (← seen.readOperand verb word) rest

end CommandLine

end RpmRelease
