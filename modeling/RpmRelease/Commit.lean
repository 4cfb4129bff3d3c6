import RpmRelease.Text.Decimal
import RpmRelease.Text.Lines
import RpmRelease.Text.Utf8

/-!
# Commits

A commit as the changelog sees it, and the reader for its log form: author, e-mail address and
author time on a line each, then the message.
-/

set_option autoImplicit false

namespace RpmRelease

/-- Who made a commit, when and with which message. -/
structure Commit where
  author : String
  email : String
  /-- seconds since the epoch -/
  timestamp : Int
  message : String
deriving DecidableEq, Repr

namespace Commit

/-- The first line of the message. -/
def summary (c : Commit) : String :=
  String.ofList ((Text.lines c.message.toList).headD [])

/-- Why a log text is no commit. -/
inductive Defect
  | noAuthor
  | noEmail
  | noTimestamp
deriving DecidableEq, Repr

/-- The wording of a defect. -/
def Defect.message : Defect → String
  | noAuthor => "Missing author name"
  | noEmail => "Missing author email"
  | noTimestamp => "Missing/invalid author timestamp"

/-- Reads the lines of a commit.  The message lines are joined by line feeds and trimmed. -/
def ofLines : List (List Char) → Except Defect Commit
  | [] => .error .noAuthor
  | [_] => .error .noEmail
  | [_, _] => .error .noTimestamp
  | author :: email :: time :: message =>
    match Text.readSigned time with
    | none => .error .noTimestamp
    | some timestamp => .ok {
        author := String.ofList author
        email := String.ofList email
        timestamp
        message := String.ofList (Text.trim (Text.joinLines message)) }

/-- Reads the log form of a commit; bytes that are no text become U+FFFD. -/
def ofLog (bytes : Bytes) : Except Defect Commit :=
  ofLines (Text.lines (Text.Utf8.decodeLossy bytes))

end Commit

end RpmRelease
