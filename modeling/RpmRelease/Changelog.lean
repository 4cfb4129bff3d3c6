import RpmRelease.Calendar
import RpmRelease.Commit

/-!
# The changelog

A changelog lists commits from newest to oldest.  A heading with date, author and e-mail address
stands before each run of commits that share all three.  Commits that only record a regenerated
changelog are left out, so that regenerating it again writes the same text.
-/

set_option autoImplicit false

namespace RpmRelease.Changelog

/-- The beginning of the message with which a regenerated changelog is committed. -/
def marker : String := "Generated by rpm-rail changelog"

/-- The message with which a changelog regenerated on some day is committed. -/
def commitMessage (today : Date) : String :=
  marker ++ " on " ++ today.render

/-- Whether a commit only records a regenerated changelog. -/
def isGenerated (c : Commit) : Bool :=
  marker.toList.isPrefixOf c.summary.toList

/-- What a heading names. -/
structure Heading where
  date : Date
  author : String
  email : String
deriving DecidableEq, Repr

/-- The heading that a commit belongs under. -/
def Heading.ofCommit (c : Commit) : Heading :=
  ⟨Date.ofTimestamp c.timestamp, c.author, c.email⟩

/-- The line of a heading. -/
def Heading.line (h : Heading) : List Char :=
  (h.date.render ++ "  " ++ h.author ++ "  <" ++ h.email ++ ">").toList

/-- The first line of an entry. -/
def firstLine (line : List Char) : List Char :=
  '\t' :: '*' :: ' ' :: Text.trimEnd line

/-- A further line of an entry; a blank line is left empty. -/
def nextLine (line : List Char) : List Char :=
  if (Text.trim line).isEmpty then [] else '\t' :: ' ' :: ' ' :: Text.trimEnd line

/-- The lines of an entry: an empty one, then those of the message. -/
def entryLines (c : Commit) : List (List Char) :=
  match Text.lines c.message.toList with
  | [] => [[], firstLine []]
  | first :: more => [] :: firstLine first :: more.map nextLine

/-- The lines for commits that are all to be listed, below a heading that may already stand. -/
def linesBelow : Option Heading → List Commit → List (List Char)
  | _, [] => []
  | above, c :: commits =>
    let heading := Heading.ofCommit c
    let headingLines :=
      match above with
      | none => [heading.line]
      | some h => if h = heading then [] else [[], heading.line]
    headingLines ++ entryLines c ++ linesBelow (some heading) commits

/-- The changelog of a history, newest commit first. -/
def render (history : List Commit) : String :=
  let lines := linesBelow none (history.filter (!isGenerated ·))
  String.ofList (lines.flatMap (· ++ ['\n']))

end RpmRelease.Changelog
