import RpmRelease.Text.Blank

/-!
# Lines of a text

A line ends at a line feed; a carriage return right before that line feed belongs to the ending.
The text after the last line feed is a line of its own unless it is empty, and keeps a carriage
return at its end.
-/

set_option autoImplicit false

namespace RpmRelease.Text

/-- A line without the carriage return that stood before its line feed. -/
def dropReturn (line : List Char) : List Char :=
  if line.getLast? = some '\r' then line.dropLast else line

/-- The lines of a text, without their endings. -/
def lines (cs : List Char) : List (List Char) :=
  let pieces := splitWhen (· == '\n') cs
  let last := pieces.getLastD []
  pieces.dropLast.map dropReturn ++ (if last.isEmpty then [] else [last])

/-- Pieces put together again with one line feed between neighbours. -/
def joinLines (pieces : List (List Char)) : List Char :=
  List.intercalate ['\n'] pieces

end RpmRelease.Text
