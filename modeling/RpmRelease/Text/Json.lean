/-!
# JSON output

Values are written over several lines: every element on a line of its own, two blanks deeper than
the brackets around it.  In strings only quotes, backslashes and control characters are escaped.
-/

set_option autoImplicit false

namespace RpmRelease

/-- What can be written as JSON. -/
inductive Json
  | string (text : String)
  | array (elements : List Json)
  | object (entries : List (String × Json))

namespace Json

/-- A hexadecimal digit. -/
def hexDigit (n : Nat) : Char :=
  if n < 10 then Char.ofNat ('0'.toNat + n) else Char.ofNat ('a'.toNat + (n - 10))

/-- A character in a string. -/
def escape (c : Char) : List Char :=
  if c = '"' then ['\\', '"']
  else if c = '\\' then ['\\', '\\']
  else if c = '\x08' then ['\\', 'b']
  else if c = '\x0c' then ['\\', 'f']
  else if c = '\n' then ['\\', 'n']
  else if c = '\r' then ['\\', 'r']
  else if c = '\t' then ['\\', 't']
  else if c.toNat < 0x20 then
    ['\\', 'u', '0', '0', hexDigit (c.toNat / 16), hexDigit (c.toNat % 16)]
  else [c]

/-- A string in quotes. -/
def quote (text : String) : List Char :=
  '"' :: text.toList.flatMap escape ++ ['"']

/-- A line feed and the blanks for some depth. -/
def newline (depth : Nat) : List Char :=
  '\n' :: List.replicate (2 * depth) ' '

/-- Brackets around elements that are already written. -/
def bracket (depth : Nat) («open» close : Char) (elements : List (List Char)) : List Char :=
  match elements with
  | [] => [«open», close]
  | _ =>
    let lines := elements.map (newline (depth + 1) ++ ·)
    «open» :: List.intercalate [','] lines ++ newline depth ++ [close]

mutual

/-- Writes a value at some depth. -/
def write (depth : Nat) : Json → List Char
  | string text => quote text
  | array elements => bracket depth '[' ']' (writeElements (depth + 1) elements)
  | object entries => bracket depth '{' '}' (writeEntries (depth + 1) entries)

/-- Writes the elements of an array. -/
def writeElements (depth : Nat) : List Json → List (List Char)
  | [] => []
  | element :: rest => write depth element :: writeElements depth rest

/-- Writes the entries of an object. -/
def writeEntries (depth : Nat) : List (String × Json) → List (List Char)
  | [] => []
  | (name, value) :: rest =>
    (quote name ++ ':' :: ' ' :: write depth value) :: writeEntries depth rest

end

/-- A value as text. -/
def render (value : Json) : String :=
  String.ofList (write 0 value)

end Json

end RpmRelease
