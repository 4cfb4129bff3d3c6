import RpmRelease.Text.Blank
import RpmRelease.Toml.Value

/-!
# Strings and keys

A basic string knows escapes, a literal string does not.  A long string of either sort stands
between triple quotes and may go over several lines; a line feed right behind the opening quotes is
not part of it, and up to two quotes right before the closing ones are.

Each reader here takes the text behind the opening quotes and gives the string and the rest.
-/

set_option autoImplicit false

namespace RpmRelease.Toml

/-- What a reader gives: the thing it read and the rest of the text. -/
abbrev Reading (α : Type) : Type := Except Defect (α × List Char)

/-- Puts a character in front of the text that a reader read. -/
def Reading.cons (c : Char) (reading : Reading (List Char)) : Reading (List Char) :=
  reading.map fun (text, rest) => (c :: text, rest)

/-- Whether a character may stand in a string or a comment as it is. -/
def isText (c : Char) : Bool :=
  c == '\t' || (' ' ≤ c && c != '\x7f')

/-- The value of a hexadecimal digit. -/
def hexDigit (c : Char) : Option Nat :=
  if '0' ≤ c && c ≤ '9' then some (c.toNat - '0'.toNat)
  else if 'a' ≤ c && c ≤ 'f' then some (c.toNat - 'a'.toNat + 10)
  else if 'A' ≤ c && c ≤ 'F' then some (c.toNat - 'A'.toNat + 10)
  else none

/-- The character that a backslash and a letter stand for. -/
def simpleEscape : Char → Option Char
  | 'b' => some '\x08'
  | 't' => some '\t'
  | 'n' => some '\n'
  | 'f' => some '\x0c'
  | 'r' => some '\r'
  | 'e' => some '\x1b'
  | '"' => some '"'
  | '\\' => some '\\'
  | _ => none

/-- How many hexadecimal digits follow a backslash and a letter. -/
def hexEscape : Char → Option Nat
  | 'x' => some 2
  | 'u' => some 4
  | 'U' => some 8
  | _ => none

/-- Where in a basic string a reader is. -/
inductive Position
  | plain
  /-- behind a backslash -/
  | escape
  /-- in a number of which some more digits have to come -/
  | digits (more value : Nat)
  /-- in the blanks behind a backslash, with a line feed among them or not -/
  | blanks (newline : Bool)
deriving DecidableEq

/-- Closing quotes at the front of a text: the quotes that still belong to the string, and the
rest. -/
def closing (quote : Char) (text : List Char) : Option (List Char × List Char) :=
  let count := (text.takeWhile (· == quote)).length
  if 3 ≤ count then
    let taken := min count 5
    some (List.replicate (taken - 3) quote, text.drop taken)
  else none

/-- Reads a basic string. -/
def basic (long : Bool) (position : Position) : List Char → Reading (List Char)
  | [] => .error .openString
  | c :: rest =>
    match position with
    | .plain =>
      if c = '"' then
        if long then
          match closing '"' (c :: rest) with
          | some (quotes, rest) => .ok (quotes, rest)
          | none => Reading.cons c (basic long .plain rest)
        else .ok ([], rest)
      else if c = '\\' then basic long .escape rest
      else if isText c || (long && (c == '\n' || (c == '\r' && rest.head? == some '\n'))) then
        Reading.cons c (basic long .plain rest)
      else .error .badCharacter
    | .escape =>
      match simpleEscape c, hexEscape c with
      | some x, _ => Reading.cons x (basic long .plain rest)
      | none, some more => basic long (.digits more 0) rest
      | none, none =>
        if long && (c == ' ' || c == '\t' || c == '\r' || c == '\n') then
          basic long (.blanks false) (c :: rest)
        else .error .badEscape
    | .digits more value =>
      match hexDigit c with
      | none => .error .badEscape
      | some digit =>
        let value := value * 16 + digit
        if more ≤ 1 then
          if Nat.isValidChar value then Reading.cons (Char.ofNat value) (basic long .plain rest)
          else .error .badEscape
        else basic long (.digits (more - 1) value) rest
    | .blanks newline =>
      if c = ' ' ∨ c = '\t' ∨ (c = '\r' ∧ rest.head? = some '\n') then
        basic long (.blanks newline) rest
      else if c = '\n' then basic long (.blanks true) rest
      else if newline then basic long .plain (c :: rest)
      else .error .badEscape
termination_by text =>
  (text.length,
    match position with
    | .plain => 0
    | .blanks _ => 1
    | .escape => 2
    | .digits .. => 0)

/-- Reads a literal string. -/
def literal (long : Bool) : List Char → Reading (List Char)
  | [] => .error .openString
  | c :: rest =>
    if c = '\'' then
      if long then
        match closing '\'' (c :: rest) with
        | some (quotes, rest) => .ok (quotes, rest)
        | none => Reading.cons c (literal long rest)
      else .ok ([], rest)
    else if isText c || (long && (c == '\n' || (c == '\r' && rest.head? == some '\n'))) then
      Reading.cons c (literal long rest)
    else .error .badCharacter

/-- The text of a long string without a line feed right at its beginning. -/
def dropNewline : List Char → List Char
  | '\n' :: rest => rest
  | '\r' :: '\n' :: rest => rest
  | text => text

/-- Reads a string of any sort, if the text begins with a quote. -/
def string? : List Char → Option (Reading (List Char))
  | '"' :: '"' :: '"' :: rest => some (basic true .plain (dropNewline rest))
  | '"' :: rest => some (basic false .plain rest)
  | '\'' :: '\'' :: '\'' :: rest => some (literal true (dropNewline rest))
  | '\'' :: rest => some (literal false rest)
  | _ => none

/-- Whether a character may stand in a key without quotes. -/
def isKeyChar (c : Char) : Bool :=
  c.isAlphanum || c == '_' || c == '-'

/-- Reads one part of a key. -/
def keyPart : List Char → Reading String
  | '"' :: '"' :: '"' :: _ => .error .badKey
  | '\'' :: '\'' :: '\'' :: _ => .error .badKey
  | '"' :: rest => (basic false .plain rest).map fun (text, rest) => (String.ofList text, rest)
  | '\'' :: rest => (literal false rest).map fun (text, rest) => (String.ofList text, rest)
  | text =>
    let name := text.takeWhile isKeyChar
    if name.isEmpty then .error .badKey
    else .ok (String.ofList name, text.dropWhile isKeyChar)

/-- Whether a character is a blank inside a line. -/
def isBlank (c : Char) : Bool :=
  c == ' ' || c == '\t'

/-- The text without the blanks in front. -/
def dropBlanks (text : List Char) : List Char :=
  text.dropWhile isBlank

/-- The most parts of a key. -/
def maxParts : Nat := 80

/-- Reads a key of one or more parts with dots between, followed by blanks; `parts` bounds their
number. -/
def key : Nat → List Char → Except Defect (List String × List Char)
  | 0, _ => .error .tooDeep
  | parts + 1, text => do
    let (first, rest) ← keyPart text
    match dropBlanks rest with
    | '.' :: rest =>
      let (more, rest) ← key parts (dropBlanks rest)
      return (first :: more, rest)
    | rest => return ([first], rest)

end RpmRelease.Toml
