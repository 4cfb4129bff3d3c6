import RpmRelease.Toml.Scalar
import RpmRelease.Toml.Table

/-!
# TOML documents

A document is a sequence of lines: headers, which say which table the lines below belong to, keys
with values, and empty lines.  Arrays and inline tables may go over several lines, with comments,
and may have a comma behind the last element.
-/

set_option autoImplicit false

namespace RpmRelease.Toml

/-- The rest of a text behind blanks, line ends and comments. -/
def dropFiller (comment : Bool) : List Char → Except Defect (List Char)
  | [] => .ok []
  | '\n' :: rest => dropFiller false rest
  | '\r' :: '\n' :: rest => dropFiller false rest
  | c :: rest =>
    if comment then if isText c then dropFiller true rest else .error .badComment
    else if isBlank c then dropFiller false rest
    else if c = '#' then dropFiller true rest
    else .ok (c :: rest)

/-- The rest of a text behind blanks, a comment and the end of the line. -/
def dropLineEnd (comment : Bool) : List Char → Except Defect (List Char)
  | [] => .ok []
  | '\n' :: rest => .ok rest
  | '\r' :: '\n' :: rest => .ok rest
  | c :: rest =>
    if comment then if isText c then dropLineEnd true rest else .error .badComment
    else if isBlank c then dropLineEnd false rest
    else if c = '#' then dropLineEnd true rest
    else .error (if c = '\r' then .badNewline else .trailingText)

mutual

/-- Reads a value; arrays and inline tables may be nested `depth` deep in it. -/
def value (steps depth : Nat) (text : List Char) : Except Defect (Value × List Char) :=
  match steps with
  | 0 => .error .tooDeep
  | steps + 1 =>
    match string? text with
    | some reading => reading.map fun (content, rest) => (.string (String.ofList content), rest)
    | none =>
      match text with
      | '[' :: rest =>
        match depth with
        | 0 => .error .tooDeep
        | depth + 1 => do
          let (elements, rest) ← elements steps depth rest
          return (.array elements, rest)
      | '{' :: rest =>
        match depth with
        | 0 => .error .tooDeep
        | depth + 1 => do
          let (entries, rest) ← pairs steps depth [] rest
          return (.table (Entries.toValues entries), rest)
      | _ => scalar text

/-- Reads the elements of an array up to its closing bracket. -/
def elements (steps depth : Nat) (text : List Char) : Except Defect (List Value × List Char) :=
  match steps with
  | 0 => .error .tooDeep
  | steps + 1 => do
    match ← dropFiller false text with
    | ']' :: rest => return ([], rest)
    | text =>
      let (first, rest) ← value steps depth text
      match ← dropFiller false rest with
      | ']' :: rest => return ([first], rest)
      | ',' :: rest =>
        let (more, rest) ← elements steps depth rest
        return (first :: more, rest)
      | _ => throw .openArray

/-- Reads the pairs of an inline table up to its closing brace, behind those that are read. -/
def pairs (steps depth : Nat) (read : Entries) (text : List Char) :
    Except Defect (Entries × List Char) :=
  match steps with
  | 0 => .error .tooDeep
  | steps + 1 => do
    match ← dropFiller false text with
    | '\x7d' :: rest => return (read, rest)
    | text =>
      let (path, rest) ← key maxParts text
      match rest with
      | '=' :: rest =>
        let (content, rest) ← value steps depth (dropBlanks rest)
        let read ← read.assign path content
        match ← dropFiller false rest with
        | '\x7d' :: rest => return (read, rest)
        | ',' :: rest => pairs steps depth read rest
        | _ => throw .openTable
      | _ => throw .missingEquals

end

/-- How deep arrays and inline tables may be nested. -/
def maxDepth : Nat := 80

/-- A line of a document. -/
inductive Line
  | header (path : List String)
  | elementHeader (path : List String)
  | pair (path : List String) (content : Value)

/-- Reads one line that is not empty, without its end. -/
def line (text : List Char) : Except Defect (Line × List Char) := do
  match text with
  | '[' :: '[' :: rest =>
    let (path, rest) ← key maxParts (dropBlanks rest)
    match rest with
    | ']' :: ']' :: rest => return (.elementHeader path, rest)
    | _ => throw .badHeader
  | '[' :: rest =>
    let (path, rest) ← key maxParts (dropBlanks rest)
    match rest with
    | ']' :: rest => return (.header path, rest)
    | _ => throw .badHeader
  | _ =>
    let (path, rest) ← key maxParts text
    match rest with
    | '=' :: rest =>
      let rest := dropBlanks rest
      let (content, rest) ← value (2 * rest.length + 2) maxDepth rest
      return (.pair path content, rest)
    | _ => throw .missingEquals

/-- Reads the lines of a document; `steps` bounds their number. -/
def lines : Nat → List Char → Except Defect (List Line)
  | 0, _ => .ok []
  | steps + 1, text => do
    match ← dropFiller false text with
    | [] => return []
    | text =>
      let (first, rest) ← line text
      return first :: (← lines steps (← dropLineEnd false rest))

/-- Takes in one more line: the header above it and the entries of the document. -/
def Line.enter (line : Line) (state : List String × Entries) :
    Except Defect (List String × Entries) := do
  let (current, entries) := state
  match line with
  | .header path => return (path, ← entries.openTable path)
  | .elementHeader path => return (path, ← entries.openElement path)
  | .pair path content => return (current, ← Entries.alterAt (·.assign path content) current entries)

/-- Reads a document into the entries of its table. -/
def document (text : List Char) : Except Defect (List (String × Value)) := do
  let text := if text.head? = some '\uFEFF' then text.tail else text
  let read ← lines (text.length + 1) text
  let (_, entries) ← read.foldlM (fun state line => line.enter state) ([], [])
  return Entries.toValues entries

end RpmRelease.Toml
