/-!
# Errors of the file system

An operation on files fails with an error of the system, which has a number, or with one that this
library raises itself.  Every error has a kind, by which callers decide, and a text, which users
read.  `withContext` puts a remark in front of the text and keeps the kind.
-/

set_option autoImplicit false

namespace RpmRelease

/-- The errors that the system reports by number. -/
inductive SystemError
  | notPermitted
  | noEntry
  | execFormat
  | accessDenied
  | entryExists
  | notDirectory
  | isDirectory
  | invalidArgument
  | nameTooLong
  | notEmpty
  | tooManyLinks
deriving DecidableEq, Repr

/-- The kinds of error that callers tell apart. -/
inductive ErrorKind
  | notFound
  | permissionDenied
  | alreadyExists
  | invalidInput
  | invalidData
  | unexpectedEof
  | notDirectory
  | isDirectory
  | notEmpty
  | tooManyLinks
  | nameTooLong
  | other
deriving DecidableEq, Repr

namespace SystemError

/-- The number of a system error. -/
def number : SystemError → Nat
  | notPermitted => 1
  | noEntry => 2
  | execFormat => 8
  | accessDenied => 13
  | entryExists => 17
  | notDirectory => 20
  | isDirectory => 21
  | invalidArgument => 22
  | nameTooLong => 36
  | notEmpty => 39
  | tooManyLinks => 40

/-- What the system says about an error. -/
def description : SystemError → String
  | notPermitted => "Operation not permitted"
  | noEntry => "No such file or directory"
  | execFormat => "Exec format error"
  | accessDenied => "Permission denied"
  | entryExists => "File exists"
  | notDirectory => "Not a directory"
  | isDirectory => "Is a directory"
  | invalidArgument => "Invalid argument"
  | nameTooLong => "File name too long"
  | notEmpty => "Directory not empty"
  | tooManyLinks => "Too many levels of symbolic links"

/-- The kind of a system error. -/
def kind : SystemError → ErrorKind
  | notPermitted => .permissionDenied
  | noEntry => .notFound
  | execFormat => .other
  | accessDenied => .permissionDenied
  | entryExists => .alreadyExists
  | notDirectory => .notDirectory
  | isDirectory => .isDirectory
  | invalidArgument => .invalidInput
  | nameTooLong => .nameTooLong
  | notEmpty => .notEmpty
  | tooManyLinks => .tooManyLinks

end SystemError

/-- The text of an error of which nothing but the kind is known. -/
def ErrorKind.description : ErrorKind → String
  | notFound => "entity not found"
  | permissionDenied => "permission denied"
  | alreadyExists => "entity already exists"
  | invalidInput => "invalid input parameter"
  | invalidData => "invalid data"
  | unexpectedEof => "unexpected end of file"
  | notDirectory => "not a directory"
  | isDirectory => "is a directory"
  | notEmpty => "directory not empty"
  | tooManyLinks => "filesystem loop or indirection limit (e.g. symlink loop)"
  | nameTooLong => "invalid filename"
  | other => "other error"

/-- Why an operation on files failed. -/
inductive FileError
  /-- the system refused -/
  | system (error : SystemError)
  /-- nothing is known but the kind -/
  | bare (kind : ErrorKind)
  /-- an error with a text of its own -/
  | custom (kind : ErrorKind) (text : String)
deriving DecidableEq, Repr

namespace FileError

/-- The kind of an error. -/
def kind : FileError → ErrorKind
  | system error => error.kind
  | bare kind => kind
  | custom kind _ => kind

/-- The text of an error. -/
def text : FileError → String
  | system error =>
    error.description ++ " (os error " ++ String.ofList (Nat.toDigits 10 error.number) ++ ")"
  | bare kind => kind.description
  | custom _ text => text

/-- The error with a remark in front of its text. -/
def withContext (remark : String) (e : FileError) : FileError :=
  custom e.kind (remark ++ ": " ++ e.text)

/-- A remark does not change the kind. -/
@[simp] theorem kind_withContext (remark : String) (e : FileError) :
    (e.withContext remark).kind = e.kind := rfl

/-- A remark stands in front of the text, after a colon. -/
@[simp] theorem text_withContext (remark : String) (e : FileError) :
    (e.withContext remark).text = remark ++ ": " ++ e.text := rfl

/-- A path or an argument holds a character that the system cannot take. -/
def nulInPath : FileError := custom .invalidInput "file name contained an unexpected NUL byte"

/-- The contents of a file are no text. -/
def notText : FileError := custom .invalidData "stream did not contain valid UTF-8"

end FileError

end RpmRelease
