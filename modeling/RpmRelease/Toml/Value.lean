/-!
# TOML values and what can be wrong with a document
-/

set_option autoImplicit false

namespace RpmRelease.Toml

/-- A value of a document.  Numbers with a fraction and times are kept as they are written. -/
inductive Value
  | string (text : String)
  | boolean (value : Bool)
  | integer (value : Int)
  | float (text : String)
  | time (text : String)
  | array (elements : List Value)
  | table (entries : List (String × Value))
deriving Repr, Inhabited

/-- What is wrong with a document. -/
inductive Defect
  | badNewline
  | badComment
  | badKey
  | missingEquals
  | badValue
  | openString
  | badCharacter
  | badEscape
  | openArray
  | openTable
  | badHeader
  | trailingText
  | tooDeep
  | duplicateKey (key : String)
  | notTable (key : String)
deriving DecidableEq, Repr

/-- The wording of a defect. -/
def Defect.message : Defect → String
  | badNewline => "carriage return without a line feed"
  | badComment => "invalid character in a comment"
  | badKey => "invalid key"
  | missingEquals => "key with no value"
  | badValue => "invalid value"
  | openString => "unterminated string"
  | badCharacter => "invalid character in a string"
  | badEscape => "invalid escape sequence"
  | openArray => "unclosed array"
  | openTable => "unclosed inline table"
  | badHeader => "invalid table header"
  | trailingText => "unexpected text at the end of a line"
  | tooDeep => "nested too deeply"
  | duplicateKey key => "duplicate key " ++ key
  | notTable key => "cannot extend the value of " ++ key

end RpmRelease.Toml
