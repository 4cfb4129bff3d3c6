import RpmRelease.Calendar
import RpmRelease.Text.Blank
import RpmRelease.Toml.Quoted

/-!
# Values without quotes

Booleans, integers of 64 bits, floating-point numbers, dates and times.  Underscores may stand
between digits.  A number that is too large for its type is no value.
-/

set_option autoImplicit false

namespace RpmRelease.Toml

/-- The digits of a number that has underscores between digits only. -/
def underscored (isDigit : Char → Bool) (text : List Char) : Option (List Char) :=
  let pieces := Text.splitWhen (· == '_') text
  if pieces.all fun piece => !piece.isEmpty && piece.all isDigit then some pieces.flatten else none

/-- The number that digits write. -/
def numeral (base : Nat) (digits : List Char) : Nat :=
  digits.foldl (fun value c => value * base + (hexDigit c).getD 0) 0

/-- Whether a character is a digit of a base up to sixteen. -/
def isDigitOf (base : Nat) (c : Char) : Bool :=
  match hexDigit c with
  | some value => value < base
  | none => false

/-- A text without its sign, and whether it is a minus sign. -/
def splitSign : List Char → Bool × List Char
  | '-' :: rest => (true, rest)
  | '+' :: rest => (false, rest)
  | text => (false, text)

/-- The digits of a decimal number without a sign and without leading zeros. -/
def decimalDigits (text : List Char) : Option (List Char) :=
  (underscored (isDigitOf 10) text).filter fun digits => digits.length == 1 || digits.head? != some '0'

/-- Reads an integer. -/
def integer? (text : List Char) : Option Int :=
  let based (base : Nat) (digits : List Char) : Option Int :=
    ((underscored (isDigitOf base) digits).map (numeral base)).bind fun n =>
      if n < Text.signedLimit then some n else none
  match text with
  | '0' :: 'x' :: digits => based 16 digits
  | '0' :: 'o' :: digits => based 8 digits
  | '0' :: 'b' :: digits => based 2 digits
  | _ =>
    let (negative, digits) := splitSign text
    ((decimalDigits digits).map (numeral 10)).bind fun n =>
      if negative then if n ≤ Text.signedLimit then some (-n) else none
      else if n < Text.signedLimit then some n else none

/-- Whether a decimal number with an exponent is too large for a double.  The limit is halfway
between the largest double and the power of two above it. -/
def overflows (digits : List Char) (exponent : Int) : Bool :=
  let n := numeral 10 digits
  let limit := Nat.pow 2 1024 - Nat.pow 2 970
  if n == 0 then false
  else if 400 ≤ exponent then true
  else if 0 ≤ exponent then limit ≤ n * Nat.pow 10 exponent.toNat
  else if exponent.natAbs ≤ digits.length + 400 then limit * Nat.pow 10 exponent.natAbs ≤ n
  else false

/-- Whether a text is a floating-point number: a decimal number with a fraction, an exponent or
both. -/
def isFloat (text : List Char) : Bool :=
  let body := (splitSign text).2
  if body == "inf".toList || body == "nan".toList then true
  else
    let isMark (c : Char) := c == 'e' || c == 'E'
    let mantissa := body.takeWhile (!isMark ·)
    let exponent? : Option (Option Int) :=
      match body.dropWhile (!isMark ·) with
      | [] => some none
      | _ :: exponent =>
        let (negative, digits) := splitSign exponent
        (underscored (isDigitOf 10) digits).map fun digits =>
          some (if negative then -numeral 10 digits else numeral 10 digits)
    let parts? : Option (List Char × Option (List Char)) :=
      match mantissa.dropWhile (· != '.') with
      | [] => (decimalDigits mantissa).map (·, none)
      | _ :: fraction => do
        let whole ← decimalDigits (mantissa.takeWhile (· != '.'))
        let fraction ← underscored (isDigitOf 10) fraction
        return (whole, some fraction)
    match parts?, exponent? with
    | some (whole, fraction?), some exponent? =>
      (fraction?.isSome || exponent?.isSome) &&
        !overflows (whole ++ fraction?.getD [])
          (exponent?.getD 0 - ((fraction?.getD []).length : Int))
    | _, _ => false

/-- The number of two decimal digits at the front of a text, and the rest. -/
def twoDigits : List Char → Option (Nat × List Char)
  | a :: b :: rest =>
    if isDigitOf 10 a && isDigitOf 10 b then some (numeral 10 [a, b], rest) else none
  | _ => none

/-- The rest of a text after a character that has to stand at its front. -/
def expect (c : Char) : List Char → Option (List Char)
  | x :: rest => if x = c then some rest else none
  | [] => none

/-- The rest of a text after a date. -/
def date? (text : List Char) : Option (List Char) := do
  let (century, rest) ← twoDigits text
  let (year, rest) ← twoDigits rest
  let (month, rest) ← twoDigits (← expect '-' rest)
  let (day, rest) ← twoDigits (← expect '-' rest)
  let _ ← Date.ofNumbers? (century * 100 + year : Nat) month day
  return rest

/-- The rest of a text after a time of day. -/
def clock? (text : List Char) : Option (List Char) := do
  let (hour, rest) ← twoDigits text
  let (minute, rest) ← twoDigits (← expect ':' rest)
  let (second, rest) ← twoDigits (← expect ':' rest)
  if 23 < hour || 59 < minute || 60 < second then none
  else
    match rest with
    | '.' :: rest =>
      if (rest.head?.map (isDigitOf 10)).getD false then some (rest.dropWhile (isDigitOf 10)) else none
    | rest => some rest

/-- Whether a text is an offset from universal time. -/
def isOffset : List Char → Bool
  | ['Z'] => true
  | ['z'] => true
  | c :: rest =>
    (c == '+' || c == '-') &&
      match twoDigits rest with
      | some (hours, ':' :: rest) =>
        match twoDigits rest with
        | some (minutes, []) => hours * 60 + minutes ≤ 24 * 60
        | _ => false
      | _ => false
  | [] => false

/-- Whether a text is a date, a time of day, or both, then perhaps with an offset. -/
def isTime (text : List Char) : Bool :=
  clock? text == some [] ||
    match date? text with
    | some [] => true
    | some (mark :: rest) =>
      (mark == 'T' || mark == 't' || mark == ' ') &&
        match clock? rest with
        | some [] => true
        | some offset => isOffset offset
        | none => false
    | none => false

/-- The value that a text without quotes writes. -/
def scalar? (text : List Char) : Option Value :=
  if text = "true".toList then some (.boolean true)
  else if text = "false".toList then some (.boolean false)
  else
    match integer? text with
    | some n => some (.integer n)
    | none =>
      if isFloat text then some (.float (String.ofList text))
      else if isTime text then some (.time (String.ofList text))
      else none

/-- Whether a character ends a value without quotes. -/
def endsScalar (c : Char) : Bool :=
  c == ' ' || c == '\t' || c == '\r' || c == '\n' || c == ',' || c == ']' || c == '\x7d' || c == '#'

/-- Reads a value without quotes.  A single blank may stand between a date and a time. -/
def scalar (text : List Char) : Reading Value :=
  let word := text.takeWhile (!endsScalar ·)
  let rest := text.dropWhile (!endsScalar ·)
  let (word, rest) :=
    match rest with
    | ' ' :: more =>
      if date? word == some [] && (more.head?.map (isDigitOf 10)).getD false then
        (word ++ ' ' :: more.takeWhile (!endsScalar ·), more.dropWhile (!endsScalar ·))
      else (word, rest)
    | _ => (word, rest)
  match scalar? word with
  | some value => .ok (value, rest)
  | none => .error .badValue

end RpmRelease.Toml
