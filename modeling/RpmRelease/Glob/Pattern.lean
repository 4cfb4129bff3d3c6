/-!
# Glob patterns

A question mark stands for one character, a star for any number of characters, and a set in square
brackets for one character that is in it or, after an exclamation mark, that is not.  Two stars
between slashes stand for any number of directories.  All other characters stand for themselves.

`Token.read` reads a pattern and reports the first defect with the number of characters in front of
it.  `Token.fits` decides whether a name fits.
-/

set_option autoImplicit false

namespace RpmRelease.Glob

/-- The characters from a first one to a last one. -/
structure Range where
  first : Char
  last : Char
deriving DecidableEq, Repr

/-- Whether a character is in a range. -/
def Range.contains (r : Range) (c : Char) : Bool :=
  r.first ≤ c && c ≤ r.last

/-- A part of a pattern. -/
inductive Token
  | char (c : Char)
  | anyChar
  | anyRun
  | oneOf (ranges : List Range)
  | noneOf (ranges : List Range)
deriving DecidableEq, Repr

/-- What is wrong with a pattern. -/
inductive Defect
  | tooManyStars
  | starsNotAlone
  | openSet
deriving DecidableEq, Repr

/-- The wording of a defect. -/
def Defect.message : Defect → String
  | tooManyStars => "wildcards are either regular \x60*\x60 or recursive \x60**\x60"
  | starsNotAlone => "recursive wildcards must form a single path component"
  | openSet => "invalid range pattern"

/-- A defect of a pattern, and how many characters stand in front of it. -/
structure PatternError where
  position : Nat
  defect : Defect
deriving DecidableEq, Repr

/-- The wording of an error. -/
def PatternError.message (e : PatternError) : String :=
  "Pattern syntax error near position " ++ String.ofList (Nat.toDigits 10 e.position) ++ ": " ++
    e.defect.message

/-- The ranges of a set; a hyphen between two characters makes one range of them. -/
def readRanges : List Char → List Range
  | first :: '-' :: last :: rest => ⟨first, last⟩ :: readRanges rest
  | c :: rest => ⟨c, c⟩ :: readRanges rest
  | [] => []

/-- A set behind its opening bracket, and the text after it.  The first character of a set is in the
set even if it is a closing bracket. -/
def readSet (text : List Char) : Option (Token × List Char) :=
  let (negated, inner) := if text.head? = some '!' then (true, text.tail) else (false, text)
  match inner with
  | [] => none
  | c :: more =>
    match more.dropWhile (· != ']') with
    | [] => none
    | _ :: rest =>
      let ranges := readRanges (c :: more.takeWhile (· != ']'))
      some (if negated then .noneOf ranges else .oneOf ranges, rest)

/-- What follows a set is shorter than what follows its opening bracket. -/
theorem readSet_length {text rest : List Char} {token : Token}
    (h : readSet text = some (token, rest)) : rest.length < text.length := by
  have key : ∀ (c : Char) (more tail : List Char) (x : Char),
      more.dropWhile (· != ']') = x :: tail → tail.length < (c :: more).length := by
    intro c more tail x hd
    have hlen := (List.dropWhile_sublist (l := more) (· != ']')).length_le
    rw [hd] at hlen
    simp only [List.length_cons] at hlen ⊢
    omega
  unfold readSet at h
  split at h
  rename_i negated inner hinner
  have hle : inner.length ≤ text.length := by
    split at hinner
    · cases hinner
      simp
    · cases hinner
      exact Nat.le_refl _
  split at h
  · simp at h
  · rename_i c more
    split at h
    · simp at h
    · rename_i x tail hd
      simp only [Option.some.injEq, Prod.mk.injEq] at h
      obtain ⟨-, rfl⟩ := h
      exact Nat.lt_of_lt_of_le (key c more tail x hd) hle

namespace Token

/-- Reads a pattern, or the rest of one behind `position` characters; `boundary` tells whether a
component begins there.  Two stars are read like one, with the slash behind them: whether they stand
alone is all that is asked here. -/
def read (position : Nat) (boundary : Bool) : List Char → Except PatternError (List Token)
  | [] => .ok []
  | '?' :: rest => (.anyChar :: ·) <$> read (position + 1) false rest
  | '*' :: rest =>
    have : (rest.dropWhile (· == '*')).length ≤ rest.length :=
      (List.dropWhile_sublist _).length_le
    match (rest.takeWhile (· == '*')).length with
    | 0 => (.anyRun :: ·) <$> read (position + 1) false (rest.dropWhile (· == '*'))
    | 1 =>
      if !boundary then .error ⟨position - 1, .starsNotAlone⟩
      else
        match h : rest.dropWhile (· == '*') with
        | [] => .ok [.anyRun]
        | c :: rest' =>
          have : rest'.length < (rest.dropWhile (· == '*')).length := by rw [h]; simp
          if c = '/' then (.anyRun :: ·) <$> read (position + 3) true rest'
          else .error ⟨position + 2, .starsNotAlone⟩
    | _ => .error ⟨position + 2, .tooManyStars⟩
  | '[' :: rest =>
    match h : readSet rest with
    | none => .error ⟨position, .openSet⟩
    | some (token, rest') =>
      have : rest'.length < rest.length := readSet_length h
      (token :: ·) <$> read (position + 1 + (rest.length - rest'.length)) false rest'
  | c :: rest => (.char c :: ·) <$> read (position + 1) (c == '/') rest
termination_by text => text.length
decreasing_by all_goals simp only [List.length_cons]; omega

/-- Whether a name fits a pattern. -/
def fits : List Token → List Char → Bool
  | [], name => name.isEmpty
  | .anyRun :: pattern, [] => fits pattern []
  | .anyRun :: pattern, c :: name => fits pattern (c :: name) || fits (.anyRun :: pattern) name
  | .char x :: pattern, c :: name => c == x && fits pattern name
  | .anyChar :: pattern, _ :: name => fits pattern name
  | .oneOf ranges :: pattern, c :: name => ranges.any (·.contains c) && fits pattern name
  | .noneOf ranges :: pattern, c :: name => !ranges.any (·.contains c) && fits pattern name
  | _ :: _, [] => false
termination_by pattern name => pattern.length + name.length

/-- The text that a pattern without wildcards stands for. -/
def literal? (pattern : List Token) : Option (List Char) :=
  pattern.mapM fun
    | char c => some c
    | _ => none

end Token

/-- Checks a whole pattern. -/
def check (pattern : List Char) : Except PatternError Unit :=
  (fun _ => ()) <$> Token.read 0 true pattern

/-- Whether a character means something else than itself in a pattern. -/
def isSpecial (c : Char) : Bool :=
  c == '?' || c == '*' || c == '[' || c == ']'

/-- The pattern that stands for a text. -/
def escape (text : List Char) : List Char :=
  text.flatMap fun c => if isSpecial c then ['[', c, ']'] else [c]

end RpmRelease.Glob
