/-!
# Macro references in descriptor values

A value refers to a macro as `%name` or in braces.  In braces `?` asks for the definition or
nothing, `?name:text` for a text if the macro is defined and `!?name:text` for a text if it is not.
A reference to an unknown macro stays as it is written, and so does a percent sign that begins no
reference.  What a definition inserts is not scanned again.

`expand` replaces every reference of a text.  It recurses on the text of a conditional reference
and on what follows a reference, both shorter than the text itself: `closeBrace_length` says so for
the two parts that a closing brace separates.
-/

set_option autoImplicit false

namespace RpmRelease.Macros

/-- What each macro name stands for, if it is defined. -/
abbrev Environment := List Char → Option (List Char)

/-- The characters of a name that is written without braces. -/
def isNameChar (c : Char) : Bool :=
  c.isAlphanum || c == '_'

/-- Cuts the text behind an opening brace at the brace that closes it, with `depth` further braces
open: the text in between and the text after it. -/
def closeBrace (depth : Nat) : List Char → Option (List Char × List Char)
  | [] => none
  | c :: cs =>
    if c = '}' then
      match depth with
      | 0 => some ([], cs)
      | depth + 1 => (closeBrace depth cs).map fun (body, rest) => (c :: body, rest)
    else
      let depth := if c = '{' then depth + 1 else depth
      (closeBrace depth cs).map fun (body, rest) => (c :: body, rest)

/-- The closing brace stands between the two parts, and nothing is lost. -/
theorem closeBrace_append {depth : Nat} {text body rest : List Char}
    (h : closeBrace depth text = some (body, rest)) : text = body ++ '}' :: rest := by
  induction text generalizing depth body with
  | nil => simp [closeBrace] at h
  | cons c cs ih =>
      unfold closeBrace at h
      split at h
      · rename_i hc
        split at h
        · simp_all
        · obtain ⟨⟨body', rest'⟩, h', heq⟩ := Option.map_eq_some_iff.1 h
          simp only [Prod.mk.injEq] at heq
          obtain ⟨rfl, rfl⟩ := heq
          simp [ih h']
      · obtain ⟨⟨body', rest'⟩, h', heq⟩ := Option.map_eq_some_iff.1 h
        simp only [Prod.mk.injEq] at heq
        obtain ⟨rfl, rfl⟩ := heq
        simp [ih h']

/-- Both parts together are shorter than the text by the closing brace. -/
theorem closeBrace_length {depth : Nat} {text body rest : List Char}
    (h : closeBrace depth text = some (body, rest)) :
    body.length + rest.length + 1 = text.length := by
  rw [closeBrace_append h]
  simp only [List.length_append, List.length_cons]
  omega

/-- The body of a reference in braces behind a percent sign, and the text after it. -/
def braced : List Char → Option (List Char × List Char)
  | '{' :: text => closeBrace 0 text
  | _ => none

/-- A body in braces is shorter than the text it was found in by the two braces. -/
theorem braced_length {text body rest : List Char} (h : braced text = some (body, rest)) :
    body.length + rest.length + 2 = text.length := by
  unfold braced at h
  split at h
  · have := closeBrace_length h
    simp only [List.length_cons]
    omega
  · simp at h

/-- What a reference in braces asks for. -/
inductive Reference
  /-- the definition of a name -/
  | plain (name : List Char)
  /-- nothing -/
  | empty
  /-- the definition, or nothing when there is none -/
  | optional (name : List Char)
  /-- a text when the name is defined -/
  | ifDefined (name text : List Char)
  /-- a text when the name is not defined -/
  | ifUndefined (name text : List Char)
deriving DecidableEq

/-- Cuts a text at its first colon. -/
def splitColon (cs : List Char) : Option (List Char × List Char) :=
  match cs.dropWhile (· ≠ ':') with
  | [] => none
  | _ :: text => some (cs.takeWhile (· ≠ ':'), text)

/-- The part after the first colon is shorter than the text. -/
theorem splitColon_length {cs name text : List Char} (h : splitColon cs = some (name, text)) :
    text.length < cs.length := by
  unfold splitColon at h
  split at h
  · simp at h
  · rename_i c rest hd
    have hlen := (List.dropWhile_sublist (l := cs) (· ≠ ':')).length_le
    rw [hd] at hlen
    simp only [List.length_cons] at hlen
    simp only [Option.some.injEq, Prod.mk.injEq] at h
    obtain ⟨_, rfl⟩ := h
    omega

namespace Reference

/-- The reference that a body in braces writes. -/
def ofBody : List Char → Reference
  | '!' :: '?' :: condition =>
    match splitColon condition with
    | some (name, text) => ifUndefined name text
    | none => empty
  | '?' :: condition =>
    match splitColon condition with
    | some (name, text) => ifDefined name text
    | none => optional condition
  | body => if body = ['n', 'i', 'l'] then empty else plain body

/-- The text of a conditional reference; no text for the other kinds. -/
def text : Reference → List Char
  | ifDefined _ text => text
  | ifUndefined _ text => text
  | _ => []

/-- The text of a conditional reference is no longer than the body that wrote it. -/
theorem text_length_le (body : List Char) : (ofBody body).text.length ≤ body.length := by
  unfold ofBody
  split
  · split
    · rename_i h
      have := splitColon_length h
      simp only [text, List.length_cons]
      omega
    · simp [text]
  · split
    · rename_i h
      have := splitColon_length h
      simp only [text, List.length_cons]
      omega
    · simp [text]
  · split <;> simp [text]

end Reference

/-- A text with every macro reference replaced. -/
def expand (env : Environment) : List Char → List Char
  | [] => []
  | c :: after =>
    if c = '%' then
      match h : braced after with
      | some (body, rest) =>
        have : body.length + rest.length + 2 = after.length := braced_length h
        have : (Reference.ofBody body).text.length ≤ body.length := Reference.text_length_le body
        -- the text of a conditional reference, whether or not it is asked for
        let inner := expand env (Reference.ofBody body).text
        let replacement :=
          match Reference.ofBody body with
          | .plain name => (env name).getD ('%' :: '{' :: body ++ ['}'])
          | .empty => []
          | .optional name => (env name).getD []
          | .ifDefined name _ => if (env name).isSome then inner else []
          | .ifUndefined name _ => if (env name).isSome then [] else inner
        replacement ++ expand env rest
      | none =>
        let name := after.takeWhile isNameChar
        have : (after.dropWhile isNameChar).length ≤ after.length :=
          (List.dropWhile_sublist _).length_le
        let definition := if name.isEmpty then none else env name
        definition.getD ('%' :: name) ++ expand env (after.dropWhile isNameChar)
    else c :: expand env after
termination_by text => text.length
decreasing_by all_goals simp only [List.length_cons]; omega

end RpmRelease.Macros
