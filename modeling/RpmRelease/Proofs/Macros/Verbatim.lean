import RpmRelease.Proofs.Macros.Expression

/-!
# Texts that stay as they are

Expansion changes a text only where it finds a name that is defined or a reference in braces that asks
for something else than a definition.  A text with neither is `Inert`, whatever percent signs and
braces it has: what is cut off on the way, in front of a percent sign, between braces and behind them,
is put together again without loss.
-/

set_option autoImplicit false

namespace RpmRelease.Macros

/-- How references in braces begin that ask for something else than a definition. -/
def askingMarks : List (List Char) :=
  [['%', '{', '?'], ['%', '{', '!', '?'], ['%', '{', 'n', 'i', 'l', '}']]

/-- A text with nothing in it that expansion could replace. -/
structure Inert (env : Environment) (text : List Char) : Prop where
  /-- no reference asks for something else than a definition -/
  mark : ∀ mark ∈ askingMarks, ¬ mark <:+: text
  /-- no name that is defined occurs -/
  name : ∀ name, (env name).isSome → ¬ name <:+: text

namespace Inert

variable {env : Environment} {text part after body rest : List Char}

/-- A part of an inert text is inert. -/
theorem of_infix (h : Inert env text) (hpart : part <:+: text) : Inert env part where
  mark := fun mark hmark hin => h.mark mark hmark (hin.trans hpart)
  name := fun name hname hin => h.name name hname (hin.trans hpart)

/-- No part of an inert text is a name that is defined. -/
theorem eq_none (h : Inert env text) (hpart : part <:+: text) : env part = none := by
  cases henv : env part with
  | none => rfl
  | some value => exact absurd hpart (h.name part (by simp [henv]))

/-- A reference in braces asks for a definition. -/
theorem ofBody_eq (h : Inert env ('%' :: '{' :: (body ++ '}' :: rest))) :
    Reference.ofBody body = .plain body := by
  have hmark (front more : List Char) (hbody : body ++ '}' :: rest = front ++ more) :
      '%' :: '{' :: front <:+: '%' :: '{' :: (body ++ '}' :: rest) :=
    ⟨[], more, by simp [hbody]⟩
  refine Reference.ofBody_eq_plain ?_ ?_ ?_
  · rintro rfl
    exact h.mark _ (by simp [askingMarks]) (hmark ['n', 'i', 'l', '}'] rest rfl)
  · rintro ⟨more, rfl⟩
    exact h.mark _ (by simp [askingMarks]) (hmark ['?'] _ rfl)
  · rintro ⟨more, rfl⟩
    exact h.mark _ (by simp [askingMarks]) (hmark ['!', '?'] _ rfl)

/-- A reference in braces stays as it is written. -/
theorem replacement_eq (h : Inert env ('%' :: '{' :: (body ++ '}' :: rest))) :
    (Reference.ofBody body).replacement env body = '%' :: '{' :: body ++ ['}'] := by
  have hundefined : env body = none := h.eq_none ⟨['%', '{'], '}' :: rest, by simp⟩
  rw [h.ofBody_eq, Reference.replacement, hundefined, Option.getD_none]

/-- A name behind a percent sign has no definition. -/
theorem definition_eq (h : Inert env ('%' :: after)) :
    definition env (after.takeWhile isNameChar) = none := by
  rw [definition]
  split
  · rfl
  · exact h.eq_none ((List.takeWhile_prefix _).isInfix.trans (List.suffix_cons _ _).isInfix)

end Inert

/-- A text without names that are defined and without references that ask for something else is
expanded to itself, also where its braces are not closed or its percent signs begin nothing. -/
theorem expand_eq_self {env : Environment} {text : List Char} (h : Inert env text) :
    expand env text = text := by
  induction text using value_induction with
  | nil => exact expand_nil env
  | char c after hc ih => rw [expand_cons env after hc, ih (h.of_infix (List.suffix_cons _ _).isInfix)]
  | reference after body rest hbraced _ ih =>
    obtain ⟨-, rfl⟩ := braced_eq_some_iff.1 hbraced
    have hrest : rest <:+: '%' :: '{' :: (body ++ '}' :: rest) :=
      ⟨'%' :: '{' :: (body ++ ['}']), [], by simp⟩
    rw [expand_braced env hbraced, h.replacement_eq, ih (h.of_infix hrest)]
    simp
  | name after hbraced ih =>
    have hrest : after.dropWhile isNameChar <:+: '%' :: after :=
      (List.dropWhile_suffix _).isInfix.trans (List.suffix_cons _ _).isInfix
    rw [expand_name env hbraced, h.definition_eq, ih (h.of_infix hrest), Option.getD_none,
      List.cons_append, List.takeWhile_append_dropWhile]

/-- An open brace, a stray one, shell and expression forms and percent signs that begin nothing, where
another name is defined. -/
theorem expand_eq_self_malformed :
    let env : Environment := fun name => if name = ['v', 'e', 'r'] then some ['2'] else none
    let text := "100%-%\x7bnope\x7d.%%x\x7d%(date)%[1+1]%\x7b!\x7b?open%".toList
    Inert env text ∧ expand env text = text := by
  intro env text
  have hinert : Inert env text := by
    refine ⟨by decide +kernel, fun name hname => ?_⟩
    by_cases hver : name = ['v', 'e', 'r']
    · subst hver
      decide +kernel
    · simp [env, hver] at hname
  exact ⟨hinert, expand_eq_self hinert⟩

end RpmRelease.Macros
