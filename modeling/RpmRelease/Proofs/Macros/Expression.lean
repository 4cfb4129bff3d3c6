import RpmRelease.Proofs.Macros.Expansion

/-!
# Macro expressions

An `Expression` is what a value means: text and references, one after the other, with an expression
for the text of each conditional reference.  It is written by `print`, and `denote` says what it
stands for.

The main result is that `expand` reads back what `print` writes: expanding a printed expression
gives its denotation, at every depth of nesting and next to any neighbours.  A definition enters a
denotation as it is, so a percent sign in a definition is never taken for a reference.
-/

set_option autoImplicit false

namespace RpmRelease.Macros

/-- Text and references, each with what follows it. -/
inductive Expression
  /-- the end -/
  | stop
  /-- a text that stands for itself -/
  | text (chars : List Char) (rest : Expression)
  /-- the definition of a name, in braces -/
  | plain (name : List Char) (rest : Expression)
  /-- the definition of a name, without braces -/
  | bare (name : List Char) (rest : Expression)
  /-- the definition of a name, or nothing -/
  | optional (name : List Char) (rest : Expression)
  /-- nothing, whether or not a name is defined -/
  | negated (name : List Char) (rest : Expression)
  /-- nothing -/
  | empty (rest : Expression)
  /-- an expression if a name is defined, else nothing -/
  | ifDefined (name : List Char) (body rest : Expression)
  /-- an expression if a name is not defined, else nothing -/
  | ifUndefined (name : List Char) (body rest : Expression)
deriving DecidableEq, Repr

namespace Expression

/-- An expression as it is written. -/
def print : Expression → List Char
  | stop => []
  | text chars rest => chars ++ rest.print
  | plain name rest => '%' :: '{' :: (name ++ '}' :: rest.print)
  | bare name rest => '%' :: (name ++ rest.print)
  | optional name rest => '%' :: '{' :: ('?' :: name ++ '}' :: rest.print)
  | negated name rest => '%' :: '{' :: ('!' :: '?' :: name ++ '}' :: rest.print)
  | empty rest => '%' :: '{' :: (['n', 'i', 'l'] ++ '}' :: rest.print)
  | ifDefined name body rest =>
    '%' :: '{' :: (('?' :: name ++ ':' :: body.print) ++ '}' :: rest.print)
  | ifUndefined name body rest =>
    '%' :: '{' :: (('!' :: '?' :: name ++ ':' :: body.print) ++ '}' :: rest.print)

/-- What an expression stands for. -/
def denote (env : Environment) : Expression → List Char
  | stop => []
  | text chars rest => chars ++ rest.denote env
  | plain name rest => (env name).getD ('%' :: '{' :: name ++ ['}']) ++ rest.denote env
  | bare name rest => (env name).getD ('%' :: name) ++ rest.denote env
  | optional name rest => (env name).getD [] ++ rest.denote env
  | negated _ rest => rest.denote env
  | empty rest => rest.denote env
  | ifDefined name body rest =>
    (if (env name).isSome then body.denote env else []) ++ rest.denote env
  | ifUndefined name body rest =>
    (if (env name).isSome then [] else body.denote env) ++ rest.denote env

/-- A text without braces. -/
def BraceFree (chars : List Char) : Prop := '{' ∉ chars ∧ '}' ∉ chars

instance (chars : List Char) : Decidable (BraceFree chars) :=
  inferInstanceAs (Decidable (_ ∧ _))

/-- A name that braces alone turn into a reference to its definition. -/
def IsPlainName (name : List Char) : Prop :=
  name ≠ [] ∧ BraceFree name ∧ name ≠ ['n', 'i', 'l'] ∧ ¬ ['?'] <+: name ∧ ¬ ['!', '?'] <+: name

instance (name : List Char) : Decidable (IsPlainName name) :=
  inferInstanceAs (Decidable (_ ∧ _))

/-- A name that may stand behind the mark of a condition. -/
def IsConditionName (name : List Char) : Prop := BraceFree name ∧ ':' ∉ name

instance (name : List Char) : Decidable (IsConditionName name) :=
  inferInstanceAs (Decidable (_ ∧ _))

/-- A name that can be written without braces in front of a text. -/
def IsBareName (name next : List Char) : Prop :=
  name ≠ [] ∧ (∀ c ∈ name, isNameChar c = true) ∧ ∀ c ∈ next.head?, isNameChar c = false

instance (name next : List Char) : Decidable (IsBareName name next) :=
  -- These look at the characters of the texts only, and not at all that there are.
  have : Decidable (∀ c ∈ name, isNameChar c = true) := List.decidableBAll _ _
  have : Decidable (∀ c ∈ next.head?, isNameChar c = false) := Option.decidableForallMem _
  inferInstanceAs (Decidable (_ ∧ _ ∧ _))

/-- Whether every part of an expression can be told apart once it is written. -/
def WellFormed : Expression → Prop
  | stop => True
  | text chars rest => ('%' ∉ chars ∧ BraceFree chars) ∧ rest.WellFormed
  | plain name rest => IsPlainName name ∧ rest.WellFormed
  | bare name rest => IsBareName name rest.print ∧ rest.WellFormed
  | optional name rest => IsConditionName name ∧ rest.WellFormed
  | negated name rest => IsConditionName name ∧ rest.WellFormed
  | empty rest => rest.WellFormed
  | ifDefined name body rest => IsConditionName name ∧ body.WellFormed ∧ rest.WellFormed
  | ifUndefined name body rest => IsConditionName name ∧ body.WellFormed ∧ rest.WellFormed

/-- Whether an expression is well-formed can be computed. -/
instance decidableWellFormed : (e : Expression) → Decidable e.WellFormed
  | stop => inferInstanceAs (Decidable True)
  | text _ rest | plain _ rest | bare _ rest | optional _ rest | negated _ rest =>
    have := decidableWellFormed rest
    inferInstanceAs (Decidable (_ ∧ _))
  | empty rest => decidableWellFormed rest
  | ifDefined _ body rest | ifUndefined _ body rest =>
    have := decidableWellFormed body
    have := decidableWellFormed rest
    inferInstanceAs (Decidable (_ ∧ _ ∧ _))

end Expression

/-! ## Bodies in braces -/

namespace Reference

/-- A text in braces without the marks of another reference is a plain one. -/
theorem ofBody_eq_plain {body : List Char} (hnil : body ≠ ['n', 'i', 'l']) (hone : ¬ ['?'] <+: body)
    (htwo : ¬ ['!', '?'] <+: body) : ofBody body = plain body := by
  unfold ofBody
  split
  · exact absurd ⟨_, rfl⟩ htwo
  · exact absurd ⟨_, rfl⟩ hone
  · rw [if_neg hnil]

/-- A plain name is read as a plain reference. -/
theorem ofBody_plain {name : List Char} (h : Expression.IsPlainName name) :
    ofBody name = plain name :=
  ofBody_eq_plain h.2.2.1 h.2.2.2.1 h.2.2.2.2

/-- A name behind a question mark is read as an optional reference. -/
theorem ofBody_optional {name : List Char} (h : ':' ∉ name) :
    ofBody ('?' :: name) = optional name := by
  simp only [ofBody, splitColon_eq_none h]

/-- A name behind a negation, without a text, comes to nothing. -/
theorem ofBody_negated {name : List Char} (h : ':' ∉ name) :
    ofBody ('!' :: '?' :: name) = empty := by
  simp only [ofBody, splitColon_eq_none h]

/-- A condition with a text is read as what stands if the name is defined. -/
theorem ofBody_ifDefined {name : List Char} (h : ':' ∉ name) (text : List Char) :
    ofBody ('?' :: name ++ ':' :: text) = ifDefined name text := by
  simp only [ofBody, List.cons_append, splitColon_eq_some_iff.2 ⟨rfl, h⟩]

/-- A negated condition with a text is read as what stands if the name is not defined. -/
theorem ofBody_ifUndefined {name : List Char} (h : ':' ∉ name) (text : List Char) :
    ofBody ('!' :: '?' :: name ++ ':' :: text) = ifUndefined name text := by
  simp only [ofBody, List.cons_append, splitColon_eq_some_iff.2 ⟨rfl, h⟩]

end Reference

namespace Expression

/-- A condition is balanced. -/
theorem balanced_condition (mark : List Char) {name : List Char} (hmark : BraceFree mark)
    (hname : IsConditionName name) : Balanced (mark ++ name) :=
  (balanced_of_no_brace hmark.1 hmark.2).append (balanced_of_no_brace hname.1.1 hname.1.2)

/-- A condition with a balanced text is balanced. -/
theorem balanced_conditional (mark : List Char) {name text : List Char} (hmark : BraceFree mark)
    (hname : IsConditionName name) (htext : Balanced text) :
    Balanced (mark ++ name ++ ':' :: text) := by
  have hcolon : Balanced [':'] := balanced_of_no_brace (by decide) (by decide)
  have h := (balanced_condition mark hmark hname).append (hcolon.append htext)
  simpa using h

/-- A reference with a balanced body in front of a balanced text is balanced. -/
theorem balanced_reference {body rest : List Char} (hbody : Balanced body) (hrest : Balanced rest) :
    Balanced ('%' :: '{' :: (body ++ '}' :: rest)) := by
  have hpercent : Balanced ['%'] := balanced_of_no_brace (by decide) (by decide)
  have h := hpercent.append (hbody.enclose.append hrest)
  simpa using h

/-- What is written for an expression leaves no brace open. -/
theorem balanced_print {e : Expression} (h : e.WellFormed) : Balanced e.print := by
  -- on the expression; a name in front of a text must not bring a brace with it
  induction e with
  | stop => exact balanced_nil
  | text chars rest ih => exact (balanced_of_no_brace h.1.2.1 h.1.2.2).append (ih h.2)
  | plain name rest ih =>
    exact balanced_reference (balanced_of_no_brace h.1.2.1.1 h.1.2.1.2) (ih h.2)
  | bare name rest ih =>
    have hopen : '{' ∉ '%' :: name := by
      intro hmem
      rcases List.mem_cons.1 hmem with heq | hmem
      · exact absurd heq (by decide)
      · exact absurd (h.1.2.1 _ hmem) (by decide)
    have hclose : '}' ∉ '%' :: name := by
      intro hmem
      rcases List.mem_cons.1 hmem with heq | hmem
      · exact absurd heq (by decide)
      · exact absurd (h.1.2.1 _ hmem) (by decide)
    exact (balanced_of_no_brace hopen hclose).append (ih h.2)
  | optional name rest ih =>
    exact balanced_reference (balanced_condition ['?'] (by decide) h.1) (ih h.2)
  | negated name rest ih =>
    exact balanced_reference (balanced_condition ['!', '?'] (by decide) h.1) (ih h.2)
  | empty rest ih =>
    exact balanced_reference (balanced_of_no_brace (by decide) (by decide)) (ih h)
  | ifDefined name body rest ihBody ih =>
    exact balanced_reference
      (balanced_conditional ['?'] (by decide) h.1 (ihBody h.2.1)) (ih h.2.2)
  | ifUndefined name body rest ihBody ih =>
    exact balanced_reference
      (balanced_conditional ['!', '?'] (by decide) h.1 (ihBody h.2.1)) (ih h.2.2)

/-! ## Expansion reads back what printing writes -/

/-- A reference with a balanced body is replaced, and what is behind it is expanded. -/
theorem expand_reference {body rest : List Char} (env : Environment) (h : Balanced body) :
    expand env ('%' :: '{' :: (body ++ '}' :: rest)) =
      (Reference.ofBody body).replacement env body ++ expand env rest :=
  expand_braced env (h.braced_eq rest)

/-- A printed name without braces is replaced by its definition. -/
theorem expand_bare {name rest : List Char} (env : Environment) (h : IsBareName name rest) :
    expand env ('%' :: (name ++ rest)) = (env name).getD ('%' :: name) ++ expand env rest := by
  obtain ⟨hne, hname, hnext⟩ := h
  have htake : (name ++ rest).takeWhile isNameChar = name := by
    rw [List.takeWhile_append_of_pos hname]
    cases rest with
    | nil => simp
    | cons c rest => simp [hnext c rfl]
  have hdrop : (name ++ rest).dropWhile isNameChar = rest := by
    rw [List.dropWhile_append_of_pos hname]
    cases rest with
    | nil => simp
    | cons c rest => simp [hnext c rfl]
  have hbraced : braced (name ++ rest) = none := by
    cases name with
    | nil => exact absurd rfl hne
    | cons c name =>
      have hc : c ≠ '{' := by
        rintro rfl
        exact absurd (hname '{' List.mem_cons_self) (by decide)
      simp only [braced, List.cons_append]
      split
      · rename_i heq
        exact absurd (List.cons.inj heq).1 hc
      · rfl
  rw [expand_name env hbraced, htake, hdrop, definition, if_neg (by simpa using hne)]

/-- Expanding a printed expression gives its denotation. -/
theorem expand_print (env : Environment) {e : Expression} (h : e.WellFormed) :
    expand env e.print = e.denote env := by
  -- on the expression; what is printed for a part is balanced, so that its end is found
  induction e with
  | stop => exact expand_nil env
  | text chars rest ih => rw [print, expand_append env _ h.1.1, ih h.2, denote]
  | plain name rest ih =>
    rw [print, expand_reference env (balanced_of_no_brace h.1.2.1.1 h.1.2.1.2),
      Reference.ofBody_plain h.1, ih h.2]
    rfl
  | bare name rest ih => rw [print, expand_bare env h.1, ih h.2, denote]
  | optional name rest ih =>
    have hbody : Balanced ('?' :: name) := balanced_condition ['?'] (by decide) h.1
    rw [print, expand_reference env hbody,
      Reference.ofBody_optional h.1.2, ih h.2]
    rfl
  | negated name rest ih =>
    have hbody : Balanced ('!' :: '?' :: name) := balanced_condition ['!', '?'] (by decide) h.1
    rw [print, expand_reference env hbody,
      Reference.ofBody_negated h.1.2, ih h.2]
    rfl
  | empty rest ih =>
    rw [print, expand_reference env (balanced_of_no_brace (by decide) (by decide)), ih h]
    rfl
  | ifDefined name body rest ihBody ih =>
    have hbody : Balanced ('?' :: name ++ ':' :: body.print) :=
      balanced_conditional ['?'] (by decide) h.1 (balanced_print h.2.1)
    rw [print, expand_reference env hbody, Reference.ofBody_ifDefined h.1.2, ih h.2.2,
      Reference.replacement, ihBody h.2.1, denote]
  | ifUndefined name body rest ihBody ih =>
    have hbody : Balanced ('!' :: '?' :: name ++ ':' :: body.print) :=
      balanced_conditional ['!', '?'] (by decide) h.1 (balanced_print h.2.1)
    rw [print, expand_reference env hbody, Reference.ofBody_ifUndefined h.1.2, ih h.2.2,
      Reference.replacement, ihBody h.2.1, denote]

/-- A conditional text within a conditional text, between names without braces; the definition that
is inserted ends in what would be a reference. -/
theorem expand_print_nested :
    let env : Environment := fun name => if name = ['v'] then some ['1', '%', 'v'] else none
    let e : Expression :=
      .bare ['v'] (.text ['-'] (.ifDefined ['v']
        (.text ['a', ':'] (.ifUndefined ['w'] (.plain ['v'] (.bare ['w'] .stop)) .stop)) .stop))
    (e.WellFormed ∧ e.print = "%v-%{?v:a:%{!?w:%{v}%w}}".toList) ∧
      expand env e.print = "1%v-a:1%v%w".toList := by
  intro env e
  have hform : e.WellFormed := by decide
  have hdenote : e.denote env = "1%v-a:1%v%w".toList := rfl
  exact ⟨⟨hform, by decide⟩, (expand_print env hform).trans hdenote⟩

end Expression

end RpmRelease.Macros
