import RpmRelease.Descriptor
import RpmRelease.Proofs.Macros.Expansion
import Mathlib.Data.List.Induction
import Mathlib.Tactic.Common

/-!
# What a preamble means

A line of a descriptor *defines* a macro or *declares* a field.  What the lines above a line mean to
it is its environment: a macro has the value that the last definition above gives it, and a field
that no definition names has the value that it was first declared with.  Each value was expanded in
the environment of the line that it stands in.

These rules make up the main result.  It follows that a definition takes the place of a declared
field of the same name wherever the two stand, and that nothing below the declaration of a field
changes the value of that field.
-/

set_option autoImplicit false

namespace RpmRelease

/-- A text has a beginning and a rest exactly if it is put together from the two. -/
theorem Text.after?_eq_some_iff {start : String} {cs rest : List Char} :
    Text.after? start cs = some rest ↔ cs = start.toList ++ rest := by
  unfold Text.after?
  constructor
  · intro h
    split at h
    · rename_i hstart
      obtain ⟨tail, rfl⟩ := List.isPrefixOf_iff_prefix.1 hstart
      simp only [List.drop_left, Option.some.injEq] at h
      rw [h]
    · simp at h
  · rintro rfl
    rw [if_pos (List.isPrefixOf_iff_prefix.2 (List.prefix_append _ _)), List.drop_left]

namespace Descriptor

/-! ## What a line says -/

/-- The words that begin the definition of a macro. -/
def directives : List String := ["%define", "%global"]

/-- The line begins with a directive. -/
def IsDirective (line : List Char) : Prop :=
  ∃ directive ∈ directives, directive.toList <+: Text.trim line

/-- The line gives a macro a value: the two first words behind the directive. -/
def Defines (line key value : List Char) : Prop :=
  ∃ directive ∈ directives, ∃ rest more,
    Text.trim line = directive.toList ++ rest ∧ Text.words rest = key :: value :: more

/-- The line names a field in front of its first colon, whatever the case of the letters, and
`rest` stands behind the colon. -/
def Names (line : List Char) (field : Field) (rest : List Char) : Prop :=
  ¬ IsDirective line ∧ ∃ key, Text.trim line = key ++ ':' :: rest ∧ ':' ∉ key ∧
    (Text.trim key).map Char.toLower = field.label.toList

/-- The line gives a field a value: the first word behind the colon. -/
def Declares (line : List Char) (field : Field) (value : List Char) : Prop :=
  ∃ rest more, Names line field rest ∧ Text.words rest = value :: more

/-- A line declares a field if it names the field and anything that is not blank stands behind the
colon. -/
theorem exists_declares_iff {line : List Char} {field : Field} :
    (∃ value, Declares line field value) ↔
      ∃ rest, Names line field rest ∧ ∃ c ∈ rest, Text.isBlank c = false := by
  constructor
  · rintro ⟨value, rest, more, hnames, hwords⟩
    refine ⟨rest, hnames, ?_⟩
    by_contra hblank
    have hnil : Text.words rest = [] := by
      rw [Text.words_eq_nil_iff]
      intro c hc
      by_contra h
      exact hblank ⟨c, hc, by simpa using h⟩
    simp [hnil] at hwords
  · rintro ⟨rest, hnames, c, hc, hblank⟩
    cases hwords : Text.words rest with
    | nil => simp [Text.words_eq_nil_iff.1 hwords c hc] at hblank
    | cons value more => exact ⟨value, rest, more, hnames, hwords⟩

namespace Line

/-- What stands behind the directive of a line, if the line has one. -/
def directiveRest? (line : List Char) : Option (List Char) :=
  (Text.after? "%define" line).or (Text.after? "%global" line)

/-- A text stands behind the directive of a line exactly if the line is put together from the
two. -/
theorem directiveRest?_eq_some_iff {line rest : List Char} :
    directiveRest? line = some rest ↔ ∃ directive ∈ directives, line = directive.toList ++ rest := by
  unfold directiveRest?
  rw [Option.or_eq_some_iff, Text.after?_eq_some_iff, Text.after?_eq_some_iff]
  constructor
  · rintro (h | ⟨-, h⟩)
    · exact ⟨"%define", by simp [directives], h⟩
    · exact ⟨"%global", by simp [directives], h⟩
  · rintro ⟨directive, hmem, h⟩
    simp only [directives, List.mem_cons, List.not_mem_nil, or_false] at hmem
    rcases hmem with rfl | rfl
    · exact Or.inl h
    · refine Or.inr ⟨?_, h⟩
      subst h
      rfl

/-- Just those lines have nothing behind a directive that do not begin with one. -/
theorem directiveRest?_eq_none_iff {line : List Char} :
    directiveRest? (Text.trim line) = none ↔ ¬ IsDirective line := by
  rw [← Option.not_isSome_iff_eq_none, not_iff_not]
  constructor
  · intro h
    obtain ⟨rest, hrest⟩ := Option.isSome_iff_exists.1 h
    obtain ⟨directive, hmem, heq⟩ := directiveRest?_eq_some_iff.1 hrest
    exact ⟨directive, hmem, heq ▸ List.prefix_append _ _⟩
  · rintro ⟨directive, hmem, rest, heq⟩
    exact Option.isSome_iff_exists.2 ⟨rest, directiveRest?_eq_some_iff.2 ⟨directive, hmem, heq.symm⟩⟩

/-- What stands behind a directive declares no field. -/
theorem ofDirective_ne_declaration (rest : List Char) (field : Field) (value : List Char) :
    ofDirective rest ≠ declaration field value := by
  unfold ofDirective
  split <;> simp

/-- What stands behind a directive defines a macro when it has at least two words: the name and the
value. -/
theorem ofDirective_eq_definition_iff {rest key value : List Char} :
    ofDirective rest = definition key value ↔ ∃ more, Text.words rest = key :: value :: more := by
  unfold ofDirective
  constructor
  · intro h
    split at h
    · rename_i key' value' more hwords
      obtain ⟨rfl, rfl⟩ : key' = key ∧ value' = value := by simpa using h
      exact ⟨more, hwords⟩
    · simp at h
  · rintro ⟨more, hwords⟩
    simp only [hwords]

/-- A text denotes a field when it is the label of the field in letters of whatever case. -/
theorem ofText?_eq_some_iff {text : List Char} {field : Field} :
    Field.ofText? text = some field ↔ text.map Char.toLower = field.label.toList := by
  unfold Field.ofText?
  constructor
  · intro h
    have hlabel := List.find?_some h
    exact (beq_iff_eq.1 hlabel).symm
  · intro h
    rw [h]
    cases field <;> rfl

/-- A line without a directive declares a field under the two conditions of a declaration. -/
theorem ofDeclaration_eq_declaration_iff {line : List Char} {field : Field} {value : List Char} :
    ofDeclaration line = declaration field value ↔
      ∃ key rest more, line = key ++ ':' :: rest ∧ ':' ∉ key ∧
        (Text.trim key).map Char.toLower = field.label.toList ∧
        Text.words rest = value :: more := by
  constructor
  · intro h
    unfold ofDeclaration at h
    split at h
    · simp at h
    · rename_i key rest hsplit
      split at h
      · rename_i field' value' more hfield hwords
        obtain ⟨rfl, rfl⟩ : field' = field ∧ value' = value := by simpa using h
        obtain ⟨hline, hkey⟩ := Macros.splitColon_eq_some_iff.1 hsplit
        exact ⟨key, rest, more, hline, hkey, ofText?_eq_some_iff.1 hfield, hwords⟩
      · simp at h
  · rintro ⟨key, rest, more, hline, hkey, hlabel, hwords⟩
    simp only [ofDeclaration, Macros.splitColon_eq_some_iff.2 ⟨hline, hkey⟩,
      ofText?_eq_some_iff.2 hlabel, hwords]

/-- What stands outside a directive defines no macro. -/
theorem ofDeclaration_ne_definition (line key value : List Char) :
    ofDeclaration line ≠ definition key value := by
  unfold ofDeclaration
  split
  · simp
  · split <;> simp

/-- A line with a directive is read by what stands behind it. -/
theorem ofText_of_directive {line rest : List Char}
    (h : directiveRest? (Text.trim line) = some rest) : ofText line = ofDirective rest := by
  simp only [ofText, directiveRest?] at h ⊢
  rw [h]

/-- A line without a directive is read as a declaration. -/
theorem ofText_of_no_directive {line : List Char} (h : directiveRest? (Text.trim line) = none) :
    ofText line = ofDeclaration (Text.trim line) := by
  simp only [ofText, directiveRest?] at h ⊢
  rw [h]

/-- A line is read as the definition of a macro exactly if it defines the macro. -/
theorem ofText_eq_definition_iff {line key value : List Char} :
    ofText line = definition key value ↔ Defines line key value := by
  unfold Defines
  cases h : directiveRest? (Text.trim line) with
  | some rest =>
    rw [ofText_of_directive h, ofDirective_eq_definition_iff]
    constructor
    · rintro ⟨more, hwords⟩
      obtain ⟨directive, hmem, heq⟩ := directiveRest?_eq_some_iff.1 h
      exact ⟨directive, hmem, rest, more, heq, hwords⟩
    · rintro ⟨directive, hmem, rest', more, heq, hwords⟩
      have hrest := directiveRest?_eq_some_iff.2 ⟨directive, hmem, heq⟩
      rw [h] at hrest
      exact ⟨more, Option.some.inj hrest ▸ hwords⟩
  | none =>
    rw [ofText_of_no_directive h]
    constructor
    · intro hdef
      exact absurd hdef (ofDeclaration_ne_definition _ _ _)
    · rintro ⟨directive, hmem, rest, more, heq, -⟩
      have hrest := directiveRest?_eq_some_iff.2 ⟨directive, hmem, heq⟩
      simp [h] at hrest

/-- A line is read as the declaration of a field exactly if it declares the field. -/
theorem ofText_eq_declaration_iff {line : List Char} {field : Field} {value : List Char} :
    ofText line = declaration field value ↔ Declares line field value := by
  unfold Declares Names
  cases h : directiveRest? (Text.trim line) with
  | some rest =>
    rw [ofText_of_directive h]
    constructor
    · intro hdecl
      exact absurd hdecl (ofDirective_ne_declaration _ _ _)
    · rintro ⟨rest', more, ⟨hnot, -⟩, -⟩
      have hnone := directiveRest?_eq_none_iff.2 hnot
      simp [h] at hnone
  | none =>
    rw [ofText_of_no_directive h, ofDeclaration_eq_declaration_iff]
    constructor
    · rintro ⟨key, rest, more, hline, hkey, hlabel, hwords⟩
      exact ⟨rest, more, ⟨directiveRest?_eq_none_iff.1 h, key, hline, hkey, hlabel⟩, hwords⟩
    · rintro ⟨rest, more, ⟨-, key, hline, hkey, hlabel⟩, hwords⟩
      exact ⟨key, rest, more, hline, hkey, hlabel, hwords⟩

end Line

/-! ## What lines mean together -/

/-- What lines define and declare, read from the first to the last. -/
def Preamble.ofLines (lines : List (List Char)) : Preamble :=
  (lines.map Line.ofText).foldl Preamble.step {}

/-- What macro names mean in the line below some lines. -/
def environmentBelow (lines : List (List Char)) : Macros.Environment :=
  (Preamble.ofLines lines).environment

/-- The line defines a macro, with whatever value. -/
def DefinesSome (line key : List Char) : Prop := ∃ value, Defines line key value

/-- The line declares a field, with whatever value. -/
def DeclaresSome (line : List Char) (field : Field) : Prop := ∃ value, Declares line field value

/-- The last of some lines to define a macro gives it a value, expanded as that line has it. -/
def LastDefined (lines : List (List Char)) (key value : List Char) : Prop :=
  ∃ before line after word, lines = before ++ line :: after ∧ Defines line key word ∧
    (∀ l ∈ after, ¬ DefinesSome l key) ∧ value = Macros.expand (environmentBelow before) word

/-- The first of some lines to declare a field gives it a value, expanded as that line has it. -/
def FirstDeclared (lines : List (List Char)) (field : Field) (value : List Char) : Prop :=
  ∃ before line after word, lines = before ++ line :: after ∧ Declares line field word ∧
    (∀ l ∈ before, ¬ DeclaresSome l field) ∧ value = Macros.expand (environmentBelow before) word

namespace Preamble

/-- Reading one line more is one more step. -/
theorem ofLines_concat (lines : List (List Char)) (line : List Char) :
    ofLines (lines ++ [line]) = (ofLines lines).step (Line.ofText line) := by
  simp [ofLines]

/-- Setting one field leaves the others. -/
theorem get_set (p : Preamble) (field other : Field) (value : List Char) :
    (p.set field value).get other = if other = field then some value else p.get other := by
  cases field <;> cases other <;> rfl

/-- Setting a field leaves the definitions. -/
@[simp] theorem definitions_set (p : Preamble) (field : Field) (value : List Char) :
    (p.set field value).definitions = p.definitions := by
  cases field <;> rfl

/-- A definition comes before those above it. -/
theorem lookup_step_definition (p : Preamble) (key value name : List Char) :
    (p.step (.definition key value)).definitions.lookup name =
      if name = key then some (Macros.expand p.environment value)
      else p.definitions.lookup name := by
  by_cases h : name = key
  · simp [step, h]
  · have hne : (name == key) = false := beq_eq_false_iff_ne.2 h
    simp [step, List.lookup_cons, hne, h]

/-- A declaration counts for a field that has no value yet, and is expanded as macros stand there. -/
theorem step_declaration (p : Preamble) (field : Field) (value : List Char) :
    p.step (.declaration field value) =
      if (p.get field).isSome then p else p.set field (Macros.expand p.environment value) :=
  rfl

/-- Only definitions change the definitions. -/
theorem definitions_step_of_ne (p : Preamble) {line : Line}
    (h : ∀ key value, line ≠ .definition key value) : (p.step line).definitions = p.definitions := by
  cases line with
  | definition key value => exact absurd rfl (h key value)
  | declaration field value =>
    rw [step_declaration]
    split
    · rfl
    · exact definitions_set ..
  | other => rfl

/-- A declaration gives its field a value unless the field has one. -/
theorem get_step_declaration (p : Preamble) (field other : Field) (value : List Char) :
    (p.step (.declaration field value)).get other =
      if other = field then
        (p.get field).or (some (Macros.expand p.environment value))
      else p.get other := by
  rw [step_declaration]
  cases h : p.get field with
  | none =>
    simp only [Option.isSome_none, Bool.false_eq_true, if_false, get_set, Option.none_or]
  | some old =>
    by_cases hother : other = field
    · simp [hother, h]
    · simp [hother]

/-- A line that declares no field leaves the fields as they are. -/
theorem get_step_of_ne (p : Preamble) {line : Line} (field : Field)
    (h : ∀ value, line ≠ .declaration field value) : (p.step line).get field = p.get field := by
  cases line with
  | definition key value => cases field <;> rfl
  | declaration other value =>
    have hne : field ≠ other := by
      rintro rfl
      exact h value rfl
    rw [get_step_declaration, if_neg hne]
  | other => rfl

/-- Without a definition above, a macro is not among the definitions. -/
theorem lookup_eq_none {lines : List (List Char)} {key : List Char}
    (h : ∀ line ∈ lines, ¬ DefinesSome line key) :
    (ofLines lines).definitions.lookup key = none := by
  induction lines using List.reverseRecOn with
  | nil => rfl
  | append_singleton lines line ih =>
    have hlines := ih fun l hl => h l (List.mem_append_left _ hl)
    have hline : ¬ DefinesSome line key := h line (by simp)
    rw [ofLines_concat]
    cases hread : Line.ofText line with
    | definition name value =>
      have hne : key ≠ name := by
        rintro rfl
        exact hline ⟨value, Line.ofText_eq_definition_iff.1 hread⟩
      rw [lookup_step_definition, if_neg hne, hlines]
    | declaration field value => rw [definitions_step_of_ne _ (by simp), hlines]
    | other => rw [definitions_step_of_ne _ (by simp), hlines]

/-- The last definition above counts, expanded as its own line has it. -/
theorem lookup_eq_some {before after : List (List Char)} {line key value : List Char}
    (hline : Defines line key value) (hafter : ∀ l ∈ after, ¬ DefinesSome l key) :
    (ofLines (before ++ line :: after)).definitions.lookup key =
      some (Macros.expand (environmentBelow before) value) := by
  induction after using List.reverseRecOn with
  | nil =>
    rw [ofLines_concat, Line.ofText_eq_definition_iff.2 hline, lookup_step_definition, if_pos rfl]
    rfl
  | append_singleton after last ih =>
    have hsome := ih fun l hl => hafter l (List.mem_append_left _ hl)
    have hlast : ¬ DefinesSome last key := hafter last (by simp)
    rw [← List.cons_append, ← List.append_assoc, ofLines_concat]
    cases hread : Line.ofText last with
    | definition name value' =>
      have hne : key ≠ name := by
        rintro rfl
        exact hlast ⟨value', Line.ofText_eq_definition_iff.1 hread⟩
      rw [lookup_step_definition, if_neg hne, hsome]
    | declaration field value' => rw [definitions_step_of_ne _ (by simp), hsome]
    | other => rw [definitions_step_of_ne _ (by simp), hsome]

/-- A field that no line declares has no value. -/
theorem get_eq_none {lines : List (List Char)} {field : Field}
    (h : ∀ line ∈ lines, ¬ DeclaresSome line field) : (ofLines lines).get field = none := by
  induction lines using List.reverseRecOn with
  | nil => cases field <;> rfl
  | append_singleton lines line ih =>
    have hlines := ih fun l hl => h l (List.mem_append_left _ hl)
    have hline : ¬ DeclaresSome line field := h line (by simp)
    rw [ofLines_concat, get_step_of_ne, hlines]
    intro value hread
    exact hline ⟨value, Line.ofText_eq_declaration_iff.1 hread⟩

/-- A field keeps the value that it has. -/
theorem get_append {lines : List (List Char)} {field : Field} {value : List Char}
    (h : (ofLines lines).get field = some value) (below : List (List Char)) :
    (ofLines (lines ++ below)).get field = some value := by
  induction below using List.reverseRecOn with
  | nil => rwa [List.append_nil]
  | append_singleton below line ih =>
    rw [← List.append_assoc, ofLines_concat]
    cases hread : Line.ofText line with
    | definition key value' => rw [get_step_of_ne _ _ (by simp), ih]
    | declaration other value' =>
      rw [get_step_declaration]
      by_cases hother : field = other
      · subst hother
        rw [if_pos rfl, ih, Option.some_or]
      · rw [if_neg hother, ih]
    | other => rw [get_step_of_ne _ _ (by simp), ih]

/-- A field has the value that the first line to declare it gives to it, whatever comes later. -/
theorem get_eq_some {before : List (List Char)} {line : List Char} {field : Field}
    {value : List Char} (hline : Declares line field value)
    (hbefore : ∀ l ∈ before, ¬ DeclaresSome l field) (after : List (List Char)) :
    (ofLines (before ++ line :: after)).get field =
      some (Macros.expand (environmentBelow before) value) := by
  have hfirst : (ofLines (before ++ [line])).get field =
      some (Macros.expand (environmentBelow before) value) := by
    rw [ofLines_concat, Line.ofText_eq_declaration_iff.2 hline, get_step_declaration, if_pos rfl,
      get_eq_none hbefore, Option.none_or]
    rfl
  have hall := get_append hfirst after
  rwa [List.append_assoc, List.singleton_append] at hall

/-- The label of a field names its value. -/
theorem declared_label (p : Preamble) (field : Field) :
    p.declared field.label.toList = p.get field := by
  cases field <;> rfl

/-- A name that is no label names no field. -/
theorem declared_eq_none (p : Preamble) {key : List Char}
    (h : ∀ field : Field, key ≠ field.label.toList) : p.declared key = none := by
  have hfind : ([Field.name, .version, .release].find? fun field : Field =>
      field.label.toList == key) = none := by
    rw [List.find?_eq_none]
    intro field _ hlabel
    exact h field (beq_iff_eq.1 hlabel).symm
  rw [declared, hfind, Option.bind_none]

end Preamble

/-- A list with an element of some sort is cut at the first of them. -/
theorem exists_first {α : Type} {p : α → Prop} {xs : List α} (h : ∃ x ∈ xs, p x) :
    ∃ before x after, xs = before ++ x :: after ∧ p x ∧ ∀ y ∈ before, ¬ p y := by
  induction xs with
  | nil => simp at h
  | cons a xs ih =>
    by_cases ha : p a
    · exact ⟨[], a, xs, rfl, ha, by simp⟩
    · obtain ⟨x, hmem, hx⟩ := h
      have hx' : x ∈ xs := by
        rcases List.mem_cons.1 hmem with rfl | hmem
        · exact absurd hx ha
        · exact hmem
      obtain ⟨before, y, after, rfl, hy, hbefore⟩ := ih ⟨x, hx', hx⟩
      refine ⟨a :: before, y, after, rfl, hy, ?_⟩
      simpa [ha] using hbefore

/-- Among the elements with a property there is a last one. -/
theorem exists_last {α : Type} {p : α → Prop} {xs : List α} (h : ∃ x ∈ xs, p x) :
    ∃ before x after, xs = before ++ x :: after ∧ p x ∧ ∀ y ∈ after, ¬ p y := by
  have hreverse : ∃ x ∈ xs.reverse, p x := by simpa using h
  obtain ⟨before, x, after, heq, hx, hbefore⟩ := exists_first hreverse
  refine ⟨after.reverse, x, before.reverse, ?_, hx, by simpa using hbefore⟩
  have := congrArg List.reverse heq
  simpa using this

/-- A macro has the value of its last definition among the lines, if there is one. -/
theorem lookup_eq_some_iff {lines : List (List Char)} {key value : List Char} :
    (Preamble.ofLines lines).definitions.lookup key = some value ↔
      LastDefined lines key value := by
  constructor
  · intro h
    by_cases hdef : ∃ line ∈ lines, DefinesSome line key
    · obtain ⟨before, line, after, rfl, ⟨word, hword⟩, hafter⟩ := exists_last hdef
      rw [Preamble.lookup_eq_some hword hafter] at h
      exact ⟨before, line, after, word, rfl, hword, hafter, (Option.some.inj h).symm⟩
    · push Not at hdef
      simp [Preamble.lookup_eq_none hdef] at h
  · rintro ⟨before, line, after, word, rfl, hword, hafter, rfl⟩
    exact Preamble.lookup_eq_some hword hafter

/-- The value of a field is the one that the first line to declare it gives to it. -/
theorem get_eq_some_iff {lines : List (List Char)} {field : Field} {value : List Char} :
    (Preamble.ofLines lines).get field = some value ↔ FirstDeclared lines field value := by
  constructor
  · intro h
    by_cases hdecl : ∃ line ∈ lines, DeclaresSome line field
    · obtain ⟨before, line, after, rfl, ⟨word, hword⟩, hbefore⟩ := exists_first hdecl
      rw [Preamble.get_eq_some hword hbefore after] at h
      exact ⟨before, line, after, word, rfl, hword, hbefore, (Option.some.inj h).symm⟩
    · push Not at hdecl
      simp [Preamble.get_eq_none hdecl] at h
  · rintro ⟨before, line, after, word, rfl, hword, hbefore, rfl⟩
    exact Preamble.get_eq_some hword hbefore after

/-- A field has a value exactly if some line declares it. -/
theorem isSome_get_iff {lines : List (List Char)} {field : Field} :
    ((Preamble.ofLines lines).get field).isSome ↔ ∃ line ∈ lines, DeclaresSome line field := by
  constructor
  · intro h
    obtain ⟨value, hvalue⟩ := Option.isSome_iff_exists.1 h
    obtain ⟨before, line, after, word, rfl, hword, -, -⟩ := get_eq_some_iff.1 hvalue
    exact ⟨line, by simp, word, hword⟩
  · intro h
    obtain ⟨before, line, after, rfl, ⟨word, hword⟩, hbefore⟩ := exists_first h
    rw [Preamble.get_eq_some hword hbefore after]
    rfl

/-- What a macro name means: its last definition, or else the field that it names. -/
theorem environmentBelow_eq_some_iff {lines : List (List Char)} {key value : List Char} :
    environmentBelow lines key = some value ↔
      LastDefined lines key value ∨
        (∀ line ∈ lines, ¬ DefinesSome line key) ∧
          ∃ field : Field, key = field.label.toList ∧ FirstDeclared lines field value := by
  have hnone : (Preamble.ofLines lines).definitions.lookup key = none ↔
      ∀ line ∈ lines, ¬ DefinesSome line key := by
    constructor
    · intro h
      by_contra hdef
      push Not at hdef
      obtain ⟨before, line, after, rfl, ⟨word, hword⟩, hafter⟩ := exists_last hdef
      simp [Preamble.lookup_eq_some hword hafter] at h
    · exact Preamble.lookup_eq_none
  have hdeclared : (Preamble.ofLines lines).declared key = some value ↔
      ∃ field : Field, key = field.label.toList ∧ FirstDeclared lines field value := by
    constructor
    · intro h
      by_cases hfield : ∃ field : Field, key = field.label.toList
      · obtain ⟨field, rfl⟩ := hfield
        rw [Preamble.declared_label, get_eq_some_iff] at h
        exact ⟨field, rfl, h⟩
      · push Not at hfield
        simp [Preamble.declared_eq_none _ hfield] at h
    · rintro ⟨field, rfl, h⟩
      rw [Preamble.declared_label, get_eq_some_iff]
      exact h
  rw [environmentBelow, Preamble.environment, Option.or_eq_some_iff, lookup_eq_some_iff, hnone,
    hdeclared]

/-- Every field has the value of its first declaration and every macro name the meaning that the
lines above give it; lines below a declaration do not matter to its field. -/
theorem scan_meaning :
    (∀ text field, ((Preamble.scan text).get field).isSome ↔ ∃ line ∈ Text.lines text,
      ∃ rest, Names line field rest ∧ ∃ c ∈ rest, Text.isBlank c = false) ∧
    (∀ text field value, (Preamble.scan text).get field = some value ↔
      FirstDeclared (Text.lines text) field value) ∧
    (∀ above key value, environmentBelow above key = some value ↔
      LastDefined above key value ∨
        (∀ line ∈ above, ¬ DefinesSome line key) ∧
          ∃ field : Field, key = field.label.toList ∧ FirstDeclared above field value) ∧
    (∀ above field value, FirstDeclared above field value →
      ∀ text below, Text.lines text = above ++ below →
        (Preamble.scan text).get field = some value) := by
  refine ⟨?_, fun text field value => get_eq_some_iff,
    fun above key value => environmentBelow_eq_some_iff, ?_⟩
  · intro text field
    have hsome : ((Preamble.scan text).get field).isSome ↔
        ∃ line ∈ Text.lines text, DeclaresSome line field := isSome_get_iff
    simp only [DeclaresSome, exists_declares_iff] at hsome
    exact hsome
  · intro above field value h text below hlines
    have hvalue := Preamble.get_append (get_eq_some_iff.2 h) below
    rw [← hlines] at hvalue
    exact hvalue

end Descriptor

end RpmRelease
