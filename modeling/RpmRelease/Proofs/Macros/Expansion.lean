import RpmRelease.Macros

/-!
# The equations of macro expansion

`expand` reads a value from left to right.  A character that is no percent sign stands for itself.
A percent sign begins a reference in braces if a brace follows and is closed, and otherwise a
reference to the longest name behind it, which may be empty.  There is one equation for each case;
everything else about expansion is derived from them.

A text without braces, and one whose braces pair up, is passed over by the search for the closing
brace: `Balanced` says so, and is kept by concatenation and by enclosing in braces.

`value_induction` is the induction that expansion follows: on what stands behind a character or a
reference, and on the text of a condition.
-/

set_option autoImplicit false

namespace RpmRelease.Macros

/-! ## Reading a value from left to right -/

/-- Expanding an empty text gives one. -/
@[simp] theorem expand_nil (env : Environment) : expand env [] = [] := by
  rw [expand]

/-- A character that is no percent sign stays. -/
theorem expand_cons {c : Char} (env : Environment) (after : List Char) (hc : c ≠ '%') :
    expand env (c :: after) = c :: expand env after := by
  rw [expand, if_neg hc]

/-- A text without percent signs stays, in front of whatever is expanded behind it. -/
theorem expand_append {chars : List Char} (env : Environment) (after : List Char)
    (h : '%' ∉ chars) : expand env (chars ++ after) = chars ++ expand env after := by
  induction chars with
  | nil => rfl
  | cons c chars ih =>
    have hc : c ≠ '%' := fun hc => h (hc ▸ List.mem_cons_self)
    have hrest : '%' ∉ chars := fun hmem => h (List.mem_cons_of_mem _ hmem)
    rw [List.cons_append, expand_cons env _ hc, ih hrest, List.cons_append]

/-- What a reference in braces is replaced by; `body` is the text that wrote it. -/
def Reference.replacement (env : Environment) (body : List Char) : Reference → List Char
  | .plain name => (env name).getD ('%' :: '{' :: body ++ ['}'])
  | .empty => []
  | .optional name => (env name).getD []
  | .ifDefined name text => if (env name).isSome then expand env text else []
  | .ifUndefined name text => if (env name).isSome then [] else expand env text

/-- A reference in closed braces is replaced, and the text behind the closing brace is read on. -/
theorem expand_braced {after body rest : List Char} (env : Environment)
    (h : braced after = some (body, rest)) :
    expand env ('%' :: after) =
      (Reference.ofBody body).replacement env body ++ expand env rest := by
  rw [expand, if_pos rfl]
  split
  · rename_i body' rest' h'
    obtain ⟨rfl, rfl⟩ : body' = body ∧ rest' = rest := by
      simpa [h] using h'.symm
    dsimp only
    generalize Reference.ofBody body' = reference
    cases reference <;> rfl
  · rename_i h'
    simp [h] at h'

/-- The definition of a name behind a percent sign; the empty name has none. -/
def definition (env : Environment) (name : List Char) : Option (List Char) :=
  if name.isEmpty then none else env name

/-- A percent sign without braces takes the longest name behind it, which stays with it when it is not
defined. -/
theorem expand_name {after : List Char} (env : Environment) (h : braced after = none) :
    expand env ('%' :: after) =
      (definition env (after.takeWhile isNameChar)).getD ('%' :: after.takeWhile isNameChar) ++
        expand env (after.dropWhile isNameChar) := by
  rw [expand, if_pos rfl]
  split
  · rename_i h'
    simp [h] at h'
  · rfl

/-! ## Texts that the search for the closing brace passes over -/

/-- The search goes on behind a character that is no closing brace, one level deeper behind an
opening one. -/
theorem closeBrace_cons {c : Char} (depth : Nat) (text : List Char) (hc : c ≠ '}') :
    closeBrace depth (c :: text) =
      (closeBrace (if c = '{' then depth + 1 else depth) text).map fun (body, rest) =>
        (c :: body, rest) := by
  rw [closeBrace.eq_def]
  simp only [if_neg hc]

/-- A closing brace that has an opening one goes on with the search one level up. -/
theorem closeBrace_succ (depth : Nat) (text : List Char) :
    closeBrace (depth + 1) ('}' :: text) =
      (closeBrace depth text).map fun (body, rest) => ('}' :: body, rest) := by
  rw [closeBrace.eq_def]
  simp only [if_true]

/-- A closing brace without an opening one ends the search. -/
theorem closeBrace_zero (text : List Char) : closeBrace 0 ('}' :: text) = some ([], text) := by
  rw [closeBrace.eq_def]
  simp only [if_true]

/-- A text with all its braces paired: a search for a closing brace passes over it. -/
def Balanced (text : List Char) : Prop :=
  ∀ depth rest, closeBrace depth (text ++ rest) =
    (closeBrace depth rest).map fun (body, rest) => (text ++ body, rest)

/-- An empty text is balanced. -/
theorem balanced_nil : Balanced [] := by
  intro depth rest
  simp

/-- Balanced texts are balanced one after the other. -/
theorem Balanced.append {a b : List Char} (ha : Balanced a) (hb : Balanced b) :
    Balanced (a ++ b) := by
  intro depth rest
  rw [List.append_assoc, ha, hb, Option.map_map]
  simp only [Function.comp_def, List.append_assoc]

/-- A text without braces is balanced. -/
theorem balanced_of_no_brace {text : List Char} (ho : '{' ∉ text) (hc : '}' ∉ text) :
    Balanced text := by
  induction text with
  | nil => exact balanced_nil
  | cons c text ih =>
    simp only [List.mem_cons, not_or] at ho hc
    intro depth rest
    rw [List.cons_append, closeBrace_cons _ _ (Ne.symm hc.1), if_neg (Ne.symm ho.1),
      ih ho.2 hc.2, Option.map_map]
    rfl

/-- A balanced text in braces is balanced. -/
theorem Balanced.enclose {text : List Char} (h : Balanced text) :
    Balanced ('{' :: text ++ ['}']) := by
  intro depth rest
  have hopen : ('{' : Char) ≠ '}' := by decide
  rw [List.append_assoc, List.cons_append, closeBrace_cons _ _ hopen, if_pos rfl, h,
    List.singleton_append, closeBrace_succ, Option.map_map, Option.map_map]
  simp only [Function.comp_def, List.append_assoc, List.cons_append, List.nil_append]

/-- The brace behind a balanced text is the closing one. -/
theorem Balanced.closeBrace_eq {text : List Char} (h : Balanced text) (rest : List Char) :
    closeBrace 0 (text ++ '}' :: rest) = some (text, rest) := by
  rw [h, closeBrace_zero]
  simp

/-- A balanced text in braces is taken out of them. -/
theorem Balanced.braced_eq {body : List Char} (h : Balanced body) (rest : List Char) :
    braced ('{' :: (body ++ '}' :: rest)) = some (body, rest) :=
  h.closeBrace_eq rest

/-- What the search for a closing brace cuts off leaves the search for another one as it is, up to
the depth in which it was cut off. -/
theorem closeBrace_add {depth : Nat} {text body rest : List Char}
    (h : closeBrace depth text = some (body, rest)) (more : Nat) (after : List Char) :
    closeBrace (more + depth) (body ++ after) =
      (closeBrace more after).map fun (inner, outer) => (body ++ inner, outer) := by
  induction text generalizing depth body with
  | nil => simp [closeBrace] at h
  | cons c text ih =>
      by_cases hc : c = '}'
      · subst hc
        cases depth with
        | zero =>
            rw [closeBrace_zero, Option.some.injEq, Prod.mk.injEq] at h
            simp [← h.1]
        | succ depth =>
            rw [closeBrace_succ] at h
            obtain ⟨⟨inner, outer⟩, hcut, heq⟩ := Option.map_eq_some_iff.1 h
            obtain ⟨rfl, rfl⟩ := Prod.mk.inj heq
            rw [← Nat.add_assoc, List.cons_append, closeBrace_succ, ih hcut, Option.map_map]
            rfl
      · rw [closeBrace_cons _ _ hc] at h
        obtain ⟨⟨inner, outer⟩, hcut, heq⟩ := Option.map_eq_some_iff.1 h
        obtain ⟨rfl, rfl⟩ := Prod.mk.inj heq
        have hdepth : (if c = '{' then more + depth + 1 else more + depth) =
            more + if c = '{' then depth + 1 else depth := by
          split <;> rfl
        rw [List.cons_append, closeBrace_cons _ _ hc, hdepth, ih hcut, Option.map_map]
        rfl

/-- A reference in braces ends at the brace in front of which all braces are paired. -/
theorem braced_eq_some_iff {after body rest : List Char} :
    braced after = some (body, rest) ↔ Balanced body ∧ after = '{' :: (body ++ '}' :: rest) := by
  constructor
  · intro h
    unfold braced at h
    split at h
    · next text =>
        exact ⟨fun depth other => closeBrace_add h depth other, by rw [closeBrace_append h]⟩
    · cases h
  · rintro ⟨hbody, rfl⟩
    exact hbody.braced_eq rest

/-! ## Cutting at a colon -/

/-- Every character of a name without a colon is another one. -/
theorem forall_ne_colon {name : List Char} (h : ':' ∉ name) :
    ∀ c ∈ name, decide (c ≠ ':') = true := by
  intro c hc
  exact decide_eq_true fun heq => h (heq ▸ hc)

/-- A text is cut at its first colon: the colon stands between the two parts, and the first part has
none. -/
theorem splitColon_eq_some_iff {text name rest : List Char} :
    splitColon text = some (name, rest) ↔ text = name ++ ':' :: rest ∧ ':' ∉ name := by
  constructor
  · intro h
    unfold splitColon at h
    split at h
    · simp at h
    · rename_i c rest' hdrop
      obtain ⟨rfl, rfl⟩ : text.takeWhile (· ≠ ':') = name ∧ rest' = rest := by simpa using h
      have hhead : c = ':' := by
        have hnot := List.head?_dropWhile_not (fun c => decide (c ≠ ':')) text
        rw [hdrop] at hnot
        simpa using hnot
      have hcut := List.takeWhile_append_dropWhile (p := fun c => decide (c ≠ ':')) (l := text)
      refine ⟨?_, fun hmem => ?_⟩
      · rw [hdrop, hhead] at hcut
        exact hcut.symm
      · simpa using List.all_eq_true.1 List.all_takeWhile _ hmem
  · rintro ⟨rfl, h⟩
    rw [splitColon, List.takeWhile_append_of_pos (forall_ne_colon h),
      List.dropWhile_append_of_pos (forall_ne_colon h)]
    simp

/-- A name without a colon cannot be split at one. -/
theorem splitColon_eq_none {name : List Char} (h : ':' ∉ name) : splitColon name = none := by
  have hdrop : (name ++ []).dropWhile (· ≠ ':') = [] :=
    List.dropWhile_append_of_pos (forall_ne_colon h)
  rw [List.append_nil] at hdrop
  rw [splitColon, hdrop]

/-! ## Induction along a value -/

/-- What holds of a value if it holds of everything that is expanded on the way: of what follows a
character or a reference, and of the text of a condition. -/
@[elab_as_elim]
theorem value_induction {motive : List Char → Prop} (text : List Char) (nil : motive [])
    (char : ∀ c after, c ≠ '%' → motive after → motive (c :: after))
    (reference : ∀ after body rest, braced after = some (body, rest) →
      motive (Reference.ofBody body).text → motive rest → motive ('%' :: after))
    (name : ∀ after, braced after = none → motive (after.dropWhile isNameChar) →
      motive ('%' :: after)) : motive text := by
  induction hlength : text.length using Nat.strongRecOn generalizing text with
  | ind n ih =>
    subst hlength
    cases text with
    | nil => exact nil
    | cons c after =>
      have hshorter (other : List Char) (hle : other.length ≤ after.length) : motive other :=
        ih other.length (Nat.lt_succ_of_le hle) other rfl
      by_cases hc : c = '%'
      · subst hc
        cases hbraced : braced after with
        | none => exact name after hbraced (hshorter _ (List.dropWhile_sublist _).length_le)
        | some cut =>
          have hlength := braced_length hbraced
          have htext := Reference.text_length_le cut.1
          exact reference after cut.1 cut.2 hbraced (hshorter _ (by omega)) (hshorter _ (by omega))
      · exact char c after hc (hshorter after (Nat.le_refl _))

end RpmRelease.Macros
