import RpmRelease.Proofs.Text.Lines

/-!
# Names listed one a line

A text lists names when there is one on each of its lines that is not blank.  Blanks around a name do
not belong to it; a carriage return in front of a line feed is such a blank.  The names of a text are
found by trimming its lines and leaving out what is empty then.
-/

set_option autoImplicit false

namespace RpmRelease.Text

/-! ## Names on lines -/

/-- A name stands on a line, with nothing but blanks around it. -/
structure StandsOn (name line : List Char) : Prop where
  parts : ∃ front back, line = front ++ name ++ back ∧
    (∀ c ∈ front, isBlank c = true) ∧ ∀ c ∈ back, isBlank c = true
  first : ∃ c, name.head? = some c ∧ isBlank c = false
  last : ∃ c, name.getLast? = some c ∧ isBlank c = false

/-- Names stand on some lines, in order: one on each line that is not blank, none on the others. -/
inductive NamesOn : List (List Char) → List String → Prop
  | none : NamesOn [] []
  | blank {line : List Char} {lines : List (List Char)} {names : List String}
    (hline : ∀ c ∈ line, isBlank c = true) (rest : NamesOn lines names) :
    NamesOn (line :: lines) names
  | name {line : List Char} {lines : List (List Char)} {name : String} {names : List String}
    (hline : StandsOn name.toList line) (rest : NamesOn lines names) :
    NamesOn (line :: lines) (name :: names)

/-- A text lists names: they stand on the lines between its line feeds. -/
def ListsNames (text : List Char) (names : List String) : Prop :=
  ∃ lines, text = List.intercalate ['\n'] lines ∧ (∀ line ∈ lines, '\n' ∉ line) ∧
    NamesOn lines names

/-! ## Trimmed lines -/

/-- A text is blank exactly if trimming leaves nothing of it. -/
theorem trim_eq_nil_iff_blank {cs : List Char} : trim cs = [] ↔ ∀ c ∈ cs, isBlank c = true := by
  rw [trim_eq_nil_iff, trimEnd, List.reverse_eq_nil_iff, List.dropWhile_eq_nil_iff]
  simp

/-- What trimming leaves of a line stands on it. -/
theorem standsOn_trim {line : List Char} (h : trim line ≠ []) : StandsOn (trim line) line := by
  have hstart : trimStart line ≠ [] := by
    intro hnil
    rw [trim, hnil] at h
    exact h rfl
  obtain ⟨back, hback, hblank⟩ : ∃ back, trimStart line = trim line ++ back ∧
      ∀ c ∈ back, isBlank c = true := by
    refine ⟨((trimStart line).reverse.takeWhile isBlank).reverse, ?_, fun c hc => ?_⟩
    · rw [trim, trimEnd, ← List.reverse_append, List.takeWhile_append_dropWhile,
        List.reverse_reverse]
    · exact List.mem_takeWhile_imp (List.mem_reverse.1 hc)
  refine ⟨⟨line.takeWhile isBlank, back, ?_, fun c => List.mem_takeWhile_imp, hblank⟩, ?_, ?_⟩
  · rw [List.append_assoc, ← hback, trimStart, List.takeWhile_append_dropWhile]
  · obtain ⟨c, rest, hname⟩ := List.exists_cons_of_ne_nil h
    have hfirst := List.head?_dropWhile_not isBlank line
    rw [← trimStart, hback, hname] at hfirst
    exact ⟨c, by rw [hname]; rfl, by simpa using hfirst⟩
  · have hlast := List.getLast?_eq_some_getLast h
    exact ⟨_, hlast, isBlank_of_getLast?_trimEnd hlast⟩

/-- The lines of a text and the pieces between its line feeds have the same names. -/
theorem filter_trim_lines (text : List Char) :
    ((lines text).map trim).filter (!·.isEmpty) =
      ((splitWhen (· == '\n') text).map trim).filter (!·.isEmpty) := by
  have hreturn (line : List Char) : trim (dropReturn line) = trim line := by
    unfold dropReturn
    split
    · next hlast =>
        obtain ⟨front, rfl⟩ := List.getLast?_eq_some_iff.1 hlast
        rw [List.dropLast_concat]
        have hblank : ∀ c ∈ ['\r'], isBlank c = true := by
          rw [List.forall_mem_singleton]
          decide
        exact (@trim_append_of_blank [] front ['\r'] (by simp) hblank).symm
    · rfl
  have hpieces := List.dropLast_append_getLast (splitWhen_ne_nil (· == '\n') text)
  rw [← hpieces, lines, List.getLastD_eq_getLast?,
    List.getLast?_eq_some_getLast (splitWhen_ne_nil _ _), Option.getD_some, hpieces]
  conv_rhs => rw [← hpieces]
  rw [List.map_append, List.map_append, List.filter_append, List.filter_append, List.map_map]
  have hfront : (trim ∘ dropReturn) = trim := funext hreturn
  rw [hfront]
  congr 1
  split
  · next hempty => rw [List.isEmpty_iff.1 hempty]; rfl
  · rfl

/-- Trimmed lines that are not empty then are the names on them. -/
theorem namesOn_trim (pieces : List (List Char)) :
    NamesOn pieces (((pieces.map trim).filter (!·.isEmpty)).map String.ofList) := by
  induction pieces with
  | nil => exact .none
  | cons line pieces ih =>
      by_cases hnil : trim line = []
      · rw [List.map_cons, hnil]
        exact .blank (trim_eq_nil_iff_blank.1 hnil) ih
      · rw [List.map_cons, List.filter_cons_of_pos (by simpa using hnil), List.map_cons]
        refine .name ?_ ih
        rw [String.toList_ofList]
        exact standsOn_trim hnil

/-- A text lists its trimmed lines, apart from those that are blank. -/
theorem listsNames_trim (text : List Char) :
    ListsNames text ((((lines text).map trim).filter (!·.isEmpty)).map String.ofList) := by
  refine ⟨splitWhen (· == '\n') text, (intercalate_splitWhen '\n' text).symm, ?_, ?_⟩
  · intro line hline hmem
    simpa using (mem_of_mem_splitWhen hline hmem).2
  · rw [filter_trim_lines]
    exact namesOn_trim _

end RpmRelease.Text
