import Mathlib.Data.List.Infix
import Mathlib.Data.List.TakeWhile
import Mathlib.Tactic.Common
import RpmRelease.Text.Lines

/-!
# Reading back the lines of a text

A text written line by line, a line feed after each, is read back as these lines when none of them
holds a line feed or ends in a carriage return.
-/

set_option autoImplicit false

namespace RpmRelease.Text

/-- Whether a line is read back as it was written. -/
def IsLine (line : List Char) : Prop :=
  '\n' ∉ line ∧ line.getLast? ≠ some '\r'

instance (line : List Char) : Decidable (IsLine line) :=
  inferInstanceAs (Decidable (_ ∧ _))

/-- The text that holds some lines, each with its line feed. -/
def ofLines (lines : List (List Char)) : List Char :=
  lines.flatMap (· ++ ['\n'])

/-- A text without a line feed is not cut. -/
theorem splitWhen_line {line : List Char} (h : '\n' ∉ line) :
    splitWhen (· == '\n') line = [line] := by
  refine splitWhen_eq_singleton fun c hc => ?_
  simp only [beq_eq_false_iff_ne]
  rintro rfl
  exact h hc

/-- The pieces of a text, with the character that it was cut at between them, are the text. -/
theorem intercalate_splitWhen (sep : Char) (cs : List Char) :
    List.intercalate [sep] (splitWhen (· == sep) cs) = cs := by
  induction cs with
  | nil => rfl
  | cons c cs ih =>
      cases hcut : splitWhen (· == sep) cs with
      | nil => exact absurd hcut (splitWhen_ne_nil _ _)
      | cons piece pieces =>
          rw [hcut] at ih
          by_cases hc : c = sep
          · subst hc
            rw [splitWhen, if_pos (by simp), hcut, List.intercalate_cons_cons, ih]
            rfl
          · rw [splitWhen, if_neg (by simpa using hc), hcut, List.modifyHead_cons]
            cases pieces with
            | nil => simpa using ih
            | cons next more =>
                rw [List.intercalate_cons_cons] at ih ⊢
                rw [← ih, List.cons_append, List.cons_append]

/-- Written lines are cut at the line feeds between them; behind the last one nothing is left. -/
theorem splitWhen_ofLines {lines : List (List Char)} (h : ∀ line ∈ lines, '\n' ∉ line) :
    splitWhen (· == '\n') (ofLines lines) = lines ++ [[]] := by
  induction lines with
  | nil => rfl
  | cons line lines ih =>
    have hline := splitWhen_line (h line List.mem_cons_self)
    rw [ofLines, List.flatMap_cons, List.append_assoc, List.singleton_append,
      splitWhen_append_cons _ _ (by simp), hline, ← ofLines,
      ih fun other hother => h other (List.mem_cons_of_mem _ hother)]
    rfl

/-- Lines that can be read back are read as they were written. -/
theorem lines_ofLines {written : List (List Char)} (h : ∀ line ∈ written, IsLine line) :
    lines (ofLines written) = written := by
  have hreturn : written.map dropReturn = written := by
    refine (List.map_congr_left fun line hline => ?_).trans (List.map_id written)
    rw [dropReturn, if_neg (h line hline).2, id]
  rw [lines, splitWhen_ofLines fun line hline => (h line hline).1]
  simpa using hreturn

/-- A line is a piece between line feeds, with or without its last character. -/
theorem exists_piece_of_mem_lines {cs line : List Char} (h : line ∈ lines cs) :
    ∃ piece ∈ splitWhen (· == '\n') cs, line <+: piece := by
  rcases List.mem_append.1 h with hline | hline
  · obtain ⟨piece, hpiece, rfl⟩ := List.mem_map.1 hline
    refine ⟨piece, List.mem_of_mem_dropLast hpiece, ?_⟩
    unfold dropReturn
    split
    · exact List.dropLast_prefix piece
    · exact List.prefix_rfl
  · split at hline
    · simp at hline
    · rw [List.mem_singleton.1 hline]
      refine ⟨_, ?_, List.prefix_rfl⟩
      rw [List.getLastD_eq_getLast?, List.getLast?_eq_some_getLast (splitWhen_ne_nil _ _)]
      exact List.getLast_mem _

/-- The lines of a text hold no line feed. -/
theorem not_mem_of_mem_lines {cs line : List Char} (h : line ∈ lines cs) : '\n' ∉ line := by
  obtain ⟨piece, hpiece, hline⟩ := exists_piece_of_mem_lines h
  intro hmem
  simpa using (mem_of_mem_splitWhen hpiece (hline.subset hmem)).2

/-- The characters of a line are those of the text. -/
theorem mem_of_mem_lines {cs line : List Char} {c : Char} (h : line ∈ lines cs) (hc : c ∈ line) :
    c ∈ cs := by
  obtain ⟨piece, hpiece, hline⟩ := exists_piece_of_mem_lines h
  exact (mem_of_mem_splitWhen hpiece (hline.subset hc)).1

/-- The characters of a word are those of the text. -/
theorem mem_of_mem_words {cs word : List Char} {c : Char} (h : word ∈ words cs) (hc : c ∈ word) :
    c ∈ cs :=
  (mem_of_mem_splitWhen (List.mem_filter.1 h).1 hc).1

/-- Trimming the end of a text adds no characters. -/
theorem mem_of_mem_trimEnd {cs : List Char} {c : Char} (h : c ∈ trimEnd cs) : c ∈ cs := by
  rw [trimEnd, List.mem_reverse] at h
  exact List.mem_reverse.1 ((List.dropWhile_suffix isBlank).subset h)

/-- Trimming a text adds no characters. -/
theorem mem_of_mem_trim {cs : List Char} {c : Char} (h : c ∈ trim cs) : c ∈ cs :=
  (List.dropWhile_suffix isBlank).subset (mem_of_mem_trimEnd h)

/-- A text whose end was trimmed does not end in a blank. -/
theorem isBlank_of_getLast?_trimEnd {cs : List Char} {c : Char}
    (h : (trimEnd cs).getLast? = some c) : isBlank c = false := by
  rw [trimEnd, List.getLast?_reverse] at h
  have := List.head?_dropWhile_not isBlank cs.reverse
  rw [h] at this
  simpa using this

/-- Nothing is left of a text when nothing is left of it without its end. -/
theorem trim_eq_nil_iff {cs : List Char} : trim cs = [] ↔ trimEnd cs = [] := by
  simp only [trim, trimEnd, trimStart, List.reverse_eq_nil_iff, List.dropWhile_eq_nil_iff,
    List.mem_reverse]
  constructor
  · intro h c hc
    rw [← List.takeWhile_append_dropWhile (p := isBlank) (l := cs)] at hc
    rcases List.mem_append.1 hc with hc | hc
    · exact List.mem_takeWhile_imp hc
    · exact h c hc
  · exact fun h c hc => h c ((List.dropWhile_suffix isBlank).subset hc)

/-! ### Line endings -/

/-- The first line of a text is read before those behind its line feed. -/
theorem lines_append_cons {line : List Char} (rest : List Char) (h : '\n' ∉ line) :
    lines (line ++ '\n' :: rest) = dropReturn line :: lines rest := by
  obtain ⟨piece, pieces, hrest⟩ :=
    List.exists_cons_of_ne_nil (splitWhen_ne_nil (· == '\n') rest)
  rw [lines, lines, splitWhen_append_cons _ _ (by simp), splitWhen_line h, hrest]
  simp

/-- A text without a line feed is one line, or none when it is empty. -/
theorem lines_of_not_mem {cs : List Char} (h : '\n' ∉ cs) :
    lines cs = if cs.isEmpty then [] else [cs] := by
  rw [lines, splitWhen_line h]
  rfl

/-- Only an empty text has no lines. -/
theorem lines_eq_nil_iff {cs : List Char} : lines cs = [] ↔ cs = [] := by
  by_cases hmem : '\n' ∈ cs
  · obtain ⟨line, rest, rfl, hline⟩ := List.eq_append_cons_of_mem hmem
    simp [lines_append_cons rest hline]
  · rw [lines_of_not_mem hmem]
    cases cs <;> simp

/-- The text with a line feed alone at the end of every line. -/
def unifyEndings : List Char → List Char
  | [] => []
  | '\r' :: '\n' :: cs => '\n' :: unifyEndings cs
  | c :: cs => c :: unifyEndings cs

/-- Unifying the ends of lines adds no characters. -/
theorem mem_of_mem_unifyEndings {cs : List Char} {c : Char} (h : c ∈ unifyEndings cs) : c ∈ cs := by
  fun_induction unifyEndings cs with
  | case1 => exact h
  | case2 cs ih =>
    rcases List.mem_cons.1 h with rfl | h
    · simp
    · exact List.mem_cons_of_mem _ (List.mem_cons_of_mem _ (ih h))
  | case3 d cs _ ih =>
    rcases List.mem_cons.1 h with rfl | h
    · exact List.mem_cons_self
    · exact List.mem_cons_of_mem _ (ih h)

/-- The ends of lines are unified in two texts one by one, unless the second one begins with a line
feed. -/
theorem unifyEndings_append {cs ds : List Char} (h : ds.head? ≠ some '\n') :
    unifyEndings (cs ++ ds) = unifyEndings cs ++ unifyEndings ds := by
  fun_induction unifyEndings cs with
  | case1 => rfl
  | case2 cs ih => rw [List.cons_append, List.cons_append, unifyEndings, ih, List.cons_append]
  | case3 c cs hne ih =>
    rw [List.cons_append, List.cons_append, ← ih]
    refine unifyEndings.eq_3 c _ ?_
    -- what follows a carriage return is not a line feed, neither in the first text nor behind it
    intro rest hc hrest
    cases cs with
    | nil => exact h (by rw [List.nil_append] at hrest; rw [hrest]; rfl)
    | cons d cs =>
      rw [List.cons_append, List.cons.injEq] at hrest
      exact hne cs hc (by rw [hrest.1])

/-- A text without carriage returns stays when the ends of lines are unified behind it. -/
theorem unifyEndings_of_not_mem {cs : List Char} (ds : List Char) (h : '\r' ∉ cs) :
    unifyEndings (cs ++ ds) = cs ++ unifyEndings ds := by
  induction cs with
  | nil => rfl
  | cons c cs ih =>
    rw [List.cons_append, List.cons_append, ← ih fun hmem => h (List.mem_cons_of_mem c hmem)]
    refine unifyEndings.eq_3 c _ fun rest hc => ?_
    exact absurd (by simp [hc]) h

/-- A text without line feeds stays when the ends of lines are unified. -/
theorem unifyEndings_eq_self {cs : List Char} (h : '\n' ∉ cs) : unifyEndings cs = cs := by
  fun_induction unifyEndings cs with
  | case1 => rfl
  | case2 cs ih => exact absurd (by simp) h
  | case3 c cs _ ih => rw [ih fun hmem => h (List.mem_cons_of_mem c hmem)]

/-- The end of a line is unified by dropping its carriage return. -/
theorem unifyEndings_line {line : List Char} (rest : List Char) (h : '\n' ∉ line) :
    unifyEndings (line ++ '\n' :: rest) = dropReturn line ++ '\n' :: unifyEndings rest := by
  obtain rfl | ⟨front, c, rfl⟩ := List.eq_nil_or_concat' line
  · rfl
  have hfront : '\n' ∉ front := fun hmem => h (List.mem_append_left _ hmem)
  have hc : c ≠ '\n' := fun hc => h (by simp [hc])
  have hhead : (c :: '\n' :: rest).head? ≠ some '\n' := by simpa using hc
  rw [List.append_assoc, List.singleton_append, unifyEndings_append hhead,
    unifyEndings_eq_self hfront, dropReturn]
  by_cases hreturn : c = '\r'
  · subst hreturn
    simp [unifyEndings]
  · rw [if_neg (by simpa using hreturn), List.append_assoc,
      ← List.singleton_append, unifyEndings_of_not_mem _ (by simpa using Ne.symm hreturn)]
    rfl

/-- Lines put together again are the text with its endings unified, up to a last line feed. -/
theorem unifyEndings_eq_joinLines (cs : List Char) :
    ∃ ending, unifyEndings cs = joinLines (lines cs) ++ ending ∧ (ending = [] ∨ ending = ['\n']) := by
  induction hlength : cs.length using Nat.strongRecOn generalizing cs with
  | ind size ih =>
    by_cases hmem : '\n' ∈ cs
    · obtain ⟨line, rest, rfl, hline⟩ := List.eq_append_cons_of_mem hmem
      rw [unifyEndings_line rest hline, lines_append_cons rest hline]
      obtain ⟨ending, hrest, hending⟩ := ih rest.length (by simp at hlength; omega) rest rfl
      cases hlines : lines rest with
      | nil =>
        -- nothing is left behind the line feed, so it is the last character
        rw [lines_eq_nil_iff.1 hlines]
        exact ⟨['\n'], by simp [joinLines, List.intercalate, unifyEndings], .inr rfl⟩
      | cons next more =>
        rw [hrest, hlines]
        exact ⟨ending, by simp [joinLines, List.intercalate], hending⟩
    · refine ⟨[], ?_, .inl rfl⟩
      rw [unifyEndings_eq_self hmem, lines_of_not_mem hmem]
      cases cs <;> simp [joinLines, List.intercalate]

/-- A text that neither begins nor ends with a blank is not trimmed. -/
theorem trim_eq_self_of_ends {cs : List Char} (hhead : ∀ c ∈ cs.head?, isBlank c = false)
    (hlast : ∀ c ∈ cs.getLast?, isBlank c = false) : trim cs = cs := by
  have hkeep (ds : List Char) (hds : ∀ c ∈ ds.head?, isBlank c = false) :
      ds.dropWhile isBlank = ds := by
    cases ds with
    | nil => rfl
    | cons d ds => rw [List.dropWhile_cons, if_neg (by simp [hds d rfl])]
  rw [trim, trimStart, hkeep cs hhead, trimEnd, hkeep cs.reverse (by simpa using hlast),
    List.reverse_reverse]

/-- Blanks around a text are trimmed. -/
theorem trim_append_of_blank {front cs back : List Char} (hfront : ∀ c ∈ front, isBlank c = true)
    (hback : ∀ c ∈ back, isBlank c = true) : trim (front ++ cs ++ back) = trim cs := by
  have hstart : trimStart (front ++ cs ++ back) = trimStart (cs ++ back) := by
    rw [trimStart, List.append_assoc, List.dropWhile_append,
      List.dropWhile_eq_nil_iff.2 hfront]
    rfl
  have hend (ds : List Char) : trimEnd (ds ++ back) = trimEnd ds := by
    have hreverse : back.reverse.dropWhile isBlank = [] :=
      List.dropWhile_eq_nil_iff.2 fun c hc => hback c (List.mem_reverse.1 hc)
    rw [trimEnd, List.reverse_append, List.dropWhile_append, hreverse]
    rfl
  rw [trim, hstart, trimStart, List.dropWhile_append, List.dropWhile_eq_nil_iff.2 hback]
  split
  · next hempty => rw [trim, trimStart, List.isEmpty_iff.1 hempty]
  · rw [hend]
    rfl

/-- What is left of a text between its blanks does not depend on how its lines end. -/
theorem trim_joinLines_lines (cs : List Char) :
    trim (joinLines (lines cs)) = trim (unifyEndings cs) := by
  obtain ⟨ending, hunify, hending⟩ := unifyEndings_eq_joinLines cs
  have hblank : ∀ c ∈ ending, isBlank c = true := by
    rcases hending with rfl | rfl
    · simp
    · simpa using show isBlank '\n' = true by decide
  rw [hunify]
  exact (@trim_append_of_blank [] (joinLines (lines cs)) ending (by simp) hblank).symm

end RpmRelease.Text
