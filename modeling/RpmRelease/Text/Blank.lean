/-!
# Blank characters, trimming and words

A character is *blank* when Unicode gives it the property `White_Space`.  Descriptor words, trimmed
lines and commit messages all use this one class.  Texts are handled as lists of characters.

`splitWhen` cuts a list at every element of a class and loses nothing else: joining the pieces
again with the cut elements gives the list back, which `splitWhen_ne_nil` and
`mem_of_mem_splitWhen` record in the form the other modules use.
-/

set_option autoImplicit false

namespace RpmRelease.Text

/-- The characters with the Unicode property `White_Space`. -/
def isBlank (c : Char) : Bool :=
  let n := c.toNat
  (9 ≤ n && n ≤ 13) || n == 0x20 || n == 0x85 || n == 0xA0 || n == 0x1680 ||
    (0x2000 ≤ n && n ≤ 0x200A) || n == 0x2028 || n == 0x2029 || n == 0x202F || n == 0x205F ||
    n == 0x3000

/-- The text without its leading blanks. -/
def trimStart (cs : List Char) : List Char :=
  cs.dropWhile isBlank

/-- The text without its trailing blanks. -/
def trimEnd (cs : List Char) : List Char :=
  (cs.reverse.dropWhile isBlank).reverse

/-- The text without the blanks at both ends. -/
def trim (cs : List Char) : List Char :=
  trimEnd (trimStart cs)

/-- The pieces of a list between the elements of a class; always at least one piece. -/
def splitWhen {α : Type} (p : α → Bool) : List α → List (List α)
  | [] => [[]]
  | x :: xs => if p x then [] :: splitWhen p xs else (splitWhen p xs).modifyHead (x :: ·)

/-- The maximal runs of characters that are not blank, in order. -/
def words (cs : List Char) : List (List Char) :=
  (splitWhen isBlank cs).filter (!·.isEmpty)

/-- Cutting a list leaves at least one piece. -/
theorem splitWhen_ne_nil {α : Type} (p : α → Bool) (xs : List α) : splitWhen p xs ≠ [] := by
  induction xs with
  | nil => simp [splitWhen]
  | cons x xs ih =>
      unfold splitWhen
      split
      · simp
      · cases h : splitWhen p xs with
        | nil => exact absurd h ih
        | cons y ys => simp

/-- A piece holds elements of the list only, and none of the class it was cut at. -/
theorem mem_of_mem_splitWhen {α : Type} {p : α → Bool} {xs piece : List α} {x : α}
    (hp : piece ∈ splitWhen p xs) (hx : x ∈ piece) : x ∈ xs ∧ p x = false := by
  induction xs generalizing piece with
  | nil => simp_all [splitWhen]
  | cons y ys ih =>
      unfold splitWhen at hp
      split at hp
      · rcases List.mem_cons.1 hp with rfl | hp
        · simp at hx
        · exact ⟨List.mem_cons_of_mem _ (ih hp hx).1, (ih hp hx).2⟩
      · rename_i hy
        cases h : splitWhen p ys with
        | nil => exact absurd h (splitWhen_ne_nil p ys)
        | cons z zs =>
            rw [h, List.modifyHead_cons] at hp
            rcases List.mem_cons.1 hp with rfl | hp
            · rcases List.mem_cons.1 hx with rfl | hx
              · simpa using hy
              · have hz : z ∈ splitWhen p ys := by simp [h]
                exact ⟨List.mem_cons_of_mem _ (ih hz hx).1, (ih hz hx).2⟩
            · have hz : piece ∈ splitWhen p ys := by simp [h, hp]
              exact ⟨List.mem_cons_of_mem _ (ih hz hx).1, (ih hz hx).2⟩

/-- A list without elements of the class is left in one piece. -/
theorem splitWhen_eq_singleton {α : Type} {p : α → Bool} {xs : List α}
    (h : ∀ x ∈ xs, p x = false) : splitWhen p xs = [xs] := by
  induction xs with
  | nil => rfl
  | cons x xs ih =>
      have hrest := ih fun y hy => h y (List.mem_cons_of_mem x hy)
      rw [splitWhen, if_neg (by simp [h x List.mem_cons_self]), hrest, List.modifyHead_cons]

/-- Two lists around an element of the class are cut one after the other. -/
theorem splitWhen_append_cons {α : Type} {p : α → Bool} (xs ys : List α) {x : α}
    (hx : p x = true) : splitWhen p (xs ++ x :: ys) = splitWhen p xs ++ splitWhen p ys := by
  induction xs with
  | nil => simp [splitWhen, hx]
  | cons z zs ih =>
      rw [List.cons_append, splitWhen, ih, splitWhen]
      split
      · rfl
      · cases h : splitWhen p zs with
        | nil => exact absurd h (splitWhen_ne_nil p zs)
        | cons piece more => simp

/-- There are no words in a text of blanks, and only there. -/
theorem words_eq_nil_iff {cs : List Char} : words cs = [] ↔ ∀ c ∈ cs, isBlank c = true := by
  induction cs with
  | nil => simp [words, splitWhen]
  | cons c cs ih =>
      by_cases hc : isBlank c = true
      · have hwords : words (c :: cs) = words cs := by
          simp [words, splitWhen, hc]
        rw [hwords, ih]
        simp [hc]
      · cases h : splitWhen isBlank cs with
        | nil => exact absurd h (splitWhen_ne_nil isBlank cs)
        | cons word more => simp [words, splitWhen, hc, h]

/-- No character of a word is blank. -/
theorem isBlank_of_mem_words {cs word : List Char} {c : Char} (hw : word ∈ words cs)
    (hc : c ∈ word) : isBlank c = false :=
  (mem_of_mem_splitWhen (List.mem_filter.1 hw).1 hc).2

end RpmRelease.Text
