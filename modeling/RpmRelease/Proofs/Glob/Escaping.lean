import RpmRelease.Proofs.Glob

/-!
# Texts that stand for themselves

A text is escaped by putting each of its special characters in a set of its own.  What is read from it
fits this text and nothing else, wherever it stands in a pattern, and what is read behind it is read as if
it stood alone, but for the positions in errors.  The slashes of a text stay where they are, so that the
pieces between them are escaped each by itself.
-/

set_option autoImplicit false

namespace RpmRelease.Glob

namespace Token

/-! ## Positions -/

/-- Turning errors into others leaves what a function makes of a success. -/
theorem mapError_map {ε δ α β : Type} (f : α → β) (g : ε → δ) (x : Except ε α) :
    (f <$> x).mapError g = f <$> x.mapError g := by
  cases x <;> rfl

/-- Two stars are read where a component begins, and have to end it. -/
theorem read_twoStars {position : Nat} {boundary : Bool} {rest : List Char}
    (hstars : (rest.takeWhile (· == '*')).length = 1) :
    read position boundary ('*' :: rest) =
      if boundary then
        match rest.dropWhile (· == '*') with
        | [] => .ok [.anyRun]
        | c :: rest' =>
          if c = '/' then (.anyRun :: ·) <$> read (position + 3) true rest'
          else .error ⟨position + 2, .starsNotAlone⟩
      else .error ⟨position - 1, .starsNotAlone⟩ := by
  rw [read]
  simp only [hstars]
  cases boundary with
  | false => rfl
  | true =>
      rw [if_neg (by simp), if_pos rfl]
      split <;> rename_i heq <;> rw [heq]

/-- Where a text begins matters for nothing but the positions in errors. -/
theorem read_shift (k : Nat) {position : Nat} {boundary : Bool} {text : List Char}
    (h : boundary = true ∨ 0 < position) :
    read (position + k) boundary text =
      (read position boundary text).mapError fun e => ⟨e.position + k, e.defect⟩ := by
  -- on the reading of the pattern; only a set of stars looks back, to what stands in front of it
  fun_induction read position boundary text with
  | case1 =>
      rw [read]
      rfl
  | case2 position boundary rest ih =>
      rw [read, mapError_map, ← ih (.inr (Nat.succ_pos _)), Nat.add_right_comm]
  | case3 position boundary rest _ hstars ih =>
      rw [read, mapError_map, ← ih (.inr (Nat.succ_pos _)), Nat.add_right_comm]
      simp only [hstars]
  | case4 position boundary rest _ hstars hinside =>
      have hlate : 0 < position := h.resolve_left (by simpa using hinside)
      rw [read_twoStars hstars, if_neg (by simpa using hinside), Nat.sub_add_comm hlate]
      rfl
  | case5 position boundary rest _ hstars hstart hend =>
      rw [read_twoStars hstars, if_pos (by simpa using hstart), hend]
      rfl
  | case6 position boundary rest _ hstars hstart rest' hend _ ih =>
      rw [read_twoStars hstars, if_pos (by simpa using hstart), hend, mapError_map, ← ih (.inl rfl),
        Nat.add_right_comm]
      exact if_pos rfl
  | case7 position boundary rest _ hstars hstart c rest' hend _ hother =>
      rw [read_twoStars hstars, if_pos (by simpa using hstart), hend]
      simp only [if_neg hother, Nat.add_right_comm position k 2]
      rfl
  | case8 position boundary rest _ hzero hone =>
      rw [read]
      split
      · next h => exact absurd h hzero
      · next h => exact absurd h hone
      · rw [Nat.add_right_comm]
        rfl
  | case9 position boundary rest hopen =>
      rw [read]
      split
      · rfl
      · next h => simp [hopen] at h
  | case10 position boundary rest token rest' hset _ ih =>
      rw [read, mapError_map, ← ih (.inr (by omega))]
      split
      · next h => simp [hset] at h
      · next h =>
          rw [hset] at h
          obtain ⟨rfl, rfl⟩ := Prod.mk.inj (Option.some.inj h)
          rw [Nat.add_right_comm position, Nat.add_right_comm]
  | case11 position boundary c rest hany hrun hset ih =>
      rw [read, mapError_map, ← ih (.inr (Nat.succ_pos _)), Nat.add_right_comm]
      · exact hany
      · exact hrun
      · exact hset

/-! ## Escaped texts -/

/-- What needs no escaping is no wildcard. -/
theorem isWild_of_isSpecial {c : Char} (h : isSpecial c = false) : isWild c = false := by
  simp only [isSpecial, Bool.or_eq_false_iff] at h
  simp [isWild, h]

/-- The token that stands for a character, as it is read from an escaped text. -/
def exactly (c : Char) : Token :=
  if isSpecial c then .oneOf [⟨c, c⟩] else .char c

/-- Escaping goes character by character. -/
theorem escape_cons (c : Char) (text : List Char) :
    escape (c :: text) = (if isSpecial c then ['[', c, ']'] else [c]) ++ escape text := rfl

/-- A special character in brackets is read as a set of this one character. -/
theorem readSet_of_isSpecial {c : Char} (hc : isSpecial c = true) (rest : List Char) :
    readSet (c :: ']' :: rest) = some (.oneOf [⟨c, c⟩], rest) := by
  have hnegated : c ≠ '!' := by
    rintro rfl
    exact absurd hc (by decide)
  simp [readSet, hnegated, readRanges]

/-- A slash needs no escaping. -/
theorem ne_slash_of_isSpecial {c : Char} (hc : isSpecial c = true) : c ≠ '/' := by
  rintro rfl
  exact absurd hc (by decide)

/-- An escaped text is read as the tokens of its characters, and what follows is read behind it. -/
theorem read_escape (text rest : List Char) (position : Nat) (boundary : Bool) :
    read position boundary (escape text ++ rest) = (text.map exactly ++ ·) <$>
      read (position + (escape text).length) (text.foldl (fun _ c => c == '/') boundary) rest := by
  -- on the text; an escaped character takes up three places and is read as a set
  induction text generalizing position boundary with
  | nil => exact (id_map _).symm
  | cons c text ih =>
      rw [escape_cons]
      cases hc : isSpecial c with
      | false =>
          have hplain : exactly c = .char c := if_neg (by simp [hc])
          rw [if_neg (by simp), List.append_assoc, List.singleton_append,
            read_plain (isWild_of_isSpecial hc), ih, Functor.map_map, List.length_append, ← Nat.add_assoc]
          simp only [List.map_cons, hplain]
          rfl
      | true =>
          have hset : exactly c = .oneOf [⟨c, c⟩] := if_pos hc
          have hlength :
              (c :: ']' :: (escape text ++ rest)).length - (escape text ++ rest).length = 2 := by
            simp only [List.length_cons]
            omega
          have hslash : (c == '/') = false := by simpa using ne_slash_of_isSpecial hc
          rw [if_pos rfl, List.append_assoc, List.cons_append, List.cons_append, List.cons_append,
            List.nil_append, read]
          split
          · next hnone => simp [readSet_of_isSpecial hc] at hnone
          · next hsome =>
              rw [readSet_of_isSpecial hc] at hsome
              obtain ⟨rfl, rfl⟩ := Prod.mk.inj (Option.some.inj hsome)
              rw [hlength, ih, Functor.map_map, List.length_append, ← Nat.add_assoc, List.foldl_cons,
                hslash]
              simp only [List.map_cons, hset]
              rfl

/-- A text fits its own tokens, and no other text does. -/
theorem fits_map_exactly {text name : List Char} :
    fits (text.map exactly) name = true ↔ name = text := by
  induction text generalizing name with
  | nil => simp [fits]
  | cons c text ih =>
      cases name with
      | nil =>
          rw [List.map_cons, exactly]
          split <;> simp [fits]
      | cons d name =>
          rw [List.map_cons, exactly]
          split
          · have hcontains : Range.contains ⟨c, c⟩ d = true ↔ d = c := by
              simp only [Range.contains, Bool.and_eq_true, decide_eq_true_eq]
              exact ⟨fun h => Char.le_antisymm h.2 h.1, fun h => h ▸ ⟨Char.le_refl _, Char.le_refl _⟩⟩
            simp [fits, ih, hcontains]
          · simp [fits, ih]

/-- An escaped text is a literal when there was nothing to escape. -/
theorem literal?_map_exactly (text : List Char) :
    literal? (text.map exactly) = if text.any isSpecial then none else some text := by
  split
  · next hspecial =>
      obtain ⟨c, hmem, hc⟩ := List.any_eq_true.1 hspecial
      refine Option.eq_none_iff_forall_ne_some.2 fun other hother => ?_
      induction text generalizing other with
      | nil => cases hmem
      | cons d text ih =>
          obtain ⟨e, rest, htoken, rfl, hrest⟩ := of_literal?_cons hother
          rcases List.mem_cons.1 hmem with rfl | hmem
          · rw [exactly, if_pos hc] at htoken
            cases htoken
          · exact ih (List.any_eq_true.2 ⟨c, hmem, hc⟩) hmem rest hrest
  · next hplain =>
      have hmap : text.map exactly = text.map .char :=
        List.map_congr_left fun c hc => if_neg fun hspecial =>
          hplain (List.any_eq_true.2 ⟨c, hc, hspecial⟩)
      rw [hmap, literal?_map_char]

end Token

/-! ## Escaped components -/

namespace Component

/-- The component that stands for a text, as it is read from the escaped text. -/
def exactly (text : List Char) : Component :=
  if text.any isSpecial then wild (text.map Token.exactly) else literal text

/-- An escaped text is read as exactly this text. -/
theorem read_escape (text : List Char) : read (escape text) = .ok (exactly text) := by
  have hstars : escape text ≠ ['*', '*'] := by
    cases text with
    | nil => simp [escape]
    | cons c text =>
        rw [Token.escape_cons]
        split
        · simp
        · next hc =>
            intro heq
            obtain rfl : c = '*' := (List.cons.inj heq).1
            exact absurd (by decide) hc
  have htokens := Token.read_escape text [] 0 true
  rw [List.append_nil, Token.read] at htokens
  rw [read, if_neg hstars, htokens, exactly]
  simp only [Except.map, Functor.map, List.append_nil, Token.literal?_map_exactly]
  cases text.any isSpecial <;> rfl

/-- A name fits the component of a text exactly if it is the text. -/
theorem fits_exactly {text name : List Char} : (exactly text).fits name = true ↔ name = text := by
  rw [exactly]
  split
  · exact Token.fits_map_exactly
  · simp [fits]

/-- A text with special characters does not fit a name without any. -/
theorem not_fits_exactly {text name : List Char} (htext : text.any isSpecial = true)
    (hname : ∀ c ∈ name, isSpecial c = false) : (exactly text).fits name = false := by
  refine Bool.eq_false_iff.2 fun hfits => ?_
  obtain ⟨c, hmem, hc⟩ := List.any_eq_true.1 htext
  rw [← fits_exactly.1 hfits] at hmem
  simp [hname c hmem] at hc

end Component

/-- The pieces of an escaped text are the escaped pieces of the text. -/
theorem splitWhen_escape (text : List Char) :
    Text.splitWhen (· == '/') (escape text) = (Text.splitWhen (· == '/') text).map escape := by
  induction text with
  | nil => rfl
  | cons c text ih =>
      rw [Token.escape_cons, Text.splitWhen]
      cases hcut : Text.splitWhen (· == '/') text with
      | nil => exact absurd hcut (Text.splitWhen_ne_nil _ _)
      | cons piece more =>
          rw [hcut] at ih
          cases hc : isSpecial c with
          | true =>
              have hslash := Token.ne_slash_of_isSpecial hc
              simp [Text.splitWhen, ih, hslash, Token.escape_cons, hc]
          | false =>
              by_cases hslash : c = '/'
              · have hnil : escape [] = [] := rfl
                simp [Text.splitWhen, ih, hslash, hnil]
              · simp [Text.splitWhen, ih, hslash, Token.escape_cons, hc]

end RpmRelease.Glob
