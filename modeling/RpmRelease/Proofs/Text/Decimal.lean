import Mathlib.Algebra.Group.Int.Defs
import Mathlib.Tactic.Common
import RpmRelease.Text.Blank
import RpmRelease.Text.Decimal

/-!
# Reading the digits of a number

The digits of a number, with or without zeros in front of them, are read back as that number.  This
holds in every base up to ten, so octal fields and decimal texts share it.
-/

set_option autoImplicit false

namespace RpmRelease.Text

/-- Whether a character is a digit in a base up to ten. -/
def IsDigit (base : Nat) (c : Char) : Prop :=
  '0'.toNat ≤ c.toNat ∧ c.toNat < '0'.toNat + base

/-- The value of a digit is its distance from zero. -/
theorem digitValue_of_isDigit {base : Nat} {c : Char} (h : IsDigit base c) :
    digitValue base c = some (c.toNat - '0'.toNat) := by
  have hle : '0' ≤ c := h.1
  rw [digitValue, if_pos ⟨hle, h.2⟩]

/-- Digits in bases up to ten are one byte each. -/
theorem IsDigit.toNat_lt {base : Nat} {c : Char} (h : IsDigit base c) (hbase : base ≤ 10) :
    c.toNat < 128 := by
  have hc := h.2
  have hzero : '0'.toNat = 48 := rfl
  omega

/-- Digits in bases up to ten are no blanks. -/
theorem IsDigit.isBlank_eq_false {base : Nat} {c : Char} (h : IsDigit base c)
    (hbase : base ≤ 10) : isBlank c = false := by
  have hlow := h.1
  have hhigh := h.2
  have hzero : '0'.toNat = 48 := rfl
  simp only [isBlank, Bool.or_eq_false_iff, Bool.and_eq_false_iff, decide_eq_false_iff_not,
    beq_eq_false_iff_ne]
  omega

/-- The digits of a number are digits. -/
theorem isDigit_of_mem_digits {base n : Nat} {c : Char} (hlow : 1 < base) (hhigh : base ≤ 10)
    (hc : c ∈ digits base n) : IsDigit base c := by
  rw [digits] at hc
  have hone (m : Nat) (hm : m < base) : IsDigit base m.digitChar := by
    rw [IsDigit, Nat.toNat_digitChar_of_lt_ten (by omega)]
    have hzero : '0'.toNat = 48 := rfl
    omega
  induction n using Nat.strongRecOn with
  | ind n ih =>
      rw [Nat.toDigits_eq_if hlow] at hc
      split at hc
      · next hn =>
          rw [List.mem_singleton] at hc
          exact hc ▸ hone n hn
      · next hn =>
          rcases List.mem_append.1 hc with hc | hc
          · exact ih (n / base) (Nat.div_lt_self (by omega) hlow) hc
          · rw [List.mem_singleton] at hc
            exact hc ▸ hone _ (Nat.mod_lt _ (by omega))

/-- Padding with zeros adds digits. -/
theorem isDigit_of_mem_padZeros {base width : Nat} {cs : List Char} {c : Char} (hbase : 0 < base)
    (h : ∀ d ∈ cs, IsDigit base d) (hc : c ∈ padZeros width cs) : IsDigit base c := by
  rcases List.mem_append.1 hc with hc | hc
  · rw [(List.mem_replicate.1 hc).2]
    exact ⟨Nat.le_refl _, by omega⟩
  · exact h c hc

/-- Reading digits adds them up, the first one weighing most. -/
theorem readDigits_eq {base : Nat} {cs : List Char} (hne : cs ≠ [])
    (h : ∀ c ∈ cs, IsDigit base c) : readDigits base cs = some (Nat.ofDigitChars base cs 0) := by
  have hfold (init : Nat) : cs.foldlM (fun value c => (digitValue base c).map (value * base + ·)) init =
      some (Nat.ofDigitChars base cs init) := by
    clear hne
    induction cs generalizing init with
    | nil => rw [Nat.ofDigitChars_nil]; rfl
    | cons c cs ih =>
        have hc := h c List.mem_cons_self
        have hrest := fun d hd => h d (List.mem_cons_of_mem c hd)
        rw [List.foldlM_cons, digitValue_of_isDigit hc, Nat.ofDigitChars_cons, Nat.mul_comm]
        exact ih hrest _
  rw [readDigits, if_neg (by simpa using hne), hfold]

/-- A character that has a value as a digit is one. -/
theorem isDigit_of_digitValue {base n : Nat} {c : Char} (h : digitValue base c = some n) :
    IsDigit base c := by
  unfold digitValue at h
  split at h
  · next hc => exact hc
  · exact absurd h (by simp)

/-- Nothing but digits is read. -/
theorem isDigit_of_readDigits {base n : Nat} {cs : List Char} (h : readDigits base cs = some n) :
    cs ≠ [] ∧ ∀ c ∈ cs, IsDigit base c := by
  have hfold (init value : Nat)
      (hvalue : cs.foldlM (fun value c => (digitValue base c).map (value * base + ·)) init =
        some value) : ∀ c ∈ cs, IsDigit base c := by
    clear h
    induction cs generalizing init with
    | nil => simp
    | cons c cs ih =>
        rw [List.foldlM_cons] at hvalue
        obtain ⟨next, hnext, hrest⟩ := Option.bind_eq_some_iff.1 hvalue
        obtain ⟨digit, hdigit, -⟩ := Option.map_eq_some_iff.1 hnext
        intro d hd
        rcases List.mem_cons.1 hd with rfl | hd
        · exact isDigit_of_digitValue hdigit
        · exact ih next hrest d hd
  unfold readDigits at h
  split at h
  · exact absurd h (by simp)
  · next hne => exact ⟨by simpa using hne, hfold 0 n h⟩

/-- The digits of a number are read as this number, with zeros in front or without. -/
theorem readDigits_padZeros {base : Nat} (width n : Nat) (hlow : 1 < base) (hhigh : base ≤ 10) :
    readDigits base (padZeros width (digits base n)) = some n := by
  have hdigits : ∀ c ∈ padZeros width (digits base n), IsDigit base c := fun c hc =>
    isDigit_of_mem_padZeros (by omega) (fun d hd => isDigit_of_mem_digits hlow hhigh hd) hc
  have hne : padZeros width (digits base n) ≠ [] := by
    simp [padZeros, digits]
  rw [readDigits_eq hne hdigits, padZeros, Nat.ofDigitChars_append, Nat.ofDigitChars_replicate_zero,
    Nat.mul_zero, digits, Nat.ofDigitChars_toDigits hlow hhigh]

/-- A number below the limit is read from its digits, with zeros in front or without. -/
theorem readUnsignedIn_padZeros {base : Nat} (width : Nat) {n : Nat} (hlow : 1 < base)
    (hhigh : base ≤ 10) (hn : n < unsignedLimit) :
    readUnsignedIn base (padZeros width (digits base n)) = some n := by
  have hhead : (padZeros width (digits base n)).head? ≠ some '+' := by
    intro h
    have hmem := List.mem_of_head? h
    have hplus := isDigit_of_mem_padZeros (by omega)
      (fun d hd => isDigit_of_mem_digits hlow hhigh hd) hmem
    exact absurd hplus.1 (by decide)
  rw [readUnsignedIn, if_neg hhead, readDigits_padZeros width n hlow hhigh]
  simp [hn]

/-- A text without blanks is not trimmed. -/
theorem trim_eq_self {cs : List Char} (h : ∀ c ∈ cs, isBlank c = false) : trim cs = cs := by
  have hkeep (ds : List Char) (hds : ∀ c ∈ ds, isBlank c = false) : ds.dropWhile isBlank = ds := by
    cases ds with
    | nil => rfl
    | cons d ds => rw [List.dropWhile_cons, if_neg (by simp [hds d List.mem_cons_self])]
  rw [trim, trimStart, trimEnd, hkeep cs h, hkeep cs.reverse (by simpa using h), List.reverse_reverse]

/-! ### Numbers with a sign -/

/-- The number that a text denotes: one or more digits, which may have a sign before them. -/
inductive Denotes : List Char → Int → Prop
  | bare {ds : List Char} (hne : ds ≠ []) (h : ∀ c ∈ ds, IsDigit 10 c) :
    Denotes ds (Nat.ofDigitChars 10 ds 0)
  | plus {ds : List Char} (hne : ds ≠ []) (h : ∀ c ∈ ds, IsDigit 10 c) :
    Denotes ('+' :: ds) (Nat.ofDigitChars 10 ds 0)
  | minus {ds : List Char} (hne : ds ≠ []) (h : ∀ c ∈ ds, IsDigit 10 c) :
    Denotes ('-' :: ds) (-Nat.ofDigitChars 10 ds 0)

/-- Exactly the numbers that fit into 64 bits together with their sign are read. -/
theorem readSigned_eq_some_iff {cs : List Char} {n : Int} :
    readSigned cs = some n ↔ Denotes cs n ∧ -2 ^ 63 ≤ n ∧ n < 2 ^ 63 := by
  have hlimit : signedLimit = 2 ^ 63 := rfl
  constructor
  · intro h
    unfold readSigned at h
    split at h
    all_goals
      obtain ⟨value, hvalue, hfits⟩ := Option.bind_eq_some_iff.1 h
      obtain ⟨hne, hdigits⟩ := isDigit_of_readDigits hvalue
      rw [readDigits_eq hne hdigits] at hvalue
      obtain rfl := Option.some.inj hvalue
      split at hfits
    · obtain rfl := Option.some.inj hfits
      exact ⟨.minus hne hdigits, by omega, by omega⟩
    · exact absurd hfits (by simp)
    · obtain rfl := Option.some.inj hfits
      exact ⟨.plus hne hdigits, by omega, by omega⟩
    · exact absurd hfits (by simp)
    · obtain rfl := Option.some.inj hfits
      exact ⟨.bare hne hdigits, by omega, by omega⟩
    · exact absurd hfits (by simp)
  · rintro ⟨hdenotes, hlow, hhigh⟩
    cases hdenotes with
    | plus hne h => rw [readSigned, readDigits_eq hne h, Option.bind_some, if_pos (by omega)]
    | minus hne h => rw [readSigned, readDigits_eq hne h, Option.bind_some, if_pos (by omega)]
    | bare hne h =>
      -- a digit is no sign
      have hsign (c : Char) (hc : ¬IsDigit 10 c) (ds : List Char) : cs ≠ c :: ds := fun hcs =>
        hc (h c (by simp [hcs]))
      unfold readSigned
      split
      · next ds => exact absurd rfl (hsign '-' (by unfold IsDigit; decide) ds)
      · next ds => exact absurd rfl (hsign '+' (by unfold IsDigit; decide) ds)
      · rw [readDigits_eq hne h, Option.bind_some, if_pos (by omega)]

/-- A number is written as its digits, those of a negative one behind a minus sign. -/
theorem toList_toString (n : Int) :
    (toString n).toList = (if n < 0 then ['-'] else []) ++ digits 10 n.natAbs := by
  cases n with
  | ofNat n =>
      have hrepr : toString (Int.ofNat n) = Nat.repr n := rfl
      have hnot : ¬Int.ofNat n < 0 := Int.not_lt.2 (Int.natCast_nonneg n)
      rw [hrepr, Nat.repr, String.toList_ofList, if_neg hnot, List.nil_append, digits]
      rfl
  | negSucc n =>
      have hrepr : toString (Int.negSucc n) = "-" ++ Nat.repr (n + 1) := rfl
      have hminus : "-".toList = ['-'] := rfl
      rw [hrepr, String.toList_append, hminus, Nat.repr, String.toList_ofList,
        if_pos (Int.negSucc_lt_zero n), digits]
      rfl

/-- A number is denoted by what is written for it. -/
theorem denotes_toString (n : Int) : Denotes (toString n).toList n := by
  have hne : digits 10 n.natAbs ≠ [] := by simp [digits]
  have hdigits : ∀ c ∈ digits 10 n.natAbs, IsDigit 10 c := fun c hc =>
    isDigit_of_mem_digits (by omega) (by omega) hc
  have hvalue : Nat.ofDigitChars 10 (digits 10 n.natAbs) 0 = n.natAbs :=
    Nat.ofDigitChars_toDigits (by omega) (by omega)
  rw [toList_toString]
  split
  · next hneg =>
      have hminus := Denotes.minus hne hdigits
      rwa [hvalue, show (-(n.natAbs : Int)) = n by omega] at hminus
  · next hnot =>
      have hbare := Denotes.bare hne hdigits
      rwa [hvalue, show (n.natAbs : Int) = n by omega] at hbare

end RpmRelease.Text
