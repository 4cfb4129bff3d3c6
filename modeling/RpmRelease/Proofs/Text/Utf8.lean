import Mathlib.Tactic.Common
import RpmRelease.Text.Utf8

/-!
# Reading what was written in UTF-8

A character has one to four bytes.  Each of the four lengths is read back on its own, in front of
any rest; the first byte decides which ranges the bytes behind it have to meet, and for a character
they meet them.  The main statements are that `decode` and `decodeLossy` give back every text that
`encode` writes.
-/

set_option autoImplicit false

namespace RpmRelease.Text.Utf8

/-! ## Reading one character -/

/-- A byte in the first of some ranges is taken, with its bits. -/
theorem follow_cons {low high b : UInt8} (ranges : List (UInt8 × UInt8)) (value : Nat)
    (rest : Bytes) (hlow : low.toNat ≤ b.toNat) (hhigh : b.toNat ≤ high.toNat) :
    follow ((low, high) :: ranges) value (b :: rest) =
      ((follow ranges (value * 64 + (b.toNat - 0x80)) rest).1,
        (follow ranges (value * 64 + (b.toNat - 0x80)) rest).2 + 1) := by
  have hboth : (low ≤ b && b ≤ high) = true := by
    simp [UInt8.le_iff_toNat_le, hlow, hhigh]
  simp only [follow, hboth, if_true]

/-- A sequence of bytes that is well formed is one character. -/
theorem pieces_cons {lead : UInt8} {ranges : List (UInt8 × UInt8)} {rest : Bytes} {value taken : Nat}
    (hranges : continuations lead = some ranges)
    (hfollow : follow ranges (leadBits lead) rest = (some value, taken)) :
    pieces (lead :: rest) = some (Char.ofNat value) :: pieces (rest.drop taken) := by
  rw [pieces, hranges]
  simp only [hfollow]

/-- The code point of a character is its own. -/
theorem ofNat_val (c : Char) : Char.ofNat c.val.toNat = c :=
  Char.ofNat_toNat c

/-- Code points up to 7 bits are one byte. -/
theorem pieces_one {v : Nat} (rest : Bytes) (hv : v ≤ 0x7f) :
    pieces (UInt8.ofNat v :: rest) = some (Char.ofNat v) :: pieces rest := by
  have hlead : (UInt8.ofNat v).toNat = v := by simp; omega
  have hless : UInt8.ofNat v < 0x80 := by
    rw [UInt8.lt_iff_toNat_lt, hlead]
    simp; omega
  have hranges : continuations (UInt8.ofNat v) = some [] := by
    simp [continuations, hless]
  have hfollow : follow [] (leadBits (UInt8.ofNat v)) rest = (some v, 0) := by
    simp [follow, leadBits, hless, hlead]
  rw [pieces_cons hranges hfollow, List.drop_zero]

/-- The ranges behind a first byte, told by the number of that byte. -/
theorem continuations_ofNat {n : Nat} (hn : n < 256) :
    continuations (UInt8.ofNat n) =
      if n < 0x80 then some []
      else if n < 0xC2 then none
      else if n < 0xE0 then some [(0x80, 0xBF)]
      else if n = 0xE0 then some [(0xA0, 0xBF), (0x80, 0xBF)]
      else if n = 0xED then some [(0x80, 0x9F), (0x80, 0xBF)]
      else if n < 0xF0 then some [(0x80, 0xBF), (0x80, 0xBF)]
      else if n = 0xF0 then some [(0x90, 0xBF), (0x80, 0xBF), (0x80, 0xBF)]
      else if n < 0xF4 then some [(0x80, 0xBF), (0x80, 0xBF), (0x80, 0xBF)]
      else if n = 0xF4 then some [(0x80, 0x8F), (0x80, 0xBF), (0x80, 0xBF)]
      else none := by
  have hmod : n % 256 = n := Nat.mod_eq_of_lt hn
  simp [continuations, UInt8.lt_iff_toNat_lt, ← UInt8.toNat_inj, hmod]

/-- The bits of a lead byte are what remains when its mark is taken off. -/
theorem leadBits_ofNat {n : Nat} (hn : n < 256) :
    leadBits (UInt8.ofNat n) =
      if n < 0x80 then n else if n < 0xE0 then n - 0xC0 else if n < 0xF0 then n - 0xE0
      else n - 0xF0 := by
  have hmod : n % 256 = n := Nat.mod_eq_of_lt hn
  simp [leadBits, UInt8.lt_iff_toNat_lt, hmod]

/-- A byte with six bits is taken, if it is in the first range. -/
theorem follow_ofNat {low high : UInt8} (ranges : List (UInt8 × UInt8)) (value : Nat) {bits : Nat}
    (rest : Bytes) (hbits : bits < 64) (hlow : low.toNat ≤ bits + 0x80)
    (hhigh : bits + 0x80 ≤ high.toNat) :
    follow ((low, high) :: ranges) value (UInt8.ofNat (bits + 0x80) :: rest) =
      ((follow ranges (value * 64 + bits) rest).1,
        (follow ranges (value * 64 + bits) rest).2 + 1) := by
  have hbyte : (UInt8.ofNat (bits + 0x80)).toNat = bits + 0x80 := by
    simp; omega
  rw [follow_cons ranges value rest (by omega) (by omega), hbyte]
  simp

/-- Code points up to 11 bits are two bytes. -/
theorem pieces_two {v : Nat} (rest : Bytes) (hlow : 0x7f < v) (hhigh : v ≤ 0x7ff) :
    pieces (UInt8.ofNat (v / 64 % 0x20 + 0xc0) :: UInt8.ofNat (v % 0x40 + 0x80) :: rest) =
      some (Char.ofNat v) :: pieces rest := by
  have hranges : continuations (UInt8.ofNat (v / 64 % 0x20 + 0xc0)) = some [(0x80, 0xBF)] := by
    rw [continuations_ofNat (by omega), if_neg (by omega), if_neg (by omega), if_pos (by omega)]
  have hfollow : follow [(0x80, 0xBF)] (leadBits (UInt8.ofNat (v / 64 % 0x20 + 0xc0)))
      (UInt8.ofNat (v % 0x40 + 0x80) :: rest) = (some v, 1) := by
    rw [leadBits_ofNat (by omega), if_neg (by omega), if_pos (by omega),
      follow_ofNat _ _ _ (by omega) (by simp) (by simp; omega)]
    have hvalue : (v / 64 % 0x20 + 0xc0 - 0xC0) * 64 + v % 0x40 = v := by omega
    simp only [follow, hvalue]
  rw [pieces_cons hranges hfollow, List.drop_one, List.tail_cons]

/-- A character of three bytes is read back; no half of a surrogate pair is a character. -/
theorem pieces_three {v : Nat} (rest : Bytes) (hlow : 0x7ff < v) (hhigh : v ≤ 0xffff)
    (hvalid : v < 0xd800 ∨ 0xdfff < v) :
    pieces (UInt8.ofNat (v / 4096 % 0x10 + 0xe0) :: UInt8.ofNat (v / 64 % 0x40 + 0x80) ::
      UInt8.ofNat (v % 0x40 + 0x80) :: rest) = some (Char.ofNat v) :: pieces rest := by
  have hvalue : ((v / 4096 % 0x10 + 0xe0 - 0xE0) * 64 + v / 64 % 0x40) * 64 + v % 0x40 = v := by
    omega
  have hread (low high : UInt8) (hl : low.toNat ≤ v / 64 % 0x40 + 0x80)
      (hh : v / 64 % 0x40 + 0x80 ≤ high.toNat) :
      follow [(low, high), (0x80, 0xBF)] (leadBits (UInt8.ofNat (v / 4096 % 0x10 + 0xe0)))
        (UInt8.ofNat (v / 64 % 0x40 + 0x80) :: UInt8.ofNat (v % 0x40 + 0x80) :: rest) =
          (some v, 2) := by
    rw [leadBits_ofNat (by omega), if_neg (by omega), if_neg (by omega), if_pos (by omega),
      follow_ofNat _ _ _ (by omega) hl hh, follow_ofNat _ _ _ (by omega) (by simp) (by simp; omega)]
    simp only [follow, hvalue]
  have hranges := continuations_ofNat (n := v / 4096 % 0x10 + 0xe0) (by omega)
  rw [if_neg (by omega), if_neg (by omega), if_neg (by omega)] at hranges
  by_cases hfirst : v / 4096 % 0x10 + 0xe0 = 0xE0
  · rw [if_pos hfirst] at hranges
    exact pieces_cons hranges (hread _ _ (by simp; omega) (by simp; omega))
  · rw [if_neg hfirst] at hranges
    by_cases hsurrogate : v / 4096 % 0x10 + 0xe0 = 0xED
    · rw [if_pos hsurrogate] at hranges
      exact pieces_cons hranges (hread _ _ (by simp) (by simp; omega))
    · rw [if_neg hsurrogate, if_pos (by omega)] at hranges
      exact pieces_cons hranges (hread _ _ (by simp) (by simp; omega))

/-- A character of four bytes is read back; no number above the last character is one. -/
theorem pieces_four {v : Nat} (rest : Bytes) (hlow : 0xffff < v) (hhigh : v < 0x110000) :
    pieces (UInt8.ofNat (v / 262144 % 0x08 + 0xf0) :: UInt8.ofNat (v / 4096 % 0x40 + 0x80) ::
      UInt8.ofNat (v / 64 % 0x40 + 0x80) :: UInt8.ofNat (v % 0x40 + 0x80) :: rest) =
        some (Char.ofNat v) :: pieces rest := by
  have hvalue : (((v / 262144 % 0x08 + 0xf0 - 0xF0) * 64 + v / 4096 % 0x40) * 64 +
      v / 64 % 0x40) * 64 + v % 0x40 = v := by
    omega
  have hread (low high : UInt8) (hl : low.toNat ≤ v / 4096 % 0x40 + 0x80)
      (hh : v / 4096 % 0x40 + 0x80 ≤ high.toNat) :
      follow [(low, high), (0x80, 0xBF), (0x80, 0xBF)]
        (leadBits (UInt8.ofNat (v / 262144 % 0x08 + 0xf0)))
        (UInt8.ofNat (v / 4096 % 0x40 + 0x80) :: UInt8.ofNat (v / 64 % 0x40 + 0x80) ::
          UInt8.ofNat (v % 0x40 + 0x80) :: rest) = (some v, 3) := by
    rw [leadBits_ofNat (by omega), if_neg (by omega), if_neg (by omega), if_neg (by omega),
      follow_ofNat _ _ _ (by omega) hl hh, follow_ofNat _ _ _ (by omega) (by simp) (by simp; omega),
      follow_ofNat _ _ _ (by omega) (by simp) (by simp; omega)]
    simp only [follow, hvalue]
  have hranges := continuations_ofNat (n := v / 262144 % 0x08 + 0xf0) (by omega)
  rw [if_neg (by omega), if_neg (by omega), if_neg (by omega), if_neg (by omega),
    if_neg (by omega), if_neg (by omega)] at hranges
  by_cases hfirst : v / 262144 % 0x08 + 0xf0 = 0xF0
  · rw [if_pos hfirst] at hranges
    exact pieces_cons hranges (hread _ _ (by simp; omega) (by simp; omega))
  · rw [if_neg hfirst] at hranges
    by_cases hlast : v / 262144 % 0x08 + 0xf0 < 0xF4
    · rw [if_pos hlast] at hranges
      exact pieces_cons hranges (hread _ _ (by simp) (by simp; omega))
    · rw [if_neg hlast, if_pos (by omega)] at hranges
      exact pieces_cons hranges (hread _ _ (by simp) (by simp; omega))

/-- The bytes of a character are read as that character, whatever is behind them. -/
theorem pieces_encodeChar (c : Char) (rest : Bytes) :
    pieces (String.utf8EncodeChar c ++ rest) = some c :: pieces rest := by
  have hvalid : c.val.toNat < 0xd800 ∨ 0xdfff < c.val.toNat ∧ c.val.toNat < 0x110000 := c.valid
  rw [← ofNat_val c]
  generalize hv : c.val.toNat = v at hvalid
  have hback : (Char.ofNat v).val.toNat = v := by
    rw [← hv, ofNat_val]
  simp only [String.utf8EncodeChar, hback]
  by_cases h1 : v ≤ 0x7f
  · rw [if_pos h1]
    exact pieces_one rest h1
  rw [if_neg h1]
  by_cases h2 : v ≤ 0x7ff
  · rw [if_pos h2]
    exact pieces_two rest (by omega) h2
  rw [if_neg h2]
  by_cases h3 : v ≤ 0xffff
  · rw [if_pos h3]
    exact pieces_three rest (by omega) h3 (by omega)
  rw [if_neg h3]
  exact pieces_four rest (by omega) (by omega)

/-! ## Reading a text -/

/-- A text in front of other bytes is read as its characters. -/
theorem pieces_encode_append (cs : List Char) (rest : Bytes) :
    pieces (encode cs ++ rest) = cs.map some ++ pieces rest := by
  induction cs with
  | nil => rfl
  | cons c cs ih =>
      have happend : encode (c :: cs) ++ rest = String.utf8EncodeChar c ++ (encode cs ++ rest) := by
        simp [encode]
      rw [happend, pieces_encodeChar, ih, List.map_cons, List.cons_append]

/-- A text is read as its characters. -/
theorem pieces_encode (cs : List Char) : pieces (encode cs) = cs.map some := by
  have h := pieces_encode_append cs []
  rwa [List.append_nil, pieces, List.append_nil] at h

/-- A text is decoded from its bytes. -/
theorem decode_encode (cs : List Char) : decode (encode cs) = some cs := by
  rw [decode, pieces_encode, List.mapM_map]
  simpa using List.mapM_pure (m := Option) (l := cs) (f := id)

/-- A text is decoded from its bytes without replacements. -/
theorem decodeLossy_encode (cs : List Char) : decodeLossy (encode cs) = cs := by
  rw [decodeLossy, pieces_encode, List.map_map]
  exact List.map_id cs

/-- Two texts are encoded one after the other. -/
theorem encode_append (cs ds : List Char) : encode (cs ++ ds) = encode cs ++ encode ds := by
  simp [encode]

/-- A text of ASCII characters takes as many bytes as it has characters. -/
theorem encode_of_ascii {cs : List Char} (h : ∀ c ∈ cs, c.toNat < 128) :
    encode cs = cs.map fun c => UInt8.ofNat c.toNat := by
  induction cs with
  | nil => rfl
  | cons c cs ih =>
      have hc : c.val.toNat ≤ 0x7f := by
        have := h c List.mem_cons_self
        simp only [Char.toNat] at this
        omega
      have hone : String.utf8EncodeChar c = [UInt8.ofNat c.toNat] := by
        simp only [String.utf8EncodeChar, if_pos hc, Char.toNat]
      have hrest := ih fun d hd => h d (List.mem_cons_of_mem _ hd)
      simp only [encode] at hrest
      simp only [encode, List.flatMap_cons, hone, hrest, List.map_cons, List.cons_append,
        List.nil_append]

/-- A string has as many bytes as its size says. -/
theorem length_ofString (s : String) : (ofString s).length = s.utf8ByteSize := by
  have hbytes : s.toByteArray = s.toList.utf8Encode := by
    rw [← String.toByteArray_ofList, String.ofList_toList]
  rw [← String.size_toByteArray, hbytes]
  simp [List.utf8Encode, ofString, encode]

/-- Characters that are replaced by others of the same size keep a text at its size. -/
theorem length_encode_map {f : Char → Char}
    (h : ∀ c, (String.utf8EncodeChar (f c)).length = (String.utf8EncodeChar c).length)
    (cs : List Char) : (encode (cs.map f)).length = (encode cs).length := by
  induction cs with
  | nil => rfl
  | cons c cs ih =>
      simp only [encode, List.map_cons, List.flatMap_cons, List.length_append, h] at ih ⊢
      rw [ih]

end RpmRelease.Text.Utf8
