import Mathlib.Algebra.Ring.Nat
import Mathlib.Tactic.Common
import RpmRelease.Proofs.Text.Decimal
import RpmRelease.Proofs.Text.Utf8
import RpmRelease.Tar.Header

/-!
# Reading a header block that was written

A header fits when each of its parts fits into its field.  The block of such a header has the size
of a block, states its own checksum, and every reader of a field gives back what was written there.
Numbers are read back in both forms, octal and binary.
-/

set_option autoImplicit false

namespace RpmRelease.Tar

/-! ## Numbers -/

/-- The text of an octal field. -/
def octalText (width n : Nat) : List Char :=
  Text.padZeros (width - 1)
    ((Text.digits 8 n).drop ((Text.digits 8 n).length - (width - 1)))

/-- An octal field holds its digits and a NUL. -/
theorem octal_eq (width n : Nat) : octal width n = Text.Utf8.encode (octalText width n) ++ [0] := rfl

/-- An octal field holds octal digits. -/
theorem isDigit_of_mem_octalText {width n : Nat} {c : Char} (hc : c ∈ octalText width n) :
    Text.IsDigit 8 c :=
  Text.isDigit_of_mem_padZeros (by decide)
    (fun _ hd => Text.isDigit_of_mem_digits (by decide) (by decide) (List.mem_of_mem_drop hd)) hc

/-- The digits of an octal field are one byte each. -/
theorem encode_octalText (width n : Nat) :
    Text.Utf8.encode (octalText width n) =
      (octalText width n).map fun c => UInt8.ofNat c.toNat :=
  Text.Utf8.encode_of_ascii fun _ hc => (isDigit_of_mem_octalText hc).toNat_lt (by decide)

/-- An octal field has digits in all places but one. -/
theorem length_octalText (width n : Nat) : (octalText width n).length = width - 1 := by
  simp only [octalText, Text.padZeros, List.length_append, List.length_replicate, List.length_drop]
  omega

/-- An octal field has its width. -/
theorem length_octal {width : Nat} (n : Nat) (hwidth : 0 < width) :
    (octal width n).length = width := by
  rw [octal_eq, encode_octalText, List.length_append, List.length_map, length_octalText]
  simp
  omega

/-- The byte of a digit is neither NUL nor has the mark of a binary number. -/
theorem byte_of_isDigit {c : Char} (hc : Text.IsDigit 8 c) :
    UInt8.ofNat c.toNat ≠ 0 ∧ UInt8.ofNat c.toNat &&& 0x80 = 0 := by
  have hzero : '0'.toNat = 48 := rfl
  have hcases : c.toNat = 48 ∨ c.toNat = 49 ∨ c.toNat = 50 ∨ c.toNat = 51 ∨ c.toNat = 52 ∨
      c.toNat = 53 ∨ c.toNat = 54 ∨ c.toNat = 55 := by
    have hlow := hc.1
    have hhigh := hc.2
    omega
  rcases hcases with h | h | h | h | h | h | h | h <;> rw [h] <;> decide

/-- A field is cut at its first NUL. -/
theorem cut_append_zero {bytes : Bytes} (rest : Bytes) (h : 0 ∉ bytes) :
    cut (bytes ++ 0 :: rest) = bytes := by
  rw [cut, List.takeWhile_append_of_pos]
  · simp
  · intro b hb
    have hne : b ≠ 0 := fun hzero => h (hzero ▸ hb)
    simpa using hne

/-- A number that fits into an octal field is read back. -/
theorem readOctal_octal {width n : Nat} (hwidth : 1 < width) (hn : n < 8 ^ (width - 1))
    (hlimit : n < Text.unsignedLimit) : readOctal (octal width n) = .ok n := by
  have htext : octalText width n = Text.padZeros (width - 1) (Text.digits 8 n) := by
    have hlength : (Text.digits 8 n).length ≤ width - 1 :=
      (Nat.length_toDigits_le_iff (by decide) (by omega)).2 hn
    rw [octalText, Nat.sub_eq_zero_of_le hlength, List.drop_zero]
  have hnonzero : 0 ∉ Text.Utf8.encode (octalText width n) := by
    rw [encode_octalText]
    intro hmem
    obtain ⟨c, hc, hzero⟩ := List.mem_map.1 hmem
    exact (byte_of_isDigit (isDigit_of_mem_octalText hc)).1 hzero
  have hblank : ∀ c ∈ octalText width n, Text.isBlank c = false := fun c hc =>
    (isDigit_of_mem_octalText hc).isBlank_eq_false (by decide)
  have hread : Text.readUnsignedIn 8 (octalText width n) = some n := by
    rw [htext]
    exact Text.readUnsignedIn_padZeros (width - 1) (by decide) (by decide) hlimit
  rw [readOctal, octal_eq, cut_append_zero [] hnonzero, Text.Utf8.decode_encode]
  simp only [Text.trim_eq_self hblank, hread]

/-- An octal field has no mark of a binary number. -/
theorem head_octal {width : Nat} (n : Nat) (hwidth : 1 < width) :
    (octal width n).headD 0 &&& 0x80 = 0 := by
  cases htext : octalText width n with
  | nil =>
      have hlength := length_octalText width n
      rw [htext, List.length_nil] at hlength
      omega
  | cons c cs =>
      have hc : Text.IsDigit 8 c := isDigit_of_mem_octalText (htext ▸ List.mem_cons_self)
      rw [octal_eq, encode_octalText, htext]
      exact (byte_of_isDigit hc).2

/-- A binary field has its width. -/
theorem length_binaryDigits (width n : Nat) : (binaryDigits width n).length = width := by
  induction width generalizing n with
  | zero => rfl
  | succ width ih => rw [binaryDigits, List.length_append, ih, List.length_singleton]

/-- Binary digits fall into those of the quotient and those of the rest. -/
theorem binaryDigits_add (high low n : Nat) :
    binaryDigits (high + low) n = binaryDigits high (n / 256 ^ low) ++ binaryDigits low n := by
  induction low generalizing n with
  | zero => simp [binaryDigits]
  | succ low ih =>
      rw [← Nat.add_assoc, binaryDigits, binaryDigits, ih, Nat.div_div_eq_div_mul, Nat.pow_succ,
        Nat.mul_comm, List.append_assoc]

/-- Binary digits add up to the number as far as they reach. -/
theorem foldl_binaryDigits (width n init : Nat) :
    (binaryDigits width n).foldl (fun n b => n * 256 + b.toNat) init =
      init * 256 ^ width + n % 256 ^ width := by
  induction width generalizing n with
  | zero => simp [binaryDigits, Nat.mod_one]
  | succ width ih =>
      have hlast : (UInt8.ofNat n).toNat = n % 256 := by simp
      have hmod : n % 256 ^ (width + 1) = n / 256 % 256 ^ width * 256 + n % 256 := by
        rw [Nat.pow_succ, Nat.mul_comm (256 ^ width) 256, Nat.mod_mul]
        omega
      rw [binaryDigits, List.foldl_append, ih]
      simp only [List.foldl_cons, List.foldl_nil, hlast]
      rw [hmod, Nat.pow_succ, Nat.add_mul, Nat.mul_assoc, Nat.add_assoc]

/-- A number in a binary field is its eight lower bytes behind four others, the first one marked. -/
theorem binary_eq {n : Nat} : ∃ first middle, (first &&& 0x80 != 0) = true ∧ middle.length = 3 ∧
    binary 12 n = first :: (middle ++ binaryDigits 8 n) := by
  have hdigits : binaryDigits 12 n = binaryDigits 4 (n / 256 ^ 8) ++ binaryDigits 8 n :=
    binaryDigits_add 4 8 n
  cases hhigh : binaryDigits 4 (n / 256 ^ 8) with
  | nil =>
      have hlength := length_binaryDigits 4 (n / 256 ^ 8)
      rw [hhigh, List.length_nil] at hlength
      exact absurd hlength (by decide)
  | cons first middle =>
      have hlength := length_binaryDigits 4 (n / 256 ^ 8)
      rw [hhigh, List.length_cons] at hlength
      refine ⟨first ||| 0x80, middle, ?_, by omega, ?_⟩
      · have hbit : (first ||| 0x80) &&& 0x80 = 0x80 := by
          rw [← UInt8.toBitVec_inj, UInt8.toBitVec_and, UInt8.toBitVec_or]
          ext i hi
          rw [BitVec.getElem_and, BitVec.getElem_or]
          cases first.toBitVec[i] <;> cases (0x80 : UInt8).toBitVec[i] <;> rfl
        rw [hbit]
        decide
      · rw [binary, hdigits, hhigh]
        rfl

/-- A number has twelve bytes, however it is written. -/
theorem length_number (n : Nat) : (number n).length = 12 := by
  unfold number
  split
  · obtain ⟨first, middle, _, hmiddle, heq⟩ := binary_eq (n := n)
    rw [heq, List.length_cons, List.length_append, length_binaryDigits, hmiddle]
  · exact length_octal n (by decide)

/-- A number of 64 bits is read back, in whichever form it was written. -/
theorem readNumber_number {n : Nat} (hn : n < Text.unsignedLimit) :
    readNumber (number n) = .ok n := by
  unfold number
  split
  · obtain ⟨first, middle, hmark, hmiddle, heq⟩ := binary_eq (n := n)
    have hlength : (binary 12 n).length = 12 := by
      rw [heq, List.length_cons, List.length_append, length_binaryDigits, hmiddle]
    have hdrop : (binary 12 n).drop 4 = binaryDigits 8 n := by
      rw [heq, List.drop_succ_cons, List.drop_append_of_le_length (by omega), ← hmiddle,
        List.drop_length, List.nil_append]
    have hvalue : n % 256 ^ 8 = n := Nat.mod_eq_of_lt hn
    have hhead : ((binary 12 n).headD 0 &&& 0x80 != 0) = true := by
      rw [heq]
      exact hmark
    rw [readNumber, if_pos hhead, hlength, hdrop, foldl_binaryDigits, hvalue]
    simp
  · next hsmall =>
      have hoctal : n < 8 ^ (12 - 1) := by
        rw [octalLimit] at hsmall
        omega
      have hhead : ((octal 12 n).headD 0 &&& 0x80 != 0) = false := by
        rw [head_octal n (by decide)]
        rfl
      rw [readNumber, if_neg (by rw [hhead]; decide)]
      exact readOctal_octal (by decide) hoctal hn

/-! ## Blocks -/

/-- Each part of a header fits into its field. -/
structure Header.Fits (h : Header) : Prop where
  name : h.name.length ≤ 100
  mode : h.mode < 8 ^ 7
  size : h.size < Text.unsignedLimit
  time : h.time < Text.unsignedLimit
  linkName : h.linkName.length ≤ 100

/-- What a header block holds in front of its checksum. -/
def Header.before (h : Header) : Bytes :=
  pad 100 h.name ++ octal 8 h.mode ++ octal 8 0 ++ octal 8 0 ++ number h.size ++ number h.time

/-- What a header block holds behind its checksum. -/
def Header.after (h : Header) : Bytes :=
  h.kind :: pad 100 h.linkName ++ longMagic ++ List.replicate 247 0

/-- The fields of a header block, one behind the other. -/
def Header.row (h : Header) : List Bytes :=
  [pad 100 h.name, octal 8 h.mode, octal 8 0, octal 8 0, number h.size, number h.time,
    octal 8 (checksum h.before h.after), [h.kind], pad 100 h.linkName, longMagic,
    List.replicate 247 0]

/-- The widths of these fields. -/
def Header.widths : List Nat := [100, 8, 8, 8, 12, 12, 8, 1, 100, 8, 247]

/-- A header is in the fields of a block. -/
structure Header.InFields (h : Header) (block : Bytes) : Prop where
  name : Field.name.get block = pad 100 h.name
  mode : Field.mode.get block = octal 8 h.mode
  user : Field.user.get block = octal 8 0
  group : Field.group.get block = octal 8 0
  size : Field.size.get block = number h.size
  time : Field.time.get block = number h.time
  checksum : Field.checksum.get block = octal 8 (checksum h.before h.after)
  kind : Field.kind.get block = [h.kind]
  linkName : Field.linkName.get block = pad 100 h.linkName
  magic : Field.magic.get block = longMagic

/-- A header is what the readers of the fields find in a block. -/
structure Header.ReadFrom (h : Header) (block : Bytes) : Prop where
  name : nameOf block = cut h.name
  mode : modeOf block = .ok h.mode
  user : readOctal (Field.user.get block) = .ok 0
  group : readOctal (Field.group.get block) = .ok 0
  size : readNumber (Field.size.get block) = .ok h.size
  time : timeOf block = .ok h.time
  kind : kindOf block = h.kind
  linkName : linkNameOf block = if (cut h.linkName).isEmpty then none else some (cut h.linkName)
  longFormat : isLongFormat block = true

/-- A padded field has its width. -/
theorem length_pad {width : Nat} {bytes : Bytes} (h : bytes.length ≤ width) :
    (pad width bytes).length = width := by
  rw [pad, List.length_append, List.length_replicate]
  omega

/-- Padding a field does not change what is read up to the first NUL. -/
theorem cut_pad (width : Nat) (bytes : Bytes) : cut (pad width bytes) = cut bytes := by
  rw [pad, cut, List.takeWhile_append]
  split
  · next hall =>
      have hself : bytes.takeWhile (· != 0) = bytes :=
        (List.takeWhile_prefix _).eq_of_length hall
      have hzeros : (List.replicate (width - bytes.length) (0 : UInt8)).takeWhile (· != 0) = [] := by
        cases width - bytes.length <;> rfl
      rw [hzeros, List.append_nil, cut, hself]
  · rfl

/-- Of bytes in a row, a field as wide as one of them holds it, behind the widths of those before. -/
theorem Field.get_flatten {row : List Bytes} (i : Nat) (hi : i < row.length) :
    Field.get ⟨((row.map List.length).take i).sum, (row[i]).length⟩ row.flatten = row[i] := by
  induction row generalizing i with
  | nil => exact absurd hi (Nat.not_lt_zero i)
  | cons bytes row ih =>
      cases i with
      | zero => exact List.take_left
      | succ i =>
          have hrest := ih i (Nat.lt_of_succ_lt_succ hi)
          rw [Field.get] at hrest ⊢
          simp only [List.map_cons, List.take_succ_cons, List.sum_cons, List.flatten_cons,
            List.getElem_cons_succ]
          rw [← List.drop_drop, List.drop_left]
          exact hrest

namespace Header

variable {h : Header}

/-- The checksum of a header stands between what is before it and what is after it. -/
theorem encode_eq (h : Header) :
    h.encode = h.before ++ (octal 8 (checksum h.before h.after) ++ h.after) := by
  rw [← List.append_assoc]
  rfl

/-- Before the checksum there are 148 bytes. -/
theorem length_before (fits : h.Fits) : h.before.length = 148 := by
  simp only [before, List.length_append, length_pad fits.name, length_octal _ (by decide : 0 < 8),
    length_number]

/-- After the checksum there are 356 bytes. -/
theorem length_after (fits : h.Fits) : h.after.length = 356 := by
  have hmagic : longMagic.length = 8 := by decide
  simp only [after, List.length_append, List.length_cons, length_pad fits.linkName, hmagic,
    List.length_replicate]

/-- A header takes up one block. -/
theorem length_encode (fits : h.Fits) : h.encode.length = blockSize := by
  rw [encode_eq, List.length_append, List.length_append, length_before fits, length_after fits,
    length_octal _ (by decide)]
  rfl

/-- A header is the row of its fields. -/
theorem encode_eq_flatten (h : Header) : h.encode = h.row.flatten := by
  simp only [encode_eq, before, after, row, List.flatten_cons, List.flatten_nil, List.append_assoc,
    List.cons_append, List.nil_append, List.append_nil]

/-- The fields of a header have the widths of a block. -/
theorem map_length_row (fits : h.Fits) : h.row.map List.length = widths := by
  have hmagic : longMagic.length = 8 := by decide
  simp only [row, widths, List.map_cons, List.map_nil, length_pad fits.name,
    length_pad fits.linkName, length_octal _ (by decide : 0 < 8), length_number, hmagic,
    List.length_cons, List.length_nil, List.length_replicate]

/-- Each field of a written block stands behind the widths of the fields in front of it. -/
theorem get_encode (fits : h.Fits) (i : Nat) {width : Nat} {bytes : Bytes}
    (hwidth : widths[i]? = some width) (hbytes : h.row[i]? = some bytes) :
    Field.get ⟨(widths.take i).sum, width⟩ h.encode = bytes := by
  obtain ⟨hi, hrow⟩ := List.getElem?_eq_some_iff.mp hbytes
  have hlength : (h.row[i]).length = width := by
    rw [← map_length_row fits, List.getElem?_map, hbytes] at hwidth
    rw [hrow]
    exact Option.some.inj hwidth
  have hget := Field.get_flatten i hi
  rw [map_length_row fits, hlength, ← encode_eq_flatten, hrow] at hget
  exact hget

/-- A header that fits is in the fields of its block. -/
theorem inFields_encode (fits : h.Fits) : h.InFields h.encode where
  name := get_encode fits 0 rfl rfl
  mode := get_encode fits 1 rfl rfl
  user := get_encode fits 2 rfl rfl
  group := get_encode fits 3 rfl rfl
  size := get_encode fits 4 rfl rfl
  time := get_encode fits 5 rfl rfl
  checksum := get_encode fits 6 rfl rfl
  kind := get_encode fits 7 rfl rfl
  linkName := get_encode fits 8 rfl rfl
  magic := get_encode fits 9 rfl rfl

/-! ## What readers make of a block -/

/-- The sum of bytes is bounded by their number. -/
theorem sum_le (bytes : Bytes) : sum bytes ≤ 255 * bytes.length := by
  have hfold (init : Nat) : bytes.foldl (fun total b => total + b.toNat) init ≤
      init + 255 * bytes.length := by
    induction bytes generalizing init with
    | nil => exact Nat.le_refl _
    | cons b bytes ih =>
        have hb : b.toNat < 256 := b.toNat_lt
        have := ih (init + b.toNat)
        rw [List.foldl_cons, List.length_cons]
        omega
  have := hfold 0
  rw [sum]
  omega

/-- A checksum fits into its field. -/
theorem checksum_lt (fits : h.Fits) : checksum h.before h.after < 8 ^ 7 := by
  have hbefore := sum_le h.before
  have hafter := sum_le h.after
  rw [length_before fits] at hbefore
  rw [length_after fits] at hafter
  rw [checksum]
  omega

/-- The checksum of a written block is that of the fields around the checksum field. -/
theorem checksum_encode (fits : h.Fits) :
    checksum (h.encode.take 148) (h.encode.drop 156) = checksum h.before h.after := by
  have htake : h.encode.take 148 = h.before := by
    rw [encode_eq, ← length_before fits, List.take_left]
  have hdrop : h.encode.drop 156 = h.after := by
    have hlength : (h.before ++ octal 8 (checksum h.before h.after)).length = 156 := by
      rw [List.length_append, length_before fits, length_octal _ (by decide)]
    rw [encode_eq, ← List.append_assoc, ← hlength, List.drop_left]
  rw [htake, hdrop]

/-- The checksum of a header is read back from its field. -/
theorem readOctal_checksum (fits : h.Fits) :
    readOctal (Field.checksum.get h.encode) = .ok (checksum h.before h.after) := by
  have hlimit := checksum_lt fits
  rw [(inFields_encode fits).checksum]
  exact readOctal_octal (by decide) hlimit (Nat.lt_trans hlimit (by decide))

/-- A written block is no block of zeros: its owner is written with digits. -/
theorem all_encode (fits : h.Fits) : h.encode.all (· == 0) = false := by
  rw [List.all_eq_false]
  refine ⟨48, ?_, by decide⟩
  have hmem : (48 : UInt8) ∈ Field.user.get h.encode := by
    rw [(inFields_encode fits).user]
    decide
  exact List.mem_of_mem_drop (List.mem_of_mem_take hmem)

/-- A header that fits is read back from its block. -/
theorem readFrom_encode (fits : h.Fits) : h.ReadFrom h.encode := by
  have fields := inFields_encode fits
  have hzero : readOctal (octal 8 0) = .ok 0 := readOctal_octal (by decide) (by decide) (by decide)
  constructor
  case name =>
    have hstandard : isStandardFormat h.encode = false := by
      rw [isStandardFormat, fields.magic]
      decide
    rw [nameOf, hstandard, fields.name, cut_pad]
    rfl
  case mode =>
    rw [modeOf, fields.mode]
    exact readOctal_octal (by decide) fits.mode (Nat.lt_trans fits.mode (by decide))
  case user =>
    rw [fields.user, hzero]
  case group =>
    rw [fields.group, hzero]
  case size =>
    rw [fields.size]
    exact readNumber_number fits.size
  case time =>
    rw [timeOf, fields.time]
    exact readNumber_number fits.time
  case kind =>
    rw [kindOf, fields.kind]
    rfl
  case linkName =>
    rw [linkNameOf, fields.linkName, cut_pad]
  case longFormat =>
    rw [isLongFormat, fields.magic]
    exact beq_self_eq_true _

end Header

end RpmRelease.Tar
