import Mathlib.Data.List.Forall2
import RpmRelease.Proofs.Text.Utf8
import RpmRelease.Tag

/-!
# What a tag tells of a version and a release

Tags are made letter by letter: hyphens and dots become underscores, everything else stays.  So a tag
is as long as what it is made of, it is taken by every version control system exactly when only
harmless characters went in, and once the length of the version is known it determines the version and
the release up to the characters that were exchanged.
-/

set_option autoImplicit false

namespace RpmRelease

namespace Tag

/-! ## Letters -/

/-- The characters that become underscores, and underscores themselves. -/
def IsSeparator (c : Char) : Prop :=
  c = '-' ∨ c = '.' ∨ c = '_'

/-- The characters of versions and releases that make safe tags. -/
def IsPlain (c : Char) : Prop :=
  ('a' ≤ c ∧ c ≤ 'z') ∨ ('A' ≤ c ∧ c ≤ 'Z') ∨ ('0' ≤ c ∧ c ≤ '9') ∨ IsSeparator c

/-- The second character is what becomes of the first: an underscore of a hyphen or a dot, and the
character itself otherwise. -/
inductive Becomes : Char → Char → Prop
  | hyphen : Becomes '-' '_'
  | dot : Becomes '.' '_'
  | same {c : Char} (hyphen : c ≠ '-') (dot : c ≠ '.') : Becomes c c

/-- Two characters are the same, or both are separators. -/
def Exchangeable (c d : Char) : Prop :=
  c = d ∨ (IsSeparator c ∧ IsSeparator d)

/-- A tag has for each character what becomes of it. -/
theorem becomes_letter (c : Char) : Becomes c (letter c) := by
  by_cases hhyphen : c = '-'
  · subst hhyphen
    exact .hyphen
  by_cases hdot : c = '.'
  · subst hdot
    exact .dot
  rw [letter, if_neg (not_or_intro hhyphen hdot)]
  exact .same hhyphen hdot

/-- An underscore is what becomes of separators, and of nothing else. -/
theorem letter_eq_underscore_iff {c : Char} : letter c = '_' ↔ IsSeparator c := by
  unfold letter IsSeparator
  split <;> grind

/-- What is no separator stays. -/
theorem letter_of_not_isSeparator {c : Char} (h : ¬IsSeparator c) : letter c = c :=
  if_neg fun hc => h (hc.imp_right .inl)

/-- No hyphen is left. -/
theorem letter_ne_hyphen (c : Char) : letter c ≠ '-' := by
  unfold letter
  split <;> grind

/-- No dot is left. -/
theorem letter_ne_dot (c : Char) : letter c ≠ '.' := by
  unfold letter
  split <;> grind

/-- The same becomes of two characters when they are the same or both are separators. -/
theorem letter_eq_letter_iff {c d : Char} : letter c = letter d ↔ Exchangeable c d := by
  unfold Exchangeable
  by_cases hc : IsSeparator c
  · rw [letter_eq_underscore_iff.mpr hc, eq_comm, letter_eq_underscore_iff]
    constructor
    · intro hd
      exact .inr ⟨hc, hd⟩
    · rintro (rfl | ⟨-, hd⟩)
      · exact hc
      · exact hd
  · by_cases hd : IsSeparator d
    · have hne : letter c ≠ '_' := fun h => hc (letter_eq_underscore_iff.mp h)
      rw [letter_eq_underscore_iff.mpr hd]
      constructor
      · intro h
        exact absurd h hne
      · rintro (rfl | ⟨hsep, -⟩)
        · exact absurd hd hc
        · exact absurd hsep hc
    · rw [letter_of_not_isSeparator hc, letter_of_not_isSeparator hd]
      simp [hc]

/-- The test for safe characters, by their order. -/
theorem isSafe_eq (c : Char) : isSafe c =
    (decide ('A' ≤ c ∧ c ≤ 'Z') || (decide ('a' ≤ c) && decide (c ≤ 'z')) ||
      (decide ('0' ≤ c) && decide (c ≤ '9')) || c == '_') := rfl

/-- A letter is safe exactly when the character that it stands for is plain. -/
theorem isSafe_letter_iff {c : Char} : isSafe (letter c) = true ↔ IsPlain c := by
  by_cases hc : IsSeparator c
  · rw [letter_eq_underscore_iff.mpr hc]
    simp [IsPlain, hc, isSafe]
  · have hne : c ≠ '_' := fun h => hc (.inr (.inr h))
    rw [letter_of_not_isSeparator hc]
    simp only [isSafe_eq, IsPlain, hc, hne, Bool.or_eq_true, Bool.and_eq_true, decide_eq_true_eq,
      beq_iff_eq, or_false]
    tauto

/-! ## Texts -/

/-- Two texts agree up to separators. -/
def Alike (s t : String) : Prop :=
  List.Forall₂ Exchangeable s.toList t.toList

/-- The same becomes of two texts when their characters agree one by one, up to separators. -/
theorem map_letter_eq_iff {s t : List Char} :
    s.map letter = t.map letter ↔ List.Forall₂ Exchangeable s t := by
  rw [← List.forall₂_eq_eq_eq, List.forall₂_map_left_iff, List.forall₂_map_right_iff]
  simp only [letter_eq_letter_iff]

/-- A tag is a letter, the version and the release with an underscore between them. -/
@[simp] theorem toList_format (version release : String) :
    (format version release).text.toList =
      'V' :: version.toList.map letter ++ '_' :: release.toList.map letter := by
  have hV : letter 'V' = 'V' := by decide
  have hunderscore : letter '_' = '_' := by decide
  simp [format, hV, hunderscore]

/-- Two tags are the same when what becomes of version and release is the same behind one another. -/
theorem format_inj {version release version' release' : String} :
    format version release = format version' release' ↔
      version.toList.map letter ++ '_' :: release.toList.map letter =
        version'.toList.map letter ++ '_' :: release'.toList.map letter := by
  have htext : format version release = format version' release' ↔
      (format version release).text = (format version' release').text :=
    ⟨congrArg text, congrArg mk⟩
  rw [htext, ← String.toList_inj]
  simp

/-- Two beginnings of one text that take the same number of bytes are equally long. -/
theorem length_eq_of_append_eq {front back front' back' : List Char}
    (hbytes : (Text.Utf8.encode front).length = (Text.Utf8.encode front').length)
    (h : front ++ back = front' ++ back') : front.length = front'.length := by
  have hnil : ∀ cs : List Char, (Text.Utf8.encode cs).length = 0 → cs = [] := by
    intro cs hcs
    have hpieces := Text.Utf8.pieces_encode cs
    rw [List.eq_nil_of_length_eq_zero hcs, Text.Utf8.pieces] at hpieces
    exact List.map_eq_nil_iff.mp hpieces.symm
  rcases List.append_eq_append_iff.mp h with ⟨more, rfl, -⟩ | ⟨more, rfl, -⟩
  · rw [Text.Utf8.encode_append, List.length_append] at hbytes
    rw [hnil more (by omega), List.append_nil]
  · rw [Text.Utf8.encode_append, List.length_append] at hbytes
    rw [hnil more (by omega), List.append_nil]

/-- What becomes of a text has as many bytes as the text. -/
theorem length_encode_letters (s : String) :
    (Text.Utf8.encode (s.toList.map letter)).length = s.utf8ByteSize := by
  rw [Text.Utf8.length_encode_map, ← Text.Utf8.length_ofString, Text.Utf8.ofString]
  intro c
  by_cases hc : c = '-' ∨ c = '.'
  · rw [letter, if_pos hc]
    rcases hc with rfl | rfl <;> rfl
  · rw [letter, if_neg hc]

/-- In equal tags the versions are equally long, in characters, if they are in characters or in bytes. -/
theorem length_eq_of_format_eq {version release version' release' : String}
    (hsize : version.length = version'.length ∨ version.utf8ByteSize = version'.utf8ByteSize)
    (h : format version release = format version' release') : version.length = version'.length := by
  rcases hsize with hlength | hbytes
  · exact hlength
  · rw [← length_encode_letters, ← length_encode_letters] at hbytes
    have hletters := length_eq_of_append_eq hbytes (format_inj.mp h)
    simpa only [List.length_map, String.length_toList] using hletters

/-- Tags of versions of one size are equal exactly when the versions are alike and the releases are. -/
theorem format_eq_format_iff {version release version' release' : String}
    (hsize : version.length = version'.length ∨ version.utf8ByteSize = version'.utf8ByteSize) :
    format version release = format version' release' ↔
      Alike version version' ∧ Alike release release' := by
  rw [Alike, Alike, ← map_letter_eq_iff, ← map_letter_eq_iff]
  constructor
  · intro h
    have hlength : (version.toList.map letter).length = (version'.toList.map letter).length := by
      simpa only [List.length_map, String.length_toList] using length_eq_of_format_eq hsize h
    obtain ⟨hversion, hrelease⟩ := List.append_inj (format_inj.mp h) hlength
    exact ⟨hversion, (List.cons.inj hrelease).2⟩
  · rintro ⟨hversion, hrelease⟩
    rw [format_inj, hversion, hrelease]

/-- A tag is safe as a reference when version and release have plain characters only. -/
theorem isRefSafe_format_iff {version release : String} :
    (format version release).isRefSafe = true ↔ ∀ c ∈ version.toList ++ release.toList, IsPlain c := by
  have hV : isSafe 'V' = true := by decide
  have hunderscore : isSafe '_' = true := by decide
  simp only [isRefSafe, toList_format, List.all_append, List.all_cons, List.all_map, hV, hunderscore,
    Bool.true_and, Bool.and_eq_true, List.all_eq_true, Function.comp_apply, isSafe_letter_iff,
    List.forall_mem_append]

/-- What a tag is, character by character, when it is safe, and when two tags are equal. -/
theorem format_spec (version release version' release' : String) :
    List.Forall₂ Becomes ('V' :: version.toList ++ '_' :: release.toList)
        (format version release).text.toList ∧
      (format version release).text.length = version.length + release.length + 2 ∧
      (∀ c ∈ (format version release).text.toList, c ≠ '-' ∧ c ≠ '.') ∧
      ((format version release).isRefSafe = true ↔
        ∀ c ∈ version.toList ++ release.toList, IsPlain c) ∧
      (version.length = version'.length ∨ version.utf8ByteSize = version'.utf8ByteSize →
        (format version release = format version' release' ↔
          Alike version version' ∧ Alike release release')) := by
  refine ⟨?_, ?_, ?_, isRefSafe_format_iff, format_eq_format_iff⟩
  · rw [format, String.toList_ofList, List.forall₂_map_right_iff]
    exact List.forall₂_same.mpr fun c _ => becomes_letter c
  · rw [← String.length_toList, toList_format]
    simp only [List.length_cons, List.length_append, List.length_map, String.length_toList]
    omega
  · intro c hc
    rw [format, String.toList_ofList] at hc
    obtain ⟨d, -, rfl⟩ := List.mem_map.mp hc
    exact ⟨letter_ne_hyphen d, letter_ne_dot d⟩

/-- Versions of one length whose tags are equal. -/
theorem format_spec_alike :
    ("1.0".length = "1-0".length ∨ "1.0".utf8ByteSize = "1-0".utf8ByteSize) ∧
      (format "1.0" "1" = format "1-0" "1" ↔ Alike "1.0" "1-0" ∧ Alike "1" "1") :=
  ⟨.inl (by decide), (format_spec "1.0" "1" "1-0" "1").2.2.2.2 (.inl (by decide))⟩

/-- Without the length of the version a tag does not tell where the version ends. -/
example : format "1" "0_1" = format "1.0" "1" := by decide

end Tag

end RpmRelease
