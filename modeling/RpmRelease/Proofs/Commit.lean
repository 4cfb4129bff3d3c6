import RpmRelease.Commit
import RpmRelease.Proofs.Text.Decimal
import RpmRelease.Proofs.Text.Lines
import RpmRelease.Proofs.Text.Utf8

/-!
# Reading a commit

The log form of a commit is read line by line.  What was written as author, e-mail address and time
is read back, the message without the blanks around it.  Of all other bytes those are read that have
three lines of which the third denotes a time, and the rest is refused with the first line that is
missing or no time.
-/

set_option autoImplicit false

namespace RpmRelease.Commit

open Text (IsLine Denotes)

/-- The log form of a commit: author, e-mail address and time on a line each, then the message. -/
def logForm (author email : String) (timestamp : Int) (message : String) : Bytes :=
  Text.Utf8.ofString
    (author ++ "\n" ++ email ++ "\n" ++ toString timestamp ++ "\n" ++ message)

/-- A line has no carriage return at its end that could be dropped. -/
theorem dropReturn_eq_self {line : List Char} (h : IsLine line) : Text.dropReturn line = line := by
  rw [Text.dropReturn, if_neg h.2]

/-- A number is written on one line. -/
theorem isLine_toString (n : Int) : IsLine (toString n).toList := by
  have hchar : ∀ c ∈ (toString n).toList, c = '-' ∨ Text.IsDigit 10 c := by
    intro c hc
    rw [Text.toList_toString, List.mem_append] at hc
    rcases hc with hc | hc
    · split at hc
      · exact .inl (List.mem_singleton.1 hc)
      · exact absurd hc List.not_mem_nil
    · exact .inr (Text.isDigit_of_mem_digits (by omega) (by omega) hc)
  have hnot (c : Char) (hc : c ∈ (toString n).toList) : c ≠ '\n' ∧ c ≠ '\r' := by
    rcases hchar c hc with rfl | hdigit
    · decide
    · constructor <;> rintro rfl <;> exact absurd hdigit.1 (by decide)
  constructor
  · exact fun hmem => (hnot _ hmem).1 rfl
  · exact fun hlast => (hnot _ (List.mem_of_getLast? hlast)).2 rfl

/-- The lines of a log form are the three that lead, then those of the message. -/
theorem lines_logForm {author email : String} (timestamp : Int) (message : String)
    (hauthor : '\n' ∉ author.toList) (hemail : '\n' ∉ email.toList) :
    Text.lines (Text.Utf8.decodeLossy (logForm author email timestamp message)) =
      Text.dropReturn author.toList :: Text.dropReturn email.toList ::
        (toString timestamp).toList :: Text.lines message.toList := by
  have htime := isLine_toString timestamp
  have htext : (author ++ "\n" ++ email ++ "\n" ++ toString timestamp ++ "\n" ++ message).toList =
      author.toList ++ '\n' :: (email.toList ++ '\n' :: ((toString timestamp).toList ++
        '\n' :: message.toList)) := by
    simp [String.toList_append]
  rw [logForm, Text.Utf8.ofString, Text.Utf8.decodeLossy_encode, htext,
    Text.lines_append_cons _ hauthor, Text.lines_append_cons _ hemail,
    Text.lines_append_cons _ htime.1, dropReturn_eq_self htime]

/-- What was written is read back; a carriage return before a line feed belongs to no line. -/
theorem ofLog_logForm {author email : String} {timestamp : Int} (message : String)
    (hauthor : '\n' ∉ author.toList) (hemail : '\n' ∉ email.toList)
    (hlow : -2 ^ 63 ≤ timestamp) (hhigh : timestamp < 2 ^ 63) :
    ofLog (logForm author email timestamp message) = .ok {
      author := String.ofList (Text.dropReturn author.toList)
      email := String.ofList (Text.dropReturn email.toList)
      timestamp
      message := String.ofList (Text.trim (Text.joinLines (Text.lines message.toList))) } := by
  have htime : Text.readSigned (toString timestamp).toList = some timestamp :=
    Text.readSigned_eq_some_iff.2 ⟨Text.denotes_toString timestamp, hlow, hhigh⟩
  rw [ofLog, lines_logForm timestamp message hauthor hemail, ofLines, htime]

/-- Whether lines are those of a commit: there are three, and the third denotes a time. -/
def Tells (lines : List (List Char)) : Prop :=
  ∃ author email time message, lines = author :: email :: time :: message ∧
    ∃ timestamp, Denotes time timestamp ∧ -2 ^ 63 ≤ timestamp ∧ timestamp < 2 ^ 63

/-- Lines make up a commit just when there are three and the third denotes a time. -/
theorem exists_ofLines_iff (lines : List (List Char)) :
    (∃ c, ofLines lines = .ok c) ↔ Tells lines := by
  constructor
  · rintro ⟨c, hc⟩
    unfold ofLines at hc
    split at hc
    · exact absurd hc (by simp)
    · exact absurd hc (by simp)
    · exact absurd hc (by simp)
    · next author email time message =>
      split at hc
      · exact absurd hc (by simp)
      · next timestamp htime =>
        exact ⟨author, email, time, message, rfl, timestamp, Text.readSigned_eq_some_iff.1 htime⟩
  · rintro ⟨author, email, time, message, rfl, timestamp, htime⟩
    exact ⟨_, by rw [ofLines, Text.readSigned_eq_some_iff.2 htime]⟩

/-- The first line that is missing, or no time, is named. -/
theorem message_of_ofLines_error {lines : List (List Char)} {defect : Defect}
    (h : ofLines lines = .error defect) :
    defect.message =
      match lines.length with
      | 0 => "Missing author name"
      | 1 => "Missing author email"
      | _ => "Missing/invalid author timestamp" := by
  unfold ofLines at h
  split at h
  · rw [← Except.error.inj h]
    rfl
  · rw [← Except.error.inj h]
    rfl
  · rw [← Except.error.inj h]
    rfl
  · split at h
    · rw [← Except.error.inj h]
      rfl
    · exact absurd h (by simp)

/-- The log form of a commit is read back, with the message put together from its lines and without
the blanks around it.  Of all bytes exactly those are read whose lines tell a commit; the others are
refused, with the message of the first of the three lines that is missing or no time. -/
theorem ofLog_spec :
    (∀ (author email message : String) (timestamp : Int),
      IsLine author.toList → IsLine email.toList → -2 ^ 63 ≤ timestamp → timestamp < 2 ^ 63 →
      ofLog (logForm author email timestamp message) = .ok {
        author, email, timestamp
        message := String.ofList (Text.trim (Text.joinLines (Text.lines message.toList))) }) ∧
    ∀ bytes : Bytes,
      ((∃ c, ofLog bytes = .ok c) ↔ Tells (Text.lines (Text.Utf8.decodeLossy bytes))) ∧
      ∀ defect, ofLog bytes = .error defect →
        defect.message =
          match (Text.lines (Text.Utf8.decodeLossy bytes)).length with
          | 0 => "Missing author name"
          | 1 => "Missing author email"
          | _ => "Missing/invalid author timestamp" := by
  refine ⟨fun author email message timestamp hauthor hemail hlow hhigh => ?_, fun bytes => ?_⟩
  · rw [ofLog_logForm message hauthor.1 hemail.1 hlow hhigh, dropReturn_eq_self hauthor,
      dropReturn_eq_self hemail, String.ofList_toList, String.ofList_toList]
  · exact ⟨exists_ofLines_iff _, fun defect hdefect => message_of_ofLines_error hdefect⟩

/-- The earliest time is read, and a message whose lines end in both ways; a text of two lines is
refused for the third. -/
theorem ofLog_earliest :
    ofLog (logForm "Ann" "ann@example.com" (-9223372036854775808) "\r\nFix\r\n\r\nMore\n\n") =
      .ok ⟨"Ann", "ann@example.com", -9223372036854775808, "Fix\n\nMore"⟩ ∧
    Defect.noTimestamp.message = "Missing/invalid author timestamp" := by
  constructor
  · exact ofLog_spec.1 "Ann" "ann@example.com" "\r\nFix\r\n\r\nMore\n\n" (-9223372036854775808)
      (by decide) (by decide) (by decide) (by decide)
  · have hrefused : ofLog (Text.Utf8.ofString "Ann\nann@example.com\n") = .error .noTimestamp := by
      rw [ofLog, Text.Utf8.ofString, Text.Utf8.decodeLossy_encode]
      decide
    have hlines : (Text.lines (Text.Utf8.decodeLossy
        (Text.Utf8.ofString "Ann\nann@example.com\n"))).length = 2 := by
      rw [Text.Utf8.ofString, Text.Utf8.decodeLossy_encode]
      decide
    have hmessage := (ofLog_spec.2 _).2 .noTimestamp hrefused
    rwa [hlines] at hmessage

end RpmRelease.Commit
