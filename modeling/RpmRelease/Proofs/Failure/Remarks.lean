import RpmRelease.Proofs.Failure

/-!
# Remarks on failures

On its way out of a run a failure may be remarked on again and again.  Whatever the remarks are and
however many, the failure stays what it was: its kind, its advice and its exit status are those it
began with.  Only the wording of complaints and of errors of files grows, and in both the latest remark
stands first.
-/

set_option autoImplicit false

namespace RpmRelease

namespace Failure

/-- What a failure is, apart from how it is worded: its cause, of which nothing but the kind counts when
it is an error of files, and no remark when it is a complaint. -/
inductive Kind
  | configuration (fault : ConfigurationFault)
  | stage (fault : StageFault)
  | repository (fault : RepositoryFault)
  | file (kind : ErrorKind)
  | complaint (about : Complaint)
deriving DecidableEq

/-- The kind of a failure. -/
def kind : Failure → Kind
  | configuration fault => .configuration fault
  | stage fault => .stage fault
  | repository fault => .repository fault
  | file error => .file error.kind
  | complaint about _ _ => .complaint about

/-- A failure after remarks, each made on what the ones before it had left. -/
def remarked (remarks : List String) (failure : Failure) : Failure :=
  remarks.foldl (fun failure remark => failure.context remark) failure

/-- Remarks below one another, the latest first, each on a line of its own. -/
def remarkLines (remarks : List String) : String :=
  String.join (remarks.reverse.map fun remark => "\n" ++ remark)

/-- Without remarks a failure stays as it is. -/
@[simp] theorem remarked_nil (failure : Failure) : failure.remarked [] = failure := rfl

/-- The first remark is made first. -/
@[simp] theorem remarked_cons (remark : String) (remarks : List String) (failure : Failure) :
    failure.remarked (remark :: remarks) = (failure.context remark).remarked remarks := rfl

/-- Without remarks there are no lines of remarks. -/
@[simp] theorem remarkLines_nil : remarkLines [] = "" := rfl

/-- The remark that is made first stands in the last line. -/
theorem remarkLines_cons (remark : String) (remarks : List String) :
    remarkLines (remark :: remarks) = remarkLines remarks ++ "\n" ++ remark := by
  simp [remarkLines, String.append_assoc]

/-! ## What one remark keeps, any number of remarks keep -/

/-- A remark leaves the kind of a failure. -/
@[simp] theorem kind_context (remark : String) (failure : Failure) :
    (failure.context remark).kind = failure.kind := by
  cases failure <;> rfl

/-- A remark leaves the help for a failure. -/
@[simp] theorem help_context (remark : String) (failure : Failure) :
    (failure.context remark).help = failure.help := by
  cases failure <;> rfl

/-- What one remark keeps, any number of remarks do. -/
theorem kept_by_remarks {α : Type} {question : Failure → α}
    (h : ∀ remark failure, question (context remark failure) = question failure)
    (remarks : List String) (failure : Failure) :
    question (failure.remarked remarks) = question failure := by
  induction remarks generalizing failure with
  | nil => rfl
  | cons remark remarks ih => rw [remarked_cons, ih, h]

/-! ## Wording -/

/-- New remarks on a complaint stand between its wording and the earlier remarks. -/
theorem message_remarked_complaint (about : Complaint) (earlier : String) (help : Option String)
    (remarks : List String) :
    ((complaint about (some earlier) help).remarked remarks).message =
      about.message ++ remarkLines remarks ++ "\n" ++ earlier := by
  induction remarks generalizing earlier with
  | nil => simp [message]
  | cons remark remarks ih =>
      rw [remarked_cons, context, ih, remarkLines_cons]
      simp only [String.append_assoc]

/-- The remarks on a complaint without any stand below its wording. -/
theorem message_remarked_first (about : Complaint) (help : Option String) (remarks : List String) :
    ((complaint about none help).remarked remarks).message =
      about.message ++ remarkLines remarks := by
  cases remarks with
  | nil => simp [message]
  | cons remark remarks =>
      rw [remarked_cons, context, message_remarked_complaint, remarkLines_cons]
      simp only [String.append_assoc]

/-- Joining the last two texts first changes nothing. -/
theorem intercalate_append_pair (separator : String) (texts : List String) (s t : String) :
    separator.intercalate (texts ++ [s ++ separator ++ t]) =
      separator.intercalate (texts ++ [s, t]) := by
  have hpair : separator.intercalate [s, t] = s ++ separator ++ t := by
    rw [String.intercalate_cons_cons, String.intercalate_singleton]
  cases texts with
  | nil => rw [List.nil_append, List.nil_append, String.intercalate_singleton, hpair]
  | cons text texts =>
      rw [String.intercalate_append_of_ne_nil (by simp) (by simp),
        String.intercalate_append_of_ne_nil (by simp) (by simp), String.intercalate_singleton, hpair]

/-- The remarks on an error of files stand in front of its text. -/
theorem message_remarked_file (error : FileError) (remarks : List String) :
    ((file error).remarked remarks).message =
      "I/O error: " ++ ": ".intercalate (remarks.reverse ++ [error.text]) := by
  induction remarks generalizing error with
  | nil => simp [message]
  | cons remark remarks ih =>
      rw [remarked_cons, context, ih, FileError.text_withContext, intercalate_append_pair,
        List.reverse_cons, List.append_assoc, List.singleton_append]

/-- No other failure takes any remark. -/
theorem remarked_other {failure : Failure} (hfile : ∀ error, failure ≠ file error)
    (hcomplaint : ∀ about earlier help, failure ≠ complaint about earlier help)
    (remarks : List String) : failure.remarked remarks = failure := by
  have hcontext : ∀ remark, failure.context remark = failure := by
    intro remark
    cases failure with
    | configuration | stage | repository => rfl
    | file error => exact absurd rfl (hfile error)
    | complaint about earlier help => exact absurd rfl (hcomplaint about earlier help)
  induction remarks with
  | nil => rfl
  | cons remark remarks ih => rw [remarked_cons, hcontext, ih]

/-- Remarks keep the kind, the exit status and the advice, and this is the wording after them. -/
theorem remarked_spec (remarks : List String) (failure : Failure) :
    (failure.remarked remarks).kind = failure.kind ∧
      (failure.remarked remarks).exitCode = failure.exitCode ∧
      (failure.remarked remarks).help = failure.help ∧
      (failure.remarked remarks).message =
        match failure with
        | complaint _ none _ => failure.message ++ remarkLines remarks
        | complaint about (some earlier) _ =>
          about.message ++ remarkLines remarks ++ "\n" ++ earlier
        | file error => "I/O error: " ++ ": ".intercalate (remarks.reverse ++ [error.text])
        | _ => failure.message := by
  refine ⟨kept_by_remarks kind_context _ _, kept_by_remarks exitCode_context _ _,
    kept_by_remarks help_context _ _, ?_⟩
  cases failure with
  | configuration | stage | repository => rw [remarked_other (by simp) (by simp)]
  | file error => exact message_remarked_file error remarks
  | complaint about earlier help =>
      cases earlier with
      | none => exact message_remarked_first about help remarks
      | some earlier => exact message_remarked_complaint about earlier help remarks

/-- The latest of three remarks on an error of files stands first, and the text of the error last. -/
example : ((file (.bare .notFound)).remarked ["a", "b", "c"]).message =
    "I/O error: c: b: a: entity not found" := by decide

end Failure

end RpmRelease
