import RpmRelease.Proofs.Descriptor.Preamble
import RpmRelease.Proofs.FileSystem.Listed
import RpmRelease.Proofs.FileSystem.Storage
import RpmRelease.Proofs.Macros.Expression
import RpmRelease.Release

/-!
# Values that come to nothing

A field counts as declared when a word stands behind its colon.  The word is expanded only after
that, and a word that consists of nothing but references may come to nothing then: `Vanishes` says of
which words this is so.  The value of a field is empty exactly when the line that declares it gives it
such a word; in all other cases a release has no empty version and no empty release number, and no
empty name that its descriptor declares.  A field that no line gives a word is reported.
-/

set_option autoImplicit false

namespace RpmRelease

namespace Macros

/-! ## Texts that come to nothing -/

/-- Whether a reference is left out, whatever its text is. -/
def Reference.Skipped (env : Environment) : Reference → Prop
  | .plain name => env name = some []
  | .empty => True
  | .optional name => env name = none ∨ env name = some []
  | .ifDefined name _ => env name = none
  | .ifUndefined name _ => env name ≠ none

/-- A text of nothing but references that come to nothing. -/
inductive Vanishes (env : Environment) : List Char → Prop
  /-- there is no text -/
  | nil : Vanishes env []
  /-- a name without braces that is defined as nothing -/
  | bare {name rest : List Char} (hname : Expression.IsBareName name rest) (h : env name = some [])
    (hrest : Vanishes env rest) : Vanishes env ('%' :: (name ++ rest))
  /-- a reference in braces that is left out -/
  | skipped {body rest : List Char} (hbody : Balanced body) (h : (Reference.ofBody body).Skipped env)
    (hrest : Vanishes env rest) : Vanishes env ('%' :: '{' :: (body ++ '}' :: rest))
  /-- a condition on a text that comes to nothing itself -/
  | conditional {body rest name text : List Char} (hbody : Balanced body)
    (h : Reference.ofBody body = .ifDefined name text ∨ Reference.ofBody body = .ifUndefined name text)
    (htext : Vanishes env text) (hrest : Vanishes env rest) :
    Vanishes env ('%' :: '{' :: (body ++ '}' :: rest))

/-- A reference comes to nothing when it is skipped, or when it has a text of its own that does. -/
theorem Reference.replacement_eq_nil_iff {env : Environment} {body : List Char} {r : Reference} :
    r.replacement env body = [] ↔ r.Skipped env ∨
      ∃ name text, (r = .ifDefined name text ∨ r = .ifUndefined name text) ∧ expand env text = [] := by
  cases r with
  | plain name => cases h : env name <;> simp [replacement, Skipped, h]
  | empty => simp [replacement, Skipped]
  | optional name => cases h : env name <;> simp [replacement, Skipped, h]
  | ifDefined name text => cases h : env name <;> simp [replacement, Skipped, h]
  | ifUndefined name text => cases h : env name <;> simp [replacement, Skipped, h]

/-- A text is cut behind the longest name at its beginning. -/
theorem exists_bareName {after : List Char} (h : after.takeWhile isNameChar ≠ []) :
    Expression.IsBareName (after.takeWhile isNameChar) (after.dropWhile isNameChar) := by
  refine ⟨h, fun c hc => ?_, fun c hc => ?_⟩
  · exact List.all_eq_true.1 List.all_takeWhile c hc
  · have hnot := List.head?_dropWhile_not isNameChar after
    rw [Option.mem_def.1 hc] at hnot
    simpa using hnot

/-- A text that expands to nothing is made up of references that come to nothing. -/
theorem vanishes_of_expand {env : Environment} {text : List Char} (h : expand env text = []) :
    Vanishes env text := by
  induction text using value_induction with
  | nil => exact .nil
  | char c after hc _ =>
    rw [expand_cons env after hc] at h
    cases h
  | reference after body rest hbraced ihText ihRest =>
    rw [expand_braced env hbraced, List.append_eq_nil_iff, Reference.replacement_eq_nil_iff] at h
    obtain ⟨hbody, rfl⟩ := braced_eq_some_iff.1 hbraced
    rcases h.1 with hskipped | ⟨name, text, hkind, htext⟩
    · exact .skipped hbody hskipped (ihRest h.2)
    · have hsame : (Reference.ofBody body).text = text := by
        rcases hkind with hkind | hkind <;> rw [hkind, Reference.text]
      rw [← hsame] at htext hkind
      exact .conditional hbody hkind (ihText htext) (ihRest h.2)
  | name after hbraced ih =>
    rw [expand_name env hbraced, List.append_eq_nil_iff] at h
    have hname : after.takeWhile isNameChar ≠ [] := by
      intro hempty
      rw [hempty] at h
      exact absurd h.1 (by simp [definition])
    have hdefined : env (after.takeWhile isNameChar) = some [] := by
      cases henv : env (after.takeWhile isNameChar) with
      | none => simp [definition, henv] at h
      | some value => simpa [definition, hname, henv] using h.1
    have hcut := Vanishes.bare (exists_bareName hname) hdefined (ih h.2)
    rwa [List.takeWhile_append_dropWhile] at hcut

/-- A text comes to nothing exactly if it consists of references that come to nothing. -/
theorem expand_eq_nil_iff {env : Environment} {text : List Char} :
    expand env text = [] ↔ Vanishes env text := by
  refine ⟨vanishes_of_expand, fun h => ?_⟩
  induction h with
  | nil => exact expand_nil env
  | bare hname h _ ih => rw [Expression.expand_bare env hname, h, ih]; rfl
  | skipped hbody h _ ih =>
      rw [Expression.expand_reference env hbody, ih,
        Reference.replacement_eq_nil_iff.2 (.inl h), List.append_nil]
  | conditional hbody h _ _ ihText ih =>
      rw [Expression.expand_reference env hbody, ih,
        Reference.replacement_eq_nil_iff.2 (.inr ⟨_, _, h, ihText⟩), List.append_nil]

end Macros

namespace Descriptor

/-! ## Fields -/

/-- The first line that gives a field a word gives it one that comes to nothing there. -/
def DeclaresNothing (lines : List (List Char)) (field : Field) : Prop :=
  ∃ before line after word, lines = before ++ line :: after ∧ Declares line field word ∧
    (∀ l ∈ before, ¬ DeclaresSome l field) ∧ Macros.Vanishes (environmentBelow before) word

/-- A field comes to nothing where the first line that declares it gives it a word that does. -/
theorem firstDeclared_nil_iff {lines : List (List Char)} {field : Field} :
    FirstDeclared lines field [] ↔ DeclaresNothing lines field := by
  simp only [FirstDeclared, DeclaresNothing, eq_comm (a := ([] : List Char)),
    Macros.expand_eq_nil_iff]

/-- The fields that have to be declared, in the order in which they are asked for. -/
def needed (givenName : Option String) : List Field :=
  if givenName.isSome then [.version, .release] else [.name, .version, .release]

/-- A field is needed and not declared, and those in front of it are declared. -/
def FirstMissing (givenName : Option String) (lines : List (List Char)) (field : Field) : Prop :=
  ∃ before after, needed givenName = before ++ field :: after ∧
    (∀ f ∈ before, ∃ line ∈ lines, DeclaresSome line f) ∧ ∀ line ∈ lines, ¬ DeclaresSome line field

/-- The text that is read for a field. -/
def fieldOf (p : Preamble) (field : Field) : Except Field String :=
  match p.get field with
  | some value => .ok (String.ofList value)
  | none => .error field

/-- The text that is taken for the name: the given one, or that of the field. -/
def nameOf (givenName : Option String) (p : Preamble) : Except Field String :=
  match givenName with
  | some name => .ok name
  | none => fieldOf p .name

/-- The metadata are the name, the version and the release, asked for in this order. -/
theorem metadata_eq (givenName : Option String) (text : List Char) :
    metadata givenName text = (do
      let name ← nameOf givenName (Preamble.scan text)
      let version ← fieldOf (Preamble.scan text) .version
      let release ← fieldOf (Preamble.scan text) .release
      return { name, version, release }) := by
  cases givenName <;> rfl

/-- The texts that metadata is made of. -/
theorem of_metadata_ok {givenName : Option String} {text : List Char} {m : Metadata}
    (h : metadata givenName text = .ok m) :
    nameOf givenName (Preamble.scan text) = .ok m.name ∧
      fieldOf (Preamble.scan text) .version = .ok m.version ∧
      fieldOf (Preamble.scan text) .release = .ok m.release := by
  rw [metadata_eq] at h
  obtain ⟨name, hname, hrest⟩ := Run.of_bind_ok h
  obtain ⟨version, hversion, hrest⟩ := Run.of_bind_ok hrest
  obtain ⟨release, hrelease, hrest⟩ := Run.of_bind_ok hrest
  obtain rfl := Except.ok.inj hrest
  exact ⟨hname, hversion, hrelease⟩

/-- A field that is read is declared by some line, and is empty just when the first such line declares
nothing. -/
theorem of_fieldOf_ok {text : List Char} {field : Field} {value : String}
    (h : fieldOf (Preamble.scan text) field = .ok value) :
    (∃ line ∈ Text.lines text, DeclaresSome line field) ∧
      (value = "" ↔ DeclaresNothing (Text.lines text) field) := by
  unfold fieldOf at h
  split at h
  · next chars hget =>
      obtain rfl := Except.ok.inj h
      have hdeclared : FirstDeclared (Text.lines text) field chars := get_eq_some_iff.1 hget
      refine ⟨isSome_get_iff.1 (Option.isSome_iff_exists.2 ⟨chars, hget⟩), ?_⟩
      rw [String.ofList_eq_empty_iff, ← firstDeclared_nil_iff]
      constructor
      · rintro rfl
        exact hdeclared
      · intro hnothing
        have hnil : (Preamble.scan text).get field = some [] := get_eq_some_iff.2 hnothing
        exact Option.some.inj (hget.symm.trans hnil)
  · cases h

/-- A field that cannot be read is declared by no line, and is itself the one that is reported. -/
theorem of_fieldOf_error {text : List Char} {field missing : Field}
    (h : fieldOf (Preamble.scan text) field = .error missing) :
    missing = field ∧ ∀ line ∈ Text.lines text, ¬ DeclaresSome line field := by
  unfold fieldOf at h
  split at h
  · cases h
  · next hget =>
      obtain rfl := Except.error.inj h
      refine ⟨rfl, fun line hline hdeclares => ?_⟩
      have hsome : ((Preamble.scan text).get field).isSome := isSome_get_iff.2 ⟨line, hline, hdeclares⟩
      rw [hget] at hsome
      cases hsome

/-- What is declared and what comes to nothing when a descriptor has all fields that are needed. -/
structure Resolved (givenName : Option String) (lines : List (List Char)) (m : Metadata) : Prop where
  declared : ∀ field ∈ needed givenName, ∃ line ∈ lines, DeclaresSome line field
  version : m.version = "" ↔ DeclaresNothing lines .version
  release : m.release = "" ↔ DeclaresNothing lines .release
  name : givenName = none → (m.name = "" ↔ DeclaresNothing lines .name)
  given : ∀ name, givenName = some name → m.name = name

/-- Metadata that are read have every field as the lines declare it. -/
theorem resolved_of_metadata {givenName : Option String} {text : List Char} {m : Metadata}
    (h : metadata givenName text = .ok m) : Resolved givenName (Text.lines text) m := by
  obtain ⟨hname, hversion, hrelease⟩ := of_metadata_ok h
  obtain ⟨hversionDeclared, hversionEmpty⟩ := of_fieldOf_ok hversion
  obtain ⟨hreleaseDeclared, hreleaseEmpty⟩ := of_fieldOf_ok hrelease
  cases givenName with
  | some given =>
      refine ⟨?_, hversionEmpty, hreleaseEmpty, by simp, fun other hother => ?_⟩
      · simpa [needed] using ⟨hversionDeclared, hreleaseDeclared⟩
      · exact (Except.ok.inj hname).symm.trans (Option.some.inj hother)
  | none =>
      obtain ⟨hnameDeclared, hnameEmpty⟩ := of_fieldOf_ok hname
      refine ⟨?_, hversionEmpty, hreleaseEmpty, fun _ => hnameEmpty, by simp⟩
      simpa [needed] using ⟨hnameDeclared, hversionDeclared, hreleaseDeclared⟩

/-- When metadata cannot be read, the first field that is missing is reported. -/
theorem firstMissing_of_metadata {givenName : Option String} {text : List Char} {field : Field}
    (h : metadata givenName text = .error field) :
    FirstMissing givenName (Text.lines text) field := by
  -- the fields that are asked for in front of the version
  obtain ⟨front, hneeded, hfront⟩ : ∃ front, needed givenName = front ++ [.version, .release] ∧
      ∀ name, nameOf givenName (Preamble.scan text) = .ok name →
        ∀ f ∈ front, ∃ line ∈ Text.lines text, DeclaresSome line f := by
    cases givenName with
    | some name => exact ⟨[], rfl, by simp⟩
    | none => exact ⟨[.name], rfl, fun name hname => by simpa using (of_fieldOf_ok hname).1⟩
  rw [metadata_eq] at h
  rcases Run.of_bind_error h with hname | ⟨name, hname, h⟩
  · cases givenName with
    | some name => cases hname
    | none =>
        obtain ⟨rfl, hmissing⟩ := of_fieldOf_error hname
        exact ⟨[], [.version, .release], rfl, by simp, hmissing⟩
  rcases Run.of_bind_error h with hversion | ⟨version, hversion, h⟩
  · obtain ⟨rfl, hmissing⟩ := of_fieldOf_error hversion
    exact ⟨front, [.release], hneeded, hfront name hname, hmissing⟩
  rcases Run.of_bind_error h with hrelease | ⟨release, _, h⟩
  · obtain ⟨rfl, hmissing⟩ := of_fieldOf_error hrelease
    refine ⟨front ++ [.version], [], by simpa using hneeded, fun f hf => ?_, hmissing⟩
    rcases List.mem_append.1 hf with hf | hf
    · exact hfront name hname f hf
    · rw [List.mem_singleton.1 hf]
      exact (of_fieldOf_ok hversion).1
  · cases h

end Descriptor

namespace Release

open Descriptor (Resolved FirstMissing)

/-- Reading the metadata of a release changes nothing.  It succeeds when all fields that are needed
are declared, and then a field is empty exactly if the word that declares it comes to nothing in its
line; otherwise the first field that no line declares is reported. -/
theorem readMetadata_outcome {caller : Caller} {fs : FileSystem} {descriptor : Path}
    {text : List Char} (givenName : Option String) (h : fs.readText caller descriptor = .ok text) :
    ∃ outcome, (readMetadata descriptor givenName).exec caller fs = (outcome, fs) ∧
      match outcome with
      | .ok m => Resolved givenName (Text.lines text) m
      | .error failure => ∃ field, FirstMissing givenName (Text.lines text) field ∧
        failure = .stage (.undeclared descriptor field.label) := by
  unfold readMetadata
  rw [Storage.exec_bind]
  have hquery : (Storage.query fun caller fs => (fs.readText caller descriptor).mapError fun e =>
      (Failure.file e).context ("Failed to read descriptor " ++ descriptor.text)).exec caller fs =
        (.ok text, fs) := by
    show ((fs.readText caller descriptor).mapError _, fs) = _
    rw [h]
    rfl
  rw [hquery]
  dsimp only
  cases hmetadata : Descriptor.metadata givenName text with
  | ok m => exact ⟨.ok m, rfl, Descriptor.resolved_of_metadata hmetadata⟩
  | error field =>
      exact ⟨.error _, rfl, field, Descriptor.firstMissing_of_metadata hmetadata, rfl⟩

/-- A project whose release number is a text. -/
def numbered (release : String) : FileSystem :=
  .ofNodes [(["p.spec"], .file Mode.file 0
    (Text.Utf8.ofString ("Name: p\nVersion: 1\nRelease: " ++ release ++ "\n")))]

/-- A release number that is only in part a reference is not empty. -/
theorem readMetadata_outcome_numbered :
    ((numbered "1%{?dist}").readText .superuserAtRoot ⟨"/p.spec"⟩ =
        .ok "Name: p\nVersion: 1\nRelease: 1%{?dist}\n".toList ∧
      ¬ Descriptor.DeclaresNothing (Text.lines "Name: p\nVersion: 1\nRelease: 1%{?dist}\n".toList)
        .release) := by
  have hread : (numbered "1%{?dist}").readText .superuserAtRoot ⟨"/p.spec"⟩ =
      .ok "Name: p\nVersion: 1\nRelease: 1%{?dist}\n".toList := by
    decide +kernel
  have hrun : ((readMetadata ⟨"/p.spec"⟩ none).exec .superuserAtRoot (numbered "1%{?dist}")).1 =
      .ok ⟨"p", "1", "1"⟩ := by
    decide +kernel
  obtain ⟨outcome, houtcome, hresolved⟩ := readMetadata_outcome none hread
  rw [houtcome] at hrun
  subst hrun
  exact ⟨hread, fun hnothing => absurd (hresolved.release.2 hnothing) (by decide)⟩

/-- A release number that consists of a reference to an undefined macro is empty, and the release is
resolved all the same. -/
theorem readMetadata_empty :
    ((readMetadata ⟨"/p.spec"⟩ none).exec .superuserAtRoot (numbered "%{?dist}")).1 =
      .ok ⟨"p", "1", ""⟩ := by
  decide +kernel

end Release

end RpmRelease
