import RpmRelease.Proofs.Descriptor.Emptiness
import RpmRelease.Proofs.Release
import RpmRelease.Proofs.Text.Lines

/-!
# Where the characters of a value come from

A word of a descriptor has no blanks, and expanding it adds nothing but what definitions hold.  These
were words of the descriptor themselves, expanded with the definitions above them.  So every value of
a macro and of a field consists of characters of the descriptor that are not blank: `Consists` says so
of a preamble for any sort of characters, one line keeps it, and with it all lines.

Tags, messages and names of artifacts are put together from such values; a blank in the name of an
artifact can only come from a name that the configuration gives.
-/

set_option autoImplicit false

namespace RpmRelease

namespace Macros

/-- The text of a condition is a part of the body that writes it. -/
theorem Reference.text_subset (body : List Char) : (ofBody body).text ⊆ body := by
  unfold ofBody
  split
  · next condition =>
    split
    · next hsplit =>
      obtain ⟨rfl, -⟩ := splitColon_eq_some_iff.1 hsplit
      intro c hc
      simpa [text] using Or.inr (Or.inr (Or.inr (Or.inr hc)))
    · exact List.nil_subset _
  · next condition =>
    split
    · next hsplit =>
      obtain ⟨rfl, -⟩ := splitColon_eq_some_iff.1 hsplit
      intro c hc
      simpa [text] using Or.inr (Or.inr (Or.inr hc))
    · exact List.nil_subset _
  · split <;> exact List.nil_subset _

/-- The character occurs in a definition. -/
def Environment.Holds (env : Environment) (c : Char) : Prop :=
  ∃ name definition, env name = some definition ∧ c ∈ definition

/-- What a reference in braces is replaced by comes from its body and from definitions, if expanding
its text adds nothing else. -/
theorem Reference.mem_of_mem_replacement {env : Environment} {body : List Char} {c : Char}
    (ih : c ∈ expand env (ofBody body).text → c ∈ (ofBody body).text ∨ env.Holds c)
    (h : c ∈ (ofBody body).replacement env body) :
    c ∈ '%' :: '{' :: body ++ ['}'] ∨ env.Holds c := by
  have htext (hc : c ∈ expand env (ofBody body).text) :
      c ∈ '%' :: '{' :: body ++ ['}'] ∨ env.Holds c := by
    refine (ih hc).imp_left fun hc => ?_
    simp [text_subset body hc]
  cases hkind : ofBody body with
  | plain name =>
    rw [hkind, replacement] at h
    cases henv : env name with
    | none => exact .inl (by simpa [henv] using h)
    | some definition => exact .inr ⟨name, definition, henv, by simpa [henv] using h⟩
  | empty => simp [hkind, replacement] at h
  | optional name =>
    rw [hkind, replacement] at h
    cases henv : env name with
    | none => simp [henv] at h
    | some definition => exact .inr ⟨name, definition, henv, by simpa [henv] using h⟩
  | ifDefined name inner | ifUndefined name inner =>
    rw [hkind, replacement] at h
    split at h
    all_goals first
      | exact htext (by rwa [hkind, text])
      | simp at h

/-- Expansion adds nothing but what definitions hold. -/
theorem mem_of_mem_expand {env : Environment} {text : List Char} {c : Char}
    (h : c ∈ expand env text) : c ∈ text ∨ env.Holds c := by
  -- on the value as it is expanded, with a case for each way in which a macro is written
  induction text using value_induction with
  | nil => simp at h
  | char d after hd ih =>
    rw [expand_cons env after hd, List.mem_cons] at h
    rcases h with rfl | h
    · exact .inl List.mem_cons_self
    · exact (ih h).imp_left (List.mem_cons_of_mem d)
  | reference after body rest hbraced ihText ihRest =>
    obtain ⟨-, rfl⟩ := braced_eq_some_iff.1 hbraced
    rw [expand_braced env hbraced, List.mem_append] at h
    rcases h with h | h
    · refine (Reference.mem_of_mem_replacement ihText h).imp_left fun hc => ?_
      have hprefix : '%' :: '{' :: body ++ ['}'] <+: '%' :: '{' :: (body ++ '}' :: rest) :=
        ⟨rest, by simp⟩
      exact hprefix.subset hc
    · exact (ihRest h).imp_left fun hc => by simp [hc]
  | name after hbraced ih =>
    rw [expand_name env hbraced, List.mem_append] at h
    rcases h with h | h
    · cases hdefinition : definition env (after.takeWhile isNameChar) with
      | none =>
        rw [hdefinition, Option.getD_none, List.mem_cons] at h
        refine .inl (List.mem_cons.2 (h.imp_right fun hc => ?_))
        exact (List.takeWhile_prefix isNameChar).subset hc
      | some value =>
        rw [hdefinition, Option.getD_some] at h
        rw [definition] at hdefinition
        split at hdefinition
        · simp at hdefinition
        · exact .inr ⟨_, value, hdefinition, h⟩
    · refine (ih h).imp_left fun hc => List.mem_cons_of_mem _ ?_
      exact (List.dropWhile_suffix isNameChar).subset hc

end Macros

namespace Descriptor

variable {P : Char → Prop}

/-- The value that a line gives to a macro or to a field consists of some sort of characters. -/
def Line.Consists (P : Char → Prop) : Line → Prop
  | .definition _ value => ∀ c ∈ value, P c
  | .declaration _ value => ∀ c ∈ value, P c
  | .other => True

namespace Preamble

variable {p : Preamble}

/-- All values of macros and fields consist of some sort of characters. -/
structure Consists (P : Char → Prop) (p : Preamble) : Prop where
  definitions : ∀ key value, (key, value) ∈ p.definitions → ∀ c ∈ value, P c
  fields : ∀ field value, p.get field = some value → ∀ c ∈ value, P c

/-- An empty preamble consists of any sort of characters. -/
theorem consists_empty : Consists P {} where
  definitions := by simp
  fields := fun field value h => by cases field <;> simp [get] at h

/-- What a macro name means consists of these characters, too. -/
theorem Consists.of_holds (h : Consists P p) {c : Char} (hc : p.environment.Holds c) : P c := by
  obtain ⟨key, value, hvalue, hc⟩ := hc
  rw [environment, Option.or_eq_some_iff] at hvalue
  rcases hvalue with hvalue | ⟨-, hvalue⟩
  · obtain ⟨front, back, hfound, -⟩ := List.lookup_eq_some_iff.1 hvalue
    exact h.definitions key value (hfound ▸ by simp) c hc
  · obtain ⟨field, -, hvalue⟩ := Option.bind_eq_some_iff.1 hvalue
    exact h.fields field value hvalue c hc

/-- Expanding macros in a value brings in no characters of another sort. -/
theorem Consists.expand (h : Consists P p) {value : List Char} (hvalue : ∀ c ∈ value, P c) :
    ∀ c ∈ Macros.expand p.environment value, P c := fun c hc =>
  (Macros.mem_of_mem_expand hc).elim (hvalue c) h.of_holds

/-- One more line keeps the sort of characters. -/
theorem Consists.step (h : Consists P p) {line : Line} (hline : line.Consists P) :
    Consists P (p.step line) := by
  cases line with
  | definition key value =>
    refine ⟨fun other found hmem => ?_, fun field found hfound => ?_⟩
    · rcases List.mem_cons.1 hmem with heq | hmem
      · obtain ⟨rfl, rfl⟩ := Prod.mk.inj heq
        exact h.expand hline
      · exact h.definitions other found hmem
    · exact h.fields field found (by rwa [get_step_of_ne p field (by simp)] at hfound)
  | declaration field value =>
    refine ⟨fun other found hmem => ?_, fun other found hfound => ?_⟩
    · rw [definitions_step_of_ne p (by simp)] at hmem
      exact h.definitions other found hmem
    · rw [get_step_declaration] at hfound
      split at hfound
      · rw [Option.or_eq_some_iff] at hfound
        rcases hfound with hfound | ⟨-, hfound⟩
        · exact h.fields field found hfound
        · obtain rfl := Option.some.inj hfound
          exact h.expand hline
      · exact h.fields other found hfound
  | other => exact h

/-- All lines together keep the sort of characters that each of them keeps. -/
theorem Consists.foldl (h : Consists P p) {lines : List Line}
    (hlines : ∀ line ∈ lines, line.Consists P) : Consists P (lines.foldl Preamble.step p) := by
  induction lines generalizing p with
  | nil => exact h
  | cons line lines ih =>
    exact ih (h.step (hlines line List.mem_cons_self)) fun next hnext =>
      hlines next (List.mem_cons_of_mem line hnext)

end Preamble

/-- A character of a text that is not blank. -/
def Solid (text : List Char) (c : Char) : Prop :=
  c ∈ text ∧ Text.isBlank c = false

/-- What stands behind a directive or a colon is a part of the line. -/
theorem Line.consists_ofText (line : List Char) : (ofText line).Consists (Solid line) := by
  have hwords {front rest value : List Char} (hline : Text.trim line = front ++ rest)
      (hmem : value ∈ Text.words rest) : ∀ c ∈ value, Solid line c := by
    intro c hc
    have hrest : c ∈ Text.trim line :=
      hline ▸ List.mem_append_right front (Text.mem_of_mem_words hmem hc)
    exact ⟨Text.mem_of_mem_trim hrest, Text.isBlank_of_mem_words hmem hc⟩
  cases hread : ofText line with
  | definition key value =>
    obtain ⟨directive, -, rest, more, hline, hvalue⟩ := ofText_eq_definition_iff.1 hread
    exact hwords hline (by simp [hvalue])
  | declaration field value =>
    obtain ⟨rest, more, ⟨-, key, hline, -⟩, hvalue⟩ := ofText_eq_declaration_iff.1 hread
    have hcolon : Text.trim line = (key ++ [':']) ++ rest := by simpa using hline
    exact hwords hcolon (by simp [hvalue])
  | other => trivial

/-- Every value that a descriptor gives to a macro or to a field consists of characters of the
descriptor that are not blank. -/
theorem consists_scan (text : List Char) : (Preamble.scan text).Consists (Solid text) := by
  refine Preamble.consists_empty.foldl fun line hline => ?_
  obtain ⟨written, hwritten, rfl⟩ := List.mem_map.1 hline
  have hmono {c : Char} (hc : Solid written c) : Solid text c :=
    ⟨Text.mem_of_mem_lines hwritten hc.1, hc.2⟩
  have hown := Line.consists_ofText written
  cases hread : Line.ofText written with
  | definition key value | declaration field value =>
    rw [hread] at hown
    exact fun c hc => hmono (hown c hc)
  | other => trivial

/-- The text that is read for a field consists of characters of the descriptor that are not blank. -/
theorem solid_of_fieldOf {text : List Char} {field : Field} {value : String}
    (h : fieldOf (Preamble.scan text) field = .ok value) : ∀ c ∈ value.toList, Solid text c := by
  unfold fieldOf at h
  split at h
  · next chars hget =>
    obtain rfl := Except.ok.inj h
    simpa using (consists_scan text).fields field chars hget
  · cases h

/-- The characters of the metadata are those of the descriptor, and those of a given name. -/
theorem solid_of_metadata {givenName : Option String} {text : List Char} {m : Metadata}
    (h : metadata givenName text = .ok m) :
    (∀ c ∈ m.version.toList, Solid text c) ∧ (∀ c ∈ m.release.toList, Solid text c) ∧
      ∀ c ∈ m.name.toList, Solid text c ∨ ∃ given, givenName = some given ∧ c ∈ given.toList := by
  obtain ⟨hname, hversion, hrelease⟩ := of_metadata_ok h
  refine ⟨solid_of_fieldOf hversion, solid_of_fieldOf hrelease, fun c hc => ?_⟩
  cases givenName with
  | some given => exact .inr ⟨given, rfl, Except.ok.inj hname ▸ hc⟩
  | none => exact .inl (solid_of_fieldOf hname c hc)

end Descriptor

/-- A tag has no blanks if neither the version nor the release number has any. -/
theorem Metadata.isBlank_tag {m : Metadata} (hversion : ∀ c ∈ m.version.toList, Text.isBlank c = false)
    (hrelease : ∀ c ∈ m.release.toList, Text.isBlank c = false) :
    ∀ c ∈ m.tag.text.toList, Text.isBlank c = false := by
  have hletter {d : Char} (hd : Text.isBlank d = false) : Text.isBlank (Tag.letter d) = false := by
    rw [Tag.letter]
    split
    · decide
    · exact hd
  intro c hc
  rw [tag, Tag.format, String.toList_ofList, List.mem_map] at hc
  obtain ⟨d, hd, rfl⟩ := hc
  simp only [List.cons_append, List.mem_cons, List.mem_append] at hd
  rcases hd with rfl | hd | rfl | hd
  · decide
  · exact hletter (hversion d hd)
  · decide
  · exact hletter (hrelease d hd)

namespace Release

open Descriptor

/-- Expansion adds only what definitions hold; every value that a descriptor declares consists of
characters of the descriptor without blanks and line breaks.  So there are none in the tag of a release
and in the full version, which the message of its commit ends in, and a blank in the name of an artifact
comes from a name that the configuration gives. -/
theorem solid_of_descriptor (env : Macros.Environment) (value text : List Char) :
    (∀ c ∈ Macros.expand env value,
      c ∈ value ∨ ∃ name definition, env name = some definition ∧ c ∈ definition) ∧
    (∀ field token, (Preamble.scan text).get field = some token →
      ∀ c ∈ token, c ∈ text ∧ Text.isBlank c = false ∧ c ≠ '\n' ∧ c ≠ '\r') ∧
    ∀ r : Release, Descriptor.metadata r.configuration.package.name text = .ok r.metadata →
      (∀ c ∈ r.tag.text.toList, Text.isBlank c = false) ∧
      (∀ c ∈ r.metadata.fullVersion.toList, Text.isBlank c = false) ∧
      ∀ name ∈ r.outputNames, ∀ c ∈ name.toList, Text.isBlank c = true →
        ∃ given, r.configuration.package.name = some given ∧ c ∈ given.toList := by
  refine ⟨fun c hc => Macros.mem_of_mem_expand hc, fun field token htoken c hc => ?_, fun r h => ?_⟩
  · obtain ⟨hmem, hblank⟩ := (consists_scan text).fields field token htoken c hc
    refine ⟨hmem, hblank, ?_, ?_⟩ <;>
    · rintro rfl
      exact absurd hblank (by decide)
  · obtain ⟨hversion, hrelease, hname⟩ := solid_of_metadata h
    have hfull : ∀ c ∈ r.metadata.fullVersion.toList, Text.isBlank c = false := by
      intro c hc
      simp only [Metadata.fullVersion, String.toList_append, List.mem_append] at hc
      rcases hc with (hc | hc) | hc
      · exact (hversion c hc).2
      · obtain rfl : c = '-' := by simpa using hc
        decide
      · exact (hrelease c hc).2
    refine ⟨Metadata.isBlank_tag (fun c hc => (hversion c hc).2) fun c hc => (hrelease c hc).2, hfull,
      fun name hmem c hc hblank => ?_⟩
    -- an output is named after the stem, which begins with the name of the package
    have hstem : c ∈ r.metadata.stem.toList → ∃ given, r.configuration.package.name = some given ∧
        c ∈ given.toList := by
      intro hc
      simp only [Metadata.stem, String.toList_append, List.mem_append] at hc
      rcases hc with (hc | hc) | hc
      · refine (hname c hc).resolve_left fun hsolid => ?_
        simp [hsolid.2] at hblank
      · obtain rfl : c = '-' := by simpa using hc
        exact absurd hblank (by decide)
      · simp [(hversion c hc).2] at hblank
    have hending {ending : String} (hc : c ∈ (r.metadata.stem ++ ending).toList)
        (hending : ending.toList.all (!Text.isBlank ·) = true) :
        ∃ given, r.configuration.package.name = some given ∧ c ∈ given.toList := by
      rw [String.toList_append, List.mem_append] at hc
      refine hc.elim hstem fun hc => ?_
      simpa [hblank] using List.all_eq_true.1 hending c hc
    simp only [outputNames, List.mem_cons, List.not_mem_nil, or_false] at hmem
    rcases hmem with rfl | rfl | rfl
    · exact hstem hc
    · exact hending hc (by decide)
    · exact hending hc (by decide)

/-- A version from a definition, in front of further words, and a given name with a blank in it. -/
theorem solid_of_descriptor_given :
    let text := "%define v 1.2%{?dist}\nName: x\nVersion:\t%{v} rc\nRelease: 3 # beta\n".toList
    let r : Release := ⟨⟨"/r"⟩, ⟨"p q", "1.2", "3"⟩, { package := { name := some "p q" } }⟩
    Descriptor.metadata r.configuration.package.name text = .ok r.metadata ∧
      (∀ c ∈ r.tag.text.toList, Text.isBlank c = false) ∧ ' ' ∈ r.metadata.stem.toList := by
  intro text r
  have hmetadata : Descriptor.metadata r.configuration.package.name text = .ok r.metadata := by
    decide +kernel
  have htag := ((solid_of_descriptor (fun _ => none) [] text).2.2 r hmetadata).1
  exact ⟨hmetadata, htag, by decide +kernel⟩

end Release

end RpmRelease
