import Mathlib.Data.List.Basic
import RpmRelease.Configuration.Decode
import RpmRelease.Proofs.Run

/-!
# Sections and their defaults

A document that is left without a section and one that gives the section without any field mean the
same, although the default of a section is one thing and the defaults of its fields are another: the
two agree in all sections.

`settings` writes the fields of a section as values of a document, and `overlay` puts what a document
gives in the place of what it replaces.  The main result is that reading a document overlays the
settings of a section that is left out by those that the document gives, in a table by their names and
in an array by their places; it is the same for every section, and what else the document says does not
matter.  Every configuration is read back from its own settings.
-/

set_option autoImplicit false

namespace RpmRelease.Configuration

open Toml (Value)

/-- The fields of a section as values of a document; nothing for an option without a value. -/
abbrev Settings := List (String × Option Value)

/-! ## The sections -/

/-- The sections of a configuration. -/
inductive Section
  | package
  | manifest
  | versionControl
  | builder
  | build
  | verify
  | clean
  | install
deriving DecidableEq, Repr

/-- A list of strings as a value. -/
def stringsValue (texts : List String) : Value := .array (texts.map .string)

/-- A path as a value. -/
def pathValue (p : Path) : Value := .string p.text

namespace Section

/-- The name of a section in a document. -/
def name : Section → String
  | package => "package"
  | manifest => "manifest"
  | versionControl => "vcs"
  | builder => "builder"
  | build => "build"
  | verify => "verify"
  | clean => "clean"
  | install => "install"

/-- All sections, in order. -/
def all : List Section :=
  [package, manifest, versionControl, builder, build, verify, clean, install]

/-- What a section holds. -/
abbrev Content : Section → Type
  | package => PackageSection
  | manifest => ManifestSection
  | versionControl => VersionControlSection
  | builder => BuilderSection
  | build | verify => CommandSection
  | clean => CleanSection
  | install => InstallSection

/-- The section of a configuration. -/
def get (c : Configuration) : (s : Section) → s.Content
  | package => c.package
  | manifest => c.manifest
  | versionControl => c.versionControl
  | builder => c.builder
  | build => c.build
  | verify => c.verify
  | clean => c.clean
  | install => c.install

/-- Reads a section that is given. -/
def decode : (s : Section) → Value → Except Rejection s.Content
  | package => Decode.package
  | manifest => Decode.manifest
  | versionControl => Decode.versionControl
  | builder => Decode.builder
  | build => Decode.command "build"
  | verify => Decode.command "verify"
  | clean => Decode.clean
  | install => Decode.install

/-- The fields of a section, in order. -/
def settings : (s : Section) → s.Content → Settings
  | package, x => [("descriptor", x.descriptor.map pathValue), ("name", x.name.map .string)]
  | manifest, x => [("files", some (stringsValue x.files))]
  | versionControl, x => [("module", some (pathValue x.module)),
      ("changelog", some (pathValue x.changelog)),
      ("changelog_command", some (stringsValue x.changelogCommand)),
      ("tag_force", some (.boolean x.tagForce))]
  | builder, x => [("command", some (.string x.command)), ("args", some (stringsValue x.args))]
  | build, x | verify, x => [("command", some (stringsValue x.command))]
  | clean, x => [("patterns", some (stringsValue x.patterns))]
  | install, x => [("bin", some (stringsValue x.bin)), ("lib", some (stringsValue x.lib)),
      ("etc", some (stringsValue x.etc)), ("bindir", x.bindir.map pathValue),
      ("libdir", x.libdir.map pathValue), ("etcdir", x.etcdir.map pathValue)]

/-- The names of the fields of a section, in order. -/
def fieldNames (s : Section) : List String :=
  (s.settings (s.get {})).map Prod.fst

/-- Sections are told apart by their names. -/
theorem name_injective {s s' : Section} (h : s.name = s'.name) : s = s' := by
  cases s <;> cases s' <;> first | rfl | exact absurd h (by decide)

/-- The names of sections are those of the sections that there are. -/
theorem mem_sectionNames_iff {key : String} : key ∈ sectionNames ↔ ∃ s : Section, key = s.name := by
  constructor
  · intro h
    simp only [sectionNames, List.mem_cons, List.not_mem_nil, or_false] at h
    rcases h with rfl | rfl | rfl | rfl | rfl | rfl | rfl | rfl
    exacts [⟨package, rfl⟩, ⟨manifest, rfl⟩, ⟨versionControl, rfl⟩, ⟨builder, rfl⟩, ⟨build, rfl⟩,
      ⟨verify, rfl⟩, ⟨clean, rfl⟩, ⟨install, rfl⟩]
  · rintro ⟨s, rfl⟩
    cases s <;> decide

end Section

/-! ## What a document gives to the fields of a section -/

/-- The value that a section gives to a field: in a table by its name, in an array by its place. -/
def givenTo (names : List String) (name : String) : Value → Option Value
  | .table entries => entries.lookup name
  | .array elements => if name ∈ names then elements[names.idxOf name]? else none
  | _ => none

/-- Settings with what a section gives in the place of what it replaces. -/
def overlay (given : Option Value) (settings : Settings) : Settings :=
  settings.map fun (name, value) =>
    (name, (given.bind (givenTo (settings.map Prod.fst) name)).or value)

/-- Settings as a table; options without a value are left out. -/
def tableOf (settings : Settings) : Value :=
  .table (settings.filterMap fun (name, value) => value.map (name, ·))

/-- Where nothing is given, settings stay as they are. -/
@[simp] theorem overlay_none (settings : Settings) : overlay none settings = settings := by
  simp [overlay]

/-- An array gives to each name the element in its place. -/
theorem lookup_zip (names : List String) (elements : List Value) (name : String) :
    (names.zip elements).lookup name =
      if name ∈ names then elements[names.idxOf name]? else none := by
  induction names generalizing elements with
  | nil => simp
  | cons first names ih =>
    cases elements with
    | nil => simp
    | cons element elements =>
      rw [List.zip_cons_cons, List.lookup_cons, List.idxOf_cons]
      by_cases hname : name = first
      · simp [hname]
      · have hne : (name == first) = false := by simpa using hname
        have hne' : (first == name) = false := by simpa using Ne.symm hname
        simp [hne, hne', hname, ih]

/-- The values that a section has are those that it gives to its fields. -/
theorem lookup_of_fields {names : List String} {sectionName : String} {v : Value}
    {values : List (String × Value)} (h : Decode.fields names sectionName v = .ok values)
    (name : String) : values.lookup name = givenTo names name v := by
  cases v with
  | table entries =>
    obtain rfl := Except.ok.inj h
    rfl
  | array elements =>
    obtain rfl := Except.ok.inj h
    exact lookup_zip names elements name
  | time text =>
    obtain rfl := Except.ok.inj h
    rfl
  | string | boolean | integer | float => cases h

/-- An entry of another name does not matter when a name is looked up. -/
theorem lookup_insert {key name : String} (front back : List (String × Value)) (v : Value)
    (h : name ≠ key) :
    (front ++ (key, v) :: back).lookup name = (front ++ back).lookup name := by
  have hne : (name == key) = false := by simpa using h
  simp [List.lookup_append, List.lookup_cons, hne]

/-! ## Reading values -/

/-- A reader takes just the values that its results are written as. -/
def Reads {α : Type} (reader : Decode.Reader α) (write : α → Option Value) : Prop :=
  ∀ name v x, reader name v = .ok x ↔ write x = some v

/-- Texts are read from strings and from nothing else. -/
theorem reads_string : Reads Decode.string fun text => some (.string text) := by
  intro name v x
  cases v <;> simp [Decode.string, eq_comm]

/-- Truth values are read from booleans and from nothing else. -/
theorem reads_boolean : Reads Decode.boolean fun b => some (.boolean b) := by
  intro name v x
  cases v <;> simp [Decode.boolean, eq_comm]

/-- Paths are read from strings and from nothing else. -/
theorem reads_path : Reads Decode.path fun p => some (pathValue p) := by
  rintro name v ⟨text⟩
  cases v <;> simp [Decode.path, Decode.string, Except.map, pathValue, eq_comm]

/-- A list of texts is read from just those strings. -/
theorem mapM_string_eq_ok_iff {name : String} {elements : List Value} {texts : List String} :
    elements.mapM (Decode.string name) = .ok texts ↔ texts.map .string = elements := by
  induction elements generalizing texts with
  | nil => simp [pure, Except.pure, eq_comm]
  | cons element elements ih =>
    rw [List.mapM_cons]
    constructor
    · intro h
      obtain ⟨text, htext, h⟩ := Run.of_bind_ok h
      obtain ⟨more, hmore, h⟩ := Run.of_bind_ok h
      obtain rfl := Except.ok.inj h
      rw [List.map_cons, Option.some.inj ((reads_string name element text).1 htext), ih.1 hmore]
    · intro h
      obtain ⟨text, more, rfl, rfl, hmore⟩ := List.map_eq_cons_iff.1 h
      rw [(reads_string name _ text).2 rfl, ih.2 hmore]
      rfl

/-- Lists of texts are read from arrays of strings and from nothing else. -/
theorem reads_strings : Reads Decode.strings fun texts => some (stringsValue texts) := by
  intro name v texts
  cases v with
  | array elements => simp [Decode.strings, stringsValue, mapM_string_eq_ok_iff]
  | string | boolean | integer | float | time | table => simp [Decode.strings, stringsValue]

/-- An option is read from the values that what it holds is written as, and from nothing else. -/
theorem Reads.optional {α : Type} {reader : Decode.Reader α} {write : α → Value}
    (h : Reads reader fun x => some (write x)) : Reads (Decode.optional reader) (·.map write) := by
  intro name v x
  rw [Decode.optional]
  cases hread : reader name v with
  | error e =>
    cases x with
    | none => simp [Except.map]
    | some x =>
      have hne : write x ≠ v := fun heq => by simp [(h name v x).2 (congrArg some heq)] at hread
      simp [Except.map, hne]
  | ok y =>
    have hwrite : write y = v := Option.some.inj ((h name v y).1 hread)
    cases x with
    | none => simp [Except.map]
    | some x =>
      have hsame : write x = v → y = x := fun heq =>
        Except.ok.inj (hread.symm.trans ((h name v x).2 (congrArg some heq)))
      simp only [Except.map, Except.ok.injEq, Option.some.injEq, Option.map_some]
      exact ⟨fun heq => heq ▸ hwrite, hsame⟩

/-- A field has the value that is given to it, or its default. -/
theorem Reads.field {α : Type} {reader : Decode.Reader α} {write : α → Option Value}
    (h : Reads reader write) {values : List (String × Value)} {name : String} {default x : α}
    (hfield : Decode.field values name reader default = .ok x) :
    write x = (values.lookup name).or (write default) := by
  rw [Decode.field] at hfield
  cases hlookup : values.lookup name with
  | none =>
    rw [hlookup] at hfield
    rw [Except.ok.inj hfield, Option.none_or]
  | some v =>
    rw [hlookup] at hfield
    rw [(h name v x).1 hfield, Option.some_or]

/-! ## Every section -/

namespace Section

/-- A section that is given has the fields that it gives, and otherwise those of a section that is left
out. -/
theorem settings_of_decode (s : Section) {v : Value} {x : s.Content} (h : s.decode v = .ok x) :
    s.settings x = overlay (some v) (s.settings (s.get {})) := by
  -- a section is decoded field by field; each reader gives back the value that it was read from
  cases s with
  | package =>
    obtain ⟨values, hvalues, h⟩ := Run.of_bind_ok h
    obtain ⟨descriptor, hdescriptor, h⟩ := Run.of_bind_ok h
    obtain ⟨name, hname, h⟩ := Run.of_bind_ok h
    obtain rfl := Except.ok.inj h
    simp only [settings, overlay, reads_path.optional.field hdescriptor,
      reads_string.optional.field hname, lookup_of_fields hvalues, List.map_cons, List.map_nil]
    rfl
  | manifest =>
    obtain ⟨values, hvalues, h⟩ := Run.of_bind_ok h
    obtain ⟨files, hfiles, h⟩ := Run.of_bind_ok h
    obtain rfl := Except.ok.inj h
    simp only [settings, overlay, reads_strings.field hfiles, lookup_of_fields hvalues, List.map_cons,
      List.map_nil]
    rfl
  | versionControl =>
    obtain ⟨values, hvalues, h⟩ := Run.of_bind_ok h
    obtain ⟨module, hmodule, h⟩ := Run.of_bind_ok h
    obtain ⟨changelog, hchangelog, h⟩ := Run.of_bind_ok h
    obtain ⟨changelogCommand, hcommand, h⟩ := Run.of_bind_ok h
    obtain ⟨tagForce, hforce, h⟩ := Run.of_bind_ok h
    obtain rfl := Except.ok.inj h
    simp only [settings, overlay, reads_path.field hmodule, reads_path.field hchangelog,
      reads_strings.field hcommand, reads_boolean.field hforce, lookup_of_fields hvalues,
      List.map_cons, List.map_nil]
    rfl
  | builder =>
    obtain ⟨values, hvalues, h⟩ := Run.of_bind_ok h
    obtain ⟨command, hcommand, h⟩ := Run.of_bind_ok h
    obtain ⟨args, hargs, h⟩ := Run.of_bind_ok h
    obtain rfl := Except.ok.inj h
    simp only [settings, overlay, reads_string.field hcommand, reads_strings.field hargs,
      lookup_of_fields hvalues, List.map_cons, List.map_nil]
    rfl
  | build | verify =>
    obtain ⟨values, hvalues, h⟩ := Run.of_bind_ok h
    obtain ⟨command, hcommand, h⟩ := Run.of_bind_ok h
    obtain rfl := Except.ok.inj h
    simp only [settings, overlay, reads_strings.field hcommand, lookup_of_fields hvalues,
      List.map_cons, List.map_nil]
    rfl
  | clean =>
    obtain ⟨values, hvalues, h⟩ := Run.of_bind_ok h
    obtain ⟨patterns, hpatterns, h⟩ := Run.of_bind_ok h
    obtain rfl := Except.ok.inj h
    simp only [settings, overlay, reads_strings.field hpatterns, lookup_of_fields hvalues,
      List.map_cons, List.map_nil]
    rfl
  | install =>
    obtain ⟨values, hvalues, h⟩ := Run.of_bind_ok h
    obtain ⟨bin, hbin, h⟩ := Run.of_bind_ok h
    obtain ⟨lib, hlib, h⟩ := Run.of_bind_ok h
    obtain ⟨etc, hetc, h⟩ := Run.of_bind_ok h
    obtain ⟨bindir, hbindir, h⟩ := Run.of_bind_ok h
    obtain ⟨libdir, hlibdir, h⟩ := Run.of_bind_ok h
    obtain ⟨etcdir, hetcdir, h⟩ := Run.of_bind_ok h
    obtain rfl := Except.ok.inj h
    simp only [settings, overlay, reads_strings.field hbin, reads_strings.field hlib,
      reads_strings.field hetc, reads_path.optional.field hbindir, reads_path.optional.field hlibdir,
      reads_path.optional.field hetcdir, lookup_of_fields hvalues, List.map_cons, List.map_nil]
    rfl

/-- The defaults of the fields of a section make up the default of the section. -/
theorem decode_nil (s : Section) :
    s.decode (.table []) = .ok (s.get {}) ∧ s.decode (.array []) = .ok (s.get {}) := by
  cases s <;> exact ⟨rfl, rfl⟩

/-- A key that a section does not know changes nothing. -/
theorem decode_insert (s : Section) {key : String} (front back : List (String × Value)) (v : Value)
    (h : key ∉ s.fieldNames) :
    s.decode (.table (front ++ (key, v) :: back)) = s.decode (.table (front ++ back)) := by
  have hfield {α : Type} (reader : Decode.Reader α) (default : α) {name : String}
      (hname : name ∈ s.fieldNames) :
      Decode.field (front ++ (key, v) :: back) name reader default =
        Decode.field (front ++ back) name reader default := by
    rw [Decode.field, Decode.field, lookup_insert front back v (by rintro rfl; exact h hname)]
  cases s <;>
    simp (disch := decide) only [decode, Decode.package, Decode.manifest, Decode.versionControl,
      Decode.builder, Decode.command, Decode.clean, Decode.install, Decode.fields, bind, Except.bind,
      hfield]

/-- A section is read back from its settings. -/
theorem decode_tableOf (s : Section) (x : s.Content) : s.decode (tableOf (s.settings x)) = .ok x := by
  have hstrings (name : String) (texts : List String) :
      Decode.strings name (stringsValue texts) = .ok texts := (reads_strings name _ texts).2 rfl
  cases s with
  | package =>
    obtain ⟨descriptor, name⟩ := x
    cases descriptor <;> cases name <;> rfl
  | install =>
    obtain ⟨bin, lib, etc, bindir, libdir, etcdir⟩ := x
    cases bindir <;> cases libdir <;> cases etcdir <;>
      simp [decode, Decode.install, tableOf, settings, Decode.fields, Decode.field, List.lookup_cons,
        hstrings, bind, Except.bind, pure, Except.pure, Decode.optional, Decode.path, Decode.string,
        Except.map, pathValue]
  | manifest | versionControl | builder | build | verify | clean =>
    simp [decode, Decode.manifest, Decode.versionControl, Decode.builder, Decode.command, Decode.clean,
      tableOf, settings, Decode.fields, Decode.field, List.lookup_cons, hstrings, bind, Except.bind,
      pure, Except.pure, Decode.boolean, Decode.path, Decode.string, Except.map, pathValue]

end Section

/-! ## Whole documents -/

section Documents

variable {entries others before after : List (String × Value)} {s : Section} {v w : Value}
  {c c' : Configuration}

/-- The section of a document, or the default one. -/
def Section.read (s : Section) (entries : List (String × Value)) : Except Rejection s.Content :=
  Decode.entry entries s.name s.decode (s.get {})

/-- The first entry of a document that is no section. -/
def unknownSection? (entries : List (String × Value)) : Option (String × Value) :=
  entries.find? fun (name, _) => !sectionNames.contains name

/-- A document is read section by section. -/
theorem ofEntries_eq (entries : List (String × Value)) : ofEntries entries =
    match unknownSection? entries with
    | some (name, _) => .error (.unknownSection name)
    | none => do
      return {
        package := ← Section.read .package entries
        manifest := ← Section.read .manifest entries
        versionControl := ← Section.read .versionControl entries
        builder := ← Section.read .builder entries
        build := ← Section.read .build entries
        verify := ← Section.read .verify entries
        clean := ← Section.read .clean entries
        install := ← Section.read .install entries } := by
  rw [ofEntries, unknownSection?]
  cases entries.find? fun (name, _) => !sectionNames.contains name <;> rfl

/-- A configuration that was read has each of its sections as the document gives it. -/
theorem read_of_ofEntries (h : ofEntries entries = .ok c) (s : Section) :
    s.read entries = .ok (s.get c) := by
  rw [ofEntries_eq] at h
  split at h
  · cases h
  obtain ⟨package, hpackage, h⟩ := Run.of_bind_ok h
  obtain ⟨manifest, hmanifest, h⟩ := Run.of_bind_ok h
  obtain ⟨versionControl, hversionControl, h⟩ := Run.of_bind_ok h
  obtain ⟨builder, hbuilder, h⟩ := Run.of_bind_ok h
  obtain ⟨build, hbuild, h⟩ := Run.of_bind_ok h
  obtain ⟨verify, hverify, h⟩ := Run.of_bind_ok h
  obtain ⟨clean, hclean, h⟩ := Run.of_bind_ok h
  obtain ⟨install, hinstall, h⟩ := Run.of_bind_ok h
  obtain rfl := Except.ok.inj h
  cases s <;> assumption

/-- Documents with the same sections, and the same name that is none, are read alike. -/
theorem ofEntries_congr (hunknown : unknownSection? entries = unknownSection? others)
    (h : ∀ s : Section, s.read entries = s.read others) : ofEntries entries = ofEntries others := by
  simp only [ofEntries_eq, hunknown, h]

/-- An entry for a section is no unknown section. -/
theorem unknownSection?_insert (s : Section) (v : Value) :
    unknownSection? (before ++ (s.name, v) :: after) = unknownSection? (before ++ after) := by
  have hknown : s.name ∈ sectionNames := Section.mem_sectionNames_iff.2 ⟨s, rfl⟩
  simp [unknownSection?, List.find?_append, hknown]

/-- A key is looked up in front of its entry first, and then there. -/
theorem lookup_own (key : String) (v : Value) :
    (before ++ (key, v) :: after).lookup key = (before.lookup key).or (some v) := by
  simp [List.lookup_append]

/-- A key that no entry has is not found. -/
theorem lookup_eq_none {key : String} (h : key ∉ entries.map Prod.fst) : entries.lookup key = none := by
  rw [List.lookup_eq_none_iff]
  intro entry hentry
  simpa using fun heq : key = entry.1 => h (heq ▸ List.mem_map_of_mem hentry)

/-- A document is read alike when one of its sections is given in another way that is read alike. -/
theorem ofEntries_replace (h : s.decode v = s.decode w) :
    ofEntries (before ++ (s.name, v) :: after) = ofEntries (before ++ (s.name, w) :: after) := by
  refine ofEntries_congr ?_ fun other => ?_
  · rw [unknownSection?_insert, unknownSection?_insert]
  · by_cases hs : other.name = s.name
    · obtain rfl := Section.name_injective hs
      rw [Section.read, Section.read, Decode.entry, Decode.entry, lookup_own, lookup_own]
      cases before.lookup other.name <;> simp [h]
    · rw [Section.read, Section.read, Decode.entry, Decode.entry, lookup_insert _ _ _ hs,
        lookup_insert _ _ _ hs]

/-- A section that is read as the default one may as well be left out. -/
theorem ofEntries_leaveOut (hname : s.name ∉ (before ++ after).map Prod.fst)
    (h : s.decode v = .ok (s.get {})) :
    ofEntries (before ++ (s.name, v) :: after) = ofEntries (before ++ after) := by
  refine ofEntries_congr (unknownSection?_insert s v) fun other => ?_
  by_cases hs : other.name = s.name
  · obtain rfl := Section.name_injective hs
    have hbefore : before.lookup other.name = none :=
      lookup_eq_none fun hmem => hname (by simp [hmem])
    rw [Section.read, Section.read, Decode.entry, Decode.entry, lookup_own, hbefore,
      lookup_eq_none hname]
    exact h
  · rw [Section.read, Section.read, Decode.entry, Decode.entry, lookup_insert _ _ _ hs]

/-- A document with an entry that is no section gives no configuration. -/
theorem ofEntries_unknown {key : String} (h : key ∉ sectionNames) (c : Configuration) :
    ofEntries (before ++ (key, v) :: after) ≠ .ok c := by
  rw [ofEntries_eq]
  cases hunknown : unknownSection? (before ++ (key, v) :: after) with
  | some entry => simp
  | none =>
    have hcontains := List.find?_eq_none.1 hunknown (key, v) (by simp)
    simp [h] at hcontains

/-- A configuration as a document that gives every field that has a value. -/
def written (c : Configuration) : List (String × Value) :=
  Section.all.map fun s => (s.name, tableOf (s.settings (s.get c)))

/-- A written configuration gives each section as it is. -/
theorem read_written (c : Configuration) (s : Section) : s.read (written c) = .ok (s.get c) := by
  have hlookup : (written c).lookup s.name = some (tableOf (s.settings (s.get c))) := by
    cases s <;> rfl
  rw [Section.read, Decode.entry, hlookup]
  exact s.decode_tableOf (s.get c)

/-- Every configuration is read back from what is written of it. -/
theorem ofEntries_written (c : Configuration) : ofEntries (written c) = .ok c := by
  have hknown : unknownSection? (written c) = none := rfl
  simp only [ofEntries_eq, hknown, read_written]
  rfl

/-- The settings of a section are those of a document without this section, with what the document
gives in their place.  So a section may be left out, empty or an array without elements, and it may
have keys that it does not know, but there is no section that is not known; and no configuration is
out of reach. -/
theorem ofEntries_settings :
    (∀ entries c bare c₀, ofEntries entries = .ok c → ofEntries bare = .ok c₀ → ∀ s : Section,
      s.name ∉ bare.map Prod.fst →
        s.settings (s.get c) = overlay (entries.lookup s.name) (s.settings (s.get c₀))) ∧
    (∀ (s : Section) before after, s.name ∉ (before ++ after).map Prod.fst →
      ofEntries (before ++ (s.name, .table []) :: after) = ofEntries (before ++ after) ∧
      ofEntries (before ++ (s.name, .array []) :: after) = ofEntries (before ++ after)) ∧
    (∀ (s : Section) before after front back key v, key ∉ s.fieldNames →
      ofEntries (before ++ (s.name, .table (front ++ (key, v) :: back)) :: after) =
        ofEntries (before ++ (s.name, .table (front ++ back)) :: after)) ∧
    (∀ before after key v c, key ∉ sectionNames →
      ofEntries (before ++ (key, v) :: after) ≠ .ok c) ∧
    ∀ c, ofEntries (written c) = .ok c := by
  refine ⟨fun entries c bare c₀ h hbare s hname => ?_, fun s before after hname => ?_,
    fun s before after front back key v hkey => ?_, fun before after key v c hkey => ?_,
    ofEntries_written⟩
  · have hread := read_of_ofEntries h s
    have hdefault := read_of_ofEntries hbare s
    rw [Section.read, Decode.entry, lookup_eq_none hname] at hdefault
    rw [← Except.ok.inj hdefault]
    rw [Section.read, Decode.entry] at hread
    cases hlookup : entries.lookup s.name with
    | none =>
      rw [hlookup] at hread
      rw [← Except.ok.inj hread, overlay_none]
    | some v =>
      rw [hlookup] at hread
      exact s.settings_of_decode hread
  · exact ⟨ofEntries_leaveOut hname s.decode_nil.1, ofEntries_leaveOut hname s.decode_nil.2⟩
  · exact ofEntries_replace (s.decode_insert front back v hkey)
  · exact ofEntries_unknown hkey c

/-- A builder that is given by its command alone keeps the default arguments; an empty section next to
it, and a key that it does not know, change nothing. -/
theorem ofEntries_settings_builder :
    Section.settings .builder ({ command := "true" } : BuilderSection) =
        overlay (some (.array [.string "true"])) (Section.settings .builder ({} : BuilderSection)) ∧
      ofEntries [("builder", .table [("command", .string "true")]), ("clean", .table [])] =
        ofEntries [("builder", .table [("command", .string "true")])] ∧
      ofEntries [("builder", .table [("command", .string "true"), ("shell", .boolean true)])] =
        ofEntries [("builder", .table [("command", .string "true")])] ∧
      ofEntries [("tools", .table [])] ≠ .ok {} :=
  ⟨ofEntries_settings.1 [("builder", .array [.string "true"])]
      { builder := { command := "true" } } [] {} rfl rfl .builder (by decide),
    (ofEntries_settings.2.1 .clean [("builder", .table [("command", .string "true")])] []
      (by decide)).1,
    ofEntries_settings.2.2.1 .builder [] [] [("command", .string "true")] [] "shell" (.boolean true)
      (by decide),
    ofEntries_settings.2.2.2.1 [] [] "tools" (.table []) {} (by decide)⟩

end Documents

end RpmRelease.Configuration
