import RpmRelease.Proofs.Tar.Slot
import RpmRelease.Tar.Reader

/-!
# Reading back what a writer wrote

An item becomes up to three members: one for a name and one for a link target that are too long for
their fields, and its own.  `Item.Written` says what these bytes are, and `Member.Says` what a
reader has to find in them.  The reader takes exactly the bytes of one item, whatever stands behind
them, and finds that item; so it finds all items of an archive, in order, and then its end.
-/

set_option autoImplicit false

namespace RpmRelease.Tar

/-! ## The bytes of an item -/

/-- The contents that stand behind a header. -/
def Body.content : Body → Bytes
  | .file content => content
  | _ => []

/-- The kind that a header states. -/
def Body.kind : Body → UInt8
  | .directory => Kind.directory
  | .file _ => Kind.file
  | .link _ => Kind.link

/-- So many bytes are needed for contents in whole blocks. -/
def whole (size : Nat) : Nat :=
  (size + blockSize - 1) / blockSize * blockSize

/-- A header with contents behind it. -/
def memberBytes (h : Header) (content : Bytes) : Bytes :=
  h.encode ++ pad (whole content.length) content

/-- The header of a member that holds a name. -/
def longHeader (kind : UInt8) (name : Bytes) : Header :=
  ⟨Text.Utf8.ofString "././@LongLink", 0o644, name.length + 1, 0, kind, []⟩

/-- The member that holds a name, when there is one to hold. -/
def longBytes (kind : UInt8) : Option Bytes → Bytes
  | none => []
  | some name => memberBytes (longHeader kind name) (name ++ [0])

/-- The header of an item with some names in the fields for them. -/
def Item.header (item : Item) (name link : Bytes) : Header :=
  ⟨name, item.mode, item.body.content.length, item.time, item.body.kind, link⟩

/-- A name is told by the member in front, if there is one, or else by the field.  Only a long name
has a member in front.  `keeps` relates the components of the text in the field to those of the
path. -/
def Tells (long : Option Bytes) (field : Bytes) (path : Path)
    (keeps : List Path.Component → List Path.Component) : Prop :=
  match long with
  | some name => name = Text.Utf8.ofString path.text ∧ 100 ≤ name.length
  | none => ∃ text, text ≠ [] ∧ cut field = Text.Utf8.encode text ∧
      Path.components ⟨String.ofList text⟩ = keeps path.components

/-- The bytes that an item becomes. -/
structure Item.Written (item : Item) (bytes : Bytes) : Prop where
  parts : ∃ (longName longLink : Option Bytes) (name link : Bytes),
    bytes = longBytes Kind.longName longName ++ (longBytes Kind.longLink longLink ++
      memberBytes (item.header name link) item.body.content) ∧
    name.length = 100 ∧ link.length ≤ 100 ∧
    Tells longName name item.path (Slot.kept false) ∧
    (match item.body with
      | .link target => Tells longLink link target id
      | _ => longLink = none ∧ link = [])

/-- Emitting bytes writes them behind what has been written. -/
theorem run_emit (bytes written : Bytes) :
    (Writer.emit bytes).run written = (.ok (), written ++ bytes) := rfl

/-- Emitting a member writes its header and its contents. -/
theorem run_emitMember (h : Header) (content written : Bytes) :
    (Writer.emitMember h content).run written = (.ok (), written ++ memberBytes h content) := by
  unfold Writer.emitMember
  rw [Run.run_bind_of_ok _ (run_emit _ _), run_emit, List.append_assoc]
  rfl

/-- Emitting a long name writes the member that holds it. -/
theorem run_emitLong (kind : UInt8) (name written : Bytes) :
    (Writer.emitLong kind name).run written =
      (.ok (), written ++ longBytes kind (some name)) :=
  run_emitMember _ _ _

/-- A prepared name is in the field, or in a member in front. -/
theorem exists_of_prepareName {path : Path} {slot : Slot} {written written' : Bytes}
    (h : (Writer.prepareName path).run written = (.ok slot, written')) :
    ∃ long, written' = written ++ longBytes Kind.longName long ∧ slot.bytes.length = 100 ∧
      Tells long slot.bytes path (Slot.kept false) := by
  have hwidth := Slot.width_fill false false path Slot.holds_empty.width
  unfold Writer.prepareName at h
  rcases hfill : Slot.empty.fill false false path with ⟨reason | _, filled⟩
  · simp only [hfill] at h hwidth
    obtain ⟨hwide, h⟩ := Run.of_run_check_ok h
    obtain ⟨_, _, hlong, hrefill⟩ := Run.of_run_bind_ok h
    rw [run_emitLong] at hlong
    have hwidth' := Slot.width_fill false true
      ⟨String.ofList (Writer.shorten 100 path.text.toList)⟩ hwidth
    rcases hagain : filled.fill false true
      ⟨String.ofList (Writer.shorten 100 path.text.toList)⟩ with ⟨reason | _, refilled⟩
    · simp only [hagain] at hrefill
      exact absurd hrefill Run.run_throw_ne_ok
    · simp only [hagain] at hrefill hwidth'
      obtain ⟨-, rfl⟩ := Run.ok_inj hlong
      obtain ⟨rfl, rfl⟩ := Run.ok_inj hrefill
      exact ⟨some (Text.Utf8.ofString path.text), rfl, hwidth', rfl, Nat.not_lt.1 hwide⟩
  · simp only [hfill] at h hwidth
    obtain ⟨text, hholds, hne, hcomponents⟩ := Slot.exists_holds_of_fill hfill
    obtain ⟨rfl, rfl⟩ := Run.ok_inj h
    exact ⟨none, (List.append_nil _).symm, hwidth, text, hne, hholds.cut_eq, hcomponents⟩

/-- A prepared link target is in the field, or in a member in front. -/
theorem exists_of_prepareTarget {name slot : Slot} {target : Path} {written written' : Bytes}
    (h : (Writer.prepareTarget name target).run written = (.ok slot, written')) :
    ∃ long, written' = written ++ longBytes Kind.longLink long ∧ slot.bytes.length ≤ 100 ∧
      Tells long slot.bytes target id := by
  have hwidth := Slot.width_fill true false target Slot.holds_empty.width
  unfold Writer.prepareTarget at h
  rcases hfill : Slot.empty.fill true false target with ⟨reason | _, filled⟩
  · simp only [hfill] at h hwidth
    obtain ⟨hwide, h⟩ := Run.of_run_check_ok h
    obtain ⟨_, _, hlong, hreturn⟩ := Run.of_run_bind_ok h
    rw [run_emitLong] at hlong
    obtain ⟨-, rfl⟩ := Run.ok_inj hlong
    obtain ⟨rfl, rfl⟩ := Run.ok_inj hreturn
    exact ⟨some (Text.Utf8.ofString target.text), rfl, Nat.le_of_eq hwidth, rfl, Nat.not_lt.1 hwide⟩
  · simp only [hfill] at h hwidth
    obtain ⟨text, hholds, hne, hcomponents⟩ := Slot.exists_holds_of_fill hfill
    obtain ⟨rfl, rfl⟩ := Run.ok_inj h
    exact ⟨none, (List.append_nil _).symm, Nat.le_of_eq hwidth, text, hne, hholds.cut_eq,
      hcomponents⟩

/-- An item that was appended stands behind what was written before. -/
theorem exists_of_append {item : Item} {written written' : Bytes}
    (h : (Writer.append item).run written = (.ok (), written')) :
    ∃ bytes, written' = written ++ bytes ∧ item.Written bytes := by
  unfold Writer.append at h
  obtain ⟨name, _, hname, h⟩ := Run.of_run_bind_ok h
  obtain ⟨longName, rfl, hwidth, htells⟩ := exists_of_prepareName hname
  cases hbody : item.body with
  | directory | file =>
      rw [hbody] at h
      obtain ⟨-, rfl⟩ := Run.ok_inj ((run_emitMember _ _ _).symm.trans h)
      refine ⟨_, List.append_assoc _ _ _, longName, none, name.bytes, [], ?_, hwidth,
        Nat.zero_le _, htells, ?_⟩
      · simp [Item.header, hbody, Body.content, Body.kind, longBytes]
      · simp [hbody]
  | link target =>
      rw [hbody] at h
      obtain ⟨link, _, htarget, h⟩ := Run.of_run_bind_ok h
      obtain ⟨longLink, rfl, hlink, htellsLink⟩ := exists_of_prepareTarget htarget
      obtain ⟨-, rfl⟩ := Run.ok_inj ((run_emitMember _ _ _).symm.trans h)
      refine ⟨longBytes Kind.longName longName ++ (longBytes Kind.longLink longLink ++
        memberBytes (item.header name.bytes link.bytes) []), ?_, longName, longLink, name.bytes,
        link.bytes, ?_, hwidth, hlink, htells, ?_⟩
      · simp [Item.header, hbody, Body.content, Body.kind]
      · simp [hbody, Body.content]
      · simpa [hbody] using htellsLink

/-! ## Reading one member -/

/-- A header that was written is read, whatever stands behind it. -/
theorem readRaw_encode {h : Header} (fits : h.Fits)
    (hsize : h.size + (blockSize - 1) < Text.unsignedLimit) (data : Bytes) :
    readRaw (some (h.encode ++ data)) none = .ok (some ⟨h.encode, h.size, data⟩) := by
  have hlength := Header.length_encode fits
  have htake : (h.encode ++ data).take blockSize = h.encode := by
    rw [← hlength, List.take_left]
  have hdrop : (h.encode ++ data).drop blockSize = data := by
    rw [← hlength, List.drop_left]
  have hempty : (h.encode ++ data).isEmpty = false := by
    cases hencode : h.encode with
    | nil => simp [hencode, blockSize] at hlength
    | cons b rest => rfl
  have hsum : checksum h.before h.after % checksumRange = checksum h.before h.after :=
    Nat.mod_eq_of_lt (Nat.lt_trans (Header.checksum_lt fits) (by decide))
  unfold readRaw
  simp only [hempty, htake, hlength, hdrop, Header.all_encode fits, Header.readOctal_checksum fits,
    (Header.readFrom_encode fits).size, Header.checksum_encode fits, Except.mapError, hsum,
    bind, Except.bind]
  simp [Nat.not_le.2 hsize]
  rfl

/-- Contents that are padded take up whole blocks. -/
theorem length_pad_whole (content : Bytes) :
    (pad (whole content.length) content).length = whole content.length := by
  refine length_pad ?_
  rw [whole, blockSize]
  omega

/-- Behind padded contents the reader goes on with the rest. -/
theorem behind_pad (content rest : Bytes) :
    behind content.length (pad (whole content.length) content ++ rest) = some rest := by
  have hlength := length_pad_whole content
  have hdrop : (pad (whole content.length) content ++ rest).drop (whole content.length) = rest :=
    List.drop_left' hlength
  unfold behind
  rw [← whole, if_neg (by rw [List.length_append, hlength]; omega), hdrop]

/-- The contents are the beginning of the padded contents. -/
theorem take_pad (content rest : Bytes) :
    (pad (whole content.length) content ++ rest).take content.length = content := by
  rw [pad, List.append_assoc, List.take_left]

/-- The header of a long name fits, if the name is not too long to be counted. -/
theorem longHeader_fits (kind : UInt8) {name : Bytes}
    (hname : name.length + 1 + (blockSize - 1) < Text.unsignedLimit) :
    (longHeader kind name).Fits where
  name := show (Text.Utf8.ofString "././@LongLink").length ≤ 100 by decide
  mode := show (0o644 : Nat) < 8 ^ 7 by decide
  size := show name.length + 1 < Text.unsignedLimit by omega
  time := show (0 : Nat) < Text.unsignedLimit by decide
  linkName := Nat.zero_le 100

/-- What a reader has taken in for the next member, as it stands in the archive. -/
def stored (long : Option Bytes) : Option Bytes :=
  long.map (· ++ [0])

/-- A member that holds a name, if there is one, is taken in for the next member. -/
theorem readMember_long {kind : UInt8} {steps : Nat} {lead lead' : Lead} {long : Option Bytes}
    {rest : Bytes}
    (hlong : ∀ name, long = some name → name.length + 1 + (blockSize - 1) < Text.unsignedLimit)
    (hremarks : lead.remarks = none) (hnone : long = none → lead' = lead)
    (hadd : ∀ name, long = some name → lead.add? ⟨(longHeader kind name).encode,
      (name ++ [0]).length, pad (whole (name ++ [0]).length) (name ++ [0]) ++ rest⟩ =
        .ok (some lead')) :
    ∃ steps', steps ≤ steps' ∧
      readMember (steps + 1) lead (some (longBytes kind long ++ rest)) =
        readMember steps' lead' (some rest) := by
  cases long with
  | none =>
      obtain rfl := hnone rfl
      exact ⟨steps + 1, Nat.le_succ _, rfl⟩
  | some name =>
      have hsize : (longHeader kind name).size = (name ++ [0]).length := by
        simp [longHeader]
      have hraw := readRaw_encode (longHeader_fits kind (hlong name rfl))
        (by simpa [longHeader] using hlong name rfl)
        (pad (whole (name ++ [0]).length) (name ++ [0]) ++ rest)
      refine ⟨steps, Nat.le_refl _, ?_⟩
      rw [longBytes, memberBytes, List.append_assoc, readMember, hremarks, hraw, hsize]
      simp only [bind, Except.bind, hadd name rfl, behind_pad]

/-- A member that holds a long name is taken in for the next member. -/
theorem readMember_longName {steps : Nat} {lead : Lead} {long : Option Bytes} {rest : Bytes}
    (hlong : ∀ name, long = some name → name.length + 1 + (blockSize - 1) < Text.unsignedLimit)
    (hlead : lead.longName = none) (hremarks : lead.remarks = none) :
    ∃ steps', steps ≤ steps' ∧
      readMember (steps + 1) lead (some (longBytes Kind.longName long ++ rest)) =
        readMember steps' { lead with longName := stored long } (some rest) := by
  apply readMember_long hlong hremarks
  · rintro rfl
    rw [stored, Option.map_none, ← hlead]
  · rintro name rfl
    have read := Header.readFrom_encode (longHeader_fits Kind.longName (hlong name rfl))
    unfold Lead.add?
    simp only [read.longFormat, read.kind, hlead, take_pad]
    rfl

/-- A member that holds a long link target is taken in for the next member. -/
theorem readMember_longLink {steps : Nat} {lead : Lead} {long : Option Bytes} {rest : Bytes}
    (hlong : ∀ name, long = some name → name.length + 1 + (blockSize - 1) < Text.unsignedLimit)
    (hlead : lead.longLink = none) (hremarks : lead.remarks = none) :
    ∃ steps', steps ≤ steps' ∧
      readMember (steps + 1) lead (some (longBytes Kind.longLink long ++ rest)) =
        readMember steps' { lead with longLink := stored long } (some rest) := by
  apply readMember_long hlong hremarks
  · rintro rfl
    rw [stored, Option.map_none, ← hlead]
  · rintro name rfl
    have read := Header.readFrom_encode (longHeader_fits Kind.longLink (hlong name rfl))
    unfold Lead.add?
    simp only [read.longFormat, read.kind, hlead, take_pad]
    rfl

/-- A member of its own is read with what was taken in before it. -/
theorem readMember_own {steps : Nat} {lead : Lead} {h : Header} {content rest : Bytes}
    (fits : h.Fits) (hsize : h.size = content.length)
    (hlimit : content.length + (blockSize - 1) < Text.unsignedLimit)
    (hkind : h.kind = Kind.directory ∨ h.kind = Kind.file ∨ h.kind = Kind.link)
    (hremarks : lead.remarks = none) :
    readMember (steps + 1) lead (some (memberBytes h content ++ rest)) =
      .ok (some (⟨h.encode, lead.longName, lead.longLink, none, [.data content.length],
        pad (whole content.length) content ++ rest⟩, some rest)) := by
  have hraw := readRaw_encode fits (by rw [hsize]; exact hlimit)
    (pad (whole content.length) content ++ rest)
  have hadd : lead.add? ⟨h.encode, content.length,
      pad (whole content.length) content ++ rest⟩ = .ok none := by
    unfold Lead.add?
    simp only [(Header.readFrom_encode fits).longFormat, (Header.readFrom_encode fits).kind]
    rcases hkind with hkind | hkind | hkind <;> rw [hkind] <;> rfl
  have hsparse : (h.kind == Kind.sparse) = false := by
    rcases hkind with hkind | hkind | hkind <;> rw [hkind] <;> decide
  rw [memberBytes, List.append_assoc, readMember, hremarks, hraw, hsize]
  simp only [bind, Except.bind, hadd, (Header.readFrom_encode fits).kind, hsparse]
  simp [pure, Except.pure, behind_pad]

/-! ## What the reader finds -/

/-- Nothing about an item exceeds what a header can say. -/
structure Item.Fits (item : Item) : Prop where
  mode : item.mode < 8 ^ 7
  time : item.time < Text.unsignedLimit
  content : item.body.content.length + (blockSize - 1) < Text.unsignedLimit
  path : (Text.Utf8.ofString item.path.text).length + 1 + (blockSize - 1) < Text.unsignedLimit
  target : ∀ target, item.body = .link target →
    (Text.Utf8.ofString target.text).length + 1 + (blockSize - 1) < Text.unsignedLimit

/-- A name in an archive stands for a path: it has the same components, but a dot at the beginning
may be missing.  In a short name it is missing exactly when something follows it. -/
structure StandsFor (text : List Char) (path : Path) : Prop where
  components : Path.components ⟨String.ofList text⟩ = path.components ∨
    path.components = .current :: Path.components ⟨String.ofList text⟩
  short : (Text.Utf8.ofString path.text).length < 100 →
    Path.components ⟨String.ofList text⟩ = Slot.kept false path.components

/-- A member tells of an item. -/
structure Member.Says (m : Member) (item : Item) : Prop where
  name : ∃ text, m.name = Text.Utf8.encode text ∧ StandsFor text item.path
  kind : kindOf m.header = item.body.kind
  mode : modeOf m.header = .ok item.mode
  user : readOctal (Field.user.get m.header) = .ok 0
  group : readOctal (Field.group.get m.header) = .ok 0
  time : timeOf m.header = .ok item.time
  content : m.content = (item.body.content, true)
  target : ∀ target, item.body = .link target →
    ∃ text, m.linkName = some (Text.Utf8.encode text) ∧
      Path.components ⟨String.ofList text⟩ = target.components
  noTarget : (∀ target, item.body ≠ .link target) → m.linkName = none

/-- An item that fits has a header that fits. -/
theorem Item.Fits.header {item : Item} (h : item.Fits) {name link : Bytes}
    (hname : name.length = 100) (hlink : link.length ≤ 100) : (item.header name link).Fits :=
  ⟨Nat.le_of_eq hname, h.mode, Nat.lt_of_le_of_lt (Nat.le_add_right _ _) h.content, h.time, hlink⟩

/-- A name is read back without the NUL behind it. -/
theorem dropStop_stored (name : Bytes) : Member.dropStop (name ++ [0]) = name := by
  rw [Member.dropStop, if_pos (by simp), List.dropLast_concat]

/-- A text that is not empty has bytes. -/
theorem encode_ne_nil {text : List Char} (h : text ≠ []) : Text.Utf8.encode text ≠ [] := by
  cases text with
  | nil => exact absurd rfl h
  | cons c text =>
      have hc : String.utf8EncodeChar c ≠ [] := String.utf8EncodeChar_ne_nil
      simp [Text.Utf8.encode, hc]

/-- The name of a member whose name was told: by a member in front or by the field. -/
theorem exists_name_of_tells {long : Option Bytes} {h : Header} {path : Path} (fits : h.Fits)
    (htells : Tells long h.name path (Slot.kept false)) (link : Option Bytes) (chunks : List Chunk)
    (data : Bytes) :
    ∃ text, (Member.mk h.encode (stored long) link none chunks data).name =
        Text.Utf8.encode text ∧ StandsFor text path := by
  cases long with
  | some name =>
      obtain ⟨rfl, hwide⟩ : name = Text.Utf8.ofString path.text ∧ 100 ≤ name.length := htells
      refine ⟨path.text.toList, dropStop_stored _, Or.inl ?_, fun hshort => ?_⟩
      · rw [String.ofList_toList]
      · exact absurd hshort (Nat.not_lt.2 hwide)
  | none =>
      obtain ⟨text, _, hcut, hcomponents⟩ := htells
      refine ⟨text, (Header.readFrom_encode fits).name.trans hcut, ?_, fun _ => hcomponents⟩
      rw [hcomponents]
      exact Slot.kept_name path

/-- The link name of a member whose target was told: by a member in front or by the field. -/
theorem exists_linkName_of_tells {long : Option Bytes} {h : Header} {target : Path} (fits : h.Fits)
    (htells : Tells long h.linkName target id) (name : Option Bytes) (chunks : List Chunk)
    (data : Bytes) :
    ∃ text, (Member.mk h.encode name (stored long) none chunks data).linkName =
        some (Text.Utf8.encode text) ∧
      Path.components ⟨String.ofList text⟩ = target.components := by
  cases long with
  | some name =>
      obtain ⟨rfl, _⟩ : name = Text.Utf8.ofString target.text ∧ 100 ≤ name.length := htells
      refine ⟨target.text.toList, congrArg some (dropStop_stored _), ?_⟩
      rw [String.ofList_toList]
  | none =>
      obtain ⟨text, hne, hcut, hcomponents⟩ := htells
      refine ⟨text, (Header.readFrom_encode fits).linkName.trans ?_, hcomponents⟩
      rw [hcut, if_neg (by simpa using encode_ne_nil hne)]

/-- A member says what an item does when its names are told by its header or by those in front. -/
theorem says_of_tells {item : Item} {longName longLink : Option Bytes} {name link : Bytes}
    (fits : (item.header name link).Fits)
    (htells : Tells longName name item.path (Slot.kept false))
    (htarget : match item.body with
      | .link target => Tells longLink link target id
      | _ => longLink = none ∧ link = []) (rest : Bytes) :
    (Member.mk (item.header name link).encode (stored longName) (stored longLink) none
      [.data item.body.content.length]
      (pad (whole item.body.content.length) item.body.content ++ rest)).Says item := by
  have read := Header.readFrom_encode fits
  exact {
    name := exists_name_of_tells fits htells _ _ _
    kind := read.kind
    mode := read.mode
    user := read.user
    group := read.group
    time := read.time
    content := by
      have htake := take_pad item.body.content rest
      simp only [Member.content, Member.assemble, htake]
      simp
    target := by
      intro target hbody
      rw [hbody] at htarget
      exact exists_linkName_of_tells fits htarget _ _ _
    noTarget := by
      intro hbody
      have hnone : longLink = none ∧ link = [] := by
        cases h : item.body with
        | link target => exact absurd h (hbody target)
        | directory => simpa [h] using htarget
        | file content => simpa [h] using htarget
      obtain ⟨rfl, rfl⟩ := hnone
      exact read.linkName }

/-- The reader takes the bytes of one item, whatever stands behind them, and finds the item. -/
theorem exists_readMember {item : Item} {bytes rest : Bytes} {steps : Nat} (hfits : item.Fits)
    (hwritten : item.Written bytes) :
    ∃ m, readMember (steps + 3) {} (some (bytes ++ rest)) = .ok (some (m, some rest)) ∧
      m.Says item := by
  obtain ⟨longName, longLink, name, link, rfl, hname, hlink, htells, htarget⟩ := hwritten
  have fits := hfits.header hname hlink
  have hkind : item.body.kind = Kind.directory ∨ item.body.kind = Kind.file ∨
      item.body.kind = Kind.link := by
    cases item.body <;> simp [Body.kind]
  have hlongName : ∀ name, longName = some name →
      name.length + 1 + (blockSize - 1) < Text.unsignedLimit := by
    rintro name rfl
    exact htells.1 ▸ hfits.path
  have hlongLink : ∀ name, longLink = some name →
      name.length + 1 + (blockSize - 1) < Text.unsignedLimit := by
    rintro name rfl
    cases hbody : item.body with
    | link target =>
        rw [hbody] at htarget
        exact htarget.1 ▸ hfits.target target hbody
    | directory => simp [hbody] at htarget
    | file content => simp [hbody] at htarget
  have hbytes : longBytes Kind.longName longName ++ (longBytes Kind.longLink longLink ++
      memberBytes (item.header name link) item.body.content) ++ rest =
        longBytes Kind.longName longName ++ (longBytes Kind.longLink longLink ++
          (memberBytes (item.header name link) item.body.content ++ rest)) := by
    simp only [List.append_assoc]
  -- the members in front take a step each when they are there, and none when they are not
  obtain ⟨steps₁, hsteps₁, hfirst⟩ :=
    @readMember_longName (steps + 2) {} longName _ hlongName rfl rfl
  obtain ⟨steps₁, rfl⟩ : ∃ k, steps₁ = k + 1 := ⟨steps₁ - 1, by omega⟩
  obtain ⟨steps₂, hsteps₂, hsecond⟩ :=
    @readMember_longLink steps₁ { longName := stored longName } longLink _ hlongLink rfl rfl
  obtain ⟨steps₂, rfl⟩ : ∃ k, steps₂ = k + 1 := ⟨steps₂ - 1, by omega⟩
  have hown := @readMember_own steps₂ { longName := stored longName, longLink := stored longLink }
    _ _ rest fits rfl hfits.content hkind rfl
  exact ⟨_, by rw [hbytes, hfirst, hsecond, hown], says_of_tells fits htells htarget rest⟩

/-! ## What the reader finds in an archive -/

/-- An item takes up at least one block. -/
theorem Item.Written.length_le {item : Item} {bytes : Bytes} (hfits : item.Fits)
    (hwritten : item.Written bytes) : blockSize ≤ bytes.length := by
  obtain ⟨longName, longLink, name, link, rfl, hname, hlink, _, _⟩ := hwritten
  have hheader := Header.length_encode (hfits.header hname hlink)
  simp only [memberBytes, List.length_append, hheader]
  omega

/-- The reader finds nothing but the end in the blocks that end an archive. -/
theorem readMember_ending (steps : Nat) : readMember (steps + 1) {} (some ending) = .ok none := by
  have hzero : ∀ b ∈ ending.take blockSize, (b == 0) = true := by
    intro b hb
    rw [(List.mem_replicate.1 (List.mem_of_mem_take hb)).2]
    rfl
  have hraw : readRaw (some ending) none = .ok none := by
    have hempty : ending.isEmpty = false := rfl
    have hlength : (ending.take blockSize).length = blockSize := by
      rw [List.length_take, ending, List.length_replicate]
      decide
    unfold readRaw
    simp only [hempty, hlength, List.all_eq_true.2 hzero]
    simp
    rfl
  rw [readMember, hraw]
  rfl

/-- The reader finds all items of an archive, in order, and then its end. -/
theorem exists_membersFrom {items : List Item} {records : List Bytes} {steps : Nat}
    (hfits : ∀ item ∈ items, item.Fits) (hwritten : List.Forall₂ Item.Written items records)
    (hsteps : (records.flatten ++ ending).length / blockSize + 2 ≤ steps) :
    ∃ ms, membersFrom steps (some (records.flatten ++ ending)) = (ms, none) ∧
      List.Forall₂ Member.Says ms items := by
  induction hwritten generalizing steps with
  | nil =>
      have hpositive : 2 ≤ steps := Nat.le_trans (Nat.le_add_left 2 _) hsteps
      obtain ⟨steps, rfl⟩ : ∃ k, steps = k + 1 := ⟨steps - 1, by omega⟩
      refine ⟨[], ?_, .nil⟩
      rw [List.flatten_nil, List.nil_append, membersFrom, readMember_ending]
  | @cons item record items records hrecord _ ih =>
      have hitem := hfits item List.mem_cons_self
      have hlength := hrecord.length_le hitem
      have hending : ending.length = 1024 := List.length_replicate
      rw [List.flatten_cons, List.append_assoc, List.length_append, List.length_append,
        hending] at hsteps
      rw [List.length_append, hending] at ih
      rw [blockSize] at hlength hsteps ih
      obtain ⟨steps, rfl⟩ : ∃ k, steps = k + 3 := ⟨steps - 3, by omega⟩
      obtain ⟨m, hread, hsays⟩ :=
        @exists_readMember item record (records.flatten ++ ending) steps hitem hrecord
      -- every record fills a block at least, so the steps that are left are enough
      have hmore : (records.flatten.length + 1024) / 512 + 2 ≤ steps + 2 := by
        have hblock := Nat.div_le_div_right (c := 512)
          (Nat.add_le_add_right hlength (records.flatten.length + 1024))
        rw [Nat.add_div_left _ (by decide)] at hblock
        exact Nat.le_of_succ_le_succ (Nat.le_trans (Nat.add_le_add_right hblock 2) hsteps)
      obtain ⟨ms, hmembers, hall⟩ :=
        ih (fun other h => hfits other (List.mem_cons_of_mem item h)) hmore
      refine ⟨m :: ms, ?_, .cons hsays hall⟩
      rw [List.flatten_cons, List.append_assoc, membersFrom, hread]
      simp only [hmembers]

/-- Items that are written are read back as members that tell of them, in order and without a defect.
-/
theorem exists_members {items : List Item} {records : List Bytes}
    (hfits : ∀ item ∈ items, item.Fits) (hwritten : List.Forall₂ Item.Written items records) :
    ∃ ms, members (records.flatten ++ ending) = (ms, none) ∧ List.Forall₂ Member.Says ms items :=
  exists_membersFrom hfits hwritten (Nat.le_refl _)

end RpmRelease.Tar
