import RpmRelease.Proofs.FileSystem.Entering
import RpmRelease.Proofs.Archive.Naming
import RpmRelease.Proofs.Path.Joining
import RpmRelease.Repository

/-!
# Unpacking a member

A member that is unpacked without an error has been written: below the destination there is a location
that its name leads to, the node that the member tells of stands there, and nothing else is different but
for directories that were missing.  Three sorts of members are not written, and no error tells of them:
those whose name leads upwards, those whose name comes to nothing, and remarks on other members.
-/

set_option autoImplicit false

namespace RpmRelease

open Relation (ReflTransGen)
open Lookup (Enters)
open FileSystem (Cleared)

variable {caller : Caller} {fs fs' : FileSystem}

/-! ## Missing directories -/

/-- Directories have been created, and nothing else has changed. -/
structure FileSystem.Furnished (caller : Caller) (before after : FileSystem) : Prop where
  wellFormed : after.WellFormed
  within : before.Within after
  added : ∀ l node, after.get? l = some node →
    before.get? l = some node ∨ node = .directory Mode.directory caller.now

namespace FileSystem.Furnished

/-- Where no directories have been created, everything is as it was. -/
theorem refl (wf : fs.WellFormed) : Furnished caller fs fs where
  wellFormed := wf
  within := .refl fs
  added := fun _ _ h => .inl h

/-- One more directory may be created. -/
theorem makeDirectory {fs'' : FileSystem} {path : Path} (h : Furnished caller fs fs')
    (hmake : fs'.makeDirectory caller path = .ok fs'') : Furnished caller fs fs'' := by
  obtain ⟨l, name, slash, -, -, hputs, rfl⟩ := puts_of_makeDirectory h.wellFormed hmake
  refine ⟨h.wellFormed.put hputs, h.within.trans (within_of_makeDirectory hmake), ?_⟩
  intro k node hnode
  rw [get?_set] at hnode
  split at hnode
  · exact .inr (Option.some.inj hnode).symm
  · exact h.added k node hnode

end FileSystem.Furnished

open FileSystem (Furnished)

/-! ## Staying inside the destination -/

/-- The path from the root along some names has the root and these names as components. -/
theorem Path.components_rooted {names : List String} (hnames : ∀ name ∈ names, IsName name) :
    components ⟨"/" ++ slashed names⟩ = .root :: names.map .normal := by
  have hroot : components ⟨"/"⟩ = [.root] := by decide
  cases names with
  | nil => decide
  | cons name names =>
      have hbefore : beforeJoin ⟨"/"⟩ = "/" := by decide
      have hjoin := join_slashed (p := ⟨"/"⟩) (by decide) (List.cons_ne_nil name names) hnames
      rw [join_eq (isAbsolute_slashed hnames), hbefore] at hjoin
      rw [hjoin, (components_along (by decide) hnames).1, hroot, List.singleton_append]

namespace FileSystem

/-- With every link followed, a path leads to where another one leads, or below. -/
def LeadsInside (caller : Caller) (fs : FileSystem) (outer path : Path) : Prop :=
  ∃ top directory l node, Lookup.find caller fs true outer = .ok (top, directory) ∧
    Lookup.find caller fs true path = .ok (l, node) ∧ top <+: l

/-- A path without links leads from the root to where the path led. -/
theorem components_canonical (wf : fs.WellFormed) {path text : Path}
    (h : fs.canonical caller path = .ok text) :
    ∃ l node, Lookup.find caller fs true path = .ok (l, node) ∧
      text.components = .root :: l.map .normal := by
  cases hfind : Lookup.find caller fs true path with
  | error e =>
      rw [canonical, hfind] at h
      cases h
  | ok found =>
      obtain ⟨l, node⟩ := found
      rw [canonical, hfind] at h
      refine ⟨l, node, rfl, ?_⟩
      rw [← Except.ok.inj h]
      exact Path.components_rooted (wf.isName l node (Lookup.get?_of_find hfind))

end FileSystem

namespace Tar.Member

/-- Ensuring that there is a directory creates directories and nothing else. -/
theorem furnished_ensureDirectory (wf : fs.WellFormed) (destination directory : Path) :
    Furnished caller fs ((ensureDirectory destination directory).exec caller fs).2 := by
  let step (before after : FileSystem) := Furnished caller fs before → Furnished caller fs after
  have hcreate (path : Path) (fs₁ : FileSystem) :
      Storage.Makes step caller fs₁ (Storage.createDirectories path) fun _ _ => True :=
    Storage.makes_createAncestors fun _ _ _ _ _ hmake hfurnished => hfurnished.makeDirectory hmake
  have hmakes : Storage.Makes step caller fs (ensureDirectory destination directory)
      fun _ _ => True := by
    refine .bind .query fun absent fs₁ _ _ => .forM fun path _ fs₂ _ => ?_
    cases path.parent? with
    | none => exact hcreate path fs₂
    | some above => exact .bind .query fun _ fs₃ _ _ => hcreate path fs₃
  exact hmakes.keeps (.refl wf)

/-- A path that is checked leads inside the destination, and nothing changes. -/
theorem of_checkInside_ok (wf : fs.WellFormed) {destination path outer : Path}
    (h : (checkInside destination path).exec caller fs = (.ok outer, fs')) :
    fs' = fs ∧ fs.canonical caller destination = .ok outer ∧
      fs.LeadsInside caller destination path := by
  obtain ⟨hcheck, rfl⟩ := Storage.of_exec_query_ok h
  obtain ⟨inside, hinside, hcheck⟩ := Run.of_bind_ok hcheck
  obtain ⟨found, hfound, hcheck⟩ := Run.of_bind_ok hcheck
  split at hcheck
  · next hstarts =>
    obtain rfl := Except.ok.inj hcheck
    have houter := Run.of_mapError_ok hfound
    obtain ⟨l, node, hfind, hl⟩ := FileSystem.components_canonical wf (Run.of_mapError_ok hinside)
    obtain ⟨top, directory, hdestination, htop⟩ := FileSystem.components_canonical wf houter
    refine ⟨rfl, houter, top, directory, l, node, hdestination, hfind, ?_⟩
    rw [Path.startsWith, htop, hl, List.isPrefixOf_iff_prefix, List.cons_prefix_cons] at hstarts
    exact (List.prefix_map_iff_of_injective fun _ _ => Path.Component.normal.inj).1 hstarts.2
  · cases hcheck

/-! ## What members tell of -/

/-- What a member is unpacked as. -/
inductive Role
  | directory
  | hardLink
  | link
  | remark
  | file
deriving DecidableEq

/-- What the kind of a member says that it is unpacked as; in an old format, a slash at the end of the
name says so too. -/
def role (m : Member) : Role :=
  let kind := kindOf m.header
  if kind == Kind.directory then .directory
  else if kind == Kind.hardLink then .hardLink
  else if kind == Kind.link then .link
  else if isRemark kind then .remark
  else if !isStandardFormat m.header && m.name.getLast? == some 0x2F then .directory
  else .file

/-- A member is unpacked by its role. -/
theorem unpackAt_eq (m : Member) (destination path : Path) :
    m.unpackAt destination path =
      match m.role with
      | .directory => m.unpackDirectory path
      | .hardLink => m.unpackHardLink destination path
      | .link => m.unpackLink path
      | .remark => pure ()
      | .file => m.unpackFile path := by
  simp only [unpackAt, role]
  split_ifs <;> rfl

/-- A node with the permissions in the header of a member, if there are any. -/
def moded (m : Member) (node : Node) : Node :=
  match modeOf m.header with
  | .ok mode => node.setMode (Mode.permissions (BitVec.ofNat 12 mode))
  | .error _ => node

/-- A node with the time in the header of a member, if there is one. -/
def timed (m : Member) (node : Node) : Node :=
  match timeOf m.header with
  | .ok time => node.setTime (BitVec.ofNat 64 (if time == 0 then 1 else time)).toInt
  | .error _ => node

/-- A new file with contents, before anything is known about it. -/
def newFile (caller : Caller) (content : Bytes) : Node :=
  .file (if content.isEmpty then fileMode.masked
    else FileSystem.modeWritten caller fileMode.masked) caller.now content

/-- A new file is a file. -/
@[simp] theorem kind_newFile (caller : Caller) (content : Bytes) :
    (newFile caller content).kind = .file := rfl

/-- Setting permissions keeps the kind of a node. -/
@[simp] theorem kind_moded (m : Member) (node : Node) : (m.moded node).kind = node.kind := by
  unfold moded
  split
  · cases node <;> rfl
  · rfl

/-- Setting a time keeps the kind of a node. -/
@[simp] theorem kind_timed (m : Member) (node : Node) : (m.timed node).kind = node.kind := by
  unfold timed
  split
  · cases node <;> rfl
  · rfl

/-- The nodes that a member tells of, when links in a file system lead to second names for files and
`inside` is the destination without links. -/
inductive Tells (m : Member) (caller : Caller) (fs : FileSystem) (inside : Path) : Node → Prop
  | directory {mode : Mode} {time : Int} (hrole : m.role = .directory) :
    Tells m caller fs inside (m.moded (.directory mode time))
  | link {target : Bytes} (hrole : m.role = .link) (htarget : m.linkName = some target) :
    Tells m caller fs inside (m.timed (.link (Text.Utf8.toString target) caller.now))
  | hardLink {target : Bytes} {source : Path} {l : Location} {node : Node}
    (hrole : m.role = .hardLink) (htarget : m.linkName = some target)
    (hsource : inside.join ⟨Text.Utf8.toString target⟩ = source)
    (hinside : fs.LeadsInside caller inside source)
    (hfind : Lookup.find caller fs false source = .ok (l, node)) (hkind : node.kind ≠ .directory) :
    Tells m caller fs inside node
  | file (hrole : m.role = .file) (hcomplete : m.content.2 = true) :
    Tells m caller fs inside (m.moded (m.timed (newFile caller m.content.1)))

/-! ## Writing one node -/

section Write

variable {m : Member} {path : Path} {p : Path} {name : String} {l : Location} {node : Node}

/-- Setting the mode of what a path leads to sets its permissions there. -/
theorem of_setMode_ok (hfind : Lookup.find caller fs false path = .ok (l, node))
    (hkind : node.kind ≠ .link) (h : (m.setMode path).exec caller fs = (.ok (), fs')) :
    fs' = fs.set l (m.moded node) := by
  rw [setMode] at h
  rw [moded]
  cases hmode : modeOf m.header with
  | ok mode =>
      rw [hmode] at h
      obtain ⟨⟨k, found⟩, hfound, hset⟩ := Run.of_bind_ok (Storage.of_exec_change_ok h)
      rw [Lookup.find_follow hkind hfind] at hfound
      obtain ⟨rfl, rfl⟩ := Prod.mk.inj (Except.ok.inj hfound)
      exact (Except.ok.inj hset).symm
  | error e =>
      rw [hmode] at h
      obtain ⟨-, rfl⟩ := Run.ok_inj h
      exact (FileSystem.set_self (Lookup.get?_of_find hfind)).symm

/-- Setting the time of what a path leads to sets it there. -/
theorem of_setTime_ok (hfind : Lookup.find caller fs false path = .ok (l, node))
    (h : (m.setTime path).exec caller fs = (.ok (), fs')) : fs' = fs.set l (m.timed node) := by
  rw [setTime] at h
  rw [timed]
  cases htime : timeOf m.header with
  | ok time =>
      rw [htime] at h
      obtain ⟨⟨k, found⟩, hfound, hset⟩ := Run.of_bind_ok (Storage.of_exec_change_ok h)
      rw [hfind] at hfound
      obtain ⟨rfl, rfl⟩ := Prod.mk.inj (Except.ok.inj hfound)
      exact (Except.ok.inj hset).symm
  | error e =>
      rw [htime] at h
      obtain ⟨-, rfl⟩ := Run.ok_inj h
      exact (FileSystem.set_self (Lookup.get?_of_find hfind)).symm

/-- A member has been written at the entry of a directory. -/
structure Put (m : Member) (caller : Caller) (fs fs' : FileSystem) (inside p : Path) (name : String)
    (l : Location) (node : Node) : Prop where
  enters : Enters caller fs p name l
  tells : m.Tells caller fs inside node
  eq_set : fs' = fs.set (l ++ [name]) node
  replaces : ∀ there, fs.get? (l ++ [name]) = some there → there.kind = .directory →
    node.kind = .directory

variable (hp : p.text ≠ "") (hname : Path.IsName name)

include hp hname

/-- What replaces a file or a link needs a vacant entry, and finds it when what was there is removed. -/
theorem of_replacing_ok {f : Caller → FileSystem → Except FileError FileSystem}
    (hf : ∀ fs₁ fs₂, f caller fs₁ = .ok fs₂ → ∃ l, Enters caller fs₁ p name l ∧
      fs₁.get? (l ++ [name]) = none ∧ fs₂ = fs₁.set (l ++ [name]) node)
    (h : (replacing (p.join ⟨name⟩) (Storage.change f)).exec caller fs = (.ok (), fs')) :
    ∃ l base, Cleared caller fs base p name l ∧ fs' = base.set (l ++ [name]) node := by
  obtain ⟨outcome, middle, hfirst, hrest⟩ := Storage.of_exec_bind_ok h
  have hfirst := Storage.of_exec_attempt_ok hfirst
  cases hrun : f caller fs with
  | ok made =>
      rw [Storage.exec_change_ok hrun] at hfirst
      obtain ⟨rfl, rfl⟩ := Prod.mk.inj hfirst
      obtain ⟨-, rfl⟩ := Run.ok_inj hrest
      obtain ⟨l, henters, hvacant, rfl⟩ := hf _ _ hrun
      exact ⟨l, fs, .of_vacant henters hvacant, rfl⟩
  | error e =>
      rw [Storage.exec_change_error hrun] at hfirst
      obtain ⟨rfl, rfl⟩ := Prod.mk.inj hfirst
      simp only at hrest
      split at hrest
      · obtain ⟨_, cleared, hremove, hagain⟩ := Storage.of_exec_bind_ok hrest
        obtain ⟨l, there, henters, hthere, hkind, rfl⟩ :=
          FileSystem.enters_of_removeFile hp hname (Storage.of_exec_change_ok hremove)
        obtain ⟨k, hagainEnters, hvacant, rfl⟩ := hf _ _ (Storage.of_exec_change_ok hagain)
        obtain ⟨directory, hfind⟩ := henters.find
        obtain ⟨other, hother⟩ := hagainEnters.find
        obtain ⟨rfl, -⟩ : k = l ∧ other = directory := by
          simpa using (Lookup.find_within (FileSystem.within_erase fs _) hother).symm.trans hfind
        refine ⟨k, _, ⟨hagainEnters, hvacant, FileSystem.within_erase fs _,
          fun node => FileSystem.erase_set _ node, fun other hother => ?_⟩, rfl⟩
        rw [hthere] at hother
        exact Option.some.inj hother ▸ hkind
      · cases hrest

omit hp hname in
/-- A directory that is seen at a path is there. -/
theorem find_of_lstat {there : Bool} (h : (match fs.lstat caller path with
      | .ok node => node.kind == .directory
      | .error _ => false) = there) (hthere : there = true) :
    ∃ l mode time, Lookup.find caller fs false path = .ok (l, .directory mode time) := by
  cases hlstat : fs.lstat caller path with
  | error e => simp [hlstat, ← h] at hthere
  | ok node =>
      obtain ⟨l, hfind⟩ := Lookup.lstat_eq_ok_iff.1 hlstat
      cases node with
      | directory mode time => exact ⟨l, mode, time, hfind⟩
      | file | link => simp [hlstat, ← h, Node.kind] at hthere

/-- A directory that is unpacked is put at its entry. -/
theorem put_of_unpackDirectory {inside : Path} (hrole : m.role = .directory)
    (h : (m.unpackDirectory (p.join ⟨name⟩)).exec caller fs = (.ok (), fs')) :
    ∃ l node, m.Put caller fs fs' inside p name l node := by
  obtain ⟨outcome, middle, hfirst, hrest⟩ := Storage.of_exec_bind_ok h
  have hfirst := Storage.of_exec_attempt_ok hfirst
  cases hmake : fs.makeDirectory caller (p.join ⟨name⟩) with
  | ok made =>
      rw [Storage.exec_change_ok hmake] at hfirst
      obtain ⟨rfl, rfl⟩ := Prod.mk.inj hfirst
      obtain ⟨l, henters, hvacant, rfl⟩ := FileSystem.enters_of_makeDirectory hp hname hmake
      have hcleared := Cleared.of_vacant henters hvacant
      have hmode := of_setMode_ok (hcleared.find_set hname _) (by simp [Node.kind]) hrest
      rw [FileSystem.set_set] at hmode
      exact ⟨l, _, henters, .directory hrole, hmode, by simp [hvacant]⟩
  | error e =>
      rw [Storage.exec_change_error hmake] at hfirst
      obtain ⟨rfl, rfl⟩ := Prod.mk.inj hfirst
      obtain ⟨there, same, hanswer, hrest⟩ := Storage.of_exec_bind_ok hrest
      obtain ⟨hthere, rfl⟩ := Storage.of_exec_query_ok hanswer
      obtain ⟨hcheck, hmode⟩ := Storage.of_exec_check_ok hrest
      obtain ⟨k, mode, time, hfound⟩ := find_of_lstat (Except.ok.inj hthere) (by simp_all)
      obtain ⟨l, directory, hfind, rfl, hentry⟩ := Lookup.of_find_join hp hname hfound
      exact ⟨l, _, ⟨⟨directory, hfind⟩, hentry⟩, .directory hrole,
        of_setMode_ok hfound (by simp [Node.kind]) hmode, fun _ _ _ => by rw [kind_moded]; rfl⟩

omit hp hname in
/-- The target of a link is the name that the member gives, and nothing changes. -/
theorem of_target_ok {target : Path} (h : m.target.exec caller fs = (.ok target, fs')) :
    fs' = fs ∧ ∃ written, m.linkName = some written ∧ target = ⟨Text.Utf8.toString written⟩ := by
  unfold Member.target at h
  split at h
  · cases h
  · next written hwritten =>
    split at h
    · cases h
    · obtain ⟨rfl, rfl⟩ := Run.ok_inj h
      exact ⟨rfl, written, hwritten, rfl⟩

/-- A link that is unpacked is put at its entry. -/
theorem put_of_unpackLink {inside : Path} (hrole : m.role = .link)
    (h : (m.unpackLink (p.join ⟨name⟩)).exec caller fs = (.ok (), fs')) :
    ∃ l node, m.Put caller fs fs' inside p name l node := by
  obtain ⟨target, _, htarget, h⟩ := Storage.of_exec_bind_ok h
  obtain ⟨rfl, written, hwritten, rfl⟩ := of_target_ok htarget
  obtain ⟨_, linked, hlinked, htime⟩ := Storage.of_exec_bind_ok h
  obtain ⟨l, base, hcleared, rfl⟩ := of_replacing_ok hp hname (fun fs₁ fs₂ hmake => by
    obtain ⟨k, hvacant, rfl⟩ := FileSystem.of_makeLink_ok hmake
    obtain ⟨l, henters, hnone, rfl⟩ := FileSystem.enters_of_vacantEntry hp hname hvacant
    exact ⟨l, henters, hnone, rfl⟩) hlinked
  have htimed := of_setTime_ok (hcleared.find_set hname _) htime
  rw [FileSystem.set_set, hcleared.set_eq] at htimed
  exact ⟨l, _, hcleared.enters.within hcleared.within, .link hrole hwritten, htimed,
    fun there hthere hkind => absurd hkind (hcleared.notDirectory there hthere)⟩

/-- A second name for a file that is unpacked is put at its entry. -/
theorem put_of_unpackHardLink (wf : fs.WellFormed) {inside : Path} (hrole : m.role = .hardLink)
    (h : (m.unpackHardLink inside (p.join ⟨name⟩)).exec caller fs = (.ok (), fs')) :
    ∃ l node, m.Put caller fs fs' inside p name l node := by
  obtain ⟨target, _, htarget, h⟩ := Storage.of_exec_bind_ok h
  obtain ⟨rfl, written, hwritten, rfl⟩ := of_target_ok htarget
  obtain ⟨outer, _, hcheck, hlink⟩ := Storage.of_exec_bind_ok h
  obtain ⟨rfl, -, hinside⟩ := of_checkInside_ok wf hcheck
  obtain ⟨-, hlinked⟩ := Run.of_check_ok (Storage.of_exec_change_ok hlink)
  obtain ⟨⟨k, node⟩, hnode, hlinked⟩ := Run.of_bind_ok hlinked
  obtain ⟨_, hvacant, hlinked⟩ := Run.of_bind_ok hlinked
  obtain ⟨hkind, hlinked⟩ := Run.of_check_ok hlinked
  obtain ⟨l, henters, hnone, rfl⟩ := FileSystem.enters_of_vacantEntry hp hname hvacant
  exact ⟨l, node, henters, .hardLink hrole hwritten rfl hinside hnode (by simpa using hkind),
    (Except.ok.inj hlinked).symm, by simp [hnone]⟩

/-- A new file is put at a vacant entry with its contents. -/
theorem enters_of_newFile {content : Bytes}
    (h : (do
      let (l, fs) ← fs.openNew caller fileMode (p.join ⟨name⟩)
      return fs.fill caller l content) = .ok fs') :
    ∃ l, Enters caller fs p name l ∧ fs.get? (l ++ [name]) = none ∧
      fs' = fs.set (l ++ [name]) (newFile caller content) := by
  obtain ⟨⟨k, opened⟩, hopen, hfill⟩ := Run.of_bind_ok h
  obtain ⟨l, henters, hvacant, rfl, rfl⟩ := FileSystem.enters_of_openNew hp hname hopen
  refine ⟨l, henters, hvacant, ?_⟩
  rw [← Except.ok.inj hfill, FileSystem.fill, FileSystem.get?_set, if_pos rfl]
  exact FileSystem.set_set _ _ _

/-- A file that is unpacked is put at its entry. -/
theorem put_of_unpackFile {inside : Path} (hrole : m.role = .file)
    (h : (m.unpackFile (p.join ⟨name⟩)).exec caller fs = (.ok (), fs')) :
    ∃ l node, m.Put caller fs fs' inside p name l node := by
  unfold unpackFile at h
  obtain ⟨_, written, hwritten, h⟩ := Storage.of_exec_bind_ok h
  obtain ⟨hcomplete, h⟩ := Storage.of_exec_check_ok h
  obtain ⟨_, timed, htime, hmode⟩ := Storage.of_exec_bind_ok h
  obtain ⟨l, base, hcleared, rfl⟩ :=
    of_replacing_ok hp hname (fun _ _ => enters_of_newFile hp hname) hwritten
  obtain rfl := of_setTime_ok (hcleared.find_set hname _) htime
  rw [FileSystem.set_set] at hmode
  have hmoded := of_setMode_ok (hcleared.find_set hname _) (by simp) hmode
  rw [FileSystem.set_set, hcleared.set_eq] at hmoded
  exact ⟨l, _, hcleared.enters.within hcleared.within,
    .file hrole (by simpa [content] using hcomplete), hmoded,
    fun there hthere hkind => absurd hkind (hcleared.notDirectory there hthere)⟩

end Write

/-- A member is written, whatever kind of node it tells of, where its role is to be written at all. -/
theorem put_of_unpackAt {m : Member} {p inside : Path} {name : String} (wf : fs.WellFormed)
    (hp : p.text ≠ "") (hname : Path.IsName name) (hrole : m.role ≠ .remark)
    (h : (m.unpackAt inside (p.join ⟨name⟩)).exec caller fs = (.ok (), fs')) :
    ∃ l node, m.Put caller fs fs' inside p name l node := by
  rw [unpackAt_eq] at h
  cases hm : m.role with
  | directory =>
      rw [hm] at h
      exact put_of_unpackDirectory hp hname hm h
  | hardLink =>
      rw [hm] at h
      exact put_of_unpackHardLink hp hname wf hm h
  | link =>
      rw [hm] at h
      exact put_of_unpackLink hp hname hm h
  | remark => exact absurd hm hrole
  | file =>
      rw [hm] at h
      exact put_of_unpackFile hp hname hm h

/-! ## Members that are written -/

/-- Whether a member is written when it is unpacked: its name leads somewhere, never upwards, and it is no
remark on another member. -/
structure Lands (m : Member) : Prop where
  down : .parent ∉ m.path.components
  somewhere : m.path.moves ≠ []
  role : m.role ≠ .remark

instance (m : Member) : Decidable m.Lands :=
  decidable_of_iff (.parent ∉ m.path.components ∧ m.path.moves ≠ [] ∧ m.role ≠ .remark)
    ⟨fun ⟨hdown, hmoves, hrole⟩ => ⟨hdown, hmoves, hrole⟩,
      fun h => ⟨h.down, h.somewhere, h.role⟩⟩

/-- A member has been written below a destination: some directories were missing and have been created,
and then one node that the member tells of has been put where its name leads. -/
structure Writes (m : Member) (caller : Caller) (destination : Path)
    (before middle after : FileSystem) (l : Location) (node : Node) : Prop where
  furnished : Furnished caller before middle
  entry : ∃ path above name slash, place? destination m.path = some path ∧
    Lookup.locateEntry caller middle path = .ok (above, .name name slash) ∧ l = above ++ [name]
  below : ∃ top directory, Lookup.find caller middle true destination = .ok (top, directory) ∧
    top <+: l ∧ top ≠ l
  tells : ∃ inside, middle.canonical caller destination = .ok inside ∧ m.Tells caller middle inside node
  eq_set : after = middle.set l node
  wellFormed : after.WellFormed

/-- A path above an entry leads where the path to the directory of the entry leads. -/
theorem location_of_parent? {p above : Path} {name : String} {k l : Location} {node directory : Node}
    (hp : p.text ≠ "") (hname : Path.IsName name) (hparent : (p.join ⟨name⟩).parent? = some above)
    (habove : Lookup.find caller fs true above = .ok (k, node))
    (hfind : Lookup.find caller fs true p = .ok (l, directory)) : k = l := by
  obtain ⟨hcomponents, habsolute⟩ := Path.components_parent? hparent
  rw [Path.components_join_name hp hname, List.dropLast_concat] at hcomponents
  rw [Path.isAbsolute_join hp (Path.isAbsolute_of_no_slash hname.no_slash)] at habsolute
  have hwalk := Lookup.walk_course habove
  rw [Lookup.course, hcomponents, Lookup.start_eq habsolute] at hwalk
  obtain ⟨rfl, -⟩ : k = l ∧ node = directory := by
    simpa using hwalk.symm.trans (Lookup.walk_course hfind)
  rfl

/-- A member that lands has a place below any destination: it is a name behind other names, and neither
the destination itself nor without a path above it. -/
theorem Lands.exists_place {m : Member} (h : m.Lands) (destination : Path) :
    ∃ front name above path, (∀ other ∈ front, Path.IsName other) ∧ Path.IsName name ∧
      path = (destination.along front).join ⟨name⟩ ∧ place? destination m.path = some path ∧
      path.same destination = false ∧ path.parent? = some above := by
  have hmoves := Path.moves_eq_names h.down
  have hnames : ∀ name ∈ m.path.names, Path.IsName name := fun _ => Path.isName_of_mem_names
  obtain ⟨front, name, hsplit⟩ : ∃ front name, m.path.names = front ++ [name] := by
    have hne : m.path.names ≠ [] := fun hnil => h.somewhere (by rw [hmoves, hnil, List.map_nil])
    exact ⟨_, _, (List.dropLast_append_getLast hne).symm⟩
  rw [hsplit] at hmoves hnames
  have hcomponents : ((destination.along front).join ⟨name⟩).components =
      destination.components ++ (front ++ [name]).map .normal := by
    rw [← Path.along_concat, Path.components_along_names hnames]
  have hlast : .normal name ∈ ((destination.along front).join ⟨name⟩).components := by
    simp [hcomponents]
  obtain ⟨above, habove⟩ := Path.exists_parent? hlast
  refine ⟨front, name, above, _, fun other hother => hnames other (by simp [hother]),
    hnames name (by simp), rfl, ?_, ?_, habove⟩
  · rw [place?_of_moves hmoves, Path.along_concat]
  · simp [Path.same, hcomponents]

/-- A member that does not land, and is no remark, has no place but the destination itself. -/
theorem same_of_not_lands {m : Member} {destination path : Path} (hlands : ¬ m.Lands)
    (hrole : m.role ≠ .remark) (hplace : place? destination m.path = some path) :
    path.same destination = true := by
  by_cases hdown : .parent ∈ m.path.components
  · rw [place?, if_pos (by simpa using hdown)] at hplace
    cases hplace
  · have hmoves : m.path.moves = ([] : Location).map .normal := by
      by_contra hne
      exact hlands ⟨hdown, hne, hrole⟩
    rw [place?_of_moves hmoves, Path.along_nil] at hplace
    rw [← Option.some.inj hplace]
    simp [Path.same]

/-! ## Unpacking without an error -/

/-- When a member is unpacked, either it has no place of its own and nothing happens, or directories are
created, the path above its place is found inside the destination, and the member is unpacked there. -/
theorem of_unpack_ok {m : Member} {destination : Path} (wf : fs.WellFormed)
    (h : (m.unpack destination).exec caller fs = (.ok (), fs')) :
    (fs' = fs ∧ ∀ path, place? destination m.path = some path →
        path.same destination = true ∨ path.parent? = none) ∨
      ∃ path above inside middle, place? destination m.path = some path ∧
        path.same destination = false ∧ path.parent? = some above ∧ Furnished caller fs middle ∧
        middle.canonical caller destination = .ok inside ∧
        middle.LeadsInside caller destination above ∧
        (m.unpackAt inside path).exec caller middle = (.ok (), fs') := by
  have hpath : (⟨Text.Utf8.toString m.name⟩ : Path) = m.path := rfl
  rw [unpack, hpath] at h
  cases hplace : place? destination m.path with
  | none =>
      rw [hplace] at h
      exact .inl ⟨(Run.ok_inj h).2.symm, by simp⟩
  | some path =>
      simp only [hplace] at h
      cases hsame : path.same destination with
      | true =>
          simp only [hsame] at h
          exact .inl ⟨(Run.ok_inj h).2.symm, by simp [hsame]⟩
      | false =>
          simp only [hsame] at h
          cases habove : path.parent? with
          | none =>
              simp only [habove] at h
              exact .inl ⟨(Run.ok_inj h).2.symm, by simp [habove]⟩
          | some above =>
              simp only [habove] at h
              obtain ⟨_, middle, hensure, hrest⟩ := Storage.of_exec_bind_ok h
              obtain ⟨inside, _, hcheck, hwrite⟩ := Storage.of_exec_bind_ok hrest
              have hfurnished : Furnished caller fs _ := furnished_ensureDirectory wf destination above
              rw [Storage.of_exec_mapError_ok hensure] at hfurnished
              obtain ⟨rfl, hinside, hleads⟩ := of_checkInside_ok hfurnished.wellFormed hcheck
              exact .inr ⟨path, above, inside, _, rfl, hsame, habove, hfurnished, hinside, hleads,
                Storage.of_exec_mapError_ok hwrite⟩

/-- A member that lands is written when it is unpacked successfully. -/
theorem writes_of_unpack {m : Member} {destination : Path} (wf : fs.WellFormed) (hlands : m.Lands)
    (h : (m.unpack destination).exec caller fs = (.ok (), fs')) :
    ∃ middle l node, m.Writes caller destination fs middle fs' l node := by
  obtain ⟨front, name, above, path, hfront, hname, hpath, hplace, hother, habove⟩ :=
    hlands.exists_place destination
  rcases of_unpack_ok wf h with ⟨-, hnowhere⟩ |
    ⟨path', above', inside, middle, hplace', -, habove', hfurnished, hinside, hleads, hwrite⟩
  · have hnot := hnowhere path hplace
    simp [hother, habove] at hnot
  obtain rfl : path = path' := Option.some.inj (hplace.symm.trans hplace')
  obtain rfl : above = above' := Option.some.inj (habove.symm.trans habove')
  subst hpath
  obtain ⟨top, directory, k, node, htop, hk, hbelow⟩ := hleads
  have hdestination := (Lookup.of_checkText_ok (Lookup.find_eq_ok_iff.1 htop).1).1
  have hp := (Path.components_along hdestination hfront).2
  obtain ⟨l, new, hput⟩ := put_of_unpackAt hfurnished.wellFormed hp hname hlands.role hwrite
  obtain ⟨other, hfind⟩ := hput.enters.find
  obtain rfl := location_of_parent? hp hname habove hk hfind
  refine ⟨middle, k ++ [name], new, hfurnished,
    ⟨_, k, name, false, hplace, hput.enters.locateEntry_eq hname, rfl⟩,
    ⟨top, directory, htop, hbelow.trans (List.prefix_append k _), ?_⟩,
    ⟨inside, hinside, hput.tells⟩, hput.eq_set, ?_⟩
  · rintro rfl
    have hlength := hbelow.length_le
    simp only [List.length_append, List.length_singleton] at hlength
    omega
  · rw [hput.eq_set]
    exact hfurnished.wellFormed.set_entry hput.enters hname hput.replaces

/-- What does not land leaves no trace, but for the directories that a remark may create. -/
theorem passes_of_unpack {m : Member} {destination : Path} (wf : fs.WellFormed) (hlands : ¬ m.Lands)
    (h : (m.unpack destination).exec caller fs = (.ok (), fs')) :
    Furnished caller fs fs' ∧ (m.role ≠ .remark → fs' = fs) := by
  rcases of_unpack_ok wf h with ⟨rfl, -⟩ |
    ⟨path, _, inside, middle, hplace, hother, -, hfurnished, -, -, hwrite⟩
  · exact ⟨.refl wf, fun _ => rfl⟩
  by_cases hrole : m.role = .remark
  · rw [unpackAt_eq, hrole] at hwrite
    obtain ⟨-, rfl⟩ := Run.ok_inj hwrite
    exact ⟨hfurnished, fun hnot => absurd hrole hnot⟩
  · rw [same_of_not_lands hlands hrole hplace] at hother
    cases hother

end Tar.Member

end RpmRelease
