import RpmRelease.Manifest
import RpmRelease.Proofs.FileSystem.Adding

/-!
# Copies below a staging directory

Staging makes one sort of change: it puts the copy of a node, which stands behind the project root,
behind the staging directory, under the same names.  This holds as long as paths are what they look
like: names lead from the root to a node, and the same names lead from the staging directory to its
copy, since a link among the copies is there only where a link is among the sources.

`Layout.Copies` is this change, `Layout.Ready` is what it preserves, and the lemmas here show of one
program after the other that it makes no other changes, however it ends.
-/

set_option autoImplicit false

namespace RpmRelease

open Relation (ReflTransGen)
open Lookup (Behind NoLinks)

/-- A copy holds the same contents, or leads to the same target. -/
def Node.CopyOf : Node → Node → Prop
  | .directory _ _, .directory _ _ => True
  | .file _ _ content, .file _ _ content' => content = content'
  | .link target _, .link target' _ => target = target'
  | _, _ => False

/-- The copy that a caller makes of a node is a copy. -/
theorem Node.copied_copyOf (caller : Caller) (node : Node) : (node.copied caller).CopyOf node := by
  cases node <;> trivial

namespace Storage

/-- Copying a file or a link makes a single change. -/
theorem exists_copyEntry_eq_change (source destination : Path) (node : Node) :
    ∃ f, copyEntry source destination node = change f := by
  unfold copyEntry copyFile
  split
  · exact ⟨_, rfl⟩
  · exact ⟨_, rfl⟩

/-- What copying a file or a link to a path behind a directory does. -/
theorem of_copyEntry_ok {caller : Caller} {fs fs' : FileSystem} {base source destination : Path}
    {names l k : Location} {node directory original : Node} (wf : fs.WellFormed)
    (hsource : Lookup.find caller fs false source = .ok (k, original))
    (hkind : original.kind = node.kind) (hbase : Lookup.find caller fs true base = .ok (l, directory))
    (hdirectory : directory.kind = .directory) (hdestination : Behind base names destination)
    (noLinks : NoLinks fs l names)
    (hlast : original.kind ≠ .link → ∀ target time, fs.get? (l ++ names) ≠ some (.link target time))
    (h : (copyEntry source destination node).exec caller fs = (.ok (), fs')) :
    names ≠ [] ∧ ∃ copy, fs' = fs.set (l ++ names) copy ∧ fs.Puts (l ++ names) copy ∧
      copy.kind = original.kind ∧ (k ≠ l ++ names → copy = original.copied caller) := by
  unfold copyEntry at h
  split at h
  · obtain ⟨target, htarget, hlink⟩ := Run.of_bind_ok (of_exec_change_ok h)
    obtain ⟨_, time, hfind⟩ := FileSystem.of_readLink_ok htarget
    obtain ⟨place, hvacant, rfl⟩ := FileSystem.of_makeLink_ok hlink
    obtain ⟨_, name, slash, hentry, rfl, hnone, puts⟩ := FileSystem.puts_of_vacantEntry wf hvacant
    obtain ⟨rfl, rfl⟩ : _ = k ∧ Node.link target.text time = original := by
      simpa using hfind.symm.trans hsource
    -- the directory itself is there, so that no link can be made in its place
    have hne : names ≠ [] := by
      rintro rfl
      have hsame : destination.components = base.components := by
        rw [hdestination, List.map_nil, List.append_nil]
      obtain ⟨entry, hthere⟩ := Lookup.entry_above hdestination.isAbsolute
        (hsame ▸ List.prefix_rfl) hbase hentry
      simp [hnone] at hthere
    rw [hdestination.entry_eq hne hbase noLinks hentry] at puts ⊢
    exact ⟨hne, _, rfl, puts _, rfl, fun _ => rfl⟩
  · next hnode =>
      obtain ⟨origin, mode, time, content, place, mode', content', hfind, hlocate, hcontent, puts,
        rfl⟩ := of_copyFile_ok wf h
      have hfile : original.kind ≠ .link := by simpa [hkind] using hnode
      obtain ⟨rfl, rfl⟩ : origin = k ∧ Node.file mode time content = original := by
        simpa using hfind.symm.trans (Lookup.find_follow hfile hsource)
      rw [hdestination.location_eq hbase noLinks (hlast hfile) hlocate] at puts hcontent ⊢
      have hne : names ≠ [] := by
        rintro rfl
        rw [List.append_nil] at puts
        have hreplaced := (puts.replaces directory (Lookup.get?_of_find hbase)).1
        simp [hdirectory] at hreplaced
      refine ⟨hne, _, rfl, puts, rfl, fun hplaces => ?_⟩
      obtain ⟨rfl, rfl⟩ := hcontent hplaces
      rfl

end Storage

namespace Manifest

/-- Where sources are and where their copies go, as paths and as locations. -/
structure Layout where
  root : Path
  staging : Path
  /-- what is not copied -/
  outputs : List Path
  source : Location
  target : Location

namespace Layout

variable {y : Layout} {caller : Caller} {fs fs' : FileSystem} {names : Location} {p : Path}

/-- Names behind the root that do not lead to one of the outputs or into it. -/
def Free (y : Layout) (names : Location) : Prop :=
  ∀ output ∈ y.outputs, ¬ output.components <+: y.root.components ++ names.map .normal

/-- The copy of a node is put behind the staging directory. -/
inductive Copies (y : Layout) (fs : FileSystem) : FileSystem → Prop
  | put {names : Location} {original copy : Node} (nonempty : names ≠ [])
      (source : fs.get? (y.source ++ names) = some original) (free : y.Free names)
      (puts : fs.Puts (y.target ++ names) copy) (kind : copy.kind = original.kind)
      (copyOf : y.source ≠ y.target → copy.CopyOf original) :
      Copies y fs (fs.set (y.target ++ names) copy)

/-- The staging directory is there, and links behind it are copies of links. -/
structure Ready (y : Layout) (caller : Caller) (fs : FileSystem) : Prop where
  wellFormed : fs.WellFormed
  staging : ∃ node, Lookup.find caller fs true y.staging = .ok (y.target, node) ∧
    node.kind = .directory
  links : ∀ names node, fs.get? (y.target ++ names) = some node → node.kind = .link →
    ∃ node', fs.get? (y.source ++ names) = some node' ∧ node'.kind = .link

/-! ## What copies preserve -/

/-- A copy that is put leaves every node of its kind, and changes none but a file. -/
theorem Copies.get? (h : y.Copies fs fs') {l : Location} {node : Node}
    (hnode : fs.get? l = some node) :
    ∃ node', fs'.get? l = some node' ∧ node'.kind = node.kind ∧
      (node.kind ≠ .file → node' = node) := by
  cases h with
  | put _ _ _ puts _ _ => exact puts.get?_set hnode

/-- A copy that is put leaves everything outside the staging directory. -/
theorem Copies.get?_of_outside (h : y.Copies fs fs') {l : Location}
    (hl : ∀ names, names ≠ [] → l ≠ y.target ++ names) : fs'.get? l = fs.get? l := by
  cases h with
  | put nonempty _ _ _ _ _ =>
      rw [FileSystem.get?_set, if_neg]
      exact fun heq => hl _ nonempty heq.symm

/-- A copy keeps the staging directory ready. -/
theorem Ready.copies (ready : y.Ready caller fs) (h : y.Copies fs fs') : y.Ready caller fs' := by
  have hkeep {l : Location} {node : Node} (hnode : fs.get? l = some node)
      (hkind : node.kind = .link) : ∃ node', fs'.get? l = some node' ∧ node'.kind = .link := by
    obtain ⟨node', hnode', hkind', _⟩ := h.get? hnode
    exact ⟨node', hnode', hkind'.trans hkind⟩
  obtain ⟨directory, hstaging, hdirectory⟩ := ready.staging
  cases h with
  | @put names original copy _ source _ puts kind _ =>
      refine ⟨ready.wellFormed.put puts, ⟨directory, ?_, hdirectory⟩, fun others node hnode hkind => ?_⟩
      · obtain ⟨node', hfind, _, hsame⟩ := puts.find_set hstaging
        rwa [hsame (by simp [hdirectory])] at hfind
      · rw [FileSystem.get?_set] at hnode
        split at hnode
        · next hsame =>
            obtain rfl := List.append_cancel_left hsame
            obtain rfl := Option.some.inj hnode
            exact hkeep source (kind ▸ hkind)
        · obtain ⟨node', hnode', hkind'⟩ := ready.links others node hnode hkind
          exact hkeep hnode' hkind'

/-- The staging directory stays ready while copies are put. -/
theorem Ready.changes (ready : y.Ready caller fs) (h : ReflTransGen y.Copies fs fs') :
    y.Ready caller fs' := by
  induction h with
  | refl => exact ready
  | tail _ hstep ih => exact ih.copies hstep

/-- Every node stays of its kind while copies are put. -/
theorem get?_of_changes (h : ReflTransGen y.Copies fs fs') {l : Location} {node : Node}
    (hnode : fs.get? l = some node) :
    ∃ node', fs'.get? l = some node' ∧ node'.kind = node.kind := by
  induction h with
  | refl => exact ⟨node, hnode, rfl⟩
  | tail _ hstep ih =>
      obtain ⟨middle, hmiddle, hkind⟩ := ih
      obtain ⟨node', hnode', hkind', _⟩ := hstep.get? hmiddle
      exact ⟨node', hnode', hkind'.trans hkind⟩

/-- A path to a node leads there also after copies were put; what is found is of the same kind, and
the same if it is no file. -/
theorem find_of_changes (h : ReflTransGen y.Copies fs fs') {path : Path} {follow : Bool}
    {l : Location} {node : Node} (hfind : Lookup.find caller fs follow path = .ok (l, node)) :
    ∃ node', Lookup.find caller fs' follow path = .ok (l, node') ∧ node'.kind = node.kind ∧
      (node.kind ≠ .file → node' = node) := by
  induction h with
  | refl => exact ⟨node, hfind, rfl, fun _ => rfl⟩
  | tail _ hstep ih =>
      obtain ⟨middle, hmiddle, hkind, hsame⟩ := ih
      cases hstep with
      | put _ _ _ puts _ _ =>
          obtain ⟨node', hfind', hkind', hsame'⟩ := puts.find_set hmiddle
          refine ⟨node', hfind', hkind'.trans hkind, fun hother => ?_⟩
          rw [hsame' (hkind ▸ hother), hsame hother]

/-! ## Directories on the way -/

/-- Names lead through directories, up to the last of them. -/
def Through (y : Layout) (fs : FileSystem) (names : Location) : Prop :=
  ∀ front, front <+: names → front ≠ [] →
    ∃ node, fs.get? (y.source ++ front) = some node ∧ node.kind = .directory

/-- The names of a directory lead through directories. -/
theorem through_of_directory (wf : fs.WellFormed) {directory : Node}
    (h : fs.get? (y.source ++ names) = some directory) (hkind : directory.kind = .directory) :
    y.Through fs names := by
  intro front hfront _
  by_cases hwhole : front = names
  · exact ⟨directory, hwhole ▸ h, hkind⟩
  · refine wf.directory_above h ((List.prefix_append_right_inj _).2 hfront) ?_
    simpa using hwhole

/-- A beginning of some names without the last one is not all of them. -/
theorem ne_of_prefix_dropLast {front : List String} (hfront : front <+: names.dropLast)
    (hne : front ≠ []) : front ≠ names := by
  rintro rfl
  have hlength := hfront.length_le
  have hpos := List.length_pos_of_ne_nil hne
  rw [List.length_dropLast] at hlength
  omega

/-- The names in front of a node lead through directories. -/
theorem through_dropLast (wf : fs.WellFormed) {node : Node}
    (h : fs.get? (y.source ++ names) = some node) : y.Through fs names.dropLast := by
  intro front hfront hne
  refine wf.directory_above h
    ((List.prefix_append_right_inj _).2 (hfront.trans (List.dropLast_prefix names))) ?_
  exact fun heq => ne_of_prefix_dropLast hfront hne (List.append_cancel_left heq)

/-- Names still lead through directories after copies were put. -/
theorem Through.changes (h : y.Through fs names) (hchanges : ReflTransGen y.Copies fs fs') :
    y.Through fs' names := by
  intro front hfront hne
  obtain ⟨node, hnode, hkind⟩ := h front hfront hne
  obtain ⟨node', hnode', hkind'⟩ := get?_of_changes hchanges hnode
  exact ⟨node', hnode', hkind'.trans hkind⟩

/-- No links are on the way to the copy of a node when none are on the way to the node. -/
theorem Ready.noLinks (ready : y.Ready caller fs) {node : Node}
    (h : fs.get? (y.source ++ names) = some node) : NoLinks fs y.target names := by
  intro front hfront _ hwhole target time hlink
  obtain ⟨other, hother, hkind⟩ := ready.links front _ hlink rfl
  obtain ⟨directory, hdirectory, hkind'⟩ := ready.wellFormed.directory_above h
    ((List.prefix_append_right_inj y.source).2 hfront) (by simpa using hwhole)
  rw [hother] at hdirectory
  obtain rfl := Option.some.inj hdirectory
  simp [hkind] at hkind'

/-- The paths above a path behind the staging directory are above the staging directory, or behind it
themselves. -/
theorem prefix_or_behind {staging q : Path} {names : List String}
    (h : q.components <+: staging.components ++ names.map .normal) :
    q.components <+: staging.components ∨
      ∃ front, front <+: names ∧ front ≠ [] ∧ Behind staging front q := by
  rcases List.prefix_or_prefix_of_prefix h (List.prefix_append _ _) with habove | ⟨rest, hrest⟩
  · exact Or.inl habove
  · rw [← hrest, List.prefix_append_right_inj, List.prefix_map_iff] at h
    obtain ⟨front, hfront, rfl⟩ := h
    by_cases hne : front = []
    · subst hne
      exact Or.inl ⟨[], by rw [← hrest]; simp⟩
    · exact Or.inr ⟨front, hfront, hne, hrest.symm⟩

/-- Without its last component, a path behind another one is above that one, or behind it by one name
less. -/
theorem dropLast_append_map (components : List Path.Component) (names : List String) :
    (components ++ names.map Path.Component.normal).dropLast <+:
      components ++ names.dropLast.map Path.Component.normal := by
  rcases List.eq_nil_or_concat' names with rfl | ⟨front, last, rfl⟩
  · simpa using List.dropLast_prefix components
  · rw [List.map_append, ← List.append_assoc]
    simp

/-! ## Programs -/

/-- Trying to create a directory on the way to a copy. -/
theorem Ready.makes_makeDirectory {q : Path} (ready : y.Ready caller fs)
    (hthrough : y.Through fs names) (free : y.Free names)
    (habsolute : q.isAbsolute = y.staging.isAbsolute)
    (hq : q.components <+: y.staging.components ++ names.map .normal) :
    Storage.Makes y.Copies caller fs
      (Storage.attempt (Storage.change fun caller fs => fs.makeDirectory caller q) :
        Storage FileError (Except FileError Unit)) fun _ _ => True := by
  refine (Storage.Makes.change fun fs' hmake => ?_).attempt.weaken fun _ _ _ _ => trivial
  obtain ⟨l, name, slash, hentry, hvacant, puts, rfl⟩ :=
    FileSystem.puts_of_makeDirectory ready.wellFormed (Storage.of_exec_change_ok hmake)
  obtain ⟨directory, hstaging, _⟩ := ready.staging
  rcases prefix_or_behind hq with habove | ⟨front, hfront, hne, hbehind⟩
  · obtain ⟨entry, hthere⟩ := Lookup.entry_above habsolute habove hstaging hentry
    simp [hvacant] at hthere
  · obtain ⟨node, hnode, hkind⟩ := hthrough front hfront hne
    have hlocation := hbehind.entry_eq hne hstaging (ready.noLinks hnode) hentry
    rw [hlocation] at puts ⊢
    refine .put hne hnode (fun output hmem hstarts => ?_) puts hkind.symm fun _ => ?_
    · refine free output hmem (hstarts.trans ((List.prefix_append_right_inj _).2 ?_))
      obtain ⟨more, rfl⟩ := hfront
      rw [List.map_append]
      exact List.prefix_append _ _
    · cases node with
      | directory => trivial
      | file => simp [Node.kind] at hkind
      | link => simp [Node.kind] at hkind

/-- Checking that there is a directory puts no copies. -/
theorem makes_check {q : Path} {e : FileError} :
    Storage.Makes y.Copies caller fs
      (do if !(← Storage.isDirectory q) then throw e : Storage FileError Unit)
      fun _ _ => True := by
  refine Storage.Makes.query.bind fun there fs' _ _ => ?_
  split
  · exact .throw
  · exact .pure trivial

/-- Creating the directories on the way to a copy. -/
theorem Ready.makes_createAncestors {paths : List Path} (ready : y.Ready caller fs)
    (hthrough : y.Through fs names) (free : y.Free names)
    (hpaths : ∀ q ∈ paths, q.isAbsolute = y.staging.isAbsolute ∧
      q.components <+: y.staging.components ++ names.map .normal) :
    Storage.Makes y.Copies caller fs (Storage.createAncestors paths) fun _ _ => True := by
  induction paths generalizing fs with
  | nil => exact .pure trivial
  | cons q above ih =>
      obtain ⟨habsolute, hq⟩ := hpaths q List.mem_cons_self
      have hrest := fun other hother => hpaths other (List.mem_cons_of_mem q hother)
      unfold Storage.createAncestors
      split
      · exact .pure trivial
      · refine (ready.makes_makeDirectory hthrough free habsolute hq).bind
          fun outcome fs₁ h₁ _ => ?_
        have ready₁ := ready.changes h₁
        have hthrough₁ := hthrough.changes h₁
        rcases outcome with e | ⟨⟩
        · simp only
          split
          · split
            · exact Storage.Makes.bind .throw fun _ _ _ h => absurd h id
            -- the directory above is created first, and then there is a second try
            · refine (ih ready₁ hthrough₁ hrest).bind fun _ fs₂ h₂ _ => ?_
              refine ((ready₁.changes h₂).makes_makeDirectory (hthrough₁.changes h₂) free habsolute
                hq).bind fun outcome fs₃ _ _ => ?_
              rcases outcome with e | ⟨⟩
              · exact makes_check
              · exact .pure trivial
          · exact makes_check
        · exact .pure trivial

/-- Creating directories on the way to a copy puts copies of directories. -/
theorem Ready.makes_createDirectories {p : Path} (ready : y.Ready caller fs)
    (hthrough : y.Through fs names) (free : y.Free names)
    (habsolute : p.isAbsolute = y.staging.isAbsolute)
    (hp : p.components <+: y.staging.components ++ names.map .normal) :
    Storage.Makes y.Copies caller fs (Storage.createDirectories p) fun _ _ => True := by
  refine ready.makes_createAncestors hthrough free fun q hq => ?_
  obtain ⟨hstarts, hsame⟩ := Path.components_of_mem_ancestors hq
  exact ⟨hsame.trans habsolute, hstarts.trans hp⟩

/-- Copying a file or a link. -/
theorem Ready.makes_copyEntry {source destination : Path} {node original : Node}
    (ready : y.Ready caller fs) (free : y.Free names)
    (hsource : Lookup.find caller fs false source = .ok (y.source ++ names, original))
    (hkind : original.kind = node.kind) (hdestination : Behind y.staging names destination) :
    Storage.Makes y.Copies caller fs (Storage.copyEntry source destination node)
      fun _ _ => True := by
  have hthere := Lookup.get?_of_find hsource
  obtain ⟨directory, hstaging, hdirectory⟩ := ready.staging
  obtain ⟨f, hcopy⟩ := Storage.exists_copyEntry_eq_change source destination node
  rw [hcopy]
  refine .change fun fs' hexec => ?_
  rw [← hcopy] at hexec
  -- where a file is copied to there is no link, since links behind the staging directory are copies
  have hlast : original.kind ≠ .link →
      ∀ target time, fs.get? (y.target ++ names) ≠ some (.link target time) := by
    intro hfile target time hlink
    obtain ⟨other, hother, hotherKind⟩ := ready.links names _ hlink rfl
    rw [hthere] at hother
    exact hfile (Option.some.inj hother ▸ hotherKind)
  obtain ⟨hne, copy, rfl, puts, hsame, hcopied⟩ := Storage.of_copyEntry_ok ready.wellFormed hsource hkind
    hstaging hdirectory hdestination (ready.noLinks hthere) hlast hexec
  refine .put hne hthere free puts hsame fun hplaces => ?_
  rw [hcopied fun heq => hplaces (List.append_cancel_right heq)]
  exact original.copied_copyOf caller

/-! ## Trees -/

/-- A path behind the root that leads, if it leads anywhere, where its names say. -/
structure Met (y : Layout) (caller : Caller) (fs : FileSystem) (names : Location) (p : Path) :
    Prop where
  behind : Behind y.root names p
  leads : ∀ r, Lookup.find caller fs false p = .ok r → r.1 = y.source ++ names

/-- A path that was met leads to the node that has its names behind the root. -/
theorem Met.find (met : y.Met caller fs names p) {node : Node}
    (h : fs.lstat caller p = .ok node) :
    Lookup.find caller fs false p = .ok (y.source ++ names, node) := by
  obtain ⟨l, hfind⟩ := Lookup.lstat_eq_ok_iff.1 h
  rw [hfind, show l = y.source ++ names from met.leads _ hfind]

/-- Where the copy of a path goes. -/
theorem makes_placeBelow {source destination path : Path} {names more : Location}
    (hroot : y.root.text ≠ "") (hstaging : y.staging.text ≠ "")
    (hsource : Behind y.root names source) (hdestination : Behind y.staging names destination)
    (hpath : Behind y.root (names ++ more) path) :
    Storage.Makes y.Copies caller fs (Storage.placeBelow source destination path)
      fun target fs' => fs' = fs ∧ Behind y.staging (names ++ more) target := by
  unfold Storage.placeBelow
  have hmore : Behind source more path := by
    rw [Behind, hpath, hsource, List.map_append, List.append_assoc]
  split
  · next rest hbelow =>
      refine .pure ⟨rfl, hdestination.trans ?_⟩
      exact hmore.join_below (hsource.text_ne_empty hroot) (hdestination.text_ne_empty hstaging) hbelow
  · exact .throw

/-- A path that was met and is not to be skipped leads to no output. -/
theorem Met.free (met : y.Met caller fs names p)
    (hfree : ∀ output ∈ y.outputs, output.components <+: p.components →
      output.components = p.components)
    (hskip : ¬ y.outputs.any p.same = true) : y.Free names := by
  intro output hmem hstarts
  rw [← met.behind] at hstarts
  refine hskip (List.any_eq_true.2 ⟨output, hmem, ?_⟩)
  simpa [Path.same] using (hfree output hmem hstarts).symm

/-- Looking at what was met gives the node that has these names behind the root. -/
theorem Met.makes_nodeMet (met : y.Met caller fs names p) :
    Storage.Makes y.Copies caller fs (Storage.nodeMet p) fun node fs' =>
      fs' = fs ∧ Lookup.find caller fs false p = .ok (y.source ++ names, node) := by
  exact Storage.Makes.query.weaken fun node fs' _ hnode =>
    ⟨hnode.1, met.find (Run.of_mapError_ok hnode.2)⟩

/-- An entry of a directory that was met leads where its names say, also after copies were put. -/
theorem Met.join {directory entry : Node} {name : String} (met : y.Met caller fs names p)
    (hroot : y.root.text ≠ "") (hname : Path.IsName name)
    (hfind : Lookup.find caller fs true p = .ok (y.source ++ names, directory))
    (hkind : directory.kind = .directory) (h : ReflTransGen y.Copies fs fs')
    (hentry : fs'.get? (y.source ++ names ++ [name]) = some entry) :
    y.Met caller fs' (names ++ [name]) (p.join ⟨name⟩) where
  behind := met.behind.trans (Lookup.behind_join (met.behind.text_ne_empty hroot) hname)
  leads := fun r hr => by
    obtain ⟨_, hparent, _, hsame⟩ := find_of_changes h hfind
    rw [hsame (by simp [hkind])] at hparent
    rw [Lookup.eq_of_find_join hparent hname hentry (.inl rfl) hr, List.append_assoc]

/-- An output above an entry of a directory is that entry, when no output is above the directory. -/
theorem Met.eq_of_output_join {name : String} (met : y.Met caller fs names p)
    (hroot : y.root.text ≠ "") (hname : Path.IsName name) (free : y.Free names) :
    ∀ output ∈ y.outputs, output.components <+: (p.join ⟨name⟩).components →
      output.components = (p.join ⟨name⟩).components := by
  intro output houtput h
  rw [Path.components_join_name (met.behind.text_ne_empty hroot) hname] at h ⊢
  refine (List.prefix_concat_iff.1 h).resolve_right fun habove => ?_
  rw [met.behind] at habove
  exact free output houtput habove

/-- Copying a directory and everything below it. -/
theorem Ready.makes_copyDirectory {source destination path : Path} {steps : Nat}
    {names more : Location} (hroot : y.root.text ≠ "") (hstaging : y.staging.text ≠ "")
    (ready : y.Ready caller fs) (hsource : Behind y.root names source)
    (hdestination : Behind y.staging names destination)
    (met : y.Met caller fs (names ++ more) path)
    (hdirectory : ∃ node, fs.get? (y.source ++ (names ++ more)) = some node ∧ node.kind = .directory)
    (hfree : ∀ output ∈ y.outputs, output.components <+: path.components →
      output.components = path.components) :
    Storage.Makes y.Copies caller fs (Storage.copyDirectory y.outputs source destination steps path)
      fun _ _ => True := by
  induction steps generalizing fs path more with
  | zero => exact .pure trivial
  | succ steps ih =>
      unfold Storage.copyDirectory
      refine Storage.Makes.attempt_query.bind ?_
      rintro opened _ - ⟨rfl, hopened⟩
      split
      · exact .pure trivial
      · next hskip =>
          have free := met.free hfree hskip
          refine (makes_placeBelow hroot hstaging hsource hdestination met.behind).bind ?_
          rintro target _ - ⟨rfl, htarget⟩
          refine met.makes_nodeMet.bind ?_
          rintro directory _ - ⟨rfl, hfind⟩
          obtain ⟨node, hnode, hkind⟩ := hdirectory
          obtain rfl : directory = node := by
            simpa [hnode] using (Lookup.get?_of_find hfind).symm
          have hfollow := Lookup.find_follow (by simp [hkind]) hfind
          have hthrough := through_of_directory ready.wellFormed hnode hkind
          refine (ready.makes_createDirectories hthrough free htarget.isAbsolute
            (htarget ▸ List.prefix_rfl)).mapError.bind ?_
          intro _ fs₁ h₁ _
          rcases opened with e | ⟨l, found⟩
          · exact Storage.Makes.bind .throw fun _ _ _ h => absurd h id
          · obtain ⟨rfl, rfl⟩ : l = y.source ++ (names ++ more) ∧ found = directory := by
              obtain ⟨_, _, hopened⟩ := Run.of_bind_ok hopened
              simpa using hopened.symm.trans hfollow
            refine Storage.Makes.bind (.pure (Q := fun place fs' =>
              place = (y.source ++ (names ++ more), found) ∧ fs' = fs₁) ⟨rfl, rfl⟩) ?_
            rintro _ _ - ⟨rfl, rfl⟩
            refine Storage.Makes.query.bind ?_
            rintro entries _ - ⟨rfl, hentries⟩
            obtain rfl := Except.ok.inj hentries
            refine Storage.Makes.countOver ?_
            -- the directory still leads where its names say when its entries are copied one by one
            rintro ⟨name, entry⟩ hmem fs₂ h₂
            have hentry := FileSystem.mem_children.1 hmem
            have hname : Path.IsName name := (ready.changes h₁).wellFormed.isName _ entry hentry name
              (List.mem_append_right _ (List.mem_singleton_self name))
            obtain ⟨entry', hentry', hentryKind⟩ := get?_of_changes h₂ hentry
            have ready₂ := ready.changes (h₁.trans h₂)
            have metChild := met.join hroot hname hfollow hkind (h₁.trans h₂) hentry'
            have hfreeChild := met.eq_of_output_join hroot hname free
            rw [List.append_assoc] at metChild
            rw [List.append_assoc, List.append_assoc] at hentry'
            simp only
            split
            · refine ih ready₂ metChild ⟨entry', hentry', ?_⟩ hfreeChild
              next hdir => simpa [hentryKind] using hdir
            · split
              · exact .pure trivial
              · next hskipChild =>
                  refine (makes_placeBelow hroot hstaging hsource hdestination metChild.behind).bind ?_
                  rintro targetChild _ - ⟨rfl, htargetChild⟩
                  refine metChild.makes_nodeMet.bind ?_
                  rintro nodeChild _ - ⟨rfl, hfindChild⟩
                  refine (ready₂.makes_copyEntry (metChild.free hfreeChild hskipChild) hfindChild rfl
                    htargetChild).mapError.bind fun _ _ _ _ => .pure trivial

/-- Copying a file, a link or a directory with everything below it. -/
theorem Ready.makes_copyTree {source destination : Path} (hroot : y.root.text ≠ "")
    (hstaging : y.staging.text ≠ "") (ready : y.Ready caller fs) (met : y.Met caller fs names source)
    (hdestination : Behind y.staging names destination) (free : y.Free names) :
    Storage.Makes y.Copies caller fs (Storage.copyTree y.outputs source destination)
      fun _ _ => True := by
  unfold Storage.copyTree
  refine Storage.Makes.query.bind ?_
  rintro node fs - ⟨rfl, hnode⟩
  have hfind := met.find (Run.of_mapError_ok hnode)
  have hthere := Lookup.get?_of_find hfind
  split
  · next hkind =>
      have hbehind : Behind y.root (names ++ []) source := (List.append_nil names).symm ▸ met.behind
      refine ready.makes_copyDirectory hroot hstaging met.behind hdestination
        ((List.append_nil names).symm ▸ met) ⟨node, by rwa [List.append_nil], by simpa using hkind⟩ ?_
      intro output hmem hstarts
      rw [met.behind] at hstarts
      exact absurd hstarts (free output hmem)
  · have hcopy {fs' : FileSystem} (h : ReflTransGen y.Copies fs fs') :
        Storage.Makes y.Copies caller fs' (Storage.copyEntry source destination node)
          fun _ _ => True := by
      obtain ⟨node', hfind', hkind, _⟩ := find_of_changes h hfind
      exact (ready.changes h).makes_copyEntry free hfind' hkind hdestination
    refine Storage.Makes.bind (Q := fun _ _ => True) (Storage.Makes.mapError ?_) fun _ _ _ _ =>
      .pure trivial
    cases hparent : destination.parent? with
    | none => exact hcopy .refl
    | some above =>
        obtain ⟨hcomponents, habsolute⟩ := Path.components_parent? hparent
        have hfront : names.dropLast <+: names := List.dropLast_prefix names
        refine (ready.makes_createDirectories (through_dropLast ready.wellFormed hthere)
          (fun output hmem hstarts => free output hmem ?_)
          (habsolute.trans hdestination.isAbsolute) ?_).bind fun _ fs' h _ => hcopy h
        · refine hstarts.trans ((List.prefix_append_right_inj _).2 ?_)
          exact hfront.map _
        · rw [hcomponents, hdestination]
          exact dropLast_append_map _ names

/-! ## The manifest -/

/-- A path that leads where its names say. -/
def Straight (y : Layout) (caller : Caller) (fs : FileSystem) (p : Path) : Prop :=
  ∃ names node, Behind y.root names p ∧
    Lookup.find caller fs false p = .ok (y.source ++ names, node)

/-- A file system that differs from another one only behind the staging directory. -/
def SameOutside (y : Layout) (fs fs' : FileSystem) : Prop :=
  ∀ l, (∀ names, names ≠ [] → l ≠ y.target ++ names) → fs'.get? l = fs.get? l

/-- Copies that are put change nothing outside the staging directory. -/
theorem sameOutside_of_changes (h : ReflTransGen y.Copies fs fs') : y.SameOutside fs fs' := by
  induction h with
  | refl => exact fun _ _ => rfl
  | tail _ hstep ih => exact fun l hl => (hstep.get?_of_outside hl).trans (ih l hl)

/-- A path stays straight while copies are put. -/
theorem Straight.changes (h : y.Straight caller fs p) (hchanges : ReflTransGen y.Copies fs fs') :
    y.Straight caller fs' p := by
  obtain ⟨names, node, hbehind, hfind⟩ := h
  obtain ⟨node', hfind', _⟩ := find_of_changes hchanges hfind
  exact ⟨names, node', hbehind, hfind'⟩

/-- The places of a release whose root and staging directory are at some locations. -/
def ofRelease (r : Release) (source target : Location) : Layout where
  root := r.root
  staging := r.stagingDirectory
  outputs := r.outputs
  source := source
  target := target

variable {r : Release} {source target : Location}

/-- A path that is no output and in none of them, with its names behind the root and the path of its copy
behind the staging directory. -/
structure Match (y : Layout) (names : Location) (p destination : Path) : Prop where
  behind : Behind y.root names p
  copied : Behind y.staging names destination
  free : y.Free names

/-- Behind the root, every path that is no output and in none of them is a match with the path of its
copy. -/
theorem exists_match (hroot : r.root.text ≠ "") (hstaging : r.stagingDirectory.text ≠ "")
    (hskip : ¬ r.outputs.any p.startsWith = true) (hbehind : Behind r.root names p) :
    ∃ rest, p.below? r.root = some rest ∧
      (ofRelease r source target).Match names p (r.stagingDirectory.join rest) := by
  have hstarts : p.startsWith r.root = true := by
    have hp : p.components = r.root.components ++ names.map .normal := hbehind
    rw [Path.startsWith, hp]
    exact List.isPrefixOf_iff_prefix.2 (List.prefix_append _ _)
  obtain ⟨rest, hbelow⟩ : ∃ rest, p.below? r.root = some rest := by
    rw [Path.below?, if_pos hstarts]
    exact ⟨_, rfl⟩
  refine ⟨rest, hbelow, hbehind, hbehind.join_below hroot hstaging hbelow, fun output hmem hprefix => ?_⟩
  refine hskip (List.any_eq_true.2 ⟨output, hmem, ?_⟩)
  have hp : p.components = r.root.components ++ names.map .normal := hbehind
  rw [Path.startsWith, hp]
  exact List.isPrefixOf_iff_prefix.2 hprefix

/-- Copying what one match leads to. -/
theorem Ready.makes_stageMatch (hroot : r.root.text ≠ "")
    (ready : (ofRelease r source target).Ready caller fs)
    (straight : ¬ r.outputs.any p.startsWith = true →
      (ofRelease r source target).Straight caller fs p) :
    Storage.Makes (ofRelease r source target).Copies caller fs
      (stageMatch r r.stagingDirectory r.outputs p) fun _ _ => True := by
  unfold stageMatch
  split
  · exact .pure trivial
  · next hskip =>
      obtain ⟨names, node, hbehind, hfind⟩ := straight hskip
      obtain ⟨directory, hstaging, _⟩ := ready.staging
      have hstagingText : r.stagingDirectory.text ≠ "" :=
        (Lookup.of_checkText_ok (Lookup.find_eq_ok_iff.1 hstaging).1).1
      obtain ⟨rest, hbelow, hmatch⟩ := exists_match hroot hstagingText hskip hbehind
      have met : (ofRelease r source target).Met caller fs names p :=
        ⟨hbehind, fun found hfound => by rw [Except.ok.inj (hfound.symm.trans hfind)]⟩
      rw [hbelow]
      exact (ready.makes_copyTree hroot hstagingText met hmatch.copied hmatch.free).mapError

/-- Every match of an entry leads where its names say, unless it is an output or below one. -/
def StraightEntry (y : Layout) (caller : Caller) (fs : FileSystem) (entry : String) : Prop :=
  ∀ found, Glob.expand caller fs y.root entry = .ok found → ∀ p ∈ found,
    ¬ y.outputs.any p.startsWith = true → y.Straight caller fs p

/-- The entries of a manifest are straight, whatever stands behind the staging directory. -/
def StraightManifest (y : Layout) (caller : Caller) (fs : FileSystem) (manifest : List String) :
    Prop :=
  ∀ fs', fs'.WellFormed → y.SameOutside fs fs' →
    ∀ entry ∈ manifest, y.StraightEntry caller fs' entry

section Manifest

variable {step : FileSystem → FileSystem → Prop}

/-- The staging directory stays ready through changes that are known to put copies. -/
theorem Ready.steps (hstep : ∀ {fs fs'}, step fs fs' → (ofRelease r source target).Copies fs fs')
    (ready : (ofRelease r source target).Ready caller fs) (h : ReflTransGen step fs fs') :
    (ofRelease r source target).Ready caller fs' :=
  ready.changes (h.lift id fun _ _ => hstep)

variable (hstep : ∀ {fs fs'}, step fs fs' → (ofRelease r source target).Copies fs fs')
  (hmatch : ∀ {fs p}, (ofRelease r source target).Ready caller fs →
    (¬ r.outputs.any p.startsWith = true → (ofRelease r source target).Straight caller fs p) →
    Storage.Makes step caller fs (stageMatch r r.stagingDirectory r.outputs p) fun _ _ => True)

include hstep hmatch

/-- Copying everything that an entry matches, when it is known of each match which changes it makes. -/
theorem Ready.makes_stageEntry {entry : String}
    (ready : (ofRelease r source target).Ready caller fs)
    (straight : (ofRelease r source target).StraightEntry caller fs entry) :
    Storage.Makes step caller fs (stageEntry r r.stagingDirectory entry) fun _ _ => True := by
  unfold stageEntry
  refine Storage.Makes.query.bind ?_
  rintro found fs - ⟨rfl, hfound⟩
  split
  · exact Storage.Makes.bind .throw fun _ _ _ h => absurd h id
  · refine Storage.Makes.countOver fun p hp fs' h => ?_
    exact hmatch (ready.steps hstep h) fun hskip =>
      (straight found (Run.of_mapError_ok hfound) p hp hskip).changes (h.lift id fun _ _ => hstep)

/-- Copying the entries of a manifest, when it is known of each match which changes it makes. -/
theorem Ready.makes_stage {manifest : List String}
    (ready : (ofRelease r source target).Ready caller fs)
    (straight : (ofRelease r source target).StraightManifest caller fs manifest) :
    Storage.Makes step caller fs (stage r r.stagingDirectory manifest) fun _ _ => True := by
  refine Storage.Makes.countOver fun entry hentry fs' h => ?_
  have ready' := ready.steps hstep h
  exact ready'.makes_stageEntry hstep hmatch (straight fs' ready'.wellFormed
    (sameOutside_of_changes (h.lift id fun _ _ => hstep)) entry hentry)

end Manifest

end Layout

end Manifest

end RpmRelease
