import RpmRelease.Proofs.FileSystem.Replicating
import RpmRelease.Proofs.FileSystem.Respelling
import RpmRelease.Proofs.FileSystem.Transferring

/-!
# Copying what has been copied

A copy that has succeeded has come by every node of the tree: what is no link has been read and is in the
place of the copy, and its names may be followed there and in the tree.  `Transfer.Fits.completed_of_copyTree`
says so, by induction on the walk.

When the copies of all nodes are there, and are files that the caller may write to and directories,
copying succeeds and changes nothing: a directory is there already, and a file is written over with the
same contents, mode and time.  A link is not written over; that is why there must be none.
-/

set_option autoImplicit false

namespace RpmRelease

open Relation (ReflTransGen)
open Lookup (Behind NoLinks Way)

variable {caller : Caller} {fs fs' : FileSystem}

/-! ## Ways that stay open -/

/-- A directory may still be entered when a node is put at a vacant place or over a file. -/
theorem FileSystem.Puts.enter_set {l k : Location} {new : Node} (puts : fs.Puts k new)
    (h : Lookup.enter caller fs l = .ok ()) : Lookup.enter caller (fs.set k new) l = .ok () := by
  obtain ⟨directory, hdirectory, hkind⟩ := Lookup.directory_of_enter h
  obtain ⟨node, hnode, -, hsame⟩ := puts.get?_set hdirectory
  rw [hsame (by simp [hkind])] at hnode
  rwa [Lookup.enter, hnode, ← hdirectory, ← Lookup.enter]

/-- Names may still be followed when a node is put. -/
theorem Lookup.Way.put {l k names : Location} {new : Node} (puts : fs.Puts k new)
    (h : Way caller fs l names) : Way caller (fs.set k new) l names :=
  fun front name hfront => ⟨puts.enter_set (h front name hfront).1, (h front name hfront).2⟩

/-- A change that puts a node. -/
def FileSystem.Putting (fs fs' : FileSystem) : Prop :=
  ∃ l new, fs.Puts l new ∧ fs' = fs.set l new

/-- A way stays open, whatever is put. -/
theorem Lookup.Way.changes {l names : Location} (hway : Way caller fs l names)
    (h : ReflTransGen FileSystem.Putting fs fs') : Way caller fs' l names := by
  induction h with
  | refl => exact hway
  | tail _ hstep ih =>
      obtain ⟨k, new, puts, rfl⟩ := hstep
      exact ih.put puts

/-- What is there is not taken away, whatever is put. -/
theorem FileSystem.isSome_of_putting {l : Location} (hthere : (fs.get? l).isSome = true)
    (h : ReflTransGen FileSystem.Putting fs fs') : (fs'.get? l).isSome = true := by
  induction h with
  | refl => exact hthere
  | tail _ hstep ih =>
      obtain ⟨k, new, puts, rfl⟩ := hstep
      obtain ⟨node, hnode⟩ := Option.isSome_iff_exists.1 ih
      obtain ⟨node', hnode', -⟩ := puts.get?_set hnode
      rw [hnode']
      rfl

/-- A copy allows its owner what the original allows. -/
theorem Caller.may_copied (caller : Caller) (permission : Permission) {node : Node}
    (hkind : node.kind = .file) :
    caller.may permission (node.copied caller) = caller.may permission node := by
  cases node with
  | directory => cases hkind
  | link => cases hkind
  | file mode time content =>
      have hwritten : mode.written.allows permission = mode.allows permission := by
        cases permission <;> simp only [Mode.allows, Mode.written] <;> split <;> simp
      rw [Caller.may, Caller.may, Node.copied, Node.mode, Node.mode, FileSystem.modeWritten]
      split
      · rfl
      · split
        · next hsuper => simp [hsuper]
        · rw [hwritten]

namespace Storage

/-- A file that was copied could be read. -/
theorem mayRead_of_copyFile_ok {source destination : Path} {k : Location} {node : Node}
    (hsource : Lookup.find caller fs true source = .ok (k, node))
    (h : (copyFile source destination).exec caller fs = (.ok (), fs')) :
    caller.may .read node = true := by
  obtain ⟨found, hfound, hcopy⟩ := Run.of_bind_ok (of_exec_change_ok h)
  obtain rfl := Except.ok.inj (hfound.symm.trans hsource)
  obtain ⟨hmay, -⟩ := Run.of_check_ok hcopy
  simpa using hmay

/-- A file that is there is opened for writing. -/
theorem openWrite_of_find (wanted : Mode) {path : Path} {l : Location} {mode : Mode} {time : Int}
    {content : Bytes} (hfind : Lookup.find caller fs true path = .ok (l, .file mode time content))
    (hmay : caller.may .write (.file mode time content) = true) :
    fs.openWrite caller wanted path =
      .ok (l, fs.set l (.file (FileSystem.modeWritten caller mode) caller.now [])) := by
  have hmay' : caller.may .write (.file mode 0 []) = true := hmay
  rw [FileSystem.openWrite, Lookup.locate_of_find hfind]
  simp only [bind, Except.bind, hmay', Bool.not_true, Bool.false_eq_true, if_false, pure, Except.pure]

/-- A file is copied over its copy, which stays as it is. -/
theorem exec_copyFile_again {source destination : Path} {k m : Location} {mode : Mode} {time : Int}
    {content : Bytes} (hsource : Lookup.find caller fs true source = .ok (k, .file mode time content))
    (hread : caller.may .read (.file mode time content) = true)
    (hthere : Lookup.find caller fs true destination =
      .ok (m, (Node.file mode time content).copied caller)) (hne : m ≠ k)
    (hwrite : caller.may .write (.file mode time content) = true) :
    (copyFile source destination).exec caller fs = (.ok (), fs) := by
  have hmay : caller.may .write ((Node.file mode time content).copied caller) = true := by
    rwa [caller.may_copied .write rfl]
  have hsame : fs.set m ((Node.file mode time content).copied caller) = fs := by
    refine FileSystem.ext fun l => ?_
    rw [FileSystem.get?_set]
    split
    · next heq => rw [← heq, Lookup.get?_of_find hthere]
    · rfl
  rw [exec_copyFile_of_openWrite hsource hread hne (openWrite_of_find mode hthere hmay), hsame]

namespace Transfer

variable {t : Transfer} {names more : Location} {node : Node}

/-! ## What a copy has come by -/

/-- Each change that copying makes puts a node. -/
theorem putting_of_changes (h : ReflTransGen t.Step fs fs') :
    ReflTransGen FileSystem.Putting fs fs' :=
  h.lift id fun _ _ hstep =>
    let ⟨l, new, _, puts, hset⟩ := hstep.exists_puts
    ⟨l, new, puts, hset⟩

/-- A node of the tree has been read and is in the place of the copy. -/
structure Visited (t : Transfer) (fs : FileSystem) (names : Location) (node : Node) : Prop where
  there : (fs.get? (t.place ++ names)).isSome
  mayRead : t.caller.may .read node = true
  way : Way t.caller fs t.spot (t.front ++ names)
  reached : Way t.caller fs t.origin names

/-- Everything of the tree at and below some names has been visited, but for links. -/
def Completed (t : Transfer) (fs : FileSystem) (names : Location) : Prop :=
  ∀ more node, Kept t.skip t.source (names ++ more) →
    fs.get? (t.origin ++ (names ++ more)) = some node → node.kind ≠ .link →
      t.Visited fs (names ++ more) node

/-- What has been visited stays so. -/
theorem Visited.changes (h : t.Visited fs names node) (hchanges : ReflTransGen t.Step fs fs') :
    t.Visited fs' names node :=
  have hputting := putting_of_changes hchanges
  ⟨FileSystem.isSome_of_putting h.there hputting, h.mayRead, h.way.changes hputting,
    h.reached.changes hputting⟩

/-- What has been completed stays so. -/
theorem Completed.changes (h : t.Completed fs names) (hchanges : ReflTransGen t.Step fs fs') :
    t.Completed fs' names := by
  intro more node hkept hnode hkind
  rw [get?_origin_of_changes hchanges hkept] at hnode
  exact (h more node hkept hnode hkind).changes hchanges

/-- There is nothing of the tree below a file. -/
theorem Completed.of_leaf (wf : fs.WellFormed) (hnode : fs.get? (t.origin ++ names) = some node)
    (hkind : node.kind ≠ .directory) (h : node.kind ≠ .link → t.Visited fs names node) :
    t.Completed fs names := by
  intro more other _ hother hotherKind
  by_cases hmore : more = []
  · subst hmore
    rw [List.append_nil] at hother ⊢
    obtain rfl := Option.some.inj (hnode.symm.trans hother)
    exact h hotherKind
  · obtain ⟨directory, hdirectory, hdirectoryKind⟩ := wf.directory_above hother
      ((List.prefix_append_right_inj t.origin).2 (List.prefix_append names more)) (by simpa using hmore)
    rw [hnode] at hdirectory
    exact absurd (Option.some.inj hdirectory ▸ hdirectoryKind) hkind

/-- Everything of the tree at and below a directory is the directory, or at or below one of its entries. -/
theorem Completed.of_entries (wf : fs.WellFormed) (hnode : fs.get? (t.origin ++ names) = some node)
    (hvisited : t.Visited fs names node)
    (h : ∀ name entry, Kept t.skip t.source (names ++ [name]) →
      fs.get? (t.origin ++ names ++ [name]) = some entry → t.Completed fs (names ++ [name])) :
    t.Completed fs names := by
  intro more other hkept hother hkind
  cases more with
  | nil =>
      rw [List.append_nil] at hother ⊢
      obtain rfl := Option.some.inj (hnode.symm.trans hother)
      exact hvisited
  | cons name rest =>
      have hsplit : names ++ name :: rest = names ++ [name] ++ rest := by simp
      have hbelow := hother
      rw [← List.append_assoc] at hbelow
      obtain ⟨entry, hentry, -⟩ := wf.exists_of_append hbelow
      have hkeptName : Kept t.skip t.source (names ++ [name]) :=
        hkept.front (hsplit ▸ List.prefix_append _ _)
      rw [hsplit] at hkept hother ⊢
      exact h name entry hkeptName hentry rest other hkept hother hkind

/-- Names that lead to a node of the tree may be followed there. -/
theorem Fits.way_origin {top : Node} (fits : t.Fits fs)
    (hsource : Lookup.find t.caller fs true t.source = .ok (t.origin, top))
    (hfind : Lookup.find t.caller fs true (t.source.along names) = .ok (t.origin ++ names, node)) :
    Way t.caller fs t.origin names := by
  have hnode := Lookup.get?_of_find hfind
  have hnames : ∀ name ∈ names, Path.IsName name := fun name hname =>
    fits.wellFormed.isName _ node hnode name (List.mem_append_right _ hname)
  refine Lookup.way_of_locate (Lookup.behind_along t.named hnames) hsource ?_
    (Lookup.locate_of_find hfind)
  intro front hfront _ hproper target time hlink
  obtain ⟨directory, hdirectory, hkind⟩ := fits.wellFormed.directory_above hnode
    ((List.prefix_append_right_inj t.origin).2 hfront) (by simpa using hproper)
  rw [hlink] at hdirectory
  rw [← Option.some.inj hdirectory] at hkind
  cases hkind

/-- The names of a node of the tree may be followed where its copy was put. -/
theorem Fits.way_place {target : Path} {place : Lookup.Place} (fits : t.Fits fs)
    (hkept : Kept t.skip t.source names) (hnode : fs.get? (t.origin ++ names) = some node)
    (htarget : Behind t.base (t.front ++ names) target)
    (hlocate : Lookup.locate t.caller fs true target = .ok place) :
    Way t.caller fs t.spot (t.front ++ names) := by
  obtain ⟨base, hbase, -⟩ := fits.leads
  exact Lookup.way_of_locate htarget hbase (fits.noLinks_of_node hkept hnode) hlocate

/-- What is no link is copied to where the names of the copy say. -/
theorem Fits.location_eq {target : Path} {place : Lookup.Place} (fits : t.Fits fs)
    (hkept : Kept t.skip t.source names) (hnode : fs.get? (t.origin ++ names) = some node)
    (hkind : node.kind ≠ .link) (htarget : Behind t.base (t.front ++ names) target)
    (hlocate : Lookup.locate t.caller fs true target = .ok place) :
    place.location = t.place ++ names := by
  obtain ⟨base, hbase, -⟩ := fits.leads
  rw [Transfer.place, List.append_assoc]
  exact htarget.location_eq hbase (fits.noLinks_of_node hkept hnode) (fits.ne_link hkept hnode hkind) hlocate

/-- A file that has been copied has been visited. -/
theorem Fits.visited_of_copyEntry {source target : Path} (fits : t.Fits fs)
    (hkept : Kept t.skip t.source names) (hkind : node.kind = .file)
    (hfind : Lookup.find t.caller fs false source = .ok (t.origin ++ names, node))
    (hreached : Way t.caller fs t.origin names) (htarget : Behind t.base (t.front ++ names) target)
    (h : (copyEntry source target node).exec t.caller fs = (.ok (), fs')) :
    t.Visited fs' names node := by
  have hnode := Lookup.get?_of_find hfind
  have hfollow := Lookup.find_follow (by simp [hkind]) hfind
  cases node with
  | directory => cases hkind
  | link => cases hkind
  | file mode time content =>
      rw [copyEntry_file] at h
      obtain ⟨_, _, _, _, place, _, _, -, hlocate, -, puts, rfl⟩ := of_copyFile_ok fits.wellFormed h
      have hplace := fits.location_eq hkept hnode (by simp [Node.kind]) htarget hlocate
      have hway := fits.way_place hkept hnode htarget hlocate
      exact ⟨by simp [FileSystem.get?_set, hplace], mayRead_of_copyFile_ok hfollow h, hway.put puts,
        hreached.put puts⟩

/-- A directory whose copy has been created has been visited. -/
theorem Meets.visited_of_createDirectories {target : Path} (fits : t.Fits fs)
    (meets : t.Meets fs names node) (hkind : node.kind = .directory)
    (hmay : t.caller.may .read node = true) (hreached : Way t.caller fs t.origin names)
    (htarget : Behind t.base (t.front ++ names) target)
    (h : (createDirectories target).exec t.caller fs = (.ok (), fs')) : t.Visited fs' names node := by
  have hchanges := (meets.makes_createTarget fits hkind htarget).changes_of_exec h
  have fits' := fits.changes hchanges
  have hnode : fs'.get? (t.origin ++ names) = some node :=
    (get?_origin_of_changes hchanges meets.kept).trans meets.there
  have htext : target.text ≠ "" := by
    obtain ⟨base, hbase, -⟩ := fits.leads
    exact htarget.text_ne_empty (Lookup.of_checkText_ok (Lookup.find_eq_ok_iff.1 hbase).1).1
  obtain ⟨l, copy, hfind, -⟩ := find_of_createDirectories htext h
  have hlocate := Lookup.locate_of_find hfind
  have hl : l = t.place ++ names :=
    fits'.location_eq meets.kept hnode (by simp [hkind]) htarget hlocate
  exact ⟨by simp [← hl, Lookup.get?_of_find hfind], hmay, fits'.way_place meets.kept hnode htarget hlocate,
    hreached.changes (putting_of_changes hchanges)⟩

/-- The entry of a directory that is no directory has been visited once it has been copied. -/
theorem Meets.completed_of_leaf {deeper : Path → Storage Failure Nat} {entry : String × Node} {n : Nat}
    {top : Node} (fits : t.Fits fs)
    (hsource : Lookup.find t.caller fs true t.source = .ok (t.origin, top))
    (meets : t.Meets fs (names ++ [entry.1]) entry.2) (hkind : entry.2.kind ≠ .directory)
    (h : (copyMet t.skip t.source t.destination deeper (t.source.along names) entry).exec t.caller fs =
      (.ok n, fs')) : t.Completed fs' (names ++ [entry.1]) := by
  have hchanges : ReflTransGen t.Step fs fs' := by
    have hmakes : Makes t.Step t.caller fs (copyMet t.skip t.source t.destination deeper
        (t.source.along names) entry) fun _ _ => True :=
      meets.makes_copyMet fits fun hdirectory => absurd hdirectory hkind
    exact hmakes.changes_of_exec h
  have hskip : t.skip.any ((t.source.along names).join ⟨entry.1⟩).same = false := by
    rw [← Path.along_concat]
    exact meets.kept _ List.prefix_rfl
  have hnode := (get?_origin_of_changes hchanges meets.kept).trans meets.there
  refine .of_leaf (fits.changes hchanges).wellFormed hnode hkind fun hlink => ?_
  obtain ⟨-, target, l, found, hplace, hfind, hcopy⟩ := of_copyMet_ok hkind hskip h
  rw [← Path.along_concat] at hplace hfind hcopy
  obtain ⟨rfl, rfl⟩ := Prod.mk.inj (meets.leads _ hfind)
  have hnames := meets.isName fits.wellFormed
  rw [placeBelow_along t.named fits.destination_ne (by simp) hnames] at hplace
  obtain ⟨rfl, -⟩ := Run.ok_inj hplace
  have htarget := t.behind.trans (Lookup.behind_along fits.destination_ne hnames)
  have hfile : entry.2.kind = .file := by
    cases hentry : entry.2.kind <;> simp_all
  exact fits.visited_of_copyEntry meets.kept hfile hfind
    (fits.way_origin hsource (Lookup.find_follow hlink hfind)) htarget hcopy

/-- Where copying a directory succeeds, everything in it has been visited. -/
theorem Meets.completed_of_copyDirectory {steps n : Nat} {top : Node} (fits : t.Fits fs)
    (hsource : Lookup.find t.caller fs true t.source = .ok (t.origin, top))
    (meets : t.Meets fs names node) (hkind : node.kind = .directory)
    (hleads : ∀ r, Lookup.find t.caller fs true (t.source.along names) = .ok r →
      r = (t.origin ++ names, node))
    (hsteps : 0 < steps)
    (hsize : Lookup.maxPath < (t.source.along names).text.utf8ByteSize + steps)
    (h : (copyDirectoryBy FileSystem.children t.skip t.source t.destination steps
      (t.source.along names)).exec t.caller fs = (.ok n, fs')) : t.Completed fs' names := by
  induction steps generalizing fs fs' names node n with
  | zero => exact absurd hsteps (Nat.lt_irrefl 0)
  | succ steps ih =>
      have hkept := meets.kept
      have hskip : t.skip.any (t.source.along names).same = false := hkept names List.prefix_rfl
      obtain ⟨target, l, found, fs₁, hplace, hfind, -, hmay, hcreate, hlisted⟩ :=
        of_copyDirectoryBy_ok hskip h
      obtain ⟨rfl, rfl⟩ := Prod.mk.inj (hleads _ hfind)
      have hnames := meets.isName fits.wellFormed
      have htarget : Behind t.base (t.front ++ names) target := by
        have hbehind := (fits.makes_placeBelow hnames).result target (by rw [hplace])
        exact hbehind.2
      have hreached := fits.way_origin hsource hfind
      have hvisited := meets.visited_of_createDirectories fits hkind hmay hreached htarget hcreate
      have h₁ := (meets.makes_createTarget fits hkind htarget).changes_of_exec hcreate
      have fits₁ := fits.changes h₁
      have hfind₁ := find_of_changes h₁ (by simp [hkind]) hfind
      have hmakes (entry : String × Node) (hmem : entry ∈ fs₁.children (t.origin ++ names))
          (fs₂ : FileSystem) (h₂ : ReflTransGen t.Step fs₁ fs₂) :
          Makes t.Step t.caller fs₂ (copyMet t.skip t.source t.destination
            (copyDirectoryBy FileSystem.children t.skip t.source t.destination steps)
            (t.source.along names) entry) fun _ _ => True :=
        fits₁.makes_listed hkept hfind₁ hkind hmem
          (fun fits meets hkind => meets.makes_copyDirectory fits hkind) h₂
      rw [exec_copyListed] at hlisted
      have hafter := (Makes.countOver hmakes).changes_of_exec hlisted
      have hnode' := (get?_origin_of_changes (h₁.trans hafter) hkept).trans meets.there
      refine .of_entries (fits₁.changes hafter).wellFormed hnode' (hvisited.changes hafter)
        fun name entry hkeptName hentry => ?_
      -- the entry was there already when the directory was listed, and it was copied in its turn
      have hbefore : fs₁.get? (t.origin ++ names ++ [name]) = some entry := by
        rw [List.append_assoc] at hentry ⊢
        exact (get?_origin_of_changes hafter hkeptName).symm.trans hentry
      have hmem := FileSystem.mem_children.2 hbefore
      obtain ⟨fs₂, m, fs₃, h₂, hrun, h₃⟩ := exists_exec_of_countOver_ok hmakes hlisted _ hmem
      refine Completed.changes ?_ h₃
      have hskipName : t.skip.any ((t.source.along names).join ⟨name⟩).same = false := by
        rw [← Path.along_concat]
        exact hkeptName _ List.prefix_rfl
      have fits₂ := fits₁.changes h₂
      have meets₂ := fits₁.meets_listed hkept hfind₁ hkind hmem hskipName h₂
      have hsource₂ : Lookup.find t.caller fs₂ true t.source = .ok (t.origin, top) := by
        rw [← List.append_nil t.origin] at hsource ⊢
        exact find_origin_of_changes (h₁.trans h₂) (hkept.front List.nil_prefix) hsource
      by_cases hentryKind : entry.kind = .directory
      · rw [copyMet_directory hentryKind, ← Path.along_concat] at hrun
        have hfind₂ := find_of_changes h₂ (by simp [hkind]) hfind₁
        have hname : Path.IsName name := meets₂.isName fits₂.wellFormed name (by simp)
        have hsmall := (Lookup.of_checkText_ok (Lookup.find_eq_ok_iff.1 hfind).1).2
        have hlonger := Path.size_lt_join (p := t.source.along names) hname
        rw [← Path.along_concat] at hlonger
        refine ih fits₂ hsource₂ meets₂ hentryKind (fun r hr => ?_) (by omega) (by omega) hrun
        rw [Path.along_concat] at hr
        have hthere := meets₂.there
        rw [← List.append_assoc] at hthere ⊢
        exact Lookup.eq_of_find_join hfind₂ hname hthere (.inr (by simp [hentryKind])) hr
      · exact meets₂.completed_of_leaf fits₂ hsource₂ hentryKind hrun

/-- Where copying the tree succeeds, everything in it has been visited. -/
theorem Fits.completed_of_copyTree {n : Nat} {top : Node} (fits : t.Fits fs)
    (hkept : Kept t.skip t.source [])
    (hsource : Lookup.find t.caller fs false t.source = .ok (t.origin, top))
    (h : (copyTree t.skip t.source t.destination).exec t.caller fs = (.ok n, fs')) :
    t.Completed fs' [] := by
  have hchanges := (fits.makes_copyTree hkept hsource).changes_of_exec h
  have hfind : Lookup.find t.caller fs false t.source = .ok (t.origin ++ [], top) := by
    rwa [List.append_nil]
  rw [← copyTreeBy_children] at h
  by_cases hkind : top.kind = .directory
  · have hfollow := Lookup.find_follow (by simp [hkind]) hsource
    have meets : t.Meets fs [] top :=
      ⟨hkept, Lookup.get?_of_find hfind, fun r hr => Except.ok.inj (hr.symm.trans hfind)⟩
    have hnonempty : t.source.text.utf8ByteSize ≠ 0 := fun hzero =>
      t.named (String.utf8ByteSize_eq_zero_iff.1 hzero)
    rw [exec_copyTreeBy_directory hsource hkind] at h
    refine meets.completed_of_copyDirectory fits hfollow hkind (fun r hr => ?_) (by decide) ?_ h
    · rw [List.append_nil]
      exact Except.ok.inj (hr.symm.trans hfollow)
    · rw [Path.along, List.foldl_nil]
      omega
  · rw [exec_copyTreeBy_leaf hsource hkind] at h
    obtain ⟨_, after, hcopy, h⟩ := of_exec_bind_ok h
    obtain ⟨rfl, rfl⟩ := Run.ok_inj h
    obtain ⟨opened, hopened, hcopy⟩ := exists_opened_of_copy (of_exec_mapError_ok hcopy)
    have h₁ : ReflTransGen t.Step fs opened := by
      rcases hopened with rfl | ⟨above, hparent, habove⟩
      · exact .refl
      · exact (fits.makes_createAbove hparent).changes_of_exec habove
    have hnode := (get?_origin_of_changes hchanges hkept).trans (Lookup.get?_of_find hfind)
    refine .of_leaf (fits.changes hchanges).wellFormed hnode hkind fun hlink => ?_
    have hfile : top.kind = .file := by
      cases htop : top.kind <;> simp_all
    exact (fits.changes h₁).visited_of_copyEntry hkept hfile (find_origin_of_changes h₁ hkept hfind)
      Lookup.way_nil (by simpa using t.behind) hcopy

/-! ## Copying once more -/

/-- The copy of a node is there and may be written over: the node is a directory or a file that the
caller may write to, and neither its path nor that of its copy is too long. -/
structure Settled (t : Transfer) (fs : FileSystem) (names : Location) (node : Node) : Prop where
  visited : t.Visited fs names node
  kind : node.kind ≠ .link
  copied : ∀ copy, fs.get? (t.place ++ names) = some copy →
    copy.kind = node.kind ∧ (node.kind = .file → copy = node.copied t.caller)
  mayWrite : node.kind = .file → t.caller.may .write node = true
  text : Lookup.checkText (t.source.along names).text = .ok ()
  textThere : Lookup.checkText (t.destination.join ⟨Path.slashed names⟩).text = .ok ()

variable {name : String}

/-- A node that is settled has a copy of its kind, and that of a file is the one that this caller
makes. -/
theorem Settled.exists_copy (h : t.Settled fs names node) : ∃ copy,
    fs.get? (t.place ++ names) = some copy ∧ copy.kind = node.kind ∧
      (node.kind = .file → copy = node.copied t.caller) := by
  obtain ⟨copy, hcopy⟩ := Option.isSome_iff_exists.1 h.visited.there
  exact ⟨copy, hcopy, h.copied copy hcopy⟩

/-- An entry of the tree is found in a directory that is found. -/
theorem Settled.find_source {directory : Node} (h : t.Settled fs (names ++ [name]) node)
    (hnode : fs.get? (t.origin ++ (names ++ [name])) = some node) (hname : Path.IsName name)
    (hdirectory : Lookup.find t.caller fs true (t.source.along names) = .ok (t.origin ++ names, directory)) :
    Lookup.find t.caller fs false (t.source.along (names ++ [name])) =
      .ok (t.origin ++ (names ++ [name]), node) := by
  obtain ⟨henter, hsize⟩ := h.visited.reached names name List.prefix_rfl
  have htext := h.text
  rw [Path.along_concat] at htext ⊢
  have hcheck : Lookup.checkEntry t.caller fs (t.origin ++ names) (t.source.along names) name =
      .ok () := by
    simp [Lookup.checkEntry, htext, henter, hsize, bind, Except.bind, pure, Except.pure]
  rw [← List.append_assoc] at hnode ⊢
  rw [Lookup.find_entry hdirectory hname hcheck, hnode]

/-- The copy of an entry is found in the copy of its directory. -/
theorem Settled.find_copy {directory : Node} (h : t.Settled fs (names ++ [name]) node)
    (hdestination : t.destination.text ≠ "") (hnames : ∀ name' ∈ names ++ [name], Path.IsName name')
    (hdirectory : Lookup.find t.caller fs true (t.destination.along names) =
      .ok (t.place ++ names, directory)) :
    ∃ copy, Lookup.find t.caller fs true (t.destination.along (names ++ [name])) =
        .ok (t.place ++ (names ++ [name]), copy) ∧ copy.kind = node.kind ∧
      (node.kind = .file → copy = node.copied t.caller) := by
  obtain ⟨copy, hcopy, hkind, hcopied⟩ := h.exists_copy
  obtain ⟨henter, hsize⟩ := h.visited.way (t.front ++ names) name (by simp)
  have htext := h.textThere
  rw [Path.join_slashed hdestination (by simp) hnames, Path.along_concat] at htext
  rw [Path.along_concat]
  have hcheck : Lookup.checkEntry t.caller fs (t.place ++ names) (t.destination.along names) name =
      .ok () := by
    rw [place, List.append_assoc]
    simp [Lookup.checkEntry, htext, henter, hsize, bind, Except.bind, pure, Except.pure]
  rw [← List.append_assoc] at hcopy ⊢
  refine ⟨copy, Lookup.find_follow (by rw [hkind]; exact h.kind) ?_, hkind, hcopied⟩
  rw [Lookup.find_entry hdirectory (hnames name (by simp)) hcheck, hcopy]

/-- The copy of something that is kept has another place. -/
theorem place_ne_origin (hkept : Kept t.skip t.source names) :
    t.place ++ names ≠ t.origin ++ names := by
  intro heq
  refine t.apart names hkept (heq ▸ ?_)
  rw [place, List.append_assoc]
  exact List.prefix_append _ _

/-- Copying a file of the tree once more. -/
theorem Settled.exec_copyEntry {source target : Path} (h : t.Settled fs names node)
    (hkept : Kept t.skip t.source names) (hkind : node.kind ≠ .directory)
    (hsource : Lookup.find t.caller fs false source = .ok (t.origin ++ names, node)) {copy : Node}
    (hthere : Lookup.find t.caller fs true target = .ok (t.place ++ names, copy)) :
    (copyEntry source target node).exec t.caller fs = (.ok (), fs) := by
  have hcopied := (h.copied copy (Lookup.get?_of_find hthere)).2
  have hlink := h.kind
  cases node with
  | directory => exact absurd rfl hkind
  | link => exact absurd rfl hlink
  | file mode time content =>
      rw [hcopied rfl] at hthere
      exact exec_copyFile_again (Lookup.find_follow (by simp [Node.kind]) hsource) h.visited.mayRead
        hthere (place_ne_origin hkept) (h.mayWrite rfl)

/-- Copying a directory of the tree once more changes nothing. -/
theorem exists_exec_copyDirectory_again {steps : Nat} {directory : Node} (wf : fs.WellFormed)
    (hdestination : t.destination.text ≠ "")
    (hsettled : ∀ names node, Kept t.skip t.source names → fs.get? (t.origin ++ names) = some node →
      t.Settled fs names node)
    (hkept : Kept t.skip t.source names) (hkind : directory.kind = .directory)
    (hsource : Lookup.find t.caller fs false (t.source.along names) = .ok (t.origin ++ names, directory))
    (hthere : ∃ copy, Lookup.find t.caller fs true (t.destination.along names) =
      .ok (t.place ++ names, copy) ∧ copy.kind = .directory) :
    ∃ n, (copyDirectoryBy FileSystem.children t.skip t.source t.destination steps
      (t.source.along names)).exec t.caller fs = (.ok n, fs) := by
  -- on the depth; nothing changes, so that each entry is copied in the same state
  induction steps generalizing names directory with
  | zero => exact ⟨0, rfl⟩
  | succ steps ih =>
      have hnode := Lookup.get?_of_find hsource
      have settled := hsettled names directory hkept hnode
      have hnames : ∀ name ∈ names, Path.IsName name := fun name hname =>
        wf.isName _ directory hnode name (List.mem_append_right _ hname)
      obtain ⟨copy, hcopy, hcopyKind⟩ := hthere
      have hfollow := Lookup.find_follow (by simp [hkind]) hsource
      obtain ⟨target, hplace, htarget⟩ : ∃ target,
          placeBelow t.source t.destination (t.source.along names) = pure target ∧
          Lookup.find t.caller fs true target = .ok (t.place ++ names, copy) := by
        -- the place of the top is spelled with a slash at its end
        by_cases hne : names = []
        · subst hne
          exact ⟨_, placeBelow_self t.named, Lookup.find_slash hcopyKind settled.textThere hcopy⟩
        · exact ⟨_, placeBelow_along t.named hdestination hne hnames, hcopy⟩
      rw [exec_copyDirectoryBy (hkept names List.prefix_rfl) hplace hsource hkind
        settled.visited.mayRead (exec_createDirectories_of_find htarget hcopyKind), exec_copyListed]
      refine exists_exec_countOver fun entry hmem => ?_
      have hentry : fs.get? (t.origin ++ (names ++ [entry.1])) = some entry.2 := by
        rw [← List.append_assoc]
        exact FileSystem.mem_children.1 hmem
      cases hskip : t.skip.any ((t.source.along names).join ⟨entry.1⟩).same with
      | true => exact ⟨0, exec_copyMet_of_skip hskip⟩
      | false =>
          have hkeptName := kept_concat hkept (by rwa [Path.along_concat])
          have settledName := hsettled _ _ hkeptName hentry
          have hnamesName : ∀ name ∈ names ++ [entry.1], Path.IsName name := fun name hname =>
            wf.isName _ entry.2 hentry name (List.mem_append_right _ hname)
          have hfind := settledName.find_source hentry (hnamesName entry.1 (by simp)) hfollow
          obtain ⟨copyName, hfindCopy, hcopyNameKind, -⟩ :=
            settledName.find_copy hdestination hnamesName hcopy
          by_cases hentryKind : entry.2.kind = .directory
          · rw [copyMet_directory hentryKind, ← Path.along_concat]
            exact ih hkeptName hentryKind hfind ⟨copyName, hfindCopy, hcopyNameKind.trans hentryKind⟩
          · have hplaceName := placeBelow_along t.named hdestination (by simp) hnamesName
            have hexec := settledName.exec_copyEntry hkeptName hentryKind hfind hfindCopy
            rw [Path.along_concat t.source] at hplaceName hfind hexec
            exact ⟨1, exec_copyMet hentryKind hskip hplaceName hfind hexec⟩

/-- Copying the tree once more changes nothing, when its place and the directory that holds it are
found. -/
theorem exists_exec_copyTree_again {top : Node} (wf : fs.WellFormed)
    (hdestination : t.destination.text ≠ "") (hkept : Kept t.skip t.source [])
    (hsettled : ∀ names node, Kept t.skip t.source names → fs.get? (t.origin ++ names) = some node →
      t.Settled fs names node)
    (hsource : Lookup.find t.caller fs false t.source = .ok (t.origin, top))
    (hthere : ∃ copy, Lookup.find t.caller fs true t.destination = .ok (t.place, copy) ∧
      copy.kind = top.kind)
    (habove : top.kind ≠ .directory → ∀ above, t.destination.parent? = some above →
      ∃ l node, Lookup.find t.caller fs true above = .ok (l, node) ∧ node.kind = .directory) :
    ∃ n, (copyTree t.skip t.source t.destination).exec t.caller fs = (.ok n, fs) := by
  have hnil (l : Location) : l ++ [] = l := List.append_nil l
  rw [← copyTreeBy_children]
  by_cases hkind : top.kind = .directory
  · rw [exec_copyTreeBy_directory hsource hkind]
    have hagain : ∃ n, (copyDirectoryBy FileSystem.children t.skip t.source t.destination
        Lookup.maxPath (t.source.along [])).exec t.caller fs = (.ok n, fs) :=
      exists_exec_copyDirectory_again wf hdestination hsettled hkept hkind (by rwa [hnil])
        (by rwa [hnil, ← hkind])
    exact hagain
  · rw [exec_copyTreeBy_leaf hsource hkind, copyLeaf]
    obtain ⟨copy, hcopy, -⟩ := hthere
    rw [← hnil t.origin] at hsource
    rw [← hnil t.place] at hcopy
    have settled := hsettled [] top hkept (Lookup.get?_of_find hsource)
    have hexec := settled.exec_copyEntry hkept hkind hsource hcopy
    refine ⟨1, ?_⟩
    cases hparent : t.destination.parent? with
    | none => simp only [exec_bind, mapError, exec_ofExec, hexec]; rfl
    | some above =>
        obtain ⟨l, node, hfind, hdirectory⟩ := habove hkind above hparent
        have hcreate := exec_createDirectories_of_find hfind hdirectory
        simp only [exec_bind, mapError, exec_ofExec, hcreate, hexec]
        rfl

end Transfer

end Storage

end RpmRelease
